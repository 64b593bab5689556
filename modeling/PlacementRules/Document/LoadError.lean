/-!
# Errors of loading a scenario

What can be wrong with the outer shape of a scenario document.  Nothing inside a
check is ever wrong.
-/

namespace PlacementRules

inductive Container where
  | array
  | object
deriving DecidableEq, Repr, Inhabited

def Container.text : Container → String
  | array => "an array"
  | object => "an object"

inductive RulesetField where
  | id
  | text
  | correct
deriving DecidableEq, Repr, Inhabited

namespace RulesetField

def name : RulesetField → String
  | id => "id"
  | text => "text"
  | correct => "correct"

def expected : RulesetField → String
  | id | text => "a string"
  | correct => "a boolean, string or number"

end RulesetField

/-- Why a document is no scenario. -/
inductive LoadError where
  | notAnObject
  | missingField (field : String)
  | wrongType (field : String) (expected : Container)
  | rulesetNotAnObject (index : Nat)
  | rulesetField (index : Nat) (field : RulesetField)
  | audioClip (field : String)
deriving DecidableEq, Repr, Inhabited

def LoadError.message : LoadError → String
  | notAnObject => "scenario document must be a JSON object"
  | missingField field => "scenario is missing required field '" ++ field ++ "'"
  | wrongType field expected => "field '" ++ field ++ "' must be " ++ expected.text
  | rulesetNotAnObject index => "rulesets[" ++ toString index ++ "] must be an object"
  | rulesetField index field =>
      "rulesets[" ++ toString index ++ "]." ++ field.name ++ " must be " ++ field.expected
  | audioClip field =>
      "audio clip '" ++ field ++ "' must be null or a .mp3 or .wav path"

end PlacementRules
