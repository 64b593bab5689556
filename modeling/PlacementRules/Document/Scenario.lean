import PlacementRules.Document.AudioClip
import PlacementRules.Document.Rules
import PlacementRules.Json.Written
import PlacementRules.Scenario

/-!
# Scenarios in documents

A scenario document is tested from its root inwards, and the first test that
fails is the error.  Aims and anchors without an id are left out.
-/

namespace PlacementRules

namespace Aim

def ofJson? (value : Json) : Option Aim :=
  (value.getString? "id").map fun id => ⟨id, value.getText "text"⟩

end Aim

namespace Anchor

/-- The number member of a name, and zero if there is none. -/
def coordinate (name : String) (value : Json) : Float :=
  ((value.get? name).bind Json.float?).getD 0.0

def ofJson? (value : Json) : Option Anchor :=
  (value.getString? "id").map fun id =>
    ⟨id, coordinate "x" value, coordinate "y" value⟩

end Anchor

namespace Ruleset

def stringField (index : Nat) (field : RulesetField) (value : Json) :
    Except LoadError (Option String) :=
  match value.get? field.name with
  | none | some .null => .ok none
  | some (.string text) => .ok (some text)
  | some _ => .error (.rulesetField index field)

def answerField (index : Nat) (value : Json) : Except LoadError (Option Answer) :=
  match value.get? RulesetField.correct.name with
  | none | some .null => .ok none
  | some (.bool flag) => .ok (some (.flag flag))
  | some (.string text) => .ok (some (.text text))
  | some (.number numeral) => .ok (some (.number (numeral.toFloat?.getD 0.0)))
  | some _ => .error (.rulesetField index .correct)

def ofJson (index : Nat) (value : Json) : Except LoadError Ruleset :=
  if value.isObject then do
    let correct ← answerField index value
    let id ← stringField index .id value
    let text ← stringField index .text value
    return ⟨id, text, correct⟩
  else .error (.rulesetNotAnObject index)

/-- The rulesets that JSON values hold, counted from `index` on. -/
def listOfJson (index : Nat) : List Json → Except LoadError (List Ruleset)
  | [] => .ok []
  | value :: more => do
      let first ← ofJson index value
      let others ← listOfJson (index + 1) more
      return first :: others

end Ruleset

namespace Scenario

def requireRoot (document : Json) : Except LoadError Unit :=
  if document.isObject then .ok () else .error .notAnObject

def requiredFields : List String :=
  ["stage", "devicePool", "anchors", "aims", "rules"]

/-- Demand that fields are present, in order. -/
def requireFields (document : Json) : List String → Except LoadError Unit
  | [] => .ok ()
  | field :: more =>
      match document.getPresent? field with
      | none => .error (.missingField field)
      | some _ => requireFields document more

def requireArray (document : Json) (field : String) : Except LoadError (List Json) :=
  match document.get? field with
  | some (.array items) => .ok items
  | _ => .error (.wrongType field .array)

/-- The rulesets of a document, none if the field is missing or `null`. -/
def rulesetsOfJson (document : Json) : Except LoadError (List Ruleset) :=
  match document.get? "rulesets" with
  | none | some .null => .ok []
  | some (.array items) => Ruleset.listOfJson 0 items
  | some _ => .error (.wrongType "rulesets" .array)

def titleOfJson? (document : Json) : Option String :=
  (document.get? "meta").bind (Json.getString? "title")

def allowedDevicesOfJson (document : Json) : List String :=
  match document.get? "devicePool" with
  | some pool => (pool.getItems "allowedDeviceIds").filterMap Json.string?
  | none => []

/-- The scenario that a document holds, or the first fault of its outer shape. -/
def ofJson (document : Json) : Except LoadError Scenario := do
  requireRoot document
  requireFields document requiredFields
  let anchors ← requireArray document "anchors"
  let aims ← requireArray document "aims"
  AudioClip.requireManifest (document.get? "audio")
  let rulesets ← rulesetsOfJson document
  let rules ← Rules.ofJson ((document.get? "rules").getD .null)
  return {
    title := titleOfJson? document
    aims := aims.filterMap Aim.ofJson?
    anchors := anchors.filterMap Anchor.ofJson?
    allowedDevices := allowedDevicesOfJson document
    rulesets := rulesets
    rules := rules }

end Scenario

inductive DocumentError where
  | notJson (reason : String)
  | load (error : LoadError)
deriving DecidableEq, Repr, Inhabited

def DocumentError.message : DocumentError → String
  | notJson reason => "invalid JSON: " ++ reason
  | load error => error.message

/-- The scenario that a text holds; `fault` tells why a text is no JSON. -/
def Scenario.ofText (fault : String → String) (text : String) :
    Except DocumentError Scenario :=
  match Json.ofText? text with
  | none => .error (.notJson (fault text))
  | some document => (Scenario.ofJson document).mapError .load

end PlacementRules
