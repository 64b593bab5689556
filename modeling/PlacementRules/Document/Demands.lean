import PlacementRules.Document.AudioClip

/-!
# What a scenario document must meet

The outer shape of a scenario document as a list of demands, in the order in which they
are made.  Each comes with the error of a document that does not meet it.  Nothing is
demanded of what stands inside a check.
-/

namespace PlacementRules

/-- Something that a document must meet, and the error if it does not. -/
structure Demand where
  met : Prop
  error : LoadError

/-- The error is that of the first demand that is not met. -/
inductive FirstFault : (demands : List Demand) → (error : LoadError) → Prop where
  | here {demand : Demand} {more : List Demand} (hfault : ¬ demand.met) :
      FirstFault (demand :: more) demand.error
  | later {demand : Demand} {more : List Demand} {error : LoadError}
      (hmet : demand.met) (hmore : FirstFault more error) :
      FirstFault (demand :: more) error

namespace Demand

/-! ## Kinds of values -/

def IsObject (value : Json) : Prop :=
  ∃ members, value = .object members

/-- The member is missing or `null`. -/
def IsAbsent (member : Option Json) : Prop :=
  member = none ∨ member = some .null

def IsArray (member : Option Json) : Prop :=
  ∃ items, member = some (.array items)

def IsText (member : Option Json) : Prop :=
  ∃ text, member = some (.string text)

def IsFlag (member : Option Json) : Prop :=
  ∃ flag, member = some (.bool flag)

def IsNumber (member : Option Json) : Prop :=
  ∃ numeral, member = some (.number numeral)

/-! ## Audio -/

structure IsTrimmed (text name : List Char) : Prop where
  between : ∃ front back, text = front ++ name ++ back ∧
    ∀ c ∈ front ++ back, AudioClip.isWhiteSpace c = true
  first : ∀ c, name.head? = some c → AudioClip.isWhiteSpace c = false
  last : ∀ c, name.getLast? = some c → AudioClip.isWhiteSpace c = false

def IsClipPath (path : String) : Prop :=
  ∃ name, IsTrimmed path.toList name ∧
    (".mp3".toList <:+ name.map Char.toLower ∨ ".wav".toList <:+ name.map Char.toLower)

def IsGoodClip (member : Option Json) : Prop :=
  IsAbsent member ∨ ∃ path, member = some (.string path) ∧ IsClipPath path

def clipPair (field : String) : Option Json → List Demand
  | none => []
  | some pair =>
      [⟨IsObject pair, .wrongType field .object⟩,
        ⟨IsGoodClip (pair.get? "pass"), .audioClip (field ++ ".pass")⟩,
        ⟨IsGoodClip (pair.get? "fail"), .audioClip (field ++ ".fail")⟩]

/-- The audio section counts as present even if it is `null`. -/
def audio : Option Json → List Demand
  | none => []
  | some manifest =>
      List.flatten
        [[⟨IsObject manifest, .wrongType "audio" .object⟩],
          [⟨IsGoodClip (manifest.get? "placement"), .audioClip "audio.placement"⟩],
          clipPair "audio.aims" (manifest.get? "aims"),
          clipPair "audio.rulesets" (manifest.get? "rulesets")]

/-! ## Rulesets and rules -/

def ruleset (index : Nat) (value : Json) : List Demand :=
  let correct := value.get? "correct"
  let id := value.get? "id"
  let text := value.get? "text"
  [⟨IsObject value, .rulesetNotAnObject index⟩,
    ⟨IsAbsent correct ∨ IsFlag correct ∨ IsText correct ∨ IsNumber correct,
      .rulesetField index .correct⟩,
    ⟨IsAbsent id ∨ IsText id, .rulesetField index .id⟩,
    ⟨IsAbsent text ∨ IsText text, .rulesetField index .text⟩]

def rulesetsFrom (index : Nat) (values : List Json) : List Demand :=
  (values.zipIdx index).flatMap fun entry => ruleset entry.2 entry.1

def rulesets (document : Json) : List Demand :=
  let member := document.get? "rulesets"
  ⟨IsAbsent member ∨ IsArray member, .wrongType "rulesets" .array⟩ ::
    rulesetsFrom 0 (document.getItems "rulesets")

def rules (value : Json) : List Demand :=
  let checks := value.get? "checks"
  [⟨IsObject value, .wrongType "rules" .object⟩,
    ⟨IsAbsent checks ∨ IsArray checks, .wrongType "rules.checks" .array⟩]

/-! ## The document -/

def present (document : Json) (field : String) : Demand :=
  ⟨¬ IsAbsent (document.get? field), .missingField field⟩

def array (document : Json) (field : String) : Demand :=
  ⟨IsArray (document.get? field), .wrongType field .array⟩

/-- All that is demanded of a scenario document, in order. -/
def ofDocument (document : Json) : List Demand :=
  List.flatten
    [[⟨IsObject document, .notAnObject⟩],
      ["stage", "devicePool", "anchors", "aims", "rules"].map (present document),
      [array document "anchors"],
      [array document "aims"],
      audio (document.get? "audio"),
      rulesets document,
      rules ((document.get? "rules").getD .null)]

/-- The rules of the document hold an array of checks with these entries. -/
def HasChecks (document : Json) (entries : List Json) : Prop :=
  ∃ members, document.get? "rules" = some (.object members) ∧
    (Json.object members).get? "checks" = some (.array entries)

/-- The documents have the same members, apart from rules with any entries as checks. -/
structure SameButChecks (first second : Json) : Prop where
  elsewhere : ∀ name, name ≠ "rules" → first.get? name = second.get? name
  checks : ∃ entries others, HasChecks first entries ∧ HasChecks second others

end Demand

end PlacementRules
