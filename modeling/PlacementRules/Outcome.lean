/-!
# Outcomes

The verdict of each aim, in the order in which the aims first came up.  An aim
that comes up again keeps its place and takes the later verdict.
-/

namespace PlacementRules

/-- Verdicts by aim, each aim once. -/
structure Outcome where
  entries : List (String × Bool) := []
deriving DecidableEq, Repr, Inhabited

namespace Outcome

/-- Set the verdict of an aim, in its place if it has one and at the end if not. -/
def insertEntry (aim : String) (passed : Bool) :
    List (String × Bool) → List (String × Bool)
  | [] => [(aim, passed)]
  | (id, verdict) :: more =>
      if id = aim then (id, passed) :: more
      else (id, verdict) :: insertEntry aim passed more

def insert (outcome : Outcome) (aim : String) (passed : Bool) : Outcome :=
  ⟨insertEntry aim passed outcome.entries⟩

def ofVerdicts (verdicts : List (String × Bool)) : Outcome :=
  verdicts.foldl (fun outcome verdict => outcome.insert verdict.1 verdict.2) {}

def get? (outcome : Outcome) (aim : String) : Option Bool :=
  outcome.entries.lookup aim

def aims (outcome : Outcome) : List String :=
  outcome.entries.map Prod.fst

def size (outcome : Outcome) : Nat :=
  outcome.entries.length

/-- Every aim passed.  This is so of the outcome without aims. -/
def passedAll (outcome : Outcome) : Bool :=
  outcome.entries.all Prod.snd

/-- The aims that did not pass, in order. -/
def failed (outcome : Outcome) : List String :=
  (outcome.entries.filter fun entry => !entry.2).map Prod.fst

def verdictText (passed : Bool) : String :=
  if passed then "PASS" else "FAIL"

def text (outcome : Outcome) : String :=
  "\n".intercalate <|
    outcome.entries.map fun entry => entry.1 ++ ": " ++ verdictText entry.2

theorem lookup_cons_entry (aim id : String) (verdict : Bool)
    (entries : List (String × Bool)) :
    ((id, verdict) :: entries).lookup aim =
      if aim = id then some verdict else entries.lookup aim := by
  rw [List.lookup_cons]
  cases haim : aim == id with
  | true => simp [beq_iff_eq.mp haim]
  | false => simp [beq_eq_false_iff_ne.mp haim]

theorem lookup_insertEntry (aim other : String) (passed : Bool)
    (entries : List (String × Bool)) :
    (insertEntry aim passed entries).lookup other =
      if other = aim then some passed else entries.lookup other := by
  induction entries with
  | nil => simp [insertEntry, lookup_cons_entry]
  | cons entry more ih =>
      obtain ⟨id, verdict⟩ := entry
      unfold insertEntry
      by_cases hid : id = aim
      · rw [if_pos hid, lookup_cons_entry, lookup_cons_entry, hid]
        split <;> rfl
      · rw [if_neg hid, lookup_cons_entry, lookup_cons_entry, ih]
        by_cases hother : other = id <;> simp [hid, hother]

@[simp] theorem get?_insert (outcome : Outcome) (aim other : String) (passed : Bool) :
    (outcome.insert aim passed).get? other =
      if other = aim then some passed else outcome.get? other :=
  lookup_insertEntry aim other passed outcome.entries

end Outcome

end PlacementRules
