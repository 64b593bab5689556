import PlacementRules.Check

/-!
# Compiled conditions

The condition of a check, normalised once so that it can be decided again and
again: the storage format, the depth limit and incomplete clauses are all
settled when the condition is built.
-/

namespace PlacementRules

/-- A condition on placements that refers to no storage format and no limit. -/
inductive Condition where
  | const (verdict : Bool)
  | placed (clause : Clause)
  | all (members : List Condition)
  | any (members : List Condition)
  | sequence (seed : Condition) (links : List (Operator × Condition))
deriving Repr, Inhabited

namespace Condition

mutual

def holds (placements : List Placement) : Condition → Bool
  | .const verdict => verdict
  | .placed clause => clause.isPlaced placements
  | .all members => allHold placements members
  | .any members => anyHolds placements members
  | .sequence seed links => foldLinks placements (seed.holds placements) links

def allHold (placements : List Placement) : List Condition → Bool
  | [] => true
  | condition :: more => condition.holds placements && allHold placements more

def anyHolds (placements : List Placement) : List Condition → Bool
  | [] => false
  | condition :: more => condition.holds placements || anyHolds placements more

/-- Combine a verdict with each link in turn, by the link's own operator. -/
def foldLinks (placements : List Placement) (verdict : Bool) :
    List (Operator × Condition) → Bool
  | [] => verdict
  | (operator, condition) :: more =>
      foldLinks placements
        (operator.combine verdict (condition.holds placements)) more

end

theorem allHold_eq_all (placements : List Placement) (conditions : List Condition) :
    allHold placements conditions = conditions.all (holds placements) := by
  induction conditions with
  | nil => rfl
  | cons condition more ih => simp [allHold, ih]

theorem anyHolds_eq_any (placements : List Placement) (conditions : List Condition) :
    anyHolds placements conditions = conditions.any (holds placements) := by
  induction conditions with
  | nil => rfl
  | cons condition more ih => simp [anyHolds, ih]

/-- The condition of one clause.  A clause with a missing id can never hold. -/
def ofClause (clause : Clause) : Condition :=
  if clause.isComplete then .placed clause else .const false

@[simp] theorem holds_ofClause (placements : List Placement) (clause : Clause) :
    (ofClause clause).holds placements = clause.isPlaced placements := by
  unfold ofClause
  split
  · rfl
  · simp_all [holds, Clause.isPlaced_of_not_isComplete]

def ofLegacy (first : LegacyStep) (more : Legacy) : Condition :=
  .sequence (ofClause first.clause)
    (more.map fun step => (step.joiner, ofClause step.clause))

mutual

/--
The condition of a tree whose root stands at the given depth.  A group deeper
than the limit can never hold, and an empty group within the limit always does.
-/
def ofNode (limit depth : Nat) : Node → Condition
  | .clause clause => ofClause clause
  | .group operator members =>
      if limit < depth then .const false
      else
        match members, operator with
        | [], _ => .const true
        | first :: more, .and => .all (ofMembers limit depth (first :: more))
        | first :: more, .or => .any (ofMembers limit depth (first :: more))
  | .unknown => .const false

def ofMembers (limit depth : Nat) : List Node → List Condition
  | [] => []
  | node :: more =>
      ofNode limit (if node.isGroup then depth + 1 else depth) node ::
        ofMembers limit depth more

end

def ofRequired (clauses : List Clause) : Condition :=
  if clauses.isEmpty then .const true else .all (clauses.map ofClause)

/-- The condition of a check, groups deeper than the limit failing closed. -/
def ofCheck (limit : Nat) (check : Check) : Condition :=
  match check.source with
  | .legacy first more => ofLegacy first more
  | .tree root => ofNode limit 0 root
  | .required clauses => ofRequired clauses

end Condition

end PlacementRules
