import PlacementRules.Node

/-!
# Clause sequences

The flat format that came before rule trees: clauses in a row, each combined
with everything before it.  `Legacy.toNode?` writes such a sequence as a tree
that nests only where the operator changes.
-/

namespace PlacementRules

/-- One clause of a sequence and how it combines with what stands before it. -/
structure LegacyStep where
  operator : Option Operator := none
  clause : Clause := {}
deriving DecidableEq, Repr, Inhabited

/-- The operator of the step; a missing one means `and`. -/
def LegacyStep.joiner (step : LegacyStep) : Operator :=
  step.operator.getD .and

/--
The verdict after a further step, from the verdict before it.  A step without an
operator counts as `and`.
-/
def LegacyStep.extend (placements : List Placement) (verdict : Bool)
    (step : LegacyStep) : Bool :=
  match step.operator with
  | some .or => verdict || step.clause.holds placements
  | some .and | none => verdict && step.clause.holds placements

theorem LegacyStep.extend_eq_combine (placements : List Placement) (verdict : Bool)
    (step : LegacyStep) :
    step.extend placements verdict =
      step.joiner.combine verdict (step.clause.holds placements) := by
  obtain ⟨_ | _ | _, clause⟩ := step <;> rfl

abbrev Legacy := List LegacyStep

namespace Legacy

/--
The verdict of a sequence, read from left to right: the first clause starts it,
whatever its operator, and each later clause combines with it by its own
operator.  A sequence without clauses holds.
-/
def holds (placements : List Placement) : Legacy → Bool
  | [] => true
  | first :: more =>
      more.foldl (LegacyStep.extend placements) (first.clause.holds placements)

def toNode? : Legacy → Option Node
  | [] => none
  | first :: more =>
      some <| more.foldl
        (fun tree step => tree.append step.joiner (.clause step.clause))
        (.clause first.clause)

end Legacy

end PlacementRules
