import Mathlib.Data.List.Forall2
import PlacementRules.Proofs.Compilation

/-!
# Rules that differ where it does not matter

The operator of a group with fewer than two members has nothing to combine, and
neither has that of the first clause of a sequence.  Expressions that differ in nothing
else overflow alike, mean the same, and are printed alike.
-/

namespace PlacementRules

/-! ## Resemblance -/

/-- The trees differ at most in the operators of groups with fewer than two members. -/
inductive Node.Resembles : (node other : Node) → Prop where
  | clause (leaf : Clause) : Resembles (.clause leaf) (.clause leaf)
  | group {operator inner : Operator} {members others : List Node}
      (hoperator : 2 ≤ members.length → operator = inner)
      (hmembers : List.Forall₂ Resembles members others) :
      Resembles (.group operator members) (.group inner others)
  | unknown : Resembles .unknown .unknown

/-- The steps have one clause, and an operator left out counts as `and`. -/
structure LegacyStep.Resembles (step other : LegacyStep) : Prop where
  clause : step.clause = other.clause
  joiner : step.joiner = other.joiner

/--
The sequences differ at most in the operator of the first step and in leaving out an
`and` or not.
-/
inductive Legacy.Resembles : (steps others : Legacy) → Prop where
  | nil : Resembles [] []
  | cons {first head : LegacyStep} {more others : Legacy}
      (hfirst : first.clause = head.clause)
      (hmore : List.Forall₂ LegacyStep.Resembles more others) :
      Resembles (first :: more) (head :: others)

/-- The expressions have one format and resemble each other in it. -/
inductive Expression.Resembles : (expression other : Expression) → Prop where
  | legacy {steps others : Legacy} (hsteps : steps.Resembles others) :
      Resembles (.legacy steps) (.legacy others)
  | tree {root other : Node} (hroot : root.Resembles other) :
      Resembles (.tree root) (.tree other)

namespace Node

/-! ## Overflow -/

mutual

theorem Resembles.overflowFrom_eq {node other : Node} (hresembles : node.Resembles other)
    (limit : Nat) (path : String) (depth : Nat) :
    node.overflowFrom limit path depth = other.overflowFrom limit path depth := by
  cases hresembles with
  | clause leaf => rfl
  | unknown => rfl
  | group hoperator hmembers =>
      rw [overflowFrom, overflowFrom, overflowMembers_eq_of_resembles hmembers]

theorem overflowMembers_eq_of_resembles {nodes others : List Node}
    (hresemble : List.Forall₂ Resembles nodes others) (limit : Nat) (path : String)
    (depth index : Nat) :
    overflowMembers limit path depth index nodes =
      overflowMembers limit path depth index others := by
  cases hresemble with
  | nil => rfl
  | cons hnode hmore =>
      rw [overflowMembers, overflowMembers, hnode.overflowFrom_eq,
        overflowMembers_eq_of_resembles hmore]

end

/-! ## Meaning -/

section

variable (limit : Nat) (placements : List Placement)

/-- With fewer than two members there is nothing for the operator to combine. -/
theorem holds_group_of_length_lt_two {members : List Node} (hfew : members.length < 2)
    (operator inner : Operator) (depth : Nat) :
    (group operator members).holds limit placements depth =
      (group inner members).holds limit placements depth := by
  match members with
  | [] => cases operator <;> cases inner <;> simp [holds, allHold]
  | [node] => cases operator <;> cases inner <;> simp [holds, allHold, anyHolds]
  | _ :: _ :: more =>
      simp only [List.length_cons] at hfew
      omega

mutual

theorem Resembles.holds_eq {node other : Node} (hresembles : node.Resembles other)
    (depth : Nat) :
    node.holds limit placements depth = other.holds limit placements depth := by
  cases hresembles with
  | clause leaf => rfl
  | unknown => rfl
  | @group operator inner members others hoperator hmembers =>
      have hall := allHold_eq_of_resembles hmembers (depth + 1)
      have hany := anyHolds_eq_of_resembles hmembers (depth + 1)
      have hempty : members.isEmpty = others.isEmpty := by
        cases hmembers <;> rfl
      have hsame : (group inner members).holds limit placements depth =
          (group inner others).holds limit placements depth := by
        cases inner with
        | and => rw [holds, holds, hall]
        | or => rw [holds, holds, hany, hempty]
      by_cases hfew : members.length < 2
      · rw [holds_group_of_length_lt_two limit placements hfew operator inner, hsame]
      · rw [hoperator (by omega), hsame]

theorem allHold_eq_of_resembles {nodes others : List Node}
    (hresemble : List.Forall₂ Resembles nodes others) (depth : Nat) :
    allHold limit placements depth nodes = allHold limit placements depth others := by
  cases hresemble with
  | nil => rfl
  | cons hnode hmore =>
      rw [allHold, allHold, hnode.holds_eq, allHold_eq_of_resembles hmore]

theorem anyHolds_eq_of_resembles {nodes others : List Node}
    (hresemble : List.Forall₂ Resembles nodes others) (depth : Nat) :
    anyHolds limit placements depth nodes = anyHolds limit placements depth others := by
  cases hresemble with
  | nil => rfl
  | cons hnode hmore =>
      rw [anyHolds, anyHolds, hnode.holds_eq, anyHolds_eq_of_resembles hmore]

end

end

end Node

theorem LegacyStep.foldl_extend_eq_of_resembles (placements : List Placement)
    {steps others : Legacy} (hresemble : List.Forall₂ Resembles steps others)
    (verdict : Bool) :
    steps.foldl (extend placements) verdict = others.foldl (extend placements) verdict := by
  induction hresemble generalizing verdict with
  | nil => rfl
  | cons hstep _ ih =>
      rw [List.foldl_cons, List.foldl_cons, extend_eq_combine, extend_eq_combine,
        hstep.clause, hstep.joiner, ih]

theorem Legacy.Resembles.holds_eq (placements : List Placement) {steps others : Legacy}
    (hresembles : steps.Resembles others) :
    steps.holds placements = others.holds placements := by
  cases hresembles with
  | nil => rfl
  | cons hfirst hmore =>
      rw [holds, holds, hfirst,
        LegacyStep.foldl_extend_eq_of_resembles placements hmore]

/-! ## Checks -/

section

variable {expression inner : Expression} {check other : Check}

theorem Expression.Resembles.overflow_eq (hresembles : expression.Resembles inner)
    (hcheck : check.expression = some expression) (hother : other.expression = some inner)
    (limit : Nat) : check.overflow limit = other.overflow limit := by
  unfold Check.overflow Check.root?
  rw [hcheck, hother]
  cases hresembles with
  | legacy _ => rfl
  | tree hroot => exact hroot.overflowFrom_eq limit Node.rootPath 0

/-- An empty sequence leaves the verdict to the required placements. -/
theorem Expression.Resembles.holds_eq (hresembles : expression.Resembles inner)
    (hcheck : check.expression = some expression) (hother : other.expression = some inner)
    (hrequired : check.requiredPlacements = other.requiredPlacements) (limit : Nat)
    (placements : List Placement) :
    check.holds limit placements = other.holds limit placements := by
  unfold Check.holds
  rw [hcheck, hother]
  cases hresembles with
  | tree hroot => exact hroot.holds_eq limit placements 0
  | legacy hsteps =>
      cases hsteps with
      | nil => simp only [hrequired]
      | cons hfirst hmore => exact (Legacy.Resembles.cons hfirst hmore).holds_eq placements

end

end PlacementRules
