import PlacementRules.Proofs.Limits

/-!
# What collapsing keeps

A collapsed tree means what the tree means.  Its groups lie no deeper, so under a
limit it passes whatever the tree passes, and the two agree if the tree fits.
-/

namespace PlacementRules

namespace Node

theorem isEmpty_collapseList (nodes : List Node) :
    (collapseList nodes).isEmpty = nodes.isEmpty := by
  cases nodes <;> rfl

/-! ## Without a limit -/

section

variable (placements : List Placement)

theorem holdsUnlimited_join (operator : Operator) (first : Node) (more : List Node) :
    (join operator first more).holdsUnlimited placements =
      (group operator (first :: more)).holdsUnlimited placements := by
  cases more with
  | nil =>
      cases operator <;>
        simp [join, holdsUnlimited, allHoldUnlimited, anyHoldsUnlimited]
  | cons second more => rfl

mutual

theorem holdsUnlimited_collapse (node : Node) :
    node.collapse.holdsUnlimited placements = node.holdsUnlimited placements := by
  match node with
  | .clause _ | .unknown => rfl
  | .group operator [] => cases operator <;> rfl
  | .group operator (first :: more) =>
      have hall := allHoldUnlimited_collapseList (first :: more)
      have hany := anyHoldsUnlimited_collapseList (first :: more)
      rw [collapse, collapseList, holdsUnlimited_join, ← collapseList]
      cases operator with
      | and => rw [holdsUnlimited, holdsUnlimited, hall]
      | or => rw [holdsUnlimited, holdsUnlimited, hany, isEmpty_collapseList]

theorem allHoldUnlimited_collapseList (nodes : List Node) :
    allHoldUnlimited placements (collapseList nodes) =
      allHoldUnlimited placements nodes := by
  match nodes with
  | [] => rfl
  | node :: more =>
      rw [collapseList, allHoldUnlimited, allHoldUnlimited,
        holdsUnlimited_collapse node, allHoldUnlimited_collapseList more]

theorem anyHoldsUnlimited_collapseList (nodes : List Node) :
    anyHoldsUnlimited placements (collapseList nodes) =
      anyHoldsUnlimited placements nodes := by
  match nodes with
  | [] => rfl
  | node :: more =>
      rw [collapseList, anyHoldsUnlimited, anyHoldsUnlimited,
        holdsUnlimited_collapse node, anyHoldsUnlimited_collapseList more]

end

end

/-! ## Under a limit -/

section

variable {placements : List Placement} {limit depth : Nat}

/-- A single operand takes the place of its group, one level further up. -/
theorem holds_join {operator : Operator} {first : Node} {more : List Node}
    (hholds : (group operator (first :: more)).holds limit placements depth = true) :
    (join operator first more).holds limit placements depth = true := by
  cases more with
  | cons second more => exact hholds
  | nil =>
      have hfirst : first.holds limit placements (depth + 1) = true := by
        cases operator <;> simp [holds, allHold, anyHolds] at hholds <;> exact hholds.2
      exact holds_mono (by omega) (KeepsPlaced.refl _ _) hfirst

mutual

theorem holds_collapse {depth : Nat} {node : Node}
    (hholds : node.holds limit placements depth = true) :
    node.collapse.holds limit placements depth = true := by
  match node with
  | .clause _ | .unknown => exact hholds
  | .group operator [] =>
      cases operator <;>
        simpa [holds, collapse, collapseList, empty, allHold] using hholds
  | .group operator (first :: more) =>
      rw [collapse, collapseList]
      apply holds_join
      rw [← collapseList]
      cases operator with
      | and =>
          rw [holds, Bool.and_eq_true] at hholds ⊢
          exact ⟨hholds.1, allHold_collapseList hholds.2⟩
      | or =>
          rw [holds, Bool.and_eq_true, Bool.or_eq_true] at hholds ⊢
          rw [isEmpty_collapseList]
          exact ⟨hholds.1, hholds.2.imp id anyHolds_collapseList⟩

theorem allHold_collapseList {depth : Nat} {nodes : List Node}
    (hholds : allHold limit placements depth nodes = true) :
    allHold limit placements depth (collapseList nodes) = true := by
  match nodes with
  | [] => rfl
  | node :: more =>
      rw [collapseList]
      rw [allHold, Bool.and_eq_true] at hholds ⊢
      exact ⟨holds_collapse hholds.1, allHold_collapseList hholds.2⟩

theorem anyHolds_collapseList {depth : Nat} {nodes : List Node}
    (hholds : anyHolds limit placements depth nodes = true) :
    anyHolds limit placements depth (collapseList nodes) = true := by
  match nodes with
  | [] => simp [anyHolds] at hholds
  | node :: more =>
      rw [collapseList]
      rw [anyHolds, Bool.or_eq_true] at hholds ⊢
      exact hholds.imp holds_collapse anyHolds_collapseList

end

theorem fitsWithin_join {operator : Operator} {first : Node} {more : List Node}
    (hfits : (group operator (first :: more)).FitsWithin limit depth) :
    (join operator first more).FitsWithin limit depth := by
  cases more with
  | cons second more => exact hfits
  | nil =>
      obtain ⟨-, hmembers⟩ := fitsWithin_group.mp hfits
      exact (hmembers first List.mem_cons_self).mono (by omega)

theorem fitsWithin_collapse {depth : Nat} {node : Node}
    (hfits : node.FitsWithin limit depth) : node.collapse.FitsWithin limit depth := by
  match node with
  | .clause _ | .unknown => exact hfits
  | .group operator [] =>
      exact fitsWithin_group.mpr ⟨(fitsWithin_group.mp hfits).1, by simp⟩
  | .group operator (first :: more) =>
      obtain ⟨hdepth, hmembers⟩ := fitsWithin_group.mp hfits
      rw [collapse, collapseList]
      apply fitsWithin_join
      rw [← collapseList, fitsWithin_group, collapseList_eq_map]
      refine ⟨hdepth, ?_⟩
      intro collapsed hcollapsed
      obtain ⟨child, hchild, rfl⟩ := List.mem_map.mp hcollapsed
      exact fitsWithin_collapse (hmembers child hchild)

/-- A tree that fits has under the limit the verdict of the collapsed tree. -/
theorem holds_collapse_of_fitsWithin (placements : List Placement) {node : Node}
    (hfits : node.FitsWithin limit depth) :
    node.collapse.holds limit placements depth = node.holds limit placements depth := by
  rw [holds_of_fitsWithin placements hfits,
    holds_of_fitsWithin placements (fitsWithin_collapse hfits), holdsUnlimited_collapse]

end

end Node

end PlacementRules
