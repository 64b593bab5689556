import Mathlib.Data.List.Basic
import PlacementRules.Proofs.Compilation
import PlacementRules.Proofs.Overflow

/-!
# Pruning what overflows

A tree whose overflowing groups have been replaced by unknown leaves overflows no
more, and under any larger limit it has the verdict that the tree itself has under
the limit.  So the groups that are reported are exactly those that fail closed.
-/

namespace PlacementRules

namespace Node

/-- The tree with the part at a path replaced.  A path that leads nowhere changes nothing. -/
def replaceAt : (root : Node) → (path : List Nat) → (replacement : Node) → Node
  | _, [], replacement => replacement
  | .group operator members, index :: path, replacement =>
      .group operator
        (members.modify index fun child => child.replaceAt path replacement)
  | .clause leaf, _ :: _, _ => .clause leaf
  | .unknown, _ :: _, _ => .unknown

def replaceAll (root : Node) (paths : List (List Nat)) (replacement : Node) : Node :=
  paths.foldl (fun tree path => tree.replaceAt path replacement) root

/-- The tree with an unknown leaf at every path of its overflow. -/
def prune (limit : Nat) (root : Node) : Node :=
  let paths := (root.overflow limit).filterMap fun violation =>
    indicesOfPath? violation.path
  root.replaceAll paths .unknown

mutual

/-- The tree cut off at the limit: a group deeper than it becomes an unknown leaf. -/
def cut (limit depth : Nat) : Node → Node
  | .clause leaf => .clause leaf
  | .group operator members =>
      if limit < depth then .unknown
      else .group operator (cutMembers limit (depth + 1) members)
  | .unknown => .unknown

def cutMembers (limit depth : Nat) : List Node → List Node
  | [] => []
  | node :: more => node.cut limit depth :: cutMembers limit depth more

end

/-! ## Replacing the overflow is cutting at the limit -/

theorem modify_append_cons {α : Type} (f : α → α) (done more : List α) (item : α) :
    (done ++ item :: more).modify done.length f = done ++ f item :: more := by
  induction done with
  | nil => simp
  | cons first done ih => simp [ih]

/-- Replacements below one member of a group happen in that member. -/
theorem replaceAll_group_below (operator : Operator) (done more : List Node)
    (node : Node) (paths : List (List Nat)) (replacement : Node) :
    (group operator (done ++ node :: more)).replaceAll
        (paths.map (done.length :: ·)) replacement =
      group operator (done ++ node.replaceAll paths replacement :: more) := by
  induction paths generalizing node with
  | nil => rfl
  | cons path paths ih =>
      have hstep : (group operator (done ++ node :: more)).replaceAt
          (done.length :: path) replacement =
            group operator (done ++ node.replaceAt path replacement :: more) := by
        rw [replaceAt, modify_append_cons]
      simpa [replaceAll, hstep] using ih (node.replaceAt path replacement)

theorem replaceAll_append (root : Node) (first second : List (List Nat))
    (replacement : Node) :
    root.replaceAll (first ++ second) replacement =
      (root.replaceAll first replacement).replaceAll second replacement :=
  List.foldl_append

mutual

theorem replaceAll_deepGroups (limit depth : Nat) (node : Node) :
    node.replaceAll (node.deepGroups limit depth) .unknown = node.cut limit depth := by
  match node with
  | .clause _ | .unknown => simp [deepGroups, replaceAll, cut]
  | .group operator members =>
      by_cases hdeep : limit < depth
      · rw [deepGroups_group_of_limit_lt operator members hdeep, cut, if_pos hdeep]
        rfl
      · rw [deepGroups_group operator members hdeep, cut, if_neg hdeep]
        exact replaceAll_deepGroupsOf limit (depth + 1) operator [] members

/-- The members before the ones walked over have been cut already. -/
theorem replaceAll_deepGroupsOf (limit depth : Nat) (operator : Operator)
    (done nodes : List Node) :
    (group operator (done ++ nodes)).replaceAll
        (deepGroupsOf limit depth done.length nodes) .unknown =
      group operator (done ++ cutMembers limit depth nodes) := by
  match nodes with
  | [] => simp [deepGroupsOf, replaceAll, cutMembers]
  | node :: more =>
      have hnode := replaceAll_deepGroups limit depth node
      have hmore := replaceAll_deepGroupsOf limit depth operator
        (done ++ [node.cut limit depth]) more
      rw [List.length_append, List.length_singleton, List.append_assoc,
        List.append_assoc] at hmore
      rw [deepGroupsOf, replaceAll_append, replaceAll_group_below, hnode, cutMembers]
      exact hmore

end

/-- Replacing the overflow path by path is cutting the tree at the limit. -/
theorem prune_eq_cut (limit : Nat) (root : Node) :
    root.prune limit = root.cut limit 0 := by
  have hpaths : ((root.overflow limit).filterMap fun violation =>
      indicesOfPath? violation.path) = (root.deepGroups limit 0).map id := by
    rw [overflow_eq_map, List.filterMap_map, List.filterMap_eq_map_iff_forall_eq_some]
    intro indices hmem
    exact indicesOfPath?_violationAt hmem
  rw [prune, hpaths, List.map_id, replaceAll_deepGroups]

/-! ## What is left after the cut -/

mutual

theorem overflowFrom_cut (limit : Nat) (path : String) (depth : Nat) (node : Node) :
    (node.cut limit depth).overflowFrom limit path depth = [] := by
  match node with
  | .clause _ | .unknown => simp [cut, overflowFrom]
  | .group operator members =>
      by_cases hdeep : limit < depth
      · simp [cut, hdeep, overflowFrom]
      · rw [cut, if_neg hdeep, overflowFrom, if_neg hdeep]
        exact overflowMembers_cutMembers limit path depth 0 members

theorem overflowMembers_cutMembers (limit : Nat) (path : String) (depth index : Nat)
    (nodes : List Node) :
    overflowMembers limit path depth index (cutMembers limit (depth + 1) nodes) =
      [] := by
  match nodes with
  | [] => simp [cutMembers, overflowMembers]
  | node :: more =>
      have hnode := overflowFrom_cut limit (childPath path index) (depth + 1) node
      have hmore := overflowMembers_cutMembers limit path depth (index + 1) more
      rw [cutMembers, overflowMembers, hnode, hmore, List.append_nil]

end

section

variable (placements : List Placement)

mutual

/-- No group that is left lies deeper than the limit, so a larger one fails none. -/
theorem holds_cut {limit larger : Nat} (hlarger : limit ≤ larger) (depth : Nat) (node : Node) :
    (node.cut limit depth).holds larger placements depth =
      node.holds limit placements depth := by
  match node with
  | .clause _ | .unknown => simp [cut, holds]
  | .group operator members =>
      by_cases hdeep : limit < depth
      · rw [cut, if_pos hdeep, holds_group_of_limit_lt placements _ _ hdeep]
        simp [holds]
      · have hle : depth ≤ limit := Nat.not_lt.mp hdeep
        have hle' : depth ≤ larger := Nat.le_trans hle hlarger
        have hall := allHold_cutMembers hlarger (depth + 1) members
        have hany := anyHolds_cutMembers hlarger (depth + 1) members
        rw [cut, if_neg hdeep]
        cases operator with
        | and => simp [holds, hle, hle', hall]
        | or =>
            have hempty : (cutMembers limit (depth + 1) members).isEmpty =
                members.isEmpty := by
              cases members <;> simp [cutMembers]
            simp [holds, hle, hle', hany, hempty]

theorem allHold_cutMembers {limit larger : Nat} (hlarger : limit ≤ larger)
    (depth : Nat) (nodes : List Node) :
    allHold larger placements depth (cutMembers limit depth nodes) =
      allHold limit placements depth nodes := by
  match nodes with
  | [] => simp [cutMembers, allHold]
  | node :: more =>
      rw [cutMembers, allHold, allHold, holds_cut hlarger depth node,
        allHold_cutMembers hlarger depth more]

theorem anyHolds_cutMembers {limit larger : Nat} (hlarger : limit ≤ larger)
    (depth : Nat) (nodes : List Node) :
    anyHolds larger placements depth (cutMembers limit depth nodes) =
      anyHolds limit placements depth nodes := by
  match nodes with
  | [] => simp [cutMembers, anyHolds]
  | node :: more =>
      rw [cutMembers, anyHolds, anyHolds, holds_cut hlarger depth node,
        anyHolds_cutMembers hlarger depth more]

end

end

theorem prune_eq_self {limit : Nat} {root : Node} (hnone : root.overflow limit = []) :
    root.prune limit = root := by
  rw [prune, hnone]
  rfl

end Node

theorem CompiledCheck.passes_ofCheck_withTree (limit : Nat) (placements : List Placement)
    (connected : Bool) (check : Check) (root : Node) :
    (CompiledCheck.ofCheck limit (check.withTree root)).passes placements connected =
      (root.holds limit placements 0 && (!check.connectedRequired || connected)) := by
  rw [CompiledCheck.passes_ofCheck]
  rfl

/--
The overflow of a tree is what evaluation fails closed.  Every path leads to a group
of the tree.  With unknown leaves in place of these groups, the tree no
longer overflows the limit, and a check with it has under every larger limit the
verdict that it has with the tree itself under the limit.
-/
theorem Node.overflow_fails_closed (limit : Nat) (root : Node) :
    (∀ violation ∈ root.overflow limit, ∃ indices,
      indicesOfPath? violation.path = some indices ∧
        ∃ operator members,
          root.descend? indices = some (.group operator members)) ∧
    (root.prune limit).overflow limit = [] ∧
    (∀ larger, limit ≤ larger → ∀ (check : Check) (placements : List Placement)
        (connected : Bool),
      (CompiledCheck.ofCheck larger (check.withTree (root.prune limit))).passes
          placements connected =
        (CompiledCheck.ofCheck limit (check.withTree root)).passes
          placements connected) ∧
    (root.overflow limit = [] → ∀ larger, limit ≤ larger →
      ∀ (check : Check) (placements : List Placement) (connected : Bool),
        (CompiledCheck.ofCheck limit (check.withTree root)).passes
            placements connected =
          (CompiledCheck.ofCheck larger (check.withTree root)).passes
            placements connected) := by
  have hverdict : ∀ larger, limit ≤ larger → ∀ (check : Check)
      (placements : List Placement) (connected : Bool),
        (CompiledCheck.ofCheck larger (check.withTree (root.prune limit))).passes
            placements connected =
          (CompiledCheck.ofCheck limit (check.withTree root)).passes
            placements connected := by
    intro larger hlarger check placements connected
    rw [CompiledCheck.passes_ofCheck_withTree, CompiledCheck.passes_ofCheck_withTree,
      prune_eq_cut, holds_cut placements hlarger]
  refine ⟨?_, ?_, hverdict, ?_⟩
  · intro violation hmem
    exact exists_indices_of_mem_overflow hmem
  · rw [prune_eq_cut]
    exact overflowFrom_cut limit rootPath 0 root
  · intro hnone larger hlarger check placements connected
    have hlarge := hverdict larger hlarger check placements connected
    rw [prune_eq_self hnone] at hlarge
    exact hlarge.symm

/-- A group with two groups above it, under limits on either side of its depth. -/
theorem Node.overflow_fails_closed_nested :
    let root := group .or [clause ⟨"lamp", "desk"⟩, group .and [group .or []]]
    let check := Check.ofAim "light"
    root.overflow 1 = [⟨"1.0", 2⟩] ∧ root.overflow 2 = [] ∧
    (CompiledCheck.ofCheck 3 (check.withTree (root.prune 1))).passes [] true =
      (CompiledCheck.ofCheck 1 (check.withTree root)).passes [] true ∧
    (CompiledCheck.ofCheck 2 (check.withTree root)).passes [] true =
      (CompiledCheck.ofCheck 7 (check.withTree root)).passes [] true := by
  intro root check
  have hdeep : root.overflow 1 = [⟨"1.0", 2⟩] := by decide
  have hnone : root.overflow 2 = [] := by decide
  have hpruned := (Node.overflow_fails_closed 1 root).2.2.1 3 (by decide) check [] true
  have hwhole := (Node.overflow_fails_closed 2 root).2.2.2 hnone 7 (by decide) check [] true
  exact ⟨hdeep, hnone, hpruned, hwhole⟩

end PlacementRules
