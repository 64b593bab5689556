import PlacementRules.Proofs.Overflow
import PlacementRules.Report

/-!
# The overflow of a tree in order

The groups that overflow a limit are the groups with one group more above them than the
limit allows.  They are listed in the order of the tree, each under the indices that
lead to it, and what is below them is not looked at.
-/

namespace PlacementRules

namespace Node

/-! ## Groups above -/

/--
The number of groups on the way from the root to the place that the indices lead to,
that place itself not counted.
-/
def groupsAbove (root : Node) (indices : List Nat) : Nat :=
  (List.range indices.length).countP fun steps =>
    (root.descend? (indices.take steps)).any isGroup

theorem isGroup_of_descend?_cons {node child : Node} {index : Nat} {path : List Nat}
    (hchild : node.descend? (index :: path) = some child) : node.isGroup = true := by
  rw [descend?_cons] at hchild
  cases node with
  | group operator members => rfl
  | clause leaf => simp [children] at hchild
  | unknown => simp [children] at hchild

/-- Whatever the way to a place has passed is a group. -/
theorem exists_group_of_take_lt {root child : Node} {indices : List Nat}
    (hchild : root.descend? indices = some child) {steps : Nat}
    (hsteps : steps < indices.length) :
    ∃ node, root.descend? (indices.take steps) = some node ∧ node.isGroup = true := by
  rw [← List.take_append_drop steps indices, descend?_append,
    Option.bind_eq_some_iff] at hchild
  obtain ⟨node, hnode, hbelow⟩ := hchild
  rw [List.drop_eq_getElem_cons hsteps] at hbelow
  exact ⟨node, hnode, isGroup_of_descend?_cons hbelow⟩

/-- Only groups have members, so each step of a way leads out of a group. -/
theorem groupsAbove_eq_length {root child : Node} {indices : List Nat}
    (hchild : root.descend? indices = some child) :
    root.groupsAbove indices = indices.length := by
  have hall : ∀ steps ∈ List.range indices.length,
      (root.descend? (indices.take steps)).any isGroup = true := by
    intro steps hsteps
    obtain ⟨node, hnode, hgroup⟩ :=
      exists_group_of_take_lt hchild (List.mem_range.mp hsteps)
    rw [hnode, Option.any_some, hgroup]
  rw [groupsAbove, List.countP_eq_length.mpr hall, List.length_range]

/-! ## The order of the walk -/

mutual

theorem pairwise_deepGroups (limit depth : Nat) (node : Node) :
    (node.deepGroups limit depth).Pairwise (List.Lex (· < ·)) := by
  match node with
  | .clause _ | .unknown => simp [deepGroups]
  | .group operator members =>
      by_cases hdeep : limit < depth
      · rw [deepGroups_group_of_limit_lt operator members hdeep]
        exact List.pairwise_singleton _ _
      · rw [deepGroups_group operator members hdeep]
        exact pairwise_deepGroupsOf limit (depth + 1) 0 members

theorem pairwise_deepGroupsOf (limit depth index : Nat) (nodes : List Node) :
    (deepGroupsOf limit depth index nodes).Pairwise (List.Lex (· < ·)) := by
  match nodes with
  | [] => simp [deepGroupsOf]
  | node :: more =>
      rw [deepGroupsOf, List.pairwise_append]
      refine ⟨?_, pairwise_deepGroupsOf limit depth (index + 1) more, ?_⟩
      · rw [List.pairwise_map]
        exact (pairwise_deepGroups limit depth node).imp List.Lex.cons
      · intro earlier hearlier later hlater
        obtain ⟨below, -, rfl⟩ := List.mem_map.mp hearlier
        obtain ⟨offset, path, child, rfl, -⟩ := mem_deepGroupsOf_iff.mp hlater
        exact .rel (by omega)

end

/-! ## Paths as text -/

theorem count_dot_pathOf (index : Nat) (more : List Nat) :
    (pathOf (index :: more)).toList.count '.' = more.length := by
  rw [pathOf, String.toList_intercalate, List.map_map]
  induction more generalizing index with
  | nil =>
      have hnone := List.count_eq_zero.mpr (dot_not_mem_toString index)
      simpa using hnone
  | cons second more ih =>
      have hmore := ih second
      have hnone := List.count_eq_zero.mpr (dot_not_mem_toString index)
      rw [List.map_cons] at hmore
      rw [List.map_cons, List.map_cons, List.intercalate_cons_cons, List.count_append,
        List.count_append, hmore, Function.comp_apply, hnone, List.length_cons]
      simp
      omega

theorem pathOf_inj {indices other : List Nat} (hindices : indices ≠ [])
    (hother : other ≠ []) (hpath : pathOf indices = pathOf other) : indices = other := by
  have hread := indicesOfPath?_pathOf hindices
  rw [hpath, indicesOfPath?_pathOf hother] at hread
  exact (Option.some.inj hread).symm

section

variable {limit : Nat} {root : Node} {indices : List Nat}

theorem mem_deepGroups_root_iff :
    indices ∈ root.deepGroups limit 0 ↔
      root.groupsAbove indices = limit + 1 ∧
        ∃ operator members, root.descend? indices = some (.group operator members) := by
  rw [mem_deepGroups_iff (by omega), Nat.zero_add]
  constructor
  · rintro ⟨hlength, operator, members, hgroup⟩
    exact ⟨(groupsAbove_eq_length hgroup).trans hlength, operator, members, hgroup⟩
  · rintro ⟨habove, operator, members, hgroup⟩
    exact ⟨(groupsAbove_eq_length hgroup).symm.trans habove, operator, members, hgroup⟩

theorem length_of_mem_deepGroups (hmem : indices ∈ root.deepGroups limit 0) :
    indices.length = limit + 1 := by
  obtain ⟨hlength, -⟩ := (mem_deepGroups_iff (by omega)).mp hmem
  omega

theorem violationAt_of_mem_deepGroups (hmem : indices ∈ root.deepGroups limit 0) :
    violationAt [] 0 indices = ⟨".".intercalate (indices.map toString), limit + 1⟩ := by
  rw [violationAt, List.nil_append, pathOf_of_ne_nil (ne_nil_of_mem_deepGroups hmem),
    length_of_mem_deepGroups hmem, Nat.zero_add]

theorem overflow_eq_map_intercalate (limit : Nat) (root : Node) :
    root.overflow limit = (root.deepGroups limit 0).map fun indices =>
      ⟨".".intercalate (indices.map toString), limit + 1⟩ := by
  rw [overflow_eq_map]
  exact List.map_congr_left fun indices => violationAt_of_mem_deepGroups

theorem exists_mem_deepGroups_of_mem_overflow {violation : Violation}
    (hmem : violation ∈ root.overflow limit) :
    ∃ indices ∈ root.deepGroups limit 0, violation.path = pathOf indices := by
  rw [overflow_eq_map, List.mem_map] at hmem
  obtain ⟨indices, hindices, rfl⟩ := hmem
  exact ⟨indices, hindices, rfl⟩

/-- A group deeper than the limit lies in one that is the first to overflow it. -/
theorem take_mem_deepGroups {operator : Operator} {members : List Node}
    (hgroup : root.descend? indices = some (.group operator members))
    (hdeep : limit < indices.length) :
    indices.take (limit + 1) ∈ root.deepGroups limit 0 := by
  have hlength : (indices.take (limit + 1)).length = limit + 1 := by
    rw [List.length_take]
    omega
  refine (mem_deepGroups_iff (by omega)).mpr ⟨by omega, ?_⟩
  by_cases hequal : indices.length = limit + 1
  · rw [← hequal, List.take_length]
    exact ⟨operator, members, hgroup⟩
  · have hshort : limit + 1 < indices.length := by omega
    obtain ⟨node, hnode, hinner⟩ := exists_group_of_take_lt hgroup hshort
    obtain ⟨inner, parts, rfl⟩ := isGroup_iff.mp hinner
    exact ⟨inner, parts, hnode⟩

theorem overflow_eq_nil_iff_groupsAbove :
    root.overflow limit = [] ↔ ∀ indices operator members,
      root.descend? indices = some (.group operator members) →
        root.groupsAbove indices ≤ limit := by
  rw [overflow_eq_map, List.map_eq_nil_iff]
  constructor
  · intro hnone indices operator members hgroup
    rw [groupsAbove_eq_length hgroup]
    by_cases hdeep : limit < indices.length
    · have hmem := take_mem_deepGroups hgroup hdeep
      rw [hnone] at hmem
      exact absurd hmem List.not_mem_nil
    · omega
  · intro hall
    rw [List.eq_nil_iff_forall_not_mem]
    intro indices hmem
    obtain ⟨habove, operator, members, hgroup⟩ := mem_deepGroups_root_iff.mp hmem
    have hle := hall indices operator members hgroup
    omega

theorem nodup_paths_overflow (limit : Nat) (root : Node) :
    ((root.overflow limit).map Violation.path).Nodup := by
  rw [overflow_eq_map, List.map_map, List.Nodup, List.pairwise_map]
  refine (pairwise_deepGroups limit 0 root).imp_of_mem ?_
  intro earlier later hearlier hlater hless hpath
  have heq : earlier = later := pathOf_inj (ne_nil_of_mem_deepGroups hearlier)
    (ne_nil_of_mem_deepGroups hlater) hpath
  rw [heq] at hless
  exact List.lex_irrefl Nat.lt_irrefl later hless

/-- A path with a dot behind it has more dots than the paths of the overflow. -/
theorem not_prefix_of_mem_overflow {violation other : Violation}
    (hmem : violation ∈ root.overflow limit) (hother : other ∈ root.overflow limit) :
    ¬ (violation.path ++ ".").toList <+: other.path.toList := by
  obtain ⟨indices, hindices, hpath⟩ := exists_mem_deepGroups_of_mem_overflow hmem
  obtain ⟨others, hothers, hotherPath⟩ := exists_mem_deepGroups_of_mem_overflow hother
  have hlength := length_of_mem_deepGroups hindices
  have hlengths := length_of_mem_deepGroups hothers
  intro hprefix
  have hcount := hprefix.sublist.count_le '.'
  rw [hpath, hotherPath, String.toList_append, List.count_append] at hcount
  cases indices with
  | nil => simp at hlength
  | cons index more =>
      cases others with
      | nil => simp at hlengths
      | cons index' more' =>
          rw [count_dot_pathOf, count_dot_pathOf] at hcount
          simp at hlength hlengths hcount
          omega

/-- One limit up, each branch overflows one step further down. -/
theorem dropLast_mem_deepGroups (hmem : indices ∈ root.deepGroups (limit + 1) 0) :
    indices.dropLast ∈ root.deepGroups limit 0 := by
  have hlength := length_of_mem_deepGroups hmem
  obtain ⟨-, operator, members, hgroup⟩ := mem_deepGroups_root_iff.mp hmem
  rw [List.dropLast_eq_take, hlength]
  exact take_mem_deepGroups hgroup (by omega)

end

end Node

/-- A check without a tree has no groups that could lie too deep. -/
theorem Check.overflow_eq_nil_of_root? {check : Check} (hnone : check.root? = none)
    (limit : Nat) : check.overflow limit = [] := by
  rw [overflow, hnone]

/--
The overflow of a tree lists the groups with one group more above them than the limit,
each once, in the lexicographic order of the indices that lead to them.  A violation has
these indices for its path, joined by dots, and their number for its depth; the path
can be read back and leads to the group.  So nothing overflows if no group has more
groups above it than the limit, and the root never does.  No path comes twice, none
leads through another, and a larger limit by one moves each path down by one index.
-/
theorem Node.overflow_in_document_order (limit : Nat) (root : Node) :
    (∃ paths : List (List Nat),
      root.overflow limit = paths.map (fun indices =>
        ⟨".".intercalate (indices.map toString), limit + 1⟩) ∧
      paths.Pairwise (List.Lex (· < ·)) ∧
      (∀ indices, indices ∈ paths ↔ root.groupsAbove indices = limit + 1 ∧
        ∃ operator members, root.descend? indices = some (.group operator members)) ∧
      (∀ indices ∈ paths, indices.length = limit + 1 ∧
        indicesOfPath? (".".intercalate (indices.map toString)) = some indices) ∧
      ∀ indices ∈ paths, ∀ other ∈ paths, indices <+: other → indices = other) ∧
    (root.overflow limit = [] ↔ ∀ indices operator members,
      root.descend? indices = some (.group operator members) →
        root.groupsAbove indices ≤ limit) ∧
    ((root.overflow limit).map Violation.path).Nodup ∧
    (∀ violation ∈ root.overflow limit, violation.path ≠ rootPath ∧
      ∀ other ∈ root.overflow limit,
        ¬ (violation.path ++ ".").toList <+: other.path.toList) ∧
    (root.isGroup = false → root.overflow limit = []) ∧
    (∀ check : Check, check.root? = none → check.overflow limit = []) ∧
    (∀ violation ∈ root.overflow (limit + 1), ∃ (above : List Nat) (index : Nat),
      violation.path = ".".intercalate ((above ++ [index]).map toString) ∧
      ⟨".".intercalate (above.map toString), limit + 1⟩ ∈ root.overflow limit) := by
  refine ⟨⟨root.deepGroups limit 0, overflow_eq_map_intercalate limit root,
      pairwise_deepGroups limit 0 root, fun _ => mem_deepGroups_root_iff, ?_, ?_⟩,
    overflow_eq_nil_iff_groupsAbove, nodup_paths_overflow limit root, ?_, ?_,
    fun _ hnone => Check.overflow_eq_nil_of_root? hnone limit, ?_⟩
  · intro indices hmem
    have hne := ne_nil_of_mem_deepGroups hmem
    rw [← pathOf_of_ne_nil hne]
    exact ⟨length_of_mem_deepGroups hmem, indicesOfPath?_pathOf hne⟩
  · intro indices hmem other hother hprefix
    apply hprefix.eq_of_length
    rw [length_of_mem_deepGroups hmem, length_of_mem_deepGroups hother]
  · intro violation hmem
    refine ⟨?_, fun other hother => not_prefix_of_mem_overflow hmem hother⟩
    obtain ⟨indices, hindices, hpath⟩ := exists_mem_deepGroups_of_mem_overflow hmem
    rw [hpath]
    exact pathOf_ne_rootPath (ne_nil_of_mem_deepGroups hindices)
  · intro hleaf
    cases root with
    | clause leaf => rfl
    | group operator members => simp [isGroup] at hleaf
    | unknown => rfl
  · intro violation hmem
    rw [overflow_eq_map_intercalate, List.mem_map] at hmem
    obtain ⟨indices, hindices, rfl⟩ := hmem
    have hne := ne_nil_of_mem_deepGroups hindices
    refine ⟨indices.dropLast, indices.getLast hne, ?_, ?_⟩
    · rw [List.dropLast_concat_getLast]
    · rw [overflow_eq_map_intercalate, List.mem_map]
      exact ⟨indices.dropLast, dropLast_mem_deepGroups hindices, rfl⟩

/-- Groups at several depths, behind clauses and with more than ten members. -/
theorem Node.overflow_in_document_order_mixed :
    let pair := group .or [unknown, group .and []]
    let root := group .and
      (clause ⟨"lamp", "desk"⟩ :: pair :: List.replicate 8 unknown ++ [pair])
    root.overflow 0 = [⟨"1", 1⟩, ⟨"10", 1⟩] ∧ root.overflow 1 = [⟨"1.1", 2⟩, ⟨"10.1", 2⟩] ∧
    (∀ indices operator members,
      root.descend? indices = some (.group operator members) →
        root.groupsAbove indices ≤ 2) ∧
    (Check.ofAim "air").overflow 0 = [] ∧
    (∃ (above : List Nat) (index : Nat),
      "10.1" = ".".intercalate ((above ++ [index]).map toString) ∧
      ⟨".".intercalate (above.map toString), 1⟩ ∈ root.overflow 0) := by
  intro pair root
  have hone : root.overflow 1 = [⟨"1.1", 2⟩, ⟨"10.1", 2⟩] := by decide
  obtain ⟨-, hnone, -⟩ := overflow_in_document_order 2 root
  obtain ⟨-, -, -, -, -, hcheck, habove⟩ := overflow_in_document_order 0 root
  have hlast : (⟨"10.1", 2⟩ : Violation) ∈ root.overflow (0 + 1) := by
    rw [Nat.zero_add, hone]
    exact List.mem_cons_of_mem _ List.mem_cons_self
  exact ⟨by decide, hone, hnone.mp (by decide), hcheck (Check.ofAim "air") rfl,
    habove _ hlast⟩

end PlacementRules
