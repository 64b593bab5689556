import PlacementRules.Depth

/-!
# What the overflow of a tree says

The walk that collects the overflow builds its paths as text.  Here the same walk is
described by the indices themselves; the text of a path can be read back into them,
and they lead to a group with as many groups above it as the violation says.
-/

namespace PlacementRules

namespace Node

/-! ## Paths as text -/

def indexOfDigits? (digits : List Char) : Option Nat :=
  if digits.isEmpty || !digits.all Char.isDigit then none
  else some (Nat.ofDigitChars 10 digits 0)

/-- The child indices that a path stands for: numbers with dots between. -/
def indicesOfPath? (path : String) : Option (List Nat) :=
  (path.toList.splitOn '.').mapM indexOfDigits?

/-- The path that the walk gives to the part of a tree to which the indices lead. -/
def pathOf : List Nat → String
  | [] => rootPath
  | index :: more => ".".intercalate ((index :: more).map toString)

theorem pathOf_of_ne_nil {indices : List Nat} (hindices : indices ≠ []) :
    pathOf indices = ".".intercalate (indices.map toString) := by
  cases indices with
  | nil => exact absurd rfl hindices
  | cons index more => rfl

theorem indexOfDigits?_toString (index : Nat) :
    indexOfDigits? (toString index).toList = some index := by
  have hdigits : (toString index).toList = Nat.toDigits 10 index :=
    Nat.toList_repr
  have hempty : (Nat.toDigits 10 index).isEmpty = false :=
    List.isEmpty_eq_false_iff.mpr Nat.toDigits_ne_nil
  have hall : (Nat.toDigits 10 index).all Char.isDigit = true := by
    rw [List.all_eq_true]
    intro c hc
    exact Nat.isDigit_of_mem_toDigits (by omega) (by omega) hc
  rw [hdigits, indexOfDigits?, hempty, hall, Nat.ofDigitChars_ten_toDigits]
  rfl

theorem dot_not_mem_toString (index : Nat) : '.' ∉ (toString index).toList := by
  intro hdot
  have hdigits : '.' ∈ Nat.toDigits 10 index := by
    rwa [← Nat.toList_repr]
  have hdigit : ('.' : Char).isDigit = true :=
    Nat.isDigit_of_mem_toDigits (by omega) (by omega) hdigits
  exact absurd hdigit (by decide)

theorem mapM_indexOfDigits?_toString (indices : List Nat) :
    (indices.map fun index => (toString index).toList).mapM indexOfDigits? =
      some indices := by
  induction indices with
  | nil => rfl
  | cons index more ih =>
      rw [List.map_cons, List.mapM_cons, indexOfDigits?_toString, ih]
      rfl

/-- Below the root, a path says which indices it was made of. -/
theorem indicesOfPath?_pathOf {indices : List Nat} (hindices : indices ≠ []) :
    indicesOfPath? (pathOf indices) = some indices := by
  have hwords : indices.map (fun index => (toString index).toList) ≠ [] := by
    simpa using hindices
  have htext : (pathOf indices).toList =
      ['.'].intercalate (indices.map fun index => (toString index).toList) := by
    rw [pathOf_of_ne_nil hindices]
    simp [String.toList_intercalate, Function.comp_def]
  rw [indicesOfPath?, htext, List.splitOn_intercalate '.' _ hwords]
  · exact mapM_indexOfDigits?_toString indices
  · intro word hword
    obtain ⟨index, _, rfl⟩ := List.mem_map.mp hword
    exact dot_not_mem_toString index

/-- No other path is taken for that of the root. -/
theorem pathOf_ne_rootPath {indices : List Nat} (hindices : indices ≠ []) :
    pathOf indices ≠ rootPath := by
  intro hroot
  have hread := indicesOfPath?_pathOf hindices
  have hnone : indicesOfPath? rootPath = none := by decide
  rw [hroot, hnone] at hread
  exact Option.some_ne_none _ hread.symm

theorem childPath_pathOf (indices : List Nat) (index : Nat) :
    childPath (pathOf indices) index = pathOf (indices ++ [index]) := by
  by_cases hindices : indices = []
  · rw [hindices, childPath, pathOf, if_pos rfl]
    simp [pathOf]
  · have happend : indices ++ [index] ≠ [] := by simp
    have hwords : indices.map toString ≠ [] := by simpa using hindices
    have hlast : [index].map toString ≠ [] := by simp
    rw [childPath, if_neg (pathOf_ne_rootPath hindices), pathOf_of_ne_nil happend,
      List.map_append, String.intercalate_append_of_ne_nil hwords hlast,
      pathOf_of_ne_nil hindices]
    simp

/-! ## The walk by indices -/

mutual

/-- The indices that lead from the node to the groups that overflow the limit. -/
def deepGroups (limit depth : Nat) : Node → List (List Nat)
  | .group _ members =>
      if limit < depth then [[]] else deepGroupsOf limit (depth + 1) 0 members
  | .clause _ | .unknown => []

def deepGroupsOf (limit depth index : Nat) : List Node → List (List Nat)
  | [] => []
  | node :: more =>
      (node.deepGroups limit depth).map (index :: ·) ++
        deepGroupsOf limit depth (index + 1) more

end

theorem deepGroups_group_of_limit_lt (operator : Operator) (members : List Node)
    {limit depth : Nat} (hdeep : limit < depth) :
    (group operator members).deepGroups limit depth = [[]] := by
  rw [deepGroups, if_pos hdeep]

theorem deepGroups_group (operator : Operator) (members : List Node)
    {limit depth : Nat} (hle : ¬ limit < depth) :
    (group operator members).deepGroups limit depth =
      deepGroupsOf limit (depth + 1) 0 members := by
  rw [deepGroups, if_neg hle]

/-- The violation at the end of a way down from a place that `above` leads to. -/
def violationAt (above : List Nat) (depth : Nat) (below : List Nat) : Violation :=
  ⟨pathOf (above ++ below), depth + below.length⟩

theorem violationAt_cons (above : List Nat) (depth index : Nat) (below : List Nat) :
    violationAt above depth (index :: below) =
      violationAt (above ++ [index]) (depth + 1) below := by
  simp only [violationAt, List.append_assoc, List.singleton_append, List.length_cons,
    Violation.mk.injEq, true_and]
  omega

mutual

/-- The walk with paths as text finds what the walk by indices finds. -/
theorem overflowFrom_pathOf (limit depth : Nat) (above : List Nat) (node : Node) :
    node.overflowFrom limit (pathOf above) depth =
      (node.deepGroups limit depth).map (violationAt above depth) := by
  match node with
  | .clause _ | .unknown => simp [overflowFrom, deepGroups]
  | .group operator members =>
      by_cases hdeep : limit < depth
      · rw [overflowFrom, if_pos hdeep,
          deepGroups_group_of_limit_lt operator members hdeep]
        simp [violationAt]
      · rw [overflowFrom, if_neg hdeep, deepGroups_group operator members hdeep]
        exact overflowMembers_pathOf limit depth 0 above members

theorem overflowMembers_pathOf (limit depth index : Nat) (above : List Nat)
    (nodes : List Node) :
    overflowMembers limit (pathOf above) depth index nodes =
      (deepGroupsOf limit (depth + 1) index nodes).map (violationAt above depth) := by
  match nodes with
  | [] => simp [overflowMembers, deepGroupsOf]
  | node :: more =>
      have hnode := overflowFrom_pathOf limit (depth + 1) (above ++ [index]) node
      have hmore := overflowMembers_pathOf limit depth (index + 1) above more
      rw [overflowMembers, childPath_pathOf, hnode, hmore, deepGroupsOf,
        List.map_append, List.map_map]
      congr 2
      funext below
      exact (violationAt_cons above depth index below).symm

end

theorem overflow_eq_map (limit : Nat) (root : Node) :
    root.overflow limit = (root.deepGroups limit 0).map (violationAt [] 0) :=
  overflowFrom_pathOf limit 0 [] root

/-! ## What the walk finds -/

theorem isGroup_iff {node : Node} :
    node.isGroup = true ↔ ∃ operator members, node = group operator members := by
  cases node <;> simp [isGroup]

theorem mem_deepGroupsOf_iff {limit depth index : Nat} {nodes : List Node}
    {indices : List Nat} :
    indices ∈ deepGroupsOf limit depth index nodes ↔
      ∃ offset below child, indices = (index + offset) :: below ∧
        nodes[offset]? = some child ∧ below ∈ child.deepGroups limit depth := by
  induction nodes generalizing index with
  | nil => simp [deepGroupsOf]
  | cons node more ih =>
      rw [deepGroupsOf, List.mem_append, List.mem_map, ih]
      constructor
      · rintro (⟨below, hbelow, rfl⟩ | ⟨offset, below, child, rfl, hchild, hbelow⟩)
        · exact ⟨0, below, node, rfl, rfl, hbelow⟩
        · refine ⟨offset + 1, below, child, ?_, hchild, hbelow⟩
          congr 1
          omega
      · rintro ⟨_ | offset, below, child, rfl, hchild, hbelow⟩
        · obtain rfl : node = child := by simpa using hchild
          exact .inl ⟨below, hbelow, rfl⟩
        · refine .inr ⟨offset, below, child, ?_, by simpa using hchild, hbelow⟩
          congr 1
          omega

theorem cons_mem_deepGroups_iff {limit depth index : Nat} {path : List Nat} {node : Node}
    (hle : ¬ limit < depth) :
    index :: path ∈ node.deepGroups limit depth ↔
      ∃ child, node.children[index]? = some child ∧
        path ∈ child.deepGroups limit (depth + 1) := by
  cases node with
  | clause leaf => simp [deepGroups, children]
  | unknown => simp [deepGroups, children]
  | group operator members =>
      rw [deepGroups_group operator members hle, mem_deepGroupsOf_iff, children]
      constructor
      · rintro ⟨offset, below, child, heq, hchild, hbelow⟩
        obtain ⟨rfl, rfl⟩ := List.cons.inj heq
        rw [Nat.zero_add]
        exact ⟨child, hchild, hbelow⟩
      · rintro ⟨child, hchild, hpath⟩
        exact ⟨index, path, child, by rw [Nat.zero_add], hchild, hpath⟩

theorem nil_mem_deepGroups_iff {limit depth : Nat} {node : Node} :
    [] ∈ node.deepGroups limit depth ↔ limit < depth ∧ node.isGroup = true := by
  cases node with
  | clause leaf => simp [deepGroups, isGroup]
  | unknown => simp [deepGroups, isGroup]
  | group operator members =>
      by_cases hdeep : limit < depth
      · rw [deepGroups_group_of_limit_lt operator members hdeep]
        simp [hdeep, isGroup]
      · rw [deepGroups_group operator members hdeep, mem_deepGroupsOf_iff]
        simp [hdeep]

/-- The walk finds the groups that have one group more above them than the limit. -/
theorem mem_deepGroups_iff {limit depth : Nat} {node : Node} {indices : List Nat}
    (hdepth : depth ≤ limit + 1) :
    indices ∈ node.deepGroups limit depth ↔
      depth + indices.length = limit + 1 ∧
        ∃ operator members, node.descend? indices = some (.group operator members) := by
  induction indices generalizing depth node with
  | nil =>
      have hdeep : limit < depth ↔ depth = limit + 1 := by omega
      rw [nil_mem_deepGroups_iff, hdeep, isGroup_iff]
      simp
  | cons index path ih =>
      rw [descend?_cons, List.length_cons]
      by_cases hdeep : limit < depth
      -- the walk does not go on below a group that it has found
      · have hnone : index :: path ∉ node.deepGroups limit depth := by
          cases node <;> simp [deepGroups, hdeep]
        have hlong : ¬ depth + (path.length + 1) = limit + 1 := by omega
        simp [hnone, hlong]
      · rw [cons_mem_deepGroups_iff hdeep]
        constructor
        · rintro ⟨child, hchild, hpath⟩
          obtain ⟨hlength, hgroup⟩ := (ih (by omega)).mp hpath
          rw [hchild, Option.bind_some]
          exact ⟨by omega, hgroup⟩
        · rintro ⟨hlength, operator, members, hgroup⟩
          obtain ⟨child, hchild, hbelow⟩ := Option.bind_eq_some_iff.mp hgroup
          exact ⟨child, hchild, (ih (by omega)).mpr ⟨by omega, operator, members, hbelow⟩⟩

/-- No limit is so small that the root itself overflows it. -/
theorem ne_nil_of_mem_deepGroups {limit : Nat} {root : Node} {indices : List Nat}
    (hmem : indices ∈ root.deepGroups limit 0) : indices ≠ [] := by
  intro hnil
  obtain ⟨hlimit, -⟩ := (mem_deepGroups_iff (by omega)).mp hmem
  rw [hnil, List.length_nil] at hlimit
  omega

theorem indicesOfPath?_violationAt {limit : Nat} {root : Node} {indices : List Nat}
    (hmem : indices ∈ root.deepGroups limit 0) :
    indicesOfPath? (violationAt [] 0 indices).path = some indices :=
  indicesOfPath?_pathOf (ne_nil_of_mem_deepGroups hmem)

/-- The path of a violation stands for indices that lead to a group. -/
theorem exists_indices_of_mem_overflow {limit : Nat} {root : Node} {violation : Violation}
    (hmem : violation ∈ root.overflow limit) :
    ∃ indices, indicesOfPath? violation.path = some indices ∧
      ∃ operator members, root.descend? indices = some (.group operator members) := by
  rw [overflow_eq_map, List.mem_map] at hmem
  obtain ⟨indices, hindices, rfl⟩ := hmem
  obtain ⟨-, hgroup⟩ := (mem_deepGroups_iff (by omega)).mp hindices
  exact ⟨indices, indicesOfPath?_violationAt hindices, hgroup⟩

end Node

end PlacementRules
