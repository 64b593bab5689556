import PlacementRules.Proofs.Limits
import PlacementRules.Proofs.Overflow
import PlacementRules.Proofs.RoundTrip

/-!
# Clause sequences as trees

A sequence becomes a tree step by step.  The tree stays a spine: groups inside one
another, each the first member of the next, with clauses for the other members and
the operator changing from group to group.  So it nests once for each change of
operator in the sequence, and means what the sequence means.
-/

namespace PlacementRules

/-! ## Changes of operator -/

/-- The number of neighbours in a row of operators that differ. -/
def Operator.changes (operators : List Operator) : Nat :=
  (operators.zip operators.tail).countP fun pair => pair.1 != pair.2

theorem Operator.changes_cons_cons (first second : Operator) (more : List Operator) :
    changes (first :: second :: more) =
      changes (second :: more) + if first = second then 0 else 1 := by
  by_cases hsame : first = second
  · simp [changes, hsame]
  · simp [changes, hsame]

/-- The operators of a sequence that count, which are those after the first. -/
def Legacy.joiners (steps : Legacy) : List Operator :=
  steps.tail.map LegacyStep.joiner

namespace Node

/-! ## Appending a step -/

theorem leaves_append (operator : Operator) (node : Node) (leaf : Clause) :
    (node.append operator (.clause leaf)).leaves = node.leaves ++ [leaf] := by
  cases node with
  | clause first => simp [append, leaves, leavesOf]
  | unknown => simp [append, leaves, leavesOf]
  | group inner members =>
      by_cases hsame : inner = operator
      · simp [append, hsame, leaves, leavesOf_append, leavesOf]
      · simp [append, hsame, leaves, leavesOf]

/--
A clause, or a group of a spine and further clauses whose operator is not that of the
spine.  The indices are the operator of the outermost group and the number of groups.
-/
inductive Spine : (root : Option Operator) → (height : Nat) → Node → Prop where
  | clause (leaf : Clause) : Spine none 0 (.clause leaf)
  | group {inner : Option Operator} {height : Nat} {core : Node} {operator : Operator}
      (hcore : Spine inner height core) (hchange : inner ≠ some operator)
      (next : Clause) (more : List Clause) :
      Spine (some operator) (height + 1)
        (.group operator (core :: .clause next :: more.map .clause))

namespace Spine

variable {root : Option Operator} {height : Nat} {node : Node}

theorem root_eq {operator : Operator} {members : List Node}
    (hspine : Spine root height (.group operator members)) : root = some operator := by
  cases hspine
  rfl

/-- A step adds a group just if its operator is not that of the outermost group. -/
theorem append (hspine : Spine root height node) (operator : Operator) (leaf : Clause) :
    Spine (some operator) (if root = some operator then height else height + 1)
      (node.append operator (.clause leaf)) := by
  cases hspine with
  | clause first => exact .group (.clause first) (by simp) leaf []
  | @group inner height core other hcore hchange next more =>
      by_cases hsame : other = operator
      · subst hsame
        have hmembers : (Node.group other (core :: .clause next :: more.map .clause)).append
            other (.clause leaf) =
              .group other (core :: .clause next :: (more ++ [leaf]).map .clause) := by
          simp [Node.append]
        rw [if_pos rfl, hmembers]
        exact .group hcore hchange next (more ++ [leaf])
      · have hother : some other ≠ some operator := by simpa using hsame
        rw [if_neg hother, Node.append, if_neg hsame]
        exact .group (.group hcore hchange next more) hother leaf []

theorem holdsUnlimited_append (hspine : Spine root height node)
    (placements : List Placement) (operator : Operator) (leaf : Clause) :
    (node.append operator (.clause leaf)).holdsUnlimited placements =
      operator.combine (node.holdsUnlimited placements) (leaf.holds placements) := by
  have hpair (first : Node) :
      (Node.group operator [first, .clause leaf]).holdsUnlimited placements =
        operator.combine (first.holdsUnlimited placements) (leaf.holds placements) := by
    cases operator <;>
      simp [holdsUnlimited, allHoldUnlimited, anyHoldsUnlimited, Operator.combine]
  cases hspine with
  | clause first => exact hpair (.clause first)
  | @group inner height core other hcore hchange next more =>
      by_cases hsame : other = operator
      · subst hsame
        rw [Node.append, if_pos rfl]
        cases other with
        | and =>
            simp [holdsUnlimited, allHoldUnlimited_eq_all, Operator.combine,
              Bool.and_assoc]
        | or =>
            simp [holdsUnlimited, anyHoldsUnlimited_eq_any, Operator.combine,
              Bool.or_assoc]
      · rw [Node.append, if_neg hsame]
        exact hpair _

/-! ### The groups of a spine -/

/-- Below the core of a spine there are only clauses, none of which is a group. -/
theorem deepGroupsOf_clauses (limit depth index : Nat) (leaves : List Clause) :
    deepGroupsOf limit depth index (leaves.map .clause) = [] := by
  induction leaves generalizing index with
  | nil => simp [deepGroupsOf]
  | cons leaf more ih => simp [deepGroupsOf, deepGroups, ih]

/-- The one group of a spine that overflows the limit is reached by zeros alone. -/
theorem deepGroups_eq (hspine : Spine root height node) {limit depth : Nat}
    (hdepth : depth ≤ limit + 1) :
    node.deepGroups limit depth =
      if depth + height ≤ limit + 1 then []
      else [List.replicate (limit + 1 - depth) 0] := by
  induction hspine generalizing depth with
  | clause leaf => simp [deepGroups, hdepth]
  | @group inner height core operator hcore hchange next more ih =>
      -- a group right below the limit is reported itself, with no index left
      by_cases hdeep : limit < depth
      · have hover : ¬ depth + (height + 1) ≤ limit + 1 := by omega
        have hnone : limit + 1 - depth = 0 := by omega
        rw [deepGroups_group_of_limit_lt _ _ hdeep, if_neg hover, hnone]
        rfl
      · have hroom : limit + 1 - depth = limit + 1 - (depth + 1) + 1 := by omega
        have hheight : depth + 1 + height ≤ limit + 1 ↔
            depth + (height + 1) ≤ limit + 1 := by omega
        have hclauses := deepGroupsOf_clauses limit (depth + 1) 1 (next :: more)
        rw [List.map_cons] at hclauses
        rw [deepGroups_group _ _ hdeep, deepGroupsOf, hclauses, ih (by omega),
          List.append_nil, hroom]
        simp only [hheight]
        split <;> simp [List.replicate_succ]

theorem overflow_eq (hspine : Spine root height node) (limit : Nat) :
    node.overflow limit =
      if height ≤ limit + 1 then []
      else [⟨".".intercalate (List.replicate (limit + 1) "0"), limit + 1⟩] := by
  have hzeros : pathOf (List.replicate (limit + 1) 0) =
      ".".intercalate (List.replicate (limit + 1) "0") := by
    rw [pathOf_of_ne_nil (by simp), List.map_replicate]
    rfl
  rw [overflow_eq_map, hspine.deepGroups_eq (Nat.zero_le _), Nat.zero_add, Nat.sub_zero]
  split
  · rfl
  · simp [violationAt, hzeros]

theorem descend?_clause_ne_group (leaf : Clause) (path : List Nat) (operator : Operator)
    (members : List Node) :
    (Node.clause leaf).descend? path ≠ some (.group operator members) := by
  cases path with
  | nil => simp
  | cons index path => simp [descend?_cons, children]

/-- A group of a spine has two members or more, and none of them has its operator. -/
theorem members_of_descend? (hspine : Spine root height node) {path : List Nat}
    {operator : Operator} {members : List Node}
    (hgroup : node.descend? path = some (.group operator members)) :
    2 ≤ members.length ∧
      ∀ inner parts, Node.group inner parts ∈ members → inner ≠ operator := by
  induction hspine generalizing path with
  | clause leaf => exact absurd hgroup (descend?_clause_ne_group leaf path _ _)
  | @group inner height core outer hcore hchange next more ih =>
      cases path with
      | nil =>
          obtain ⟨rfl, rfl⟩ : outer = operator ∧
              core :: .clause next :: more.map .clause = members := by
            simpa using hgroup
          refine ⟨by simp, ?_⟩
          intro other parts hmember hsame
          obtain rfl : core = .group other parts := by
            simpa [eq_comm] using hmember
          exact hchange (by rw [hcore.root_eq, hsame])
      | cons index path =>
          rw [descend?_cons, children] at hgroup
          cases index with
          | zero => exact ih (by simpa using hgroup)
          | succ index =>
              rw [List.getElem?_cons_succ, ← List.map_cons, List.getElem?_map,
                Option.bind_eq_some_iff] at hgroup
              obtain ⟨child, hchild, hbelow⟩ := hgroup
              obtain ⟨leaf, -, rfl⟩ := Option.map_eq_some_iff.mp hchild
              exact absurd hbelow (descend?_clause_ne_group leaf path _ _)

theorem allCanonical_clauses (leaves : List Clause) :
    allCanonical (leaves.map .clause) = true := by
  induction leaves with
  | nil => rfl
  | cons leaf more ih => simpa [allCanonical, isCanonical] using ih

theorem isCanonical (hspine : Spine root height node) : node.isCanonical = true := by
  induction hspine with
  | clause leaf => simp [Node.isCanonical]
  | @group inner height core operator hcore hchange next more ih =>
      have hclauses := allCanonical_clauses (next :: more)
      rw [List.map_cons] at hclauses
      rw [Node.isCanonical, allCanonical, ih, hclauses]
      simp

end Spine

/-! ## A whole sequence -/

def appendSteps (node : Node) (steps : Legacy) : Node :=
  steps.foldl (fun tree step => tree.append step.joiner (.clause step.clause)) node

theorem appendSteps_cons (node : Node) (step : LegacyStep) (more : Legacy) :
    node.appendSteps (step :: more) =
      (node.append step.joiner (.clause step.clause)).appendSteps more := rfl

theorem leaves_appendSteps (node : Node) (steps : Legacy) :
    (node.appendSteps steps).leaves = node.leaves ++ steps.map LegacyStep.clause := by
  induction steps generalizing node with
  | nil => simp [appendSteps]
  | cons step more ih => rw [appendSteps_cons, ih, leaves_append]; simp

/-- Each change of operator among the steps puts one more group around a spine. -/
theorem Spine.appendSteps {operator : Operator} {height : Nat} {node : Node}
    (hspine : Spine (some operator) height node) (steps : Legacy) :
    ∃ last, Spine last
      (height + Operator.changes (operator :: steps.map LegacyStep.joiner))
      (node.appendSteps steps) := by
  induction steps generalizing operator height node with
  | nil => exact ⟨some operator, hspine⟩
  | cons step more ih =>
      obtain ⟨last, hlast⟩ := ih (hspine.append step.joiner step.clause)
      refine ⟨last, ?_⟩
      rw [appendSteps_cons, List.map_cons, Operator.changes_cons_cons]
      convert hlast using 1
      simp only [Option.some.injEq]
      split <;> omega

theorem Spine.holdsUnlimited_appendSteps {root : Option Operator} {height : Nat}
    {node : Node} (hspine : Spine root height node) (placements : List Placement)
    (steps : Legacy) :
    (node.appendSteps steps).holdsUnlimited placements =
      steps.foldl (LegacyStep.extend placements) (node.holdsUnlimited placements) := by
  induction steps generalizing root height node with
  | nil => rfl
  | cons step more ih =>
      rw [appendSteps_cons, ih (hspine.append step.joiner step.clause), List.foldl_cons,
        hspine.holdsUnlimited_append, LegacyStep.extend_eq_combine]

end Node

theorem Legacy.exists_spine (first : LegacyStep) (more : Legacy) :
    ∃ root height, Node.Spine root height ((Node.clause first.clause).appendSteps more) ∧
      height - 1 = Operator.changes (Legacy.joiners (first :: more)) := by
  cases more with
  | nil => exact ⟨none, 0, .clause first.clause, rfl⟩
  | cons second more =>
      have hpair := (Node.Spine.clause first.clause).append second.joiner second.clause
      obtain ⟨last, hlast⟩ := hpair.appendSteps more
      refine ⟨last, _, hlast, ?_⟩
      simp [Legacy.joiners]

theorem Legacy.holdsUnlimited_appendSteps (placements : List Placement)
    (first : LegacyStep) (more : Legacy) :
    ((Node.clause first.clause).appendSteps more).holdsUnlimited placements =
      Legacy.holds placements (first :: more) := by
  rw [(Node.Spine.clause first.clause).holdsUnlimited_appendSteps, Node.holdsUnlimited,
    Legacy.holds]

/-! ## Checks with a sequence and with its tree -/

theorem Check.resolve_withLegacy (placements : List Placement) (check : Check)
    (first : LegacyStep) (more : Legacy) :
    (check.withLegacy (first :: more)).resolve placements =
      Legacy.holds placements (first :: more) := by
  rw [Check.resolve, Condition.holds_ofCheck]
  rfl

/--
The tree of a sequence has the clauses of the sequence in order.  Its groups have two
members or more and none is directly inside one with its own operator, so there is one
group within another for each change of operator.  Under a limit that allows these
changes the tree has the verdict of the sequence; under a smaller one, which a single
group overflows, it passes only what the sequence passes.  The tree is read back from
its text.
-/
theorem Legacy.tree_keeps_meaning (first : LegacyStep) (more : Legacy) :
    let steps : Legacy := first :: more
    let changes := Operator.changes steps.joiners
    ∃ tree, steps.toNode? = some tree ∧
      tree.leaves = steps.map LegacyStep.clause ∧
      (∀ path operator members, tree.descend? path = some (.group operator members) →
        2 ≤ members.length ∧
          ∀ inner parts, Node.group inner parts ∈ members → inner ≠ operator) ∧
      (∀ limit, tree.overflow limit =
        if changes ≤ limit then []
        else [⟨".".intercalate (List.replicate (limit + 1) "0"), limit + 1⟩]) ∧
      (∀ (check : Check) (placements : List Placement) (limit : Nat),
        (changes ≤ limit →
          (Condition.ofCheck limit (check.withTree tree)).holds placements =
            (check.withLegacy steps).resolve placements) ∧
        ((Condition.ofCheck limit (check.withTree tree)).holds placements = true →
          (check.withLegacy steps).resolve placements = true)) ∧
      Node.parse tree.text = .ok tree := by
  intro steps changes
  obtain ⟨root, height, hspine, hheight⟩ := Legacy.exists_spine first more
  have hoverflow (limit : Nat) := hspine.overflow_eq limit
  have hgroups : height - 1 = changes := hheight
  have hchanges (limit : Nat) : height ≤ limit + 1 ↔ changes ≤ limit := by omega
  simp only [hchanges] at hoverflow
  refine ⟨(Node.clause first.clause).appendSteps more, rfl, ?_, ?_, hoverflow, ?_, ?_⟩
  · rw [Node.leaves_appendSteps]
    rfl
  · intro path operator members
    exact hspine.members_of_descend?
  · intro check placements limit
    rw [Condition.holds_ofCheck_withTree, Check.resolve_withLegacy,
      ← Legacy.holdsUnlimited_appendSteps]
    refine ⟨?_, Node.holdsUnlimited_of_holds⟩
    intro hlimit
    have hnone := hoverflow limit
    rw [if_pos hlimit] at hnone
    exact Node.holds_of_fitsWithin placements (Node.overflowFrom_eq_nil_iff.mp hnone)
  · have hcanonical := hspine.isCanonical
    rw [Node.parse_text_of_isKnown (Node.isKnown_of_isCanonical hcanonical),
      Node.collapse_eq_self hcanonical]

/-- Four clauses and two changes of operator, allowed by two levels but not by one. -/
theorem Legacy.tree_keeps_meaning_of_two_changes :
    let steps : Legacy :=
      [⟨some .or, ⟨"lamp", "desk"⟩⟩, ⟨none, ⟨"fan", "hall"⟩⟩,
        ⟨some .or, ⟨"plug", "wall"⟩⟩, ⟨some .and, ⟨"", "desk"⟩⟩]
    let check := Check.ofAim "light"
    let placements : List Placement := [⟨"plug", "wall"⟩]
    Operator.changes steps.joiners = 2 ∧
    ∃ tree, steps.toNode? = some tree ∧
      tree.overflow 1 = [⟨"0.0", 2⟩] ∧ tree.overflow 2 = [] ∧
      (Condition.ofCheck 2 (check.withTree tree)).holds placements =
        (check.withLegacy steps).resolve placements ∧
      ((Condition.ofCheck 1 (check.withTree tree)).holds placements = true →
        (check.withLegacy steps).resolve placements = true) := by
  intro steps check placements
  have hchanges : Operator.changes steps.joiners = 2 := by decide
  obtain ⟨tree, htree, -, -, hoverflow, hverdict, -⟩ :=
    Legacy.tree_keeps_meaning ⟨some .or, ⟨"lamp", "desk"⟩⟩
      [⟨none, ⟨"fan", "hall"⟩⟩, ⟨some .or, ⟨"plug", "wall"⟩⟩,
        ⟨some .and, ⟨"", "desk"⟩⟩]
  refine ⟨hchanges, tree, htree, hoverflow 1, hoverflow 2, ?_, ?_⟩
  · exact (hverdict check placements 2).1 (by decide)
  · exact (hverdict check placements 1).2

end PlacementRules
