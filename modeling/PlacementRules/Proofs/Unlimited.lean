import PlacementRules.Meaning
import PlacementRules.Outcome

/-!
# Rules without a depth limit

What a rule says when depth plays no part in it.  A limit that no group of a tree
exceeds takes nothing away from this meaning, so the limits at which a rule has its
full meaning are known from the depths of its groups alone.
-/

namespace PlacementRules

namespace Node

/-! ## The depths of groups -/

/-- The tree has a group with exactly `depth` groups above it. -/
inductive HasGroupAt : (depth : Nat) → Node → Prop where
  | root (operator : Operator) (members : List Node) :
      HasGroupAt 0 (.group operator members)
  | member {depth : Nat} {child : Node} {members : List Node} (operator : Operator)
      (hchild : child ∈ members) (hgroup : HasGroupAt depth child) :
      HasGroupAt (depth + 1) (.group operator members)

/-- With `depth` groups above the tree, none of its groups exceeds the limit. -/
def FitsWithin (limit depth : Nat) (node : Node) : Prop :=
  ∀ below, node.HasGroupAt below → depth + below ≤ limit

theorem fitsWithin_of_not_isGroup (limit depth : Nat) {node : Node}
    (hleaf : node.isGroup = false) : node.FitsWithin limit depth := by
  intro below hgroup
  cases hgroup <;> simp [isGroup] at hleaf

theorem fitsWithin_group {limit depth : Nat} {operator : Operator}
    {members : List Node} :
    (group operator members).FitsWithin limit depth ↔
      depth ≤ limit ∧ ∀ child ∈ members, child.FitsWithin limit (depth + 1) := by
  constructor
  · intro hfits
    refine ⟨hfits 0 (.root operator members), ?_⟩
    intro child hchild below hgroup
    have hbelow := hfits (below + 1) (.member operator hchild hgroup)
    omega
  · rintro ⟨hdepth, hmembers⟩ below hgroup
    cases hgroup with
    | root => exact hdepth
    | @member below child members operator hchild hgroup =>
        have hbelow := hmembers child hchild below hgroup
        omega

theorem FitsWithin.mono {limit depth larger shallower : Nat} {node : Node}
    (hfits : node.FitsWithin limit depth) (hroom : shallower + limit ≤ depth + larger) :
    node.FitsWithin larger shallower := by
  intro below hgroup
  have hbelow := hfits below hgroup
  omega

/-! ## The meaning of a tree -/

mutual

/-- The verdict of a tree whose groups may lie as deep as they like. -/
def holdsUnlimited (placements : List Placement) : Node → Bool
  | .clause leaf => leaf.holds placements
  | .group .and members => allHoldUnlimited placements members
  | .group .or members => members.isEmpty || anyHoldsUnlimited placements members
  | .unknown => false

def allHoldUnlimited (placements : List Placement) : List Node → Bool
  | [] => true
  | node :: more =>
      node.holdsUnlimited placements && allHoldUnlimited placements more

def anyHoldsUnlimited (placements : List Placement) : List Node → Bool
  | [] => false
  | node :: more =>
      node.holdsUnlimited placements || anyHoldsUnlimited placements more

end

theorem allHoldUnlimited_eq_all (placements : List Placement) (nodes : List Node) :
    allHoldUnlimited placements nodes = nodes.all (holdsUnlimited placements) := by
  induction nodes with
  | nil => rfl
  | cons node more ih => simp [allHoldUnlimited, ih]

theorem anyHoldsUnlimited_eq_any (placements : List Placement) (nodes : List Node) :
    anyHoldsUnlimited placements nodes = nodes.any (holdsUnlimited placements) := by
  induction nodes with
  | nil => rfl
  | cons node more ih => simp [anyHoldsUnlimited, ih]

section

variable (placements : List Placement)

mutual

theorem holds_of_fitsWithin {limit depth : Nat} {node : Node}
    (hfits : node.FitsWithin limit depth) :
    node.holds limit placements depth = node.holdsUnlimited placements := by
  match node with
  | .clause _ | .unknown => simp [holds, holdsUnlimited]
  | .group operator members =>
      obtain ⟨hdepth, hmembers⟩ := fitsWithin_group.mp hfits
      have hall := allHold_of_fitsWithin hmembers
      have hany := anyHolds_of_fitsWithin hmembers
      cases operator with
      | and => simp [holds, holdsUnlimited, hdepth, hall]
      | or => simp [holds, holdsUnlimited, hdepth, hany]

theorem allHold_of_fitsWithin {limit depth : Nat} {nodes : List Node}
    (hfits : ∀ node ∈ nodes, node.FitsWithin limit depth) :
    allHold limit placements depth nodes = allHoldUnlimited placements nodes := by
  match nodes with
  | [] => rfl
  | node :: more =>
      obtain ⟨hnode, hmore⟩ := List.forall_mem_cons.mp hfits
      rw [allHold, allHoldUnlimited, holds_of_fitsWithin hnode,
        allHold_of_fitsWithin hmore]

theorem anyHolds_of_fitsWithin {limit depth : Nat} {nodes : List Node}
    (hfits : ∀ node ∈ nodes, node.FitsWithin limit depth) :
    anyHolds limit placements depth nodes = anyHoldsUnlimited placements nodes := by
  match nodes with
  | [] => rfl
  | node :: more =>
      obtain ⟨hnode, hmore⟩ := List.forall_mem_cons.mp hfits
      rw [anyHolds, anyHoldsUnlimited, holds_of_fitsWithin hnode,
        anyHolds_of_fitsWithin hmore]

end

end

end Node

/-! ## The meaning of a check -/

namespace Check

/-- The tree of the check has a group with more groups above it than the limit. -/
def NestsBeyond (limit : Nat) (check : Check) : Prop :=
  ∃ root, check.expression = some (.tree root) ∧
    ∃ depth, limit < depth ∧ root.HasGroupAt depth

theorem not_nestsBeyond_iff {limit : Nat} {check : Check} :
    ¬ check.NestsBeyond limit ↔
      ∀ root, check.expression = some (.tree root) → root.FitsWithin limit 0 := by
  simp only [NestsBeyond, Node.FitsWithin, Nat.zero_add]
  constructor
  · intro hnot root hroot depth hgroup
    apply Nat.not_lt.mp
    intro hdeep
    exact hnot ⟨root, hroot, depth, hdeep, hgroup⟩
  · rintro hfits ⟨root, hroot, depth, hdeep, hgroup⟩
    exact absurd (hfits root hroot depth hgroup) (Nat.not_le.mpr hdeep)

theorem NestsBeyond.anti {limit smaller : Nat} {check : Check}
    (hdeep : check.NestsBeyond limit) (hsmaller : smaller ≤ limit) :
    check.NestsBeyond smaller := by
  obtain ⟨root, hroot, depth, hlimit, hgroup⟩ := hdeep
  exact ⟨root, hroot, depth, Nat.lt_of_le_of_lt hsmaller hlimit, hgroup⟩

/-- What the check states about the devices, its groups as deep as they like. -/
def holdsUnlimited (placements : List Placement) (check : Check) : Bool :=
  match check.expression with
  | some (.tree root) => root.holdsUnlimited placements
  | some (.legacy (first :: more)) => Legacy.holds placements (first :: more)
  | some (.legacy []) | none =>
      check.requiredPlacements.all fun clause => clause.holds placements

/-- The verdict of a check whose groups may lie as deep as they like. -/
def passesUnlimited (placements : List Placement) (connected : Bool) (check : Check) :
    Bool :=
  check.holdsUnlimited placements && (!check.connectedRequired || connected)

theorem holds_of_not_nestsBeyond {limit : Nat} {check : Check}
    (placements : List Placement) (hfits : ¬ check.NestsBeyond limit) :
    check.holds limit placements = check.holdsUnlimited placements := by
  unfold holds holdsUnlimited
  -- Sequences and lists of placements have no groups, so only a tree needs the hypothesis.
  rcases hexpression : check.expression with _ | ⟨_ | ⟨first, more⟩⟩ | root
  · rfl
  · rfl
  · rfl
  · exact Node.holds_of_fitsWithin placements
      (not_nestsBeyond_iff.mp hfits root hexpression)

theorem passes_of_not_nestsBeyond {limit : Nat} {check : Check}
    (placements : List Placement) (connected : Bool)
    (hfits : ¬ check.NestsBeyond limit) :
    check.passes limit placements connected =
      check.passesUnlimited placements connected := by
  rw [passes, passesUnlimited, holds_of_not_nestsBeyond placements hfits]

end Check

/-- The outcome of rules whose groups may lie as deep as they like. -/
def Rules.evaluateUnlimited (rules : Rules) (placements : List Placement)
    (connected : Bool) : Outcome :=
  .ofVerdicts <|
    rules.checks.map fun check =>
      (check.aim, check.passesUnlimited placements connected)

end PlacementRules
