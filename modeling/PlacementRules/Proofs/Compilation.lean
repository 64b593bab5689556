import PlacementRules.Evaluation
import PlacementRules.Meaning

/-!
# Compiled rules keep their meaning

A compiled condition gives the verdict that the check states in its own storage
format, under every depth limit.  The compiler counts depth at the child and the
meaning counts it at the group, so the two are matched member by member.
-/

namespace PlacementRules

section

variable (placements : List Placement)

/-- The depth of a leaf plays no part in its meaning. -/
theorem Node.holds_eq_of_not_isGroup (limit depth other : Nat) {node : Node}
    (hleaf : node.isGroup = false) :
    node.holds limit placements depth = node.holds limit placements other := by
  cases node with
  | clause leaf => simp [Node.holds]
  | group operator members => simp [Node.isGroup] at hleaf
  | unknown => simp [Node.holds]

theorem Node.holds_group_of_limit_lt (operator : Operator) (members : List Node)
    {limit depth : Nat} (hdeep : limit < depth) :
    (Node.group operator members).holds limit placements depth = false := by
  have hnot : ¬ depth ≤ limit := Nat.not_le.mpr hdeep
  cases operator <;> simp [Node.holds, hnot]

namespace Condition

@[simp] theorem holds_const (verdict : Bool) :
    (const verdict).holds placements = verdict := by
  simp [holds]

@[simp] theorem holds_all (members : List Condition) :
    (all members).holds placements = allHold placements members := by
  simp [holds]

@[simp] theorem holds_any (members : List Condition) :
    (any members).holds placements = anyHolds placements members := by
  simp [holds]

theorem ofNode_group_of_limit_lt (operator : Operator) (members : List Node)
    {limit depth : Nat} (hdeep : limit < depth) :
    ofNode limit depth (.group operator members) = .const false := by
  rw [ofNode.eq_def]
  exact if_pos hdeep

theorem ofNode_empty_group (operator : Operator) {limit depth : Nat}
    (hle : ¬ limit < depth) :
    ofNode limit depth (.group operator []) = .const true := by
  rw [ofNode, if_neg hle]

theorem ofNode_and_group (first : Node) (more : List Node) {limit depth : Nat}
    (hle : ¬ limit < depth) :
    ofNode limit depth (.group .and (first :: more)) =
      .all (ofMembers limit depth (first :: more)) := by
  rw [ofNode, if_neg hle]

theorem ofNode_or_group (first : Node) (more : List Node) {limit depth : Nat}
    (hle : ¬ limit < depth) :
    ofNode limit depth (.group .or (first :: more)) =
      .any (ofMembers limit depth (first :: more)) := by
  rw [ofNode, if_neg hle]

/--
The depth given to the compiler for a member stands for one more group above it,
whatever the member is.
-/
theorem holds_ofNode_member (limit depth : Nat) {node : Node}
    (hnode : ∀ depth, (ofNode limit depth node).holds placements =
      node.holds limit placements depth) :
    (ofNode limit (if node.isGroup then depth + 1 else depth) node).holds placements =
      node.holds limit placements (depth + 1) := by
  rw [hnode]
  cases hgroup : node.isGroup with
  | true => simp
  | false =>
      simpa using Node.holds_eq_of_not_isGroup placements limit depth (depth + 1) hgroup

mutual

theorem holds_ofNode (limit depth : Nat) (node : Node) :
    (ofNode limit depth node).holds placements =
      node.holds limit placements depth := by
  match node with
  | .clause leaf =>
      simp [ofNode, Node.holds, Clause.isPlaced_eq_holds]
  | .unknown =>
      simp [ofNode, Node.holds]
  | .group operator members =>
      by_cases hdeep : limit < depth
      · rw [Node.holds_group_of_limit_lt placements operator members hdeep,
          ofNode_group_of_limit_lt operator members hdeep, holds_const]
      · have hle : depth ≤ limit := Nat.not_lt.mp hdeep
        have hall := allHold_ofMembers limit depth members
        have hany := anyHolds_ofMembers limit depth members
        -- an empty group is compiled to a constant, whatever its operator
        cases members with
        | nil =>
            rw [ofNode_empty_group operator hdeep, holds_const]
            cases operator <;> simp [Node.holds, Node.allHold, hle]
        | cons first more =>
            cases operator with
            | and =>
                rw [ofNode_and_group first more hdeep, holds_all, hall]
                simp [Node.holds, hle]
            | or =>
                rw [ofNode_or_group first more hdeep, holds_any, hany]
                simp [Node.holds, hle]

theorem allHold_ofMembers (limit depth : Nat) (nodes : List Node) :
    allHold placements (ofMembers limit depth nodes) =
      Node.allHold limit placements (depth + 1) nodes := by
  match nodes with
  | [] => simp [ofMembers, allHold, Node.allHold]
  | node :: more =>
      have hfirst := holds_ofNode_member placements limit depth
        fun depth => holds_ofNode limit depth node
      have hmore := allHold_ofMembers limit depth more
      rw [ofMembers, allHold, Node.allHold, hfirst, hmore]

theorem anyHolds_ofMembers (limit depth : Nat) (nodes : List Node) :
    anyHolds placements (ofMembers limit depth nodes) =
      Node.anyHolds limit placements (depth + 1) nodes := by
  match nodes with
  | [] => simp [ofMembers, anyHolds, Node.anyHolds]
  | node :: more =>
      have hfirst := holds_ofNode_member placements limit depth
        fun depth => holds_ofNode limit depth node
      have hmore := anyHolds_ofMembers limit depth more
      rw [ofMembers, anyHolds, Node.anyHolds, hfirst, hmore]

end

/-- Folding the compiled links is folding the steps they were compiled from. -/
theorem foldLinks_ofLegacy (verdict : Bool) (steps : Legacy) :
    foldLinks placements verdict
        (steps.map fun step => (step.joiner, ofClause step.clause)) =
      steps.foldl (LegacyStep.extend placements) verdict := by
  induction steps generalizing verdict with
  | nil => simp [foldLinks]
  | cons step more ih =>
      rw [List.map_cons, foldLinks, ih, List.foldl_cons, holds_ofClause,
        Clause.isPlaced_eq_holds]
      rcases step with ⟨_ | _ | _, clause⟩ <;> rfl

theorem holds_ofLegacy (first : LegacyStep) (more : Legacy) :
    (ofLegacy first more).holds placements =
      Legacy.holds placements (first :: more) := by
  rw [ofLegacy, holds, foldLinks_ofLegacy, holds_ofClause, Clause.isPlaced_eq_holds,
    Legacy.holds]

theorem holds_ofRequired (clauses : List Clause) :
    (ofRequired clauses).holds placements =
      clauses.all fun clause => clause.holds placements := by
  cases clauses with
  | nil => simp [ofRequired]
  | cons first more =>
      simp [ofRequired, allHold_eq_all, Clause.isPlaced_eq_holds, Function.comp_def]

/-- The compiled condition of a check is the condition that the check states. -/
theorem holds_ofCheck (limit : Nat) (check : Check) :
    (ofCheck limit check).holds placements = check.holds limit placements := by
  unfold ofCheck Check.source Check.holds
  rcases check.expression with _ | ⟨_ | ⟨first, more⟩⟩ | root
  · exact holds_ofRequired placements check.requiredPlacements
  · exact holds_ofRequired placements check.requiredPlacements
  · exact holds_ofLegacy placements first more
  · exact holds_ofNode placements limit 0 root

theorem holds_ofCheck_withTree (limit : Nat) (check : Check) (root : Node) :
    (ofCheck limit (check.withTree root)).holds placements =
      root.holds limit placements 0 := by
  rw [holds_ofCheck]
  rfl

end Condition

end

theorem CompiledCheck.passes_ofCheck (limit : Nat) (placements : List Placement)
    (connected : Bool) (check : Check) :
    (CompiledCheck.ofCheck limit check).passes placements connected =
      check.passes limit placements connected := by
  rw [CompiledCheck.passes, CompiledCheck.ofCheck, Check.passes,
    Condition.holds_ofCheck]

/-- The outcome of rules in terms of what the checks state. -/
theorem Rules.evaluate_eq_ofVerdicts (limit : Nat) (rules : Rules)
    (placements : List Placement) (connected : Bool) :
    rules.evaluate limit placements connected =
      .ofVerdicts (rules.checks.map fun check =>
        (check.aim, check.passes limit placements connected)) := by
  rw [evaluate, CompiledRules.evaluate, CompiledRules.ofRules, List.map_map]
  congr 1
  apply List.map_congr_left
  intro check _
  exact congrArg (Prod.mk check.aim)
    (CompiledCheck.passes_ofCheck limit placements connected check)

/--
Compiling rules and then evaluating them gives each check the verdict it states,
and the outcome is made of exactly these verdicts.
-/
theorem CompiledRules.evaluate_ofRules (limit : Nat) (rules : Rules)
    (placements : List Placement) (connected : Bool) :
    (CompiledRules.ofRules limit rules).checks.map
        (CompiledCheck.passes placements connected) =
      rules.checks.map (Check.passes limit placements connected) ∧
    (CompiledRules.ofRules limit rules).evaluate placements connected =
      .ofVerdicts
        (rules.checks.map fun check =>
          (check.aim, check.passes limit placements connected)) := by
  constructor
  · rw [CompiledRules.ofRules, List.map_map]
    apply List.map_congr_left
    intro check _
    exact CompiledCheck.passes_ofCheck limit placements connected check
  · exact Rules.evaluate_eq_ofVerdicts limit rules placements connected

end PlacementRules
