import PlacementRules.Proofs.Compilation
import PlacementRules.Proofs.Improvement

/-!
# Placing more and allowing more depth

Nothing in a rule negates.  So a check that passes goes on passing when more of its
own clauses are placed, when its groups may lie deeper, and when the learner connects;
placements of other devices or at other anchors do not matter to it.
-/

namespace PlacementRules

/--
Every pair of ids in the clauses, both of them present, that is placed before is also
placed after.
-/
def KeepsPlaced (clauses : List Clause) (before after : List Placement) : Prop :=
  ∀ clause ∈ clauses, clause.isComplete = true →
    ⟨clause.device, clause.anchor⟩ ∈ before → ⟨clause.device, clause.anchor⟩ ∈ after

namespace KeepsPlaced

variable {before after : List Placement} {clauses more : List Clause}

theorem refl (clauses : List Clause) (placements : List Placement) :
    KeepsPlaced clauses placements placements :=
  fun _ _ _ hplaced => hplaced

theorem of_forall
    (hplaced : ∀ clause ∈ clauses, clause.device ≠ "" → clause.anchor ≠ "" →
      ⟨clause.device, clause.anchor⟩ ∈ before → ⟨clause.device, clause.anchor⟩ ∈ after) :
    KeepsPlaced clauses before after := by
  intro clause hclause hcomplete
  rw [Clause.isComplete, Bool.and_eq_true, bne_iff_ne, bne_iff_ne] at hcomplete
  exact hplaced clause hclause hcomplete.1 hcomplete.2

theorem holds (hkeeps : KeepsPlaced clauses before after) {clause : Clause}
    (hclause : clause ∈ clauses) (hholds : clause.holds before = true) :
    clause.holds after = true := by
  rw [← Clause.isPlaced_eq_holds, Clause.isPlaced_iff] at hholds ⊢
  exact ⟨hholds.1, hkeeps clause hclause hholds.1 hholds.2⟩

theorem subset (hkeeps : KeepsPlaced clauses before after) (hmore : more ⊆ clauses) :
    KeepsPlaced more before after :=
  fun clause hclause => hkeeps clause (hmore hclause)

theorem cons {clause : Clause} (hkeeps : KeepsPlaced (clause :: more) before after) :
    (clause.holds before = true → clause.holds after = true) ∧
      KeepsPlaced more before after :=
  ⟨hkeeps.holds List.mem_cons_self, hkeeps.subset (List.subset_cons_self clause more)⟩

theorem append (hkeeps : KeepsPlaced (clauses ++ more) before after) :
    KeepsPlaced clauses before after ∧ KeepsPlaced more before after :=
  ⟨hkeeps.subset (List.subset_append_left clauses more),
    hkeeps.subset (List.subset_append_right clauses more)⟩

end KeepsPlaced

section

variable {before after : List Placement}

/-! ## Trees -/

namespace Node

mutual

/--
A tree that holds goes on holding with more placed, and under any limit and at any
depth that leave no less room below.
-/
theorem holds_mono {limit depth larger shallower : Nat} {node : Node}
    (hroom : shallower + limit ≤ depth + larger)
    (hkeeps : KeepsPlaced node.leaves before after)
    (hholds : node.holds limit before depth = true) :
    node.holds larger after shallower = true := by
  match node with
  | .clause leaf =>
      rw [holds] at hholds ⊢
      exact hkeeps.cons.1 hholds
  | .unknown => simp [holds] at hholds
  -- both depths grow by one below a group, so the room stays as it is
  | .group .and members =>
      rw [holds, Bool.and_eq_true, decide_eq_true_eq] at hholds ⊢
      obtain ⟨hdepth, hmembers⟩ := hholds
      exact ⟨by omega, allHold_mono (by omega) hkeeps hmembers⟩
  | .group .or members =>
      rw [holds, Bool.and_eq_true, decide_eq_true_eq, Bool.or_eq_true] at hholds ⊢
      obtain ⟨hdepth, hempty | hmembers⟩ := hholds
      · exact ⟨by omega, .inl hempty⟩
      · exact ⟨by omega, .inr (anyHolds_mono (by omega) hkeeps hmembers)⟩

theorem allHold_mono {limit depth larger shallower : Nat} {nodes : List Node}
    (hroom : shallower + limit ≤ depth + larger)
    (hkeeps : KeepsPlaced (leavesOf nodes) before after)
    (hholds : allHold limit before depth nodes = true) :
    allHold larger after shallower nodes = true := by
  match nodes with
  | [] => rfl
  | node :: more =>
      obtain ⟨hnode, hmore⟩ := hkeeps.append
      rw [allHold, Bool.and_eq_true] at hholds ⊢
      exact ⟨holds_mono hroom hnode hholds.1, allHold_mono hroom hmore hholds.2⟩

theorem anyHolds_mono {limit depth larger shallower : Nat} {nodes : List Node}
    (hroom : shallower + limit ≤ depth + larger)
    (hkeeps : KeepsPlaced (leavesOf nodes) before after)
    (hholds : anyHolds limit before depth nodes = true) :
    anyHolds larger after shallower nodes = true := by
  match nodes with
  | [] => simp [anyHolds] at hholds
  | node :: more =>
      obtain ⟨hnode, hmore⟩ := hkeeps.append
      rw [anyHolds, Bool.or_eq_true] at hholds ⊢
      exact hholds.imp (holds_mono hroom hnode) (anyHolds_mono hroom hmore)

end

end Node

/-! ## Clause sequences -/

theorem Legacy.foldl_extend_mono {steps : Legacy}
    (hkeeps : KeepsPlaced (steps.map LegacyStep.clause) before after)
    {earlier later : Bool} (hverdict : earlier = true → later = true)
    (hholds : steps.foldl (LegacyStep.extend before) earlier = true) :
    steps.foldl (LegacyStep.extend after) later = true := by
  induction steps generalizing earlier later with
  | nil => exact hverdict hholds
  | cons step more ih =>
      obtain ⟨hclause, hmore⟩ := hkeeps.cons
      refine ih hmore ?_ hholds
      rw [LegacyStep.extend_eq_combine, LegacyStep.extend_eq_combine]
      exact Operator.combine_mono hverdict hclause

theorem Legacy.holds_mono {steps : Legacy}
    (hkeeps : KeepsPlaced (steps.map LegacyStep.clause) before after)
    (hholds : steps.holds before = true) : steps.holds after = true := by
  cases steps with
  | nil => rfl
  | cons first more =>
      obtain ⟨hclause, hmore⟩ := hkeeps.cons
      exact foldl_extend_mono hmore hclause hholds

/-! ## Checks and rules -/

/-- Every clause of a check, in whichever format it stands. -/
def Check.clauses (check : Check) : List Clause :=
  (match check.expression with
    | some (.tree root) => root.leaves
    | some (.legacy steps) => steps.map LegacyStep.clause
    | none => []) ++ check.requiredPlacements

/-- Every clause of the rules. -/
def Rules.clauses (rules : Rules) : List Clause :=
  rules.checks.flatMap Check.clauses

theorem Clause.all_holds_mono {clauses : List Clause}
    (hkeeps : KeepsPlaced clauses before after)
    (hholds : (clauses.all fun clause => clause.holds before) = true) :
    (clauses.all fun clause => clause.holds after) = true := by
  rw [List.all_eq_true] at hholds ⊢
  intro clause hclause
  exact hkeeps.holds hclause (hholds clause hclause)

theorem Check.holds_mono {limit larger : Nat} (hlimit : limit ≤ larger) {check : Check}
    (hkeeps : KeepsPlaced check.clauses before after)
    (hholds : check.holds limit before = true) : check.holds larger after = true := by
  obtain ⟨aim, connectedRequired, expression, required⟩ := check
  obtain ⟨hexpression, hrequired⟩ := hkeeps.append
  rcases expression with _ | ⟨_ | ⟨first, more⟩⟩ | root
  · exact Clause.all_holds_mono hrequired hholds
  · exact Clause.all_holds_mono hrequired hholds
  · exact Legacy.holds_mono hexpression hholds
  · exact Node.holds_mono (by omega) hexpression hholds

theorem Check.passes_mono {limit larger : Nat} (hlimit : limit ≤ larger) {check : Check}
    (hkeeps : KeepsPlaced check.clauses before after) {connected linked : Bool}
    (hconnected : connected = true → linked = true)
    (hpasses : check.passes limit before connected = true) :
    check.passes larger after linked = true := by
  rw [Check.passes, Bool.and_eq_true, Bool.or_eq_true] at hpasses ⊢
  exact hpasses.imp (Check.holds_mono hlimit hkeeps) (Or.imp id hconnected)

theorem Rules.evaluate_improves {limit larger : Nat} (hlimit : limit ≤ larger)
    {rules : Rules} (hkeeps : KeepsPlaced rules.clauses before after)
    {connected linked : Bool} (hconnected : connected = true → linked = true) :
    (rules.evaluate limit before connected).Improves
      (rules.evaluate larger after linked) := by
  rw [evaluate_eq_ofVerdicts, evaluate_eq_ofVerdicts]
  apply Outcome.Improves.ofVerdicts
  intro check hcheck
  have hclauses : check.clauses ⊆ rules.clauses :=
    fun clause hclause => List.mem_flatMap.mpr ⟨check, hcheck, hclause⟩
  exact Check.passes_mono hlimit (hkeeps.subset hclauses) hconnected

end

/--
If every pair of the rules that is placed before is placed after, and connecting is
not undone, then the outcomes have the same aims in the same order, what passed goes
on passing, and nothing fails that had not failed.  If moreover the same pairs of the
rules are placed and the connection is the same, the outcomes are equal.
-/
theorem Rules.evaluate_follows_own_pairs (limit : Nat) (rules : Rules)
    (before after : List Placement) (connected linked : Bool)
    (hkeeps : ∀ clause ∈ rules.clauses, clause.device ≠ "" → clause.anchor ≠ "" →
      ⟨clause.device, clause.anchor⟩ ∈ before → ⟨clause.device, clause.anchor⟩ ∈ after)
    (hconnected : connected = true → linked = true) :
    let earlier := (CompiledRules.ofRules limit rules).evaluate before connected
    let later := (CompiledRules.ofRules limit rules).evaluate after linked
    later.aims = earlier.aims ∧
    (∀ aim, earlier.get? aim = some true → later.get? aim = some true) ∧
    later.failed.Sublist earlier.failed ∧
    (earlier.passedAll = true → later.passedAll = true) ∧
    (connected = linked →
      (∀ clause ∈ rules.clauses, clause.device ≠ "" → clause.anchor ≠ "" →
        ⟨clause.device, clause.anchor⟩ ∈ after →
          ⟨clause.device, clause.anchor⟩ ∈ before) →
      later = earlier) := by
  intro earlier later
  have himproves : earlier.Improves later :=
    Rules.evaluate_improves (Nat.le_refl limit) (KeepsPlaced.of_forall hkeeps) hconnected
  refine ⟨himproves.aims_eq, ?_, himproves.failed_sublist, himproves.passedAll, ?_⟩
  · intro aim
    exact himproves.get?_eq_some_true
  · intro hsame hback
    have hconnected' : linked = true → connected = true := by
      rw [hsame]
      exact id
    exact himproves.antisymm (Rules.evaluate_improves (Nat.le_refl limit)
      (KeepsPlaced.of_forall hback) hconnected')

/-- More placements, in another order, repeated, and with some that no rule mentions. -/
theorem Rules.evaluate_follows_own_pairs_reordered :
    let tree := Node.group .or [.clause ⟨"lamp", "desk"⟩,
      .group .and [.clause ⟨"fan", "hall"⟩, .clause ⟨"", "desk"⟩]]
    let rules : Rules :=
      { checks :=
          [(Check.ofAim "light").withTree tree,
            { aim := "air", requiredPlacements := [⟨"fan", "hall"⟩] },
            { aim := "light", connectedRequired := true,
              expression := some (.legacy [⟨some .or, ⟨"lamp", "desk"⟩⟩,
                ⟨none, ⟨"fan", "hall"⟩⟩]) }] }
    let before : List Placement := [⟨"fan", "hall"⟩, ⟨"", "desk"⟩]
    let after : List Placement :=
      [⟨"lamp", "desk"⟩, ⟨"lamp", "shelf"⟩, ⟨"fan", "hall"⟩, ⟨"lamp", "desk"⟩]
    let compiled := CompiledRules.ofRules 1 rules
    compiled.evaluate before true = ⟨[("light", false), ("air", true)]⟩ ∧
    (compiled.evaluate after true).get? "air" = some true ∧
    (compiled.evaluate after true).failed.Sublist ["light"] ∧
    compiled.evaluate after.reverse true = compiled.evaluate after true := by
  intro tree rules before after compiled
  have hbefore : compiled.evaluate before true =
      ⟨[("light", false), ("air", true)]⟩ := rfl
  have hmore := evaluate_follows_own_pairs 1 rules before after true true
    (by decide) id
  have hreversed := evaluate_follows_own_pairs 1 rules after after.reverse true true
    (by decide) id
  obtain ⟨-, hpassed, hfailed, -⟩ := hmore
  obtain ⟨-, -, -, -, hsame⟩ := hreversed
  exact ⟨hbefore, hpassed "air" rfl, hfailed, hsame rfl (by decide)⟩

end PlacementRules
