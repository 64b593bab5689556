import PlacementRules.Proofs.Monotone
import PlacementRules.Proofs.Refusal

/-!
# The depth limit only fails

A larger limit keeps every pass, and every tree fits under some limit.  So what passes
under a limit passes without one: the limit can turn a pass into a fail, but never a
fail into a pass.
-/

namespace PlacementRules

/-! ## A limit that is large enough -/

/-- Bounds for the members of a list, upward closed each, give one bound for all. -/
theorem exists_limit_forall_mem {α : Type} {fits : Nat → α → Prop}
    (hmono : ∀ limit larger item, limit ≤ larger → fits limit item → fits larger item)
    {items : List α} (heach : ∀ item ∈ items, ∃ limit, fits limit item) :
    ∃ limit, ∀ item ∈ items, fits limit item := by
  induction items with
  | nil => exact ⟨0, fun item hitem => absurd hitem List.not_mem_nil⟩
  | cons first more ih =>
      obtain ⟨hfirst, hmore⟩ := List.forall_mem_cons.mp heach
      obtain ⟨limit, hlimit⟩ := hfirst
      obtain ⟨other, hother⟩ := ih hmore
      refine ⟨max limit other, List.forall_mem_cons.mpr ⟨?_, ?_⟩⟩
      · exact hmono limit _ first (Nat.le_max_left limit other) hlimit
      · intro item hitem
        exact hmono other _ item (Nat.le_max_right limit other) (hother item hitem)

theorem Node.exists_fitsWithin (depth : Nat) (node : Node) :
    ∃ limit, node.FitsWithin limit depth := by
  cases node with
  | clause leaf => exact ⟨0, fitsWithin_of_not_isGroup 0 depth rfl⟩
  | unknown => exact ⟨0, fitsWithin_of_not_isGroup 0 depth rfl⟩
  | group operator members =>
      have heach : ∀ child ∈ members, ∃ limit, child.FitsWithin limit (depth + 1) :=
        fun child _ => exists_fitsWithin (depth + 1) child
      obtain ⟨limit, hlimit⟩ := exists_limit_forall_mem
        (fun _ _ _ hle hfits => hfits.mono (by omega)) heach
      refine ⟨max depth limit, fitsWithin_group.mpr ⟨Nat.le_max_left depth limit, ?_⟩⟩
      intro child hchild
      exact (hlimit child hchild).mono (by omega)

/-- A tree that holds under some limit holds without one. -/
theorem Node.holdsUnlimited_of_holds {placements : List Placement} {limit depth : Nat}
    {node : Node} (hholds : node.holds limit placements depth = true) :
    node.holdsUnlimited placements = true := by
  obtain ⟨enough, henough⟩ := node.exists_fitsWithin depth
  have hfits : node.FitsWithin (max limit enough) depth := henough.mono (by omega)
  rw [← holds_of_fitsWithin placements hfits]
  exact holds_mono (by omega) (KeepsPlaced.refl _ _) hholds

theorem Check.exists_not_nestsBeyond (check : Check) :
    ∃ limit, ¬ check.NestsBeyond limit := by
  simp only [not_nestsBeyond_iff]
  rcases hexpression : check.expression with _ | _ | root
  · exact ⟨0, by simp⟩
  · exact ⟨0, by simp⟩
  · obtain ⟨limit, hlimit⟩ := root.exists_fitsWithin 0
    refine ⟨limit, ?_⟩
    intro other hother
    obtain rfl : root = other := by simpa using hother
    exact hlimit

theorem Rules.exists_forall_not_nestsBeyond (rules : Rules) :
    ∃ limit, ∀ check ∈ rules.checks, ¬ check.NestsBeyond limit :=
  exists_limit_forall_mem (fun _ _ _ hle hfits hbeyond => hfits (hbeyond.anti hle))
    fun check _ => check.exists_not_nestsBeyond

/-! ## Under a limit and without one -/

theorem Rules.evaluate_improves_evaluateUnlimited (limit : Nat) (rules : Rules)
    (placements : List Placement) (connected : Bool) :
    (rules.evaluate limit placements connected).Improves
      (rules.evaluateUnlimited placements connected) := by
  obtain ⟨enough, henough⟩ := rules.exists_forall_not_nestsBeyond
  have hfits : ∀ check ∈ rules.checks, ¬ check.NestsBeyond (max limit enough) := by
    intro check hcheck hbeyond
    exact henough check hcheck (hbeyond.anti (Nat.le_max_right limit enough))
  rw [← evaluate_eq_evaluateUnlimited placements connected hfits]
  exact evaluate_improves (Nat.le_max_left limit enough) (KeepsPlaced.refl _ _) id

theorem Check.not_nestsBeyond_of_not_tree {check : Check}
    (hformat : ∀ root, check.expression ≠ some (.tree root)) (limit : Nat) :
    ¬ check.NestsBeyond limit := by
  rintro ⟨root, hroot, -⟩
  exact hformat root hroot

/--
The depth limit fails groups and lets nothing through.  Under a larger limit the aims
are the same and what passed goes on passing; a limit that no group of the rules
exceeds gives the outcome without any, so what passes under a limit passes without
one.  On checks whose expression is no tree the limit has no effect.
-/
theorem Rules.limit_only_fails (rules : Rules) (placements : List Placement)
    (connected : Bool) :
    (∀ limit larger, limit ≤ larger →
      let tight := (CompiledRules.ofRules limit rules).evaluate placements connected
      let loose := (CompiledRules.ofRules larger rules).evaluate placements connected
      loose.aims = tight.aims ∧
        ∀ aim, tight.get? aim = some true → loose.get? aim = some true) ∧
    (∀ limit,
      (∀ check ∈ rules.checks, ∀ root, check.expression = some (.tree root) →
        ∀ depth, root.HasGroupAt depth → depth ≤ limit) →
      (CompiledRules.ofRules limit rules).evaluate placements connected =
        rules.evaluateUnlimited placements connected) ∧
    (∀ limit aim,
      ((CompiledRules.ofRules limit rules).evaluate placements connected).get? aim =
          some true →
        (rules.evaluateUnlimited placements connected).get? aim = some true) ∧
    (∀ check : Check, (∀ root, check.expression ≠ some (.tree root)) →
      ∀ limit larger,
        (CompiledCheck.ofCheck limit check).passes placements connected =
          (CompiledCheck.ofCheck larger check).passes placements connected) := by
  refine ⟨?_, ?_, ?_, ?_⟩
  · intro limit larger hlarger tight loose
    have himproves : tight.Improves loose :=
      evaluate_improves hlarger (KeepsPlaced.refl _ _) id
    exact ⟨himproves.aims_eq, fun aim => himproves.get?_eq_some_true⟩
  · intro limit hdeepest
    apply evaluate_eq_evaluateUnlimited
    intro check hcheck
    rintro ⟨root, hroot, depth, hbeyond, hgroup⟩
    exact absurd (hdeepest check hcheck root hroot depth hgroup)
      (Nat.not_le.mpr hbeyond)
  · intro limit aim
    exact (evaluate_improves_evaluateUnlimited limit rules placements
      connected).get?_eq_some_true
  · intro check hformat limit larger
    have hfits := Check.not_nestsBeyond_of_not_tree hformat
    rw [CompiledCheck.passes_ofCheck, CompiledCheck.passes_ofCheck,
      Check.passes_of_not_nestsBeyond placements connected (hfits limit),
      Check.passes_of_not_nestsBeyond placements connected (hfits larger)]

/-- An empty group two levels down, failed under one level and met under two. -/
theorem Rules.limit_only_fails_nested :
    let tree := Node.group .or [.clause ⟨"fan", "hall"⟩, .group .and [.group .or []]]
    let sequence := (Check.ofAim "air").withLegacy
      [⟨some .or, ⟨"lamp", "desk"⟩⟩, ⟨some .or, ⟨"fan", "hall"⟩⟩]
    let rules : Rules := { checks := [(Check.ofAim "light").withTree tree, sequence] }
    let placements : List Placement := [⟨"lamp", "desk"⟩]
    let outcome (limit : Nat) :=
      (CompiledRules.ofRules limit rules).evaluate placements false
    outcome 1 = ⟨[("light", false), ("air", true)]⟩ ∧
    (outcome 7).aims = ["light", "air"] ∧ (outcome 7).get? "air" = some true ∧
    outcome 2 = rules.evaluateUnlimited placements false ∧
    (rules.evaluateUnlimited placements false).get? "air" = some true ∧
    (CompiledCheck.ofCheck 0 sequence).passes placements false =
      (CompiledCheck.ofCheck 7 sequence).passes placements false := by
  intro tree sequence rules placements outcome
  obtain ⟨hlarger, hdeepest, hunlimited, hformat⟩ :=
    limit_only_fails rules placements false
  have hfits : ∀ check ∈ rules.checks, ¬ check.NestsBeyond 2 :=
    Check.isOk_validate_iff.mp rfl
  have hdepth : ∀ check ∈ rules.checks, ∀ root, check.expression = some (.tree root) →
      ∀ depth, root.HasGroupAt depth → depth ≤ 2 := by
    intro check hcheck root hroot depth hgroup
    have hbelow := Check.not_nestsBeyond_iff.mp (hfits check hcheck) root hroot depth hgroup
    omega
  obtain ⟨haims, hpassed⟩ := hlarger 1 7 (by decide)
  have hair : (outcome 1).get? "air" = some true := rfl
  exact ⟨rfl, haims, hpassed "air" hair, hdeepest 2 hdepth, hunlimited 1 "air" hair,
    hformat sequence (by simp [sequence, Check.withLegacy]) 0 7⟩

end PlacementRules
