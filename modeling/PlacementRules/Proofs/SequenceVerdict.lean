import PlacementRules.Proofs.Reporting

/-!
# The verdict of a clause sequence

A sequence holds just if it holds from some step on: from the first step, or from one
that is an alternative to all before it.  Alternatives behind that step take nothing
away, so only the others behind it must be placed.
-/

namespace PlacementRules

theorem Clause.holds_iff {placements : List Placement} {clause : Clause} :
    clause.holds placements = true ↔
      clause.device ≠ "" ∧ clause.anchor ≠ "" ∧
        ⟨clause.device, clause.anchor⟩ ∈ placements := by
  simp [Clause.holds, and_assoc]

/-- The step leaves a verdict that holds as it is. -/
def LegacyStep.Keeps (placements : List Placement) (step : LegacyStep) : Prop :=
  step.operator ≠ some .or → step.clause.holds placements = true

theorem LegacyStep.extend_eq_true_iff {placements : List Placement} {verdict : Bool}
    {step : LegacyStep} :
    step.extend placements verdict = true ↔
      (verdict = true ∧ step.Keeps placements) ∨
        (step.operator = some .or ∧ step.clause.holds placements = true) := by
  obtain ⟨operator, clause⟩ := step
  cases operator with
  | none => simp [extend, Keeps]
  | some operator =>
      cases operator with
      | and => simp [extend, Keeps]
      | or => simp [extend, Keeps]

namespace Legacy

variable {placements : List Placement}

/-- The step at `index` is an alternative that is placed, and the later steps keep that. -/
def HoldsFrom (placements : List Placement) (steps : Legacy) (index : Nat) : Prop :=
  ∃ step, steps[index]? = some step ∧ step.operator = some .or ∧
    step.clause.holds placements = true ∧
    ∀ later ∈ steps.drop (index + 1), later.Keeps placements

theorem holdsFrom_cons_zero {step : LegacyStep} {more : Legacy} :
    HoldsFrom placements (step :: more) 0 ↔
      (step.operator = some .or ∧ step.clause.holds placements = true) ∧
        ∀ later ∈ more, later.Keeps placements := by
  simp [HoldsFrom, and_assoc]

theorem holdsFrom_cons_succ {step : LegacyStep} {more : Legacy} {index : Nat} :
    HoldsFrom placements (step :: more) (index + 1) ↔ HoldsFrom placements more index := by
  simp [HoldsFrom]

theorem exists_holdsFrom_cons {step : LegacyStep} {more : Legacy} :
    (∃ index, HoldsFrom placements (step :: more) index) ↔
      ((step.operator = some .or ∧ step.clause.holds placements = true) ∧
          ∀ later ∈ more, later.Keeps placements) ∨
        ∃ index, HoldsFrom placements more index := by
  rw [← Nat.or_exists_add_one, holdsFrom_cons_zero]
  simp only [holdsFrom_cons_succ]

/-- A verdict that holds lasts to the end of the steps or is made by one of them. -/
theorem foldl_extend_eq_true_iff {verdict : Bool} {steps : Legacy} :
    steps.foldl (LegacyStep.extend placements) verdict = true ↔
      (verdict = true ∧ ∀ later ∈ steps, later.Keeps placements) ∨
        ∃ index, HoldsFrom placements steps index := by
  induction steps generalizing verdict with
  | nil => simp [HoldsFrom]
  | cons step more ih =>
      rw [List.foldl_cons, ih, LegacyStep.extend_eq_true_iff, exists_holdsFrom_cons,
        List.forall_mem_cons, or_and_right, or_assoc, and_assoc]

theorem forall_mem_drop_iff {steps : Legacy} {index : Nat} {property : LegacyStep → Prop} :
    (∀ later ∈ steps.drop (index + 1), property later) ↔
      ∀ (position : Nat) later, index < position → steps[position]? = some later →
        property later := by
  constructor
  · intro hlater position later hlt hposition
    apply hlater
    apply List.mem_of_getElem? (i := position - (index + 1))
    rw [List.getElem?_drop, ← hposition]
    congr 1
    omega
  · intro hlater later hmem
    obtain ⟨offset, hoffset⟩ := List.getElem?_of_mem hmem
    rw [List.getElem?_drop] at hoffset
    exact hlater (index + 1 + offset) later (by omega) hoffset

/-- The first step starts the verdict whatever its operator. -/
theorem holds_cons_iff {first : LegacyStep} {more : Legacy} :
    Legacy.holds placements (first :: more) = true ↔
      ∃ (index : Nat) (step : LegacyStep), (first :: more)[index]? = some step ∧
        (index = 0 ∨ step.operator = some .or) ∧ step.clause.holds placements = true ∧
        ∀ (position : Nat) later, index < position →
          (first :: more)[position]? = some later → later.Keeps placements := by
  simp only [← forall_mem_drop_iff]
  rw [Legacy.holds, foldl_extend_eq_true_iff]
  constructor
  · intro hverdict
    cases hverdict with
    | inl hfirst => exact ⟨0, first, rfl, .inl rfl, hfirst⟩
    | inr hlater =>
        obtain ⟨index, step, hstep, hor, hplaced, hkeep⟩ := hlater
        exact ⟨index + 1, step, hstep, .inr hor, hplaced, hkeep⟩
  · intro hfrom
    obtain ⟨index, step, hstep, hstart, hplaced, hkeep⟩ := hfrom
    cases index with
    | zero =>
        obtain rfl : first = step := Option.some.inj hstep
        exact .inl ⟨hplaced, hkeep⟩
    | succ index =>
        have hor := hstart.resolve_left (Nat.succ_ne_zero index)
        exact .inr ⟨index, step, hstep, hor, hplaced, hkeep⟩

end Legacy

/-! ## Checks with a sequence -/

namespace Check

variable {check : Check} {first : LegacyStep} {more : Legacy}

theorem holds_of_sequence (hsteps : check.expression = some (.legacy (first :: more)))
    (limit : Nat) (placements : List Placement) :
    check.holds limit placements = Legacy.holds placements (first :: more) := by
  rw [holds, hsteps]

theorem resolve_of_sequence (hsteps : check.expression = some (.legacy (first :: more)))
    (placements : List Placement) :
    check.resolve placements = Legacy.holds placements (first :: more) := by
  rw [resolve, Condition.holds_ofCheck, holds_of_sequence hsteps]

/--
A check with a clause sequence resolves just if some clause is placed that comes first
or is an alternative, and with it every later clause that is no alternative.  The
verdict is the same under every limit, the required placements and the operator of the
first clause play no part in it, and no report has an issue with the check.
-/
theorem sequence_resolves_iff (check : Check) (first : LegacyStep) (more : Legacy)
    (hsteps : check.expression = some (.legacy (first :: more)))
    (placements : List Placement) :
    (check.resolve placements = true ↔
      ∃ (index : Nat) (step : LegacyStep), (first :: more)[index]? = some step ∧
        (index = 0 ∨ step.operator = some .or) ∧
        (step.clause.device ≠ "" ∧ step.clause.anchor ≠ "" ∧
          ⟨step.clause.device, step.clause.anchor⟩ ∈ placements) ∧
        ∀ (position : Nat) later, index < position →
          (first :: more)[position]? = some later → later.operator ≠ some .or →
          later.clause.device ≠ "" ∧ later.clause.anchor ≠ "" ∧
            ⟨later.clause.device, later.clause.anchor⟩ ∈ placements) ∧
    (∀ limit connected,
      (Condition.ofCheck limit check).holds placements = check.resolve placements ∧
      (CompiledCheck.ofCheck limit check).passes placements connected =
        (check.resolve placements && (!check.connectedRequired || connected))) ∧
    (∀ operator clauses,
      { check with
        expression := some (.legacy ({ first with operator := operator } :: more))
        requiredPlacements := clauses }.resolve placements = check.resolve placements) ∧
    ∀ messages limit checks index, checks[index]? = some check →
      ∀ issue ∈ (Report.ofChecks messages limit checks).issues, issue.index ≠ index := by
  refine ⟨?_, ?_, ?_, ?_⟩
  · rw [resolve_of_sequence hsteps, Legacy.holds_cons_iff]
    simp only [LegacyStep.Keeps, Clause.holds_iff]
  · intro limit connected
    have hverdict :
        (Condition.ofCheck limit check).holds placements = check.resolve placements := by
      rw [Condition.holds_ofCheck, holds_of_sequence hsteps, resolve_of_sequence hsteps]
    refine ⟨hverdict, ?_⟩
    rw [← hverdict]
    rfl
  · intro operator clauses
    rw [resolve_of_sequence rfl, resolve_of_sequence hsteps]
    rfl
  · intro messages limit checks index hcheck issue hmem hindex
    rw [Report.ofChecks_eq] at hmem
    obtain ⟨other, root, hother, htree, _⟩ := exists_tree_of_mem_issues hmem
    rw [hindex, hcheck] at hother
    obtain rfl : check = other := Option.some.inj hother
    rw [hsteps] at htree
    cases htree

/-- The third clause carries the verdict: one before it is incomplete, one behind fails. -/
theorem sequence_resolves_from_alternative :
    let first : LegacyStep := ⟨none, ⟨"lamp", "desk"⟩⟩
    let more : Legacy :=
      [⟨some .and, ⟨"", "desk"⟩⟩, ⟨some .or, ⟨"plug", "wall"⟩⟩,
        ⟨none, ⟨"fan", "hall"⟩⟩, ⟨some .or, ⟨"heater", "attic"⟩⟩]
    let check : Check :=
      { aim := "light", expression := some (.legacy (first :: more)),
        requiredPlacements := [⟨"door", "hall"⟩] }
    let placements : List Placement := [⟨"fan", "hall"⟩, ⟨"plug", "wall"⟩]
    check.expression = some (.legacy (first :: more)) ∧
      check.resolve placements = true ∧
      (Condition.ofCheck 0 check).holds placements = true ∧
      (∀ issue ∈ (Report.ofChecks .english 0 [check]).issues, issue.index ≠ 0) := by
  intro first more check placements
  have hsteps : check.expression = some (.legacy (first :: more)) := rfl
  obtain ⟨hresolves, hlimit, _, hreport⟩ :=
    sequence_resolves_iff check first more hsteps placements
  have hholds : check.resolve placements = true := by
    refine hresolves.mpr ⟨2, ⟨some .or, ⟨"plug", "wall"⟩⟩, rfl, .inr rfl, by decide, ?_⟩
    intro position later hlt hposition hnot
    match position with
    | 3 =>
        obtain rfl : ⟨none, ⟨"fan", "hall"⟩⟩ = later := Option.some.inj hposition
        decide
    | 4 =>
        obtain rfl : ⟨some .or, ⟨"heater", "attic"⟩⟩ = later := Option.some.inj hposition
        exact absurd rfl hnot
    | position + 5 => simp [first, more] at hposition
  refine ⟨hsteps, hholds, ?_, hreport .english 0 [check] 0 rfl⟩
  rw [(hlimit 0 true).1, hholds]

end Check

end PlacementRules
