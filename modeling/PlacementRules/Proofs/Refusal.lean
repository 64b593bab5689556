import PlacementRules.Proofs.Compilation
import PlacementRules.Proofs.Unlimited

/-!
# When evaluation is refused

Rules are refused just when a check nests groups beyond the limit.  Rules that are
not refused lose nothing to the limit, and their outcome is the one without any.
-/

namespace PlacementRules

/-! ## What a report finds -/

namespace Node

mutual

theorem overflowFrom_eq_nil_iff {limit depth : Nat} {path : String} {node : Node} :
    node.overflowFrom limit path depth = [] ↔ node.FitsWithin limit depth := by
  match node with
  | .clause _ | .unknown =>
      simpa [overflowFrom] using fitsWithin_of_not_isGroup limit depth rfl
  | .group operator members =>
      rw [fitsWithin_group]
      -- The members of a group that lies too deep are not looked at.
      by_cases hdeep : limit < depth
      · simp [overflowFrom, hdeep, Nat.not_le.mpr hdeep]
      · have hdepth : depth ≤ limit := Nat.not_lt.mp hdeep
        rw [overflowFrom, if_neg hdeep, overflowMembers_eq_nil_iff]
        simp [hdepth]

theorem overflowMembers_eq_nil_iff {limit depth index : Nat} {path : String}
    {nodes : List Node} :
    overflowMembers limit path depth index nodes = [] ↔
      ∀ node ∈ nodes, node.FitsWithin limit (depth + 1) := by
  match nodes with
  | [] => simp [overflowMembers]
  | node :: more =>
      rw [overflowMembers, List.append_eq_nil_iff, overflowFrom_eq_nil_iff,
        overflowMembers_eq_nil_iff, List.forall_mem_cons]

end

end Node

namespace Check

theorem overflow_eq_nil_iff {limit : Nat} {check : Check} :
    check.overflow limit = [] ↔ ¬ check.NestsBeyond limit := by
  rw [not_nestsBeyond_iff, overflow, root?]
  rcases hexpression : check.expression with _ | _ | root
  · simp
  · simp
  · simpa [Node.overflow] using Node.overflowFrom_eq_nil_iff

theorem issue?_eq_none_iff {limit index : Nat} {check : Check} :
    check.issue? limit index = none ↔ ¬ check.NestsBeyond limit := by
  rw [← overflow_eq_nil_iff, issue?]
  cases check.overflow limit <;> simp

theorem issues_eq_nil_iff {limit : Nat} {checks : List Check} :
    issues limit checks = [] ↔ ∀ check ∈ checks, ¬ check.NestsBeyond limit := by
  rw [issues, List.filterMap_eq_nil_iff]
  constructor
  · intro hnone check hcheck
    obtain ⟨index, hindex⟩ := List.getElem?_of_mem hcheck
    have hentry := List.mk_mem_zipIdx_iff_getElem?.mpr hindex
    exact issue?_eq_none_iff.mp (hnone (check, index) hentry)
  · intro hfits entry hentry
    exact issue?_eq_none_iff.mpr (hfits entry.1 (List.fst_mem_of_mem_zipIdx hentry))

end Check

/-- Whatever its words, a report has nothing to say if no check nests too deeply. -/
theorem Report.isOk_ofChecks_iff {messages : Messages} {limit : Nat}
    {checks : List Check} :
    (Report.ofChecks messages limit checks).isOk = true ↔
      ∀ check ∈ checks, ¬ check.NestsBeyond limit := by
  rw [← Check.issues_eq_nil_iff, ofChecks]
  cases Check.issues limit checks <;> simp

theorem Check.isOk_validate_iff {limit : Nat} {checks : List Check} :
    (Check.validate limit checks).isOk = true ↔
      ∀ check ∈ checks, ¬ check.NestsBeyond limit :=
  Report.isOk_ofChecks_iff

/-! ## What evaluation makes of it -/

namespace Rules

variable {limit : Nat} {rules : Rules}

theorem evaluate_eq_evaluateUnlimited (placements : List Placement) (connected : Bool)
    (hfits : ∀ check ∈ rules.checks, ¬ check.NestsBeyond limit) :
    rules.evaluate limit placements connected =
      rules.evaluateUnlimited placements connected := by
  rw [evaluate_eq_ofVerdicts, evaluateUnlimited]
  congr 1
  apply List.map_congr_left
  intro check hcheck
  rw [Check.passes_of_not_nestsBeyond placements connected (hfits check hcheck)]

theorem exists_nestsBeyond_iff :
    (∃ check ∈ rules.checks, check.NestsBeyond limit) ↔
      (Check.validate limit rules.checks).isOk = false := by
  rw [← Bool.not_eq_true, Check.isOk_validate_iff]
  simp

theorem evaluateValidated_eq_error_iff {placements : List Placement} {connected : Bool}
    {report : Report} :
    rules.evaluateValidated limit placements connected = .error report ↔
      report = Check.validate limit rules.checks ∧
        ∃ check ∈ rules.checks, check.NestsBeyond limit := by
  rw [exists_nestsBeyond_iff, evaluateValidated]
  cases (Check.validate limit rules.checks).isOk with
  | true => simp
  | false => simp [eq_comm]

theorem evaluateValidated_eq_ok_iff {placements : List Placement} {connected : Bool}
    {outcome : Outcome} :
    rules.evaluateValidated limit placements connected = .ok outcome ↔
      outcome = rules.evaluate limit placements connected ∧
        ∀ check ∈ rules.checks, ¬ check.NestsBeyond limit := by
  rw [← Check.isOk_validate_iff, evaluateValidated]
  cases (Check.validate limit rules.checks).isOk with
  | true => simp [eq_comm]
  | false => simp

end Rules

/--
Evaluation is refused just when the tree of some check has a group with more groups
above it than the limit.  The report is the one on the checks alone, so placements
play no part in it, and a smaller limit refuses as well.  An outcome that is given
is the one under every larger limit, and the one without any.
-/
theorem Rules.evaluateValidated_refuses_exactly (limit : Nat) (rules : Rules)
    (placements : List Placement) (connected : Bool) :
    ((∃ report, rules.evaluateValidated limit placements connected = .error report) ↔
      ∃ check ∈ rules.checks, ∃ root, check.expression = some (.tree root) ∧
        ∃ depth, limit < depth ∧ root.HasGroupAt depth) ∧
    (∀ report, rules.evaluateValidated limit placements connected = .error report →
      report = Check.validate limit rules.checks ∧
      (∀ others linked,
        rules.evaluateValidated limit others linked = .error report) ∧
      ∀ smaller, smaller ≤ limit → ∃ earlier,
        rules.evaluateValidated smaller placements connected = .error earlier) ∧
    (∀ outcome, rules.evaluateValidated limit placements connected = .ok outcome →
      (∀ check ∈ rules.checks, ∀ root, check.expression = some (.tree root) →
        root.FitsWithin limit 0) ∧
      (∀ larger, limit ≤ larger →
        (CompiledRules.ofRules larger rules).evaluate placements connected = outcome) ∧
      outcome = rules.evaluateUnlimited placements connected) := by
  refine ⟨?_, ?_, ?_⟩
  · simp only [evaluateValidated_eq_error_iff, exists_eq_left]
    rfl
  · intro report hrefused
    obtain ⟨hreport, hdeep⟩ := evaluateValidated_eq_error_iff.mp hrefused
    refine ⟨hreport, ?_, ?_⟩
    · intro others linked
      exact evaluateValidated_eq_error_iff.mpr ⟨hreport, hdeep⟩
    · intro smaller hsmaller
      obtain ⟨check, hcheck, hbeyond⟩ := hdeep
      exact ⟨_, evaluateValidated_eq_error_iff.mpr
        ⟨rfl, check, hcheck, hbeyond.anti hsmaller⟩⟩
  · intro outcome hgiven
    obtain ⟨rfl, hfits⟩ := evaluateValidated_eq_ok_iff.mp hgiven
    have hfull := evaluate_eq_evaluateUnlimited placements connected hfits
    refine ⟨?_, ?_, hfull⟩
    · intro check hcheck
      exact Check.not_nestsBeyond_iff.mp (hfits check hcheck)
    · intro larger hlarger
      have hfits' : ∀ check ∈ rules.checks, ¬ check.NestsBeyond larger := by
        intro check hcheck hbeyond
        exact hfits check hcheck (hbeyond.anti hlarger)
      exact (evaluate_eq_evaluateUnlimited placements connected hfits').trans hfull.symm

/-- A tree with a group two levels down, refused under one level and given under two. -/
theorem Rules.evaluateValidated_refuses_nested :
    let tree := Node.group .or [.unknown, .group .and [.group .or [.clause ⟨"lamp", "desk"⟩]]]
    let rules : Rules :=
      { checks :=
          [(Check.ofAim "heat").withLegacy [⟨none, ⟨"lamp", "desk"⟩⟩, ⟨none, ⟨"fan", "hall"⟩⟩],
            (Check.ofAim "light").withTree tree] }
    let placements : List Placement := [⟨"lamp", "desk"⟩]
    let outcome : Outcome := ⟨[("heat", false), ("light", true)]⟩
    rules.evaluateValidated 1 placements true =
      .error (Check.validate 1 rules.checks) ∧
    (∃ report, rules.evaluateValidated 0 placements true = .error report) ∧
    rules.evaluateValidated 2 placements true = .ok outcome ∧
    (CompiledRules.ofRules 7 rules).evaluate placements true = outcome ∧
    outcome = rules.evaluateUnlimited placements true := by
  intro tree rules placements outcome
  have hrefused : rules.evaluateValidated 1 placements true =
      .error (Check.validate 1 rules.checks) := rfl
  have hgiven : rules.evaluateValidated 2 placements true = .ok outcome := rfl
  obtain ⟨-, hrefusal, -⟩ := evaluateValidated_refuses_exactly 1 rules placements true
  obtain ⟨-, -, houtcome⟩ := evaluateValidated_refuses_exactly 2 rules placements true
  obtain ⟨-, -, hsmaller⟩ := hrefusal _ hrefused
  obtain ⟨-, hlarger, hunlimited⟩ := houtcome outcome hgiven
  exact ⟨hrefused, hsmaller 0 (by decide), hgiven, hlarger 7 (by decide), hunlimited⟩

end PlacementRules
