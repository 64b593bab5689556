import PlacementRules.Document.Rules
import PlacementRules.Proofs.Overflow
import PlacementRules.Proofs.Refusal

/-!
# What a report lists

A report has one issue for each check that nests groups too deeply, at the position
of that check, and one sentence for each issue.  Which words it uses decides nothing
but its message, and no issue is left without a place to name.
-/

namespace PlacementRules

/-! ## One issue for each faulty check -/

namespace Check

theorem overflow_ne_nil_iff {limit : Nat} {check : Check} :
    check.overflow limit ≠ [] ↔ check.NestsBeyond limit := by
  by_cases hnests : check.NestsBeyond limit
  · simp [overflow_eq_nil_iff, hnests]
  · simp [overflow_eq_nil_iff, hnests]

/-- Only a tree has groups to overflow the limit. -/
theorem exists_tree_of_overflow_ne_nil {limit : Nat} {check : Check}
    (hoverflow : check.overflow limit ≠ []) :
    ∃ root, check.expression = some (.tree root) ∧
      check.overflow limit = root.overflow limit := by
  rw [overflow, root?] at hoverflow
  cases hexpression : check.expression with
  | none => simp [hexpression] at hoverflow
  | some expression =>
      cases expression with
      | legacy steps => simp [hexpression] at hoverflow
      | tree root =>
          refine ⟨root, rfl, ?_⟩
          rw [overflow, root?, hexpression]

theorem issue?_eq_some_iff {limit index : Nat} {check : Check} {issue : Issue} :
    check.issue? limit index = some issue ↔
      check.overflow limit ≠ [] ∧
        issue = ⟨if check.aim = "" then none else some check.aim, index,
          check.overflow limit⟩ := by
  rw [issue?]
  cases check.overflow limit with
  | nil => simp
  | cons first more =>
      rw [Option.some_inj]
      constructor
      · intro hissue
        exact ⟨List.cons_ne_nil first more, hissue.symm⟩
      · intro hboth
        exact hboth.2.symm

theorem index_of_issue? {limit index : Nat} {check : Check} {issue : Issue}
    (hissue : check.issue? limit index = some issue) : issue.index = index := by
  obtain ⟨_, rfl⟩ := issue?_eq_some_iff.mp hissue
  rfl

theorem mem_issues_iff {limit : Nat} {checks : List Check} {issue : Issue} :
    issue ∈ issues limit checks ↔
      ∃ check, checks[issue.index]? = some check ∧
        check.issue? limit issue.index = some issue := by
  rw [issues, List.mem_filterMap]
  constructor
  · intro hentry
    obtain ⟨⟨check, index⟩, hmem, hissue⟩ := hentry
    obtain rfl : issue.index = index := index_of_issue? hissue
    exact ⟨check, List.mk_mem_zipIdx_iff_getElem?.mp hmem, hissue⟩
  · intro hexists
    obtain ⟨check, hcheck, hissue⟩ := hexists
    exact ⟨(check, issue.index), List.mk_mem_zipIdx_iff_getElem?.mpr hcheck, hissue⟩

theorem pairwise_issues (limit : Nat) (checks : List Check) :
    (issues limit checks).Pairwise fun issue later => issue.index < later.index := by
  have hpositions : checks.zipIdx.Pairwise fun entry later => entry.2 < later.2 := by
    rw [← List.pairwise_map, List.zipIdx_map_snd]
    exact List.pairwise_lt_range' 1
  refine hpositions.filterMap _ ?_
  intro entry later hlt issue hissue next hnext
  rw [index_of_issue? hissue, index_of_issue? hnext]
  exact hlt

theorem exists_issue_iff {limit : Nat} {checks : List Check} {index : Nat} :
    (∃ issue ∈ issues limit checks, issue.index = index) ↔
      ∃ check, checks[index]? = some check ∧ check.NestsBeyond limit := by
  constructor
  · intro hexists
    obtain ⟨issue, hmem, rfl⟩ := hexists
    obtain ⟨check, hcheck, hissue⟩ := mem_issues_iff.mp hmem
    exact ⟨check, hcheck, overflow_ne_nil_iff.mp (issue?_eq_some_iff.mp hissue).1⟩
  · intro hexists
    obtain ⟨check, hcheck, hnests⟩ := hexists
    obtain ⟨issue, hissue⟩ : ∃ issue, check.issue? limit index = some issue :=
      ⟨_, issue?_eq_some_iff.mpr ⟨overflow_ne_nil_iff.mpr hnests, rfl⟩⟩
    obtain rfl : issue.index = index := index_of_issue? hissue
    exact ⟨issue, mem_issues_iff.mpr ⟨check, hcheck, hissue⟩, rfl⟩

theorem exists_tree_of_mem_issues {limit : Nat} {checks : List Check} {issue : Issue}
    (hmem : issue ∈ issues limit checks) :
    ∃ check root, checks[issue.index]? = some check ∧
      check.expression = some (.tree root) ∧
      issue.aim = (if check.aim = "" then none else some check.aim) ∧
      issue.violations = root.overflow limit ∧ issue.violations ≠ [] := by
  obtain ⟨check, hcheck, hissue⟩ := mem_issues_iff.mp hmem
  obtain ⟨hoverflow, hfields⟩ := issue?_eq_some_iff.mp hissue
  obtain ⟨root, htree, hroot⟩ := exists_tree_of_overflow_ne_nil hoverflow
  have hviolations : issue.violations = check.overflow limit := by rw [hfields]
  refine ⟨check, root, hcheck, htree, by rw [hfields], ?_, ?_⟩
  · rw [hviolations, hroot]
  · rw [hviolations]
    exact hoverflow

end Check

/-! ## The words -/

theorem Violation.path_ne_empty {limit : Nat} {root : Node} {violation : Violation}
    (hmem : violation ∈ root.overflow limit) : violation.path ≠ "" := by
  intro hempty
  obtain ⟨indices, hindices, _⟩ := Node.exists_indices_of_mem_overflow hmem
  have hnone : Node.indicesOfPath? "" = none := by decide
  rw [hempty, hnone] at hindices
  cases hindices

theorem Violation.pathsText_ne_empty {limit : Nat} {root : Node}
    (hoverflow : root.overflow limit ≠ []) :
    Violation.pathsText (root.overflow limit) ≠ "" := by
  obtain ⟨first, more, hviolations⟩ := List.exists_cons_of_ne_nil hoverflow
  have hmem : first ∈ root.overflow limit := by
    rw [hviolations]
    exact List.mem_cons_self
  have hfirst := Violation.path_ne_empty hmem
  rw [hviolations, Violation.pathsText]
  cases more with
  | nil => simpa using hfirst
  | cons second more => simp [String.intercalate_cons_cons]

/-- An issue has places to name, so nothing else has to stand for them. -/
theorem Issue.sentence_of_mem_issues (messages : Messages) {limit : Nat}
    {checks : List Check} {issue : Issue} (hmem : issue ∈ Check.issues limit checks) :
    issue.sentence messages =
      issue.aim.elim (messages.checkIssue (issue.index + 1) issue.pathsText)
        (messages.aimIssue · issue.pathsText) := by
  obtain ⟨_, root, _, _, _, hviolations, hnonempty⟩ := Check.exists_tree_of_mem_issues hmem
  rw [hviolations] at hnonempty
  have hpaths : issue.pathsText ≠ "" := by
    rw [Issue.pathsText, hviolations]
    exact Violation.pathsText_ne_empty hnonempty
  rw [Issue.sentence, if_neg hpaths]
  cases issue.aim <;> rfl

/-- A report is made of its issues, and has nothing to say without any. -/
theorem Report.ofChecks_eq (messages : Messages) (limit : Nat) (checks : List Check) :
    ofChecks messages limit checks =
      { isOk := (Check.issues limit checks).isEmpty
        issues := Check.issues limit checks
        message :=
          if Check.issues limit checks = [] then ""
          else " ".intercalate
            ((Check.issues limit checks).map (fun issue =>
                issue.aim.elim (messages.checkIssue (issue.index + 1) issue.pathsText)
                  (messages.aimIssue · issue.pathsText)) ++
              [messages.depthSummary limit]) } := by
  have hsentences : (Check.issues limit checks).map (Issue.sentence messages) = _ :=
    List.map_congr_left fun issue hmem => Issue.sentence_of_mem_issues messages hmem
  rw [← hsentences, ofChecks]
  cases Check.issues limit checks <;> simp

/-! ## The report as a whole -/

/--
A report lists, in order, one issue for each check whose tree has a group with more
groups above it than the limit, with the position and the aim of the check and with
the overflow of its tree.  It is fine if there is none, and then says nothing;
otherwise it says one sentence for each issue and a summary.  The words decide only
what it says, and no issue is without a place of its own.  If the checks were read
from a document, their positions are those of the entries, whatever these hold.
-/
theorem Report.lists_faulty_checks (messages : Messages) (limit : Nat)
    (checks : List Check) :
    let report := ofChecks messages limit checks
    report.issues.Pairwise (fun issue later => issue.index < later.index) ∧
    (∀ index, (∃ issue ∈ report.issues, issue.index = index) ↔
      ∃ check root, checks[index]? = some check ∧
        check.expression = some (.tree root) ∧
        ∃ depth, limit < depth ∧ root.HasGroupAt depth) ∧
    (∀ issue ∈ report.issues, ∃ check root, checks[issue.index]? = some check ∧
      check.expression = some (.tree root) ∧
      issue.aim = (if check.aim = "" then none else some check.aim) ∧
      issue.violations = root.overflow limit ∧ issue.violations ≠ []) ∧
    (report.isOk = true ↔ report.issues = []) ∧
    (report.isOk = true → report.message = "") ∧
    (report.isOk = false → report.message =
      " ".intercalate
        (report.issues.map (fun issue =>
            let paths := ", ".intercalate (issue.violations.map Violation.path)
            issue.aim.elim (messages.checkIssue (issue.index + 1) paths)
              (messages.aimIssue · paths)) ++
          [messages.depthSummary limit])) ∧
    (∀ others, (ofChecks others limit checks).issues = report.issues ∧
      (ofChecks others limit checks).isOk = report.isOk) ∧
    (∀ location,
      ofChecks { messages with unknownLocation := location } limit checks = report) ∧
    ∀ value items, value.get? "checks" = some (.array items) →
      ∃ rules, Rules.ofJson value = .ok rules ∧
        rules.checks = items.map Check.ofJson ∧
        ∀ index,
          (∃ issue ∈ (ofChecks messages limit rules.checks).issues, issue.index = index) ↔
            ∃ item root, items[index]? = some item ∧
              (Check.ofJson item).expression = some (.tree root) ∧
              ∃ depth, limit < depth ∧ root.HasGroupAt depth := by
  intro report
  have hreport : report = _ := ofChecks_eq messages limit checks
  have hissues : report.issues = Check.issues limit checks := by rw [hreport]
  have hok : report.isOk = true ↔ report.issues = [] := by
    rw [hreport]
    exact List.isEmpty_iff
  have hnests (loaded : List Check) (index : Nat) :
      (∃ issue ∈ (ofChecks messages limit loaded).issues, issue.index = index) ↔
        ∃ check root, loaded[index]? = some check ∧
          check.expression = some (.tree root) ∧
          ∃ depth, limit < depth ∧ root.HasGroupAt depth := by
    rw [ofChecks_eq, Check.exists_issue_iff]
    simp only [Check.NestsBeyond, exists_and_left]
  refine ⟨?_, hnests checks, ?_, hok, ?_, ?_, ?_, ?_, ?_⟩
  · rw [hissues]
    exact Check.pairwise_issues limit checks
  · intro issue hmem
    rw [hissues] at hmem
    exact Check.exists_tree_of_mem_issues hmem
  · intro hfine
    rw [hok, hissues] at hfine
    rw [hreport, hfine]
    rfl
  · intro hfaulty
    have hsome : Check.issues limit checks ≠ [] := by
      rw [← hissues, ne_eq, ← hok, hfaulty]
      simp
    rw [hissues, hreport]
    exact if_neg hsome
  · intro others
    rw [hreport, ofChecks_eq]
    exact ⟨rfl, rfl⟩
  · intro location
    rw [hreport, ofChecks_eq]
  · intro value items hitems
    obtain ⟨rules, hread, hchecks⟩ := Rules.exists_ofJson_of_items hitems
    refine ⟨rules, hread, hchecks, ?_⟩
    intro index
    rw [hnests, hchecks, List.getElem?_map]
    cases items[index]? <;> simp

/-- Two faulty entries, one of them without an aim, among entries that are no objects. -/
theorem Report.lists_faulty_checks_among_malformed_entries :
    let nested : Json :=
      .object [("type", .string "group"), ("children", .array
        [.null, .object [("type", .string "group")]])]
    let items : List Json :=
      [.null, .object [("expression", nested)], .string "lamp",
        .object [("aimId", .string "light"), ("expression", nested)]]
    let value : Json := .object [("checks", .array items)]
    value.get? "checks" = some (.array items) ∧
      ∃ rules, Rules.ofJson value = .ok rules ∧
        (∃ issue ∈ (ofChecks .english 0 rules.checks).issues, issue.index = 3) ∧
        (¬ ∃ issue ∈ (ofChecks .english 0 rules.checks).issues, issue.index = 2) ∧
        (ofChecks .english 0 rules.checks).message =
          "Check 2 has unsupported nested groups (0). " ++
          "Aim \"light\" has unsupported nested groups (0). " ++
          "Rules currently do not support subgroups." := by
  intro nested items value
  have hitems : value.get? "checks" = some (.array items) := rfl
  have hnested : Node.ofJson nested = .group .and [.group .and []] := by
    simp [nested, Node.ofJson_eq, Node.presentChildren, Json.getItems, Json.isNull,
      Json.array?, Json.getString?, Json.string?, Operator.ofJson?]
  have hentries : items.map Check.ofJson =
      [{}, (Check.ofAim "").withTree (.group .and [.group .and []]), {},
        (Check.ofAim "light").withTree (.group .and [.group .and []])] := by
    rw [← hnested]
    rfl
  obtain ⟨_, _, _, _, _, _, _, _, hloaded⟩ := lists_faulty_checks .english 0 []
  obtain ⟨rules, hread, hchecks, hpositions⟩ := hloaded value items hitems
  refine ⟨hitems, rules, hread, ?_, ?_, ?_⟩
  · rw [hpositions]
    have hgroup : (Node.group .and [.group .and []]).HasGroupAt 1 :=
      .member .and List.mem_cons_self (.root .and [])
    rw [← hnested] at hgroup
    exact ⟨_, _, rfl, rfl, 1, by decide, hgroup⟩
  · rw [hpositions]
    intro hexists
    obtain ⟨item, root, hitem, htree, _⟩ := hexists
    obtain rfl : Json.string "lamp" = item := Option.some.inj hitem
    cases htree
  · rw [hchecks, hentries]
    rfl

end PlacementRules
