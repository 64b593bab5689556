import PlacementRules.Proofs.CheckOrder
import PlacementRules.Proofs.Limits
import PlacementRules.Proofs.UsableFiles

/-!
# Exit codes

How the responses of commands on one scenario fit together.  A file that cannot be used
gives code 2 in every command that needs it.  Otherwise validation gives code 0 just
when evaluation is not refused, and where it is not refused, neither skipping validation
nor a larger limit makes a difference.
-/

namespace PlacementRules

/-! ## Responses -/

namespace Response

theorem verdictCode_eq_zero_iff {passed : Bool} :
    verdictCode passed = 0 ↔ passed = true := by
  cases passed <;> simp [verdictCode]

theorem verdictCode_eq_one_iff {passed : Bool} :
    verdictCode passed = 1 ↔ ¬ passed = true := by
  cases passed <;> simp [verdictCode]

theorem verdictCode_le_one (passed : Bool) : verdictCode passed ≤ 1 := by
  cases passed <;> simp [verdictCode]

theorem code_ofOutcome (format : OutputFormat) (outcome : Outcome) :
    (ofOutcome format outcome).code = verdictCode outcome.passedAll := rfl

theorem code_ofReport (format : OutputFormat) (report : Report) :
    (ofReport format report).code = verdictCode report.isOk := rfl

theorem code_refusing (format : OutputFormat) (report : Report) :
    (refusing format report).code = 1 := by
  cases format <;> rfl

end Response

namespace Command

variable {system : Surroundings} {file : String} {placements : Option String}

/-! ## Running a command -/

section

variable {format : OutputFormat} {connected skip : Bool} {limit : Nat}

theorem run_evaluate_of_placements_error {scenario : Scenario} {error : CommandError}
    (hload : LoadsScenario system.files file scenario)
    (herror : readPlacements system placements = .error error) :
    run system format (.evaluate file placements connected skip limit) =
      .ofError error := by
  rw [run, readScenario_eq_ok_iff.mpr hload]
  simp only [herror]

theorem run_evaluate_of_loads {scenario : Scenario} {list : List Placement}
    (hload : LoadsScenario system.files file scenario)
    (hread : ReadsPlacements system.files placements list) :
    run system format (.evaluate file placements connected skip limit) =
      evaluateScenario format skip limit connected list scenario := by
  rw [run, readScenario_eq_ok_iff.mpr hload]
  simp only [readPlacements_eq_ok_iff.mpr hread]

theorem run_validate_of_loads {scenario : Scenario}
    (hload : LoadsScenario system.files file scenario) :
    run system format (.validate file limit) =
      .ofReport format (Check.validate limit scenario.rules.checks) := by
  rw [run, readScenario_eq_ok_iff.mpr hload]

/-- Evaluation fails on a file, whatever its options, or it evaluates the scenario. -/
theorem run_evaluate_cases (system : Surroundings) (file : String) (placements : Option String) :
    (∃ error,
      ((¬ ∃ scenario, LoadsScenario system.files file scenario) ∨
        ¬ ∃ list, ReadsPlacements system.files placements list) ∧
      ∀ format connected skip limit,
        run system format (.evaluate file placements connected skip limit) =
          .ofError error) ∨
    ∃ scenario list, LoadsScenario system.files file scenario ∧
      ReadsPlacements system.files placements list := by
  cases hscenario : readScenario system file with
  | error error =>
      have hnone := exists_readScenario_error_iff.mp ⟨error, hscenario⟩
      exact .inl ⟨error, .inl hnone, fun _ _ _ _ =>
        run_evaluate_of_scenario_error hscenario⟩
  | ok scenario =>
      have hload := readScenario_eq_ok_iff.mp hscenario
      cases hplacements : readPlacements system placements with
      | error error =>
          have hnone := exists_readPlacements_error_iff.mp ⟨error, hplacements⟩
          exact .inl ⟨error, .inr hnone, fun _ _ _ _ =>
            run_evaluate_of_placements_error hload hplacements⟩
      | ok list =>
          exact .inr ⟨scenario, list, hload, readPlacements_eq_ok_iff.mp hplacements⟩

end

/-! ## Evaluating with and without validation -/

variable {limit : Nat} {scenario : Scenario} {list : List Placement} {connected : Bool}

theorem evaluateScenario_true (format : OutputFormat) (limit : Nat) (connected : Bool)
    (list : List Placement) (scenario : Scenario) :
    evaluateScenario format true limit connected list scenario =
      .ofOutcome format (scenario.rules.evaluate limit list connected) := rfl

theorem evaluateScenario_of_nestsBeyond (format : OutputFormat) (connected : Bool)
    (list : List Placement)
    (hdeep : ∃ check ∈ scenario.rules.checks, check.NestsBeyond limit) :
    evaluateScenario format false limit connected list scenario =
      .refusing format (Check.validate limit scenario.rules.checks) := by
  have hrefused : scenario.rules.evaluateValidated limit list connected =
      .error (Check.validate limit scenario.rules.checks) :=
    Rules.evaluateValidated_eq_error_iff.mpr ⟨rfl, hdeep⟩
  simp [evaluateScenario, hrefused]

/-- Rules that fit the limit are evaluated as if there were none, validated or not. -/
theorem evaluateScenario_of_fits (format : OutputFormat) (skip connected : Bool)
    (list : List Placement)
    (hfits : ∀ check ∈ scenario.rules.checks, ¬ check.NestsBeyond limit) :
    evaluateScenario format skip limit connected list scenario =
      .ofOutcome format (scenario.rules.evaluateUnlimited list connected) := by
  have hunlimited := Rules.evaluate_eq_evaluateUnlimited list connected hfits
  cases skip with
  | true => rw [evaluateScenario_true, hunlimited]
  | false =>
      have hgiven : scenario.rules.evaluateValidated limit list connected =
          .ok (scenario.rules.evaluate limit list connected) :=
        Rules.evaluateValidated_eq_ok_iff.mpr ⟨rfl, hfits⟩
      simp [evaluateScenario, hgiven, hunlimited]

theorem code_evaluateScenario_le_one (format : OutputFormat) (skip : Bool) (limit : Nat)
    (connected : Bool) (list : List Placement) (scenario : Scenario) :
    (evaluateScenario format skip limit connected list scenario).code ≤ 1 := by
  cases skip with
  | true => exact Response.verdictCode_le_one _
  | false =>
      unfold evaluateScenario
      cases scenario.rules.evaluateValidated limit list connected with
      | ok outcome => exact Response.verdictCode_le_one _
      | error report => exact (Response.code_refusing format report).le

theorem refused_iff :
    (∃ report, scenario.rules.evaluateValidated limit list connected = .error report) ↔
      ∃ check ∈ scenario.rules.checks, check.NestsBeyond limit := by
  simp only [Rules.evaluateValidated_eq_error_iff, exists_eq_left]

theorem not_refused_iff :
    (¬ ∃ report, scenario.rules.evaluateValidated limit list connected =
        .error report) ↔
      ∀ check ∈ scenario.rules.checks, ¬ check.NestsBeyond limit := by
  rw [refused_iff]
  simp

/-! ## The form of the output -/

theorem code_evaluateScenario_eq (format other : OutputFormat) (skip : Bool) (limit : Nat)
    (connected : Bool) (list : List Placement) (scenario : Scenario) :
    (evaluateScenario format skip limit connected list scenario).code =
      (evaluateScenario other skip limit connected list scenario).code := by
  unfold evaluateScenario
  cases skip with
  | true => rfl
  | false =>
      cases scenario.rules.evaluateValidated limit list connected with
      | ok outcome => rfl
      | error report =>
          exact (Response.code_refusing format report).trans
            (Response.code_refusing other report).symm

/-- The output format of a command says nothing about its exit code. -/
theorem code_run_eq (format other : OutputFormat) (command : Command) :
    (run system format command).code = (run system other command).code := by
  cases command with
  | evaluate file placements connected skip limit =>
      rw [run, run]
      cases readScenario system file with
      | error error => rfl
      | ok scenario =>
          cases readPlacements system placements with
          | error error => rfl
          | ok list => exact code_evaluateScenario_eq format other ..
  | validate file limit =>
      rw [run, run]
      cases readScenario system file <;> rfl
  | explain file =>
      rw [run, run]
      cases readScenario system file <;> rfl
  | expression rule placements =>
      rw [run, run]
      cases Node.parse rule with
      | error error => rfl
      | ok node =>
          simp only [evaluateRule]
          cases readPlacements system placements <;> rfl

/-! ## Commands on the same files -/

theorem code_run_evaluate_eq_two_iff (format : OutputFormat) (skip connected : Bool)
    (limit : Nat) :
    (run system format (.evaluate file placements connected skip limit)).code = 2 ↔
      (¬ ∃ scenario, LoadsScenario system.files file scenario) ∨
        ¬ ∃ list, ReadsPlacements system.files placements list := by
  rcases run_evaluate_cases system file placements with
    ⟨error, hnone, hrun⟩ | ⟨scenario, list, hload, hread⟩
  · rw [hrun]
    exact iff_of_true rfl hnone
  · have hcode := code_evaluateScenario_le_one format skip limit connected list scenario
    rw [run_evaluate_of_loads hload hread]
    refine iff_of_false (by omega) ?_
    rintro (hnone | hnone)
    · exact hnone ⟨scenario, hload⟩
    · exact hnone ⟨list, hread⟩

theorem output_run_evaluate_of_code_eq_two {format : OutputFormat} {skip : Bool}
    (hcode : (run system format
      (.evaluate file placements connected skip limit)).code = 2) :
    (run system format (.evaluate file placements connected skip limit)).output = "" := by
  rcases run_evaluate_cases system file placements with
    ⟨error, -, hrun⟩ | ⟨scenario, list, hload, hread⟩
  · rw [hrun]
    rfl
  · have hle := code_evaluateScenario_le_one format skip limit connected list scenario
    rw [run_evaluate_of_loads hload hread] at hcode
    omega

theorem code_run_validate_eq_two_iff (format : OutputFormat) (limit : Nat) :
    (run system format (.validate file limit)).code = 2 ↔
      ¬ ∃ scenario, LoadsScenario system.files file scenario := by
  rw [← exists_readScenario_error_iff]
  cases hscenario : readScenario system file with
  | error error =>
      rw [run_validate_of_scenario_error hscenario]
      simp [Response.ofError]
  | ok scenario =>
      have hcode := Response.verdictCode_le_one
        (Check.validate limit scenario.rules.checks).isOk
      rw [run_validate_of_loads (readScenario_eq_ok_iff.mp hscenario),
        Response.code_ofReport]
      simp only [reduceCtorEq, exists_false, iff_false]
      omega

/-- Rules that nest groups beyond the limit are reported alike, whatever is placed. -/
theorem run_evaluate_of_nestsBeyond (format : OutputFormat) (connected : Bool)
    (hload : LoadsScenario system.files file scenario)
    (hread : ReadsPlacements system.files placements list)
    (hdeep : ∃ check ∈ scenario.rules.checks, check.NestsBeyond limit) :
    run system format (.evaluate file placements connected false limit) =
      .refusing format (Check.validate limit scenario.rules.checks) := by
  rw [run_evaluate_of_loads hload hread,
    evaluateScenario_of_nestsBeyond format connected list hdeep]

/-- Validation of such rules shows the same report, as text on the output instead. -/
theorem run_validate_of_nestsBeyond (hload : LoadsScenario system.files file scenario)
    (hdeep : ∃ check ∈ scenario.rules.checks, check.NestsBeyond limit) :
    let report := Check.validate limit scenario.rules.checks
    run system .text (.validate file limit) =
      { code := 1, output := report.message ++ "\n" } ∧
    run system .json (.validate file limit) = .refusing .json report := by
  intro report
  have hfails : report.isOk = false := Rules.exists_nestsBeyond_iff.mp hdeep
  have hcode : Response.verdictCode report.isOk = 1 := by
    rw [hfails]
    rfl
  have htext : report.text = report.message := by
    rw [Report.text, hfails]
    rfl
  rw [run_validate_of_loads hload, run_validate_of_loads hload,
    Response.ofReport, Response.ofReport, Response.showing, Response.showing, hcode,
    htext]
  exact ⟨rfl, rfl⟩

theorem code_run_validate_of_loads (format : OutputFormat)
    (hload : LoadsScenario system.files file scenario) :
    (run system format (.validate file limit)).code = 0 ↔
      ∀ check ∈ scenario.rules.checks, ¬ check.NestsBeyond limit := by
  rw [run_validate_of_loads hload, Response.code_ofReport,
    Response.verdictCode_eq_zero_iff, Check.isOk_validate_iff]

/-- Without validation, what passes under a limit passes under every larger one. -/
theorem code_run_evaluate_mono {format : OutputFormat} {larger : Nat}
    (hlarger : limit ≤ larger)
    (hcode : (run system format
      (.evaluate file placements connected true limit)).code = 0) :
    (run system format (.evaluate file placements connected true larger)).code = 0 := by
  rcases run_evaluate_cases system file placements with
    ⟨error, -, hrun⟩ | ⟨scenario, list, hload, hread⟩
  · rw [hrun] at hcode
    exact absurd hcode (by simp [Response.ofError])
  · rw [run_evaluate_of_loads hload hread, evaluateScenario_true,
      Response.code_ofOutcome, Response.verdictCode_eq_zero_iff] at hcode ⊢
    exact (Rules.evaluate_improves hlarger (KeepsPlaced.refl _ _) id).passedAll hcode

/-- Rules that fit the limit have one response, validated or not. -/
theorem run_evaluate_of_fits (format : OutputFormat) (connected skip : Bool)
    (hload : LoadsScenario system.files file scenario)
    (hread : ReadsPlacements system.files placements list)
    (hfits : ∀ check ∈ scenario.rules.checks, ¬ check.NestsBeyond limit) :
    run system format (.evaluate file placements connected skip limit) =
      .ofOutcome format (scenario.rules.evaluateUnlimited list connected) := by
  rw [run_evaluate_of_loads hload hread,
    evaluateScenario_of_fits format skip connected list hfits]

/-- All aims of rules that fit the limit pass if the last check of each does. -/
theorem passedAll_evaluateUnlimited_iff
    (hfits : ∀ check ∈ scenario.rules.checks, ¬ check.NestsBeyond limit) :
    (scenario.rules.evaluateUnlimited list connected).passedAll = true ↔
      ∀ aim check, Check.IsLast scenario.rules.checks aim check →
        (Condition.ofCheck limit check).holds list = true ∧
          (check.connectedRequired = true → connected = true) := by
  rw [← Rules.evaluate_eq_evaluateUnlimited list connected hfits,
    Rules.passedAll_evaluate_iff]
  simp only [Check.passes_iff]

/--
The exit codes of commands on the same files go together.  Code 2 says that the
scenario does not load or else that the placements do not read, and a fault of the
scenario comes first.  Otherwise validation under a limit gives code 0 just when
evaluation is not refused there.  A refusal is one for all placements, and shows the
report that validation shows.  Without a refusal neither validation nor a larger limit
makes a difference, and code 0 says that the last check of each aim passes.  Messages are
what a command itself says on the error stream; a log may say more there.
-/
theorem exit_codes_agree (system : Surroundings) (format : OutputFormat) (file : String)
    (placements : Option String) (connected : Bool) (limit : Nat) :
    let evaluated := fun skip limit =>
      run system format (.evaluate file placements connected skip limit)
    let validated := run system format (.validate file limit)
    (∀ skip,
      ((evaluated skip limit).code = 2 ↔
        (¬ ∃ scenario, LoadsScenario system.files file scenario) ∨
          ¬ ∃ list, ReadsPlacements system.files placements list) ∧
      ((evaluated skip limit).code = 2 → (evaluated skip limit).output = "")) ∧
    (validated.code = 2 ↔ ¬ ∃ scenario, LoadsScenario system.files file scenario) ∧
    (∀ error, readScenario system file = .error error →
      validated = .ofError error ∧ ∀ skip, evaluated skip limit = .ofError error) ∧
    (∀ scenario error, LoadsScenario system.files file scenario →
      readPlacements system placements = .error error →
      ∀ skip, evaluated skip limit = .ofError error) ∧
    (∀ scenario list, LoadsScenario system.files file scenario →
      ReadsPlacements system.files placements list →
      let refused := ∃ report,
        scenario.rules.evaluateValidated limit list connected = .error report
      (validated.code = 0 ↔ ¬ refused) ∧
      (refused →
        validated.code = 1 ∧
        ∀ elsewhere others items linked, LoadsScenario elsewhere.files file scenario →
          ReadsPlacements elsewhere.files others items →
          let response := run elsewhere format (.evaluate file others linked false limit)
          let report := Check.validate limit scenario.rules.checks
          response.code = 1 ∧
          match format with
          | .text =>
              response.output = "" ∧ response.messages = [report.message] ∧
                validated.output = report.message ++ "\n"
          | .json =>
              response.output = report.toJson.pretty ++ "\n" ∧ response.messages = [] ∧
                validated.output = response.output) ∧
      (¬ refused →
        let passed := ∀ aim check, Check.IsLast scenario.rules.checks aim check →
          (Condition.ofCheck limit check).holds list = true ∧
            (check.connectedRequired = true → connected = true)
        (∀ skip larger, limit ≤ larger →
          evaluated skip larger = evaluated false limit) ∧
        ((evaluated false limit).code = 0 ↔ passed) ∧
        ((evaluated false limit).code = 1 ↔ ¬ passed))) ∧
    (∀ larger, limit ≤ larger →
      (evaluated true limit).code = 0 → (evaluated true larger).code = 0) ∧
    (∀ other command, (run system format command).code = (run system other command).code) := by
  intro evaluated validated
  refine ⟨?_, code_run_validate_eq_two_iff format limit, ?_, ?_, ?_, ?_,
    code_run_eq format⟩
  · intro skip
    exact ⟨code_run_evaluate_eq_two_iff format skip connected limit,
      output_run_evaluate_of_code_eq_two⟩
  · intro error herror
    exact ⟨run_validate_of_scenario_error herror,
      fun skip => run_evaluate_of_scenario_error herror⟩
  · intro scenario error hload herror skip
    exact run_evaluate_of_placements_error hload herror
  · intro scenario list hload hread refused
    refine ⟨?_, ?_, ?_⟩
    · rw [code_run_validate_of_loads format hload, ← not_refused_iff]
    · intro hrefused
      have hdeep := refused_iff.mp hrefused
      obtain ⟨htext, hjson⟩ := run_validate_of_nestsBeyond hload hdeep
      refine ⟨?_, ?_⟩
      · cases format with
        | text => exact congrArg Response.code htext
        | json => exact congrArg Response.code hjson
      · intro elsewhere others items linked hload' hread' response report
        have hresponse : response = .refusing format report :=
          run_evaluate_of_nestsBeyond format linked hload' hread' hdeep
        rw [hresponse]
        refine ⟨Response.code_refusing format report, ?_⟩
        cases format with
        | text => exact ⟨rfl, rfl, congrArg Response.output htext⟩
        | json => exact ⟨rfl, rfl, congrArg Response.output hjson⟩
    · intro hgiven passed
      have hfits := not_refused_iff.mp hgiven
      have hpassed :
          (scenario.rules.evaluateUnlimited list connected).passedAll = true ↔ passed :=
        passedAll_evaluateUnlimited_iff hfits
      have hresponse : evaluated false limit =
          .ofOutcome format (scenario.rules.evaluateUnlimited list connected) :=
        run_evaluate_of_fits format connected false hload hread hfits
      refine ⟨?_, ?_, ?_⟩
      · intro skip larger hlarger
        have hlarge : ∀ check ∈ scenario.rules.checks, ¬ check.NestsBeyond larger :=
          fun check hcheck hbeyond => hfits check hcheck (hbeyond.anti hlarger)
        rw [hresponse]
        exact run_evaluate_of_fits format connected skip hload hread hlarge
      · rw [hresponse, Response.code_ofOutcome, Response.verdictCode_eq_zero_iff, hpassed]
      · rw [hresponse, Response.code_ofOutcome, Response.verdictCode_eq_one_iff, hpassed]
  · intro larger hlarger
    exact code_run_evaluate_mono hlarger

set_option maxRecDepth 2000 in
/--
A scenario whose only check has a group in a group: refused under no levels, given under
one.  The other file has nothing in it.
-/
theorem exit_codes_agree_nested :
    let text := "\x7b\"stage\": 0, \"devicePool\": 0, \"anchors\": [], \"aims\": [],
      \"rules\": \x7b\"checks\": [\x7b\"expression\":
        \x7b\"type\": \"group\", \"children\": [\x7b\"type\": \"group\"\x7d]\x7d\x7d]\x7d\x7d"
    let fault := "EOF while parsing a value at line 1 column 0"
    let system : Surroundings :=
      { files := fun file =>
          if file = "nested" then .ok text
          else if file = "empty" then .ok ""
          else .error .missing
        documentFault := fun _ => fault
        placementsFault := fun _ => fault }
    let evaluated (format : OutputFormat) (placements : Option String) (skip : Bool)
        (limit : Nat) :=
      run system format (.evaluate "nested" placements false skip limit)
    let validated (format : OutputFormat) (limit : Nat) :=
      run system format (.validate "nested" limit)
    let message :=
      "Check 1 has unsupported nested groups (0). " ++
        "Rules currently do not support subgroups."
    (validated .text 0).code = 1 ∧ (validated .text 0).output = message ++ "\n" ∧
    (evaluated .text none false 0).code = 1 ∧
    (evaluated .text none false 0).output = "" ∧
    (evaluated .text none false 0).messages = [message] ∧
    (validated .json 0).code = 1 ∧
    (validated .json 0).output =
      "\x7b\n  \"ok\": false,\n  \"issues\": [\n    \x7b\n      \"aimId\": null,\n" ++
        "      \"index\": 0,\n      \"violations\": [\n        \x7b\n" ++
        "          \"path\": \"0\",\n          \"depth\": 1\n        \x7d\n" ++
        "      ]\n    \x7d\n  ],\n  \"message\": \"" ++ message ++ "\"\n\x7d\n" ∧
    (evaluated .json none false 0).code = 1 ∧
    (evaluated .json none false 0).output = (validated .json 0).output ∧
    (evaluated .json none false 0).messages = [] ∧
    (validated .text 1).code = 0 ∧
    evaluated .text none true 7 = evaluated .text none false 1 ∧
    (evaluated .text none false 1).code = 0 ∧ (evaluated .text none true 9).code = 0 ∧
    (evaluated .text (some "empty") false 1).output = "" ∧
    evaluated .text (some "empty") true 1 = .ofError (.document (.notJson fault)) ∧
    run system .text (.validate "none" 1) = .ofError (.file .missing) := by
  intro text fault system evaluated validated message
  have hview : ((Json.ofText? text).bind fun document =>
      (Scenario.ofJson document).toOption).map Scenario.rules =
      some { checks := [(Check.ofAim "").withTree (.group .and [.group .and []])] } := by
    have hchars : text.toList = _ := String.toList_ofList
    rw [Json.ofText?, Written.ofText?, hchars]
    decide +kernel
  have hfile : system.files "nested" = .ok text := rfl
  obtain ⟨scenario, hload, hrules⟩ := exists_loadsScenario hfile hview
  have hread : ReadsPlacements system.files none [] := rfl
  obtain ⟨-, -, -, -, hzero, -, -⟩ :=
    exit_codes_agree system .text "nested" none false 0
  obtain ⟨-, -, -, -, hzeroJson, -, -⟩ :=
    exit_codes_agree system .json "nested" none false 0
  obtain ⟨-, -, -, -, hone, hskipped, -⟩ :=
    exit_codes_agree system .text "nested" none false 1
  obtain ⟨hempty, -, -, hplacements, -⟩ :=
    exit_codes_agree system .text "nested" (some "empty") false 1
  obtain ⟨-, -, hmissing, -⟩ :=
    exit_codes_agree system .text "none" none false 1
  have hrefused : ∃ report,
      scenario.rules.evaluateValidated 0 [] false = .error report := by
    rw [hrules]
    exact ⟨_, rfl⟩
  have hgiven : ¬ ∃ report,
      scenario.rules.evaluateValidated 1 [] false = .error report := by
    rw [not_refused_iff, hrules]
    exact Check.isOk_validate_iff.mp rfl
  have hpassed : ∀ aim check, Check.IsLast scenario.rules.checks aim check →
      (Condition.ofCheck 1 check).holds [] = true ∧
        (check.connectedRequired = true → false = true) := by
    intro aim check hlast
    have hmem := hlast.mem
    rw [hrules] at hmem
    obtain rfl := List.mem_singleton.mp hmem
    exact ⟨rfl, nofun⟩
  obtain ⟨-, hreported, -⟩ := hzero scenario [] hload hread
  obtain ⟨hinvalid, hresponse⟩ := hreported hrefused
  obtain ⟨hcode, houtput, hmessages, hshown⟩ :=
    hresponse system none [] false hload hread
  obtain ⟨-, hreportedJson, -⟩ := hzeroJson scenario [] hload hread
  obtain ⟨hinvalidJson, hresponseJson⟩ := hreportedJson hrefused
  obtain ⟨hcodeJson, houtputJson, hmessagesJson, hshownJson⟩ :=
    hresponseJson system none [] false hload hread
  obtain ⟨hvalid, -, houtcome⟩ := hone scenario [] hload hread
  obtain ⟨halike, hpass, -⟩ := houtcome hgiven
  have hsame := halike true 1 le_rfl
  have hskippedCode := (congrArg Response.code hsame).trans (hpass.mpr hpassed)
  have hnotJson : readPlacements system (some "empty") =
      .error (.document (.notJson fault)) := rfl
  have herror := hplacements scenario _ hload hnotJson
  rw [hrules] at hmessages hshown houtputJson
  refine ⟨hinvalid, hshown, hcode, houtput, hmessages, hinvalidJson,
    hshownJson.trans (houtputJson.trans ?_), hcodeJson, hshownJson.symm, hmessagesJson,
    hvalid.mpr hgiven, halike true 7 (by decide), hpass.mpr hpassed,
    hskipped 9 (by decide) hskippedCode,
    (hempty false).2 (congrArg Response.code (herror false)), herror true,
    (hmissing _ rfl).1⟩
  decide +kernel

end Command

end PlacementRules
