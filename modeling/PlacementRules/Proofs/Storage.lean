import PlacementRules.Document.Rules
import PlacementRules.Evaluation

/-!
# Rules written and read back

Reading is permissive, so a mismatch with what is written would not show as an error
but as another rule.  There is none: rules that are written and read back differ only
in that an expression without clauses is no expression, which changes neither an
outcome nor a report, and rules that were read are read back as they are.
-/

namespace PlacementRules

theorem Json.filter_present_map {α : Type} {write : α → Json}
    (hwrite : ∀ item, (write item).isNull = false) (items : List α) :
    ((items.map write).filter fun value => !value.isNull) = items.map write := by
  apply List.filter_eq_self.mpr
  intro value hvalue
  obtain ⟨item, _, rfl⟩ := List.mem_map.mp hvalue
  simp [hwrite]

theorem Json.map_read_write {α : Type} {read : Json → α} {write : α → Json}
    (hread : ∀ item, read (write item) = item) (items : List α) :
    (items.map write).map read = items := by
  simp [Function.comp_def, hread]

/-! ## Clauses and steps -/

theorem Operator.ofJson?_of_get? {value : Json} {operator : Operator}
    (hmember : value.get? "operator" = some operator.toJson) :
    Operator.ofJson? value = some operator := by
  simp [Operator.ofJson?, Json.getString?, hmember, toJson, Json.string?]

theorem Operator.ofJson?_clause (clause : Clause) :
    Operator.ofJson? clause.toJson = none := by
  simp [Operator.ofJson?, Json.getString?, Clause.toJson, Clause.members]

namespace Clause

theorem ofJson_toJson (clause : Clause) : ofJson clause.toJson = clause := by
  simp [ofJson, toJson, members, Json.getText, Json.getString?, Json.string?]

/-- The ids are found behind any member of another name. -/
theorem ofJson_cons {name : String} (value : Json) (clause : Clause)
    (hdevice : "deviceId" ≠ name) (hanchor : "anchorId" ≠ name) :
    ofJson (.object ((name, value) :: clause.members)) = clause := by
  have hclause := clause.ofJson_toJson
  simp only [ofJson, Json.getText, Json.getString?] at hclause ⊢
  rw [Json.get?_cons, Json.get?_cons, if_neg hdevice, if_neg hanchor]
  exact hclause

end Clause

theorem LegacyStep.ofJson_toJson (step : LegacyStep) : ofJson step.toJson = step := by
  obtain ⟨_ | operator, clause⟩ := step
  · rw [toJson, ofJson, Operator.ofJson?_clause, Clause.ofJson_toJson]
  · rw [toJson, ofJson, Operator.ofJson?_of_get? rfl,
      Clause.ofJson_cons _ clause (by decide) (by decide)]

theorem LegacyStep.isNull_toJson (step : LegacyStep) : step.toJson.isNull = false := by
  obtain ⟨_ | operator, clause⟩ := step <;> rfl

/-! ## Trees -/

namespace Node

theorem exists_members_toJson (node : Node) :
    ∃ members, node.toJson = .object members := by
  cases node <;> exact ⟨_, by rw [toJson]⟩

theorem isNull_toJson (node : Node) : node.toJson.isNull = false := by
  obtain ⟨members, hmembers⟩ := node.exists_members_toJson
  rw [hmembers]
  rfl

theorem presentChildren_toJson (operator : Operator) (members : List Node) :
    presentChildren (group operator members).toJson = toJsonList members := by
  have hitems : (group operator members).toJson.getItems "children" =
      toJsonList members := by
    simp [toJson, Json.getItems, Json.array?]
  rw [presentChildren, hitems, toJsonList_eq_map, Json.filter_present_map isNull_toJson]

mutual

theorem ofJson_toJson (node : Node) : ofJson node.toJson = node := by
  match node with
  | .clause leaf =>
      have htype : (clause leaf).toJson.getString? "type" = some "clause" := by
        simp [toJson, Json.getString?, Json.string?]
      rw [ofJson_eq, htype]
      simp [toJson, Clause.ofJson_cons]
  | .group operator members =>
      have htype : (group operator members).toJson.getString? "type" = some "group" := by
        simp [toJson, Json.getString?, Json.string?]
      have hoperator : Operator.ofJson? (group operator members).toJson =
          some operator := by
        apply Operator.ofJson?_of_get?
        simp [toJson]
      rw [ofJson_eq, htype]
      simp [hoperator, presentChildren_toJson, map_ofJson_toJsonList]
  | .unknown =>
      have htype : unknown.toJson.getString? "type" = some "unknown" := by
        simp [toJson, Json.getString?, Json.string?]
      rw [ofJson_eq, htype]
      rfl

theorem map_ofJson_toJsonList (nodes : List Node) :
    (toJsonList nodes).map ofJson = nodes := by
  match nodes with
  | [] => rfl
  | node :: more =>
      rw [toJsonList, List.map_cons, ofJson_toJson node, map_ofJson_toJsonList more]

end

end Node

/-! ## Checks -/

namespace Check

/-- The check without its expression, if that is a sequence without clauses. -/
def dropEmptySequence (check : Check) : Check :=
  match check.expression with
  | some (.legacy []) => { check with expression := none }
  | _ => check

@[simp] theorem aim_dropEmptySequence (check : Check) :
    check.dropEmptySequence.aim = check.aim := by
  unfold dropEmptySequence
  split <;> rfl

@[simp] theorem connectedRequired_dropEmptySequence (check : Check) :
    check.dropEmptySequence.connectedRequired = check.connectedRequired := by
  unfold dropEmptySequence
  split <;> rfl

/-- An empty sequence counts as no expression, so the condition comes from the same source. -/
@[simp] theorem source_dropEmptySequence (check : Check) :
    check.dropEmptySequence.source = check.source := by
  unfold dropEmptySequence
  split
  · next hempty => simp [source, hempty]
  · rfl

@[simp] theorem root?_dropEmptySequence (check : Check) :
    check.dropEmptySequence.root? = check.root? := by
  unfold dropEmptySequence
  split
  · next hempty => simp [root?, hempty]
  · rfl

end Check

namespace Expression

theorem ofJson?_tree (root : Node) :
    ofJson? (tree root).toJson = some (.tree root) := by
  obtain ⟨members, hmembers⟩ := root.exists_members_toJson
  rw [toJson, hmembers, ofJson?, ← hmembers, Node.ofJson_toJson]

theorem ofJson?_legacy (first : LegacyStep) (more : Legacy) :
    ofJson? (legacy (first :: more)).toJson = some (.legacy (first :: more)) := by
  have hpresent := Json.filter_present_map LegacyStep.isNull_toJson (first :: more)
  have hread := Json.map_read_write LegacyStep.ofJson_toJson (first :: more)
  rw [List.map_cons] at hpresent hread
  -- The array has an item, so it is not the one that is read as no expression.
  rw [toJson, List.map_cons, ofJson?, hpresent]
  simp only [hread]

end Expression

namespace Check

theorem get?_expression_toJson (check : Check) :
    check.toJson.get? "expression" = check.expression.map Expression.toJson := by
  unfold toJson
  cases check.expression <;> cases check.requiredPlacements <;> simp

theorem getItems_requiredPlacements_toJson (check : Check) :
    check.toJson.getItems "requiredPlacements" =
      check.requiredPlacements.map Clause.toJson := by
  unfold toJson Json.getItems
  cases check.expression <;> cases check.requiredPlacements <;>
    simp [Json.array?]

theorem ofJson_toJson (check : Check) :
    Check.ofJson check.toJson = check.dropEmptySequence := by
  have haim : check.toJson.getText "aimId" = check.aim := by
    simp [toJson, Json.getText, Json.getString?, Json.string?]
  have hconnected : check.toJson.getFlag "connectedRequired" =
      check.connectedRequired := by
    simp [toJson, Json.getFlag, Json.isTrue]
  rw [ofJson, haim, hconnected, get?_expression_toJson,
    getItems_requiredPlacements_toJson, Json.map_read_write Clause.ofJson_toJson,
    dropEmptySequence]
  rcases check with ⟨aim, connected, _ | ⟨_ | ⟨first, more⟩⟩ | root, clauses⟩
  · rfl
  · rfl
  · simp [Expression.ofJson?_legacy]
  · simp [Expression.ofJson?_tree]

end Check

/-! ## What the dropped expressions change -/

namespace Check

theorem ofCheck_dropEmptySequence (limit : Nat) (check : Check) :
    CompiledCheck.ofCheck limit check.dropEmptySequence =
      CompiledCheck.ofCheck limit check := by
  simp [CompiledCheck.ofCheck, Condition.ofCheck]

theorem issue?_dropEmptySequence (limit index : Nat) (check : Check) :
    check.dropEmptySequence.issue? limit index = check.issue? limit index := by
  simp [issue?, overflow]

theorem issues_map_dropEmptySequence (limit : Nat) (checks : List Check) :
    issues limit (checks.map dropEmptySequence) = issues limit checks := by
  rw [issues, issues, List.zipIdx_map, List.filterMap_map]
  congr 1
  funext ⟨check, index⟩
  exact issue?_dropEmptySequence limit index check

end Check

namespace Rules

/-- The rules without the expressions that are sequences without clauses. -/
def dropEmptySequences (rules : Rules) : Rules :=
  { rules with checks := rules.checks.map Check.dropEmptySequence }

theorem evaluate_dropEmptySequences (limit : Nat) (rules : Rules)
    (placements : List Placement) (connected : Bool) :
    rules.dropEmptySequences.evaluate limit placements connected =
      rules.evaluate limit placements connected := by
  simp [evaluate, CompiledRules.ofRules, dropEmptySequences, Function.comp_def,
    Check.ofCheck_dropEmptySequence]

theorem report_dropEmptySequences (messages : Messages) (limit : Nat) (rules : Rules) :
    Report.ofChecks messages limit rules.dropEmptySequences.checks =
      Report.ofChecks messages limit rules.checks := by
  rw [Report.ofChecks, Report.ofChecks, dropEmptySequences,
    Check.issues_map_dropEmptySequence]

/-! ## Rules -/

theorem ofJson_toJson (rules : Rules) :
    ofJson rules.toJson = .ok rules.dropEmptySequences := by
  have hchecks : (rules.checks.map Check.toJson).map Check.ofJson =
      rules.checks.map Check.dropEmptySequence := by
    simp [Function.comp_def, Check.ofJson_toJson]
  have hflag : rules.toJson.getFlag "requireConnectButton" =
      rules.requireConnectButton := by
    simp [toJson, Json.getFlag, Json.isTrue]
  have hmember : rules.toJson.get? "checks" =
      some (.array (rules.checks.map Check.toJson)) := by
    simp [toJson]
  have hobject : rules.toJson.isObject = true := rfl
  rw [ofJson, if_pos hobject, hmember]
  simp only [hflag, hchecks, dropEmptySequences]

end Rules

/-! ## What reading can give -/

theorem Expression.ofJson?_ne_legacy_nil (value : Json) :
    Expression.ofJson? value ≠ some (.legacy []) := by
  unfold Expression.ofJson?
  split
  · simp
  · split
    · simp
    · next hitems => simpa using hitems
  · simp
  · simp

theorem Check.dropEmptySequence_ofJson (value : Json) :
    (Check.ofJson value).dropEmptySequence = Check.ofJson value := by
  unfold dropEmptySequence
  split
  · next hempty =>
      obtain ⟨expression, _, hexpression⟩ := Option.bind_eq_some_iff.mp hempty
      exact absurd hexpression (Expression.ofJson?_ne_legacy_nil expression)
  · rfl

theorem Rules.exists_items_of_ofJson {value : Json} {rules : Rules}
    (hread : Rules.ofJson value = .ok rules) :
    ∃ items : List Json, rules.checks = items.map Check.ofJson := by
  unfold Rules.ofJson at hread
  split at hread
  · split at hread
    · cases hread
      exact ⟨[], rfl⟩
    · cases hread
      exact ⟨[], rfl⟩
    · next items _ =>
        cases hread
        exact ⟨items, rfl⟩
    · cases hread
  · cases hread

theorem Rules.dropEmptySequences_of_ofJson {value : Json} {rules : Rules}
    (hread : Rules.ofJson value = .ok rules) : rules.dropEmptySequences = rules := by
  obtain ⟨items, hitems⟩ := Rules.exists_items_of_ofJson hread
  have hkept : rules.checks.map Check.dropEmptySequence = rules.checks := by
    rw [hitems, List.map_map]
    apply List.map_congr_left
    intro item _
    exact Check.dropEmptySequence_ofJson item
  rw [dropEmptySequences, hkept]

/--
Rules that are written and read back lose nothing but their expressions without
clauses, and with these neither an outcome nor a report.  Rules that were read lose
nothing at all.
-/
theorem Rules.storage_keeps_rules :
    (∀ rules : Rules,
      Rules.ofJson rules.toJson = .ok rules.dropEmptySequences ∧
      (∀ limit placements connected,
        rules.dropEmptySequences.evaluate limit placements connected =
          rules.evaluate limit placements connected) ∧
      ∀ messages limit,
        Report.ofChecks messages limit rules.dropEmptySequences.checks =
          Report.ofChecks messages limit rules.checks) ∧
    ∀ (value : Json) (rules : Rules), Rules.ofJson value = .ok rules →
      Rules.ofJson rules.toJson = .ok rules := by
  constructor
  · intro rules
    refine ⟨ofJson_toJson rules, ?_, ?_⟩
    · intro limit placements connected
      exact evaluate_dropEmptySequences limit rules placements connected
    · intro messages limit
      exact report_dropEmptySequences messages limit rules
  · intro value rules hread
    rw [ofJson_toJson, dropEmptySequences_of_ofJson hread]

/-- Rules with malformed parts, read, written and read again. -/
theorem Rules.storage_keeps_malformed :
    let value : Json := .object
      [("checks", .array
        [.null,
          .object [("aimId", .string "light"), ("expression", .array [.null, .bool true]),
            ("requiredPlacements", .array [.null])],
          .object [("expression", .object
            [("type", .string "group"), ("children", .array [.null, .string "lamp"])])]])]
    let rules : Rules :=
      { checks :=
          [{}, ⟨"light", false, some (.legacy [{}]), [{}]⟩,
            ⟨"", false, some (.tree (.group .and [.unknown])), []⟩] }
    Rules.ofJson value = .ok rules ∧ Rules.ofJson rules.toJson = .ok rules := by
  intro value rules
  -- Trees are read by recursion on their size, which `rfl` does not unfold.
  have hchild : Node.ofJson (.string "lamp") = .unknown := by
    rw [Node.ofJson_eq]
    rfl
  have htree : Node.ofJson (.object
      [("type", .string "group"), ("children", .array [.null, .string "lamp"])]) =
      .group .and [.unknown] := by
    rw [Node.ofJson_eq, ← hchild]
    rfl
  have hread : Rules.ofJson value = .ok rules := by
    simp only [rules, ← htree]
    rfl
  exact ⟨hread, storage_keeps_rules.2 value rules hread⟩

end PlacementRules
