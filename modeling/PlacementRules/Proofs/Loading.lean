import PlacementRules.Document.Meaning
import PlacementRules.Document.Rules
import PlacementRules.Proofs.Compilation

/-!
# Loaded checks say what the document says

Loading puts a default in the place of everything it cannot use.  A check that was
loaded has on all placements the verdict that the document itself gives, so no default
changes what was written.
-/

namespace PlacementRules

/-! ## Pairs and operators -/

theorem Json.getText_eq (name : String) (value : Json) :
    value.getText name =
      match value.get? name with
      | some (.string text) => text
      | _ => "" := by
  unfold getText getString?
  rcases value.get? name with _ | _ | _ | _ | _ | _ | _ <;> rfl

/-- An id that is no string counts as empty, and an empty id is never placed. -/
theorem Clause.holds_ofJson (placements : List Placement) (value : Json) :
    (Clause.ofJson value).holds placements = value.isPlacedPair placements := by
  unfold Clause.holds Clause.ofJson Json.isPlacedPair
  rw [Json.getText_eq, Json.getText_eq]
  split <;> split <;> simp_all

theorem Operator.getD_ofJson? (value : Json) :
    (Operator.ofJson? value).getD .and = if value.namesOr then .or else .and := by
  unfold Operator.ofJson? Json.getString? Json.namesOr
  rcases value.get? "operator" with _ | _ | _ | _ | name | _ | _ <;>
    simp [Json.string?, ofName]

/-! ## Sequences -/

theorem LegacyStep.extend_ofJson (placements : List Placement) (verdict : Bool)
    (value : Json) :
    (LegacyStep.ofJson value).extend placements verdict =
      if value.namesOr then verdict || value.isPlacedPair placements
      else verdict && value.isPlacedPair placements := by
  rw [extend_eq_combine, joiner, ofJson, Operator.getD_ofJson?, Clause.holds_ofJson]
  split <;> rfl

theorem Legacy.holds_map_ofJson (placements : List Placement) (items : List Json) :
    Legacy.holds placements (items.map LegacyStep.ofJson) =
      Json.sequenceHolds placements items := by
  cases items with
  | nil => rfl
  | cons first more =>
      rw [List.map_cons, Legacy.holds, List.foldl_map, Json.sequenceHolds]
      simp only [LegacyStep.extend_ofJson]
      rw [LegacyStep.ofJson, Clause.holds_ofJson]

/-! ## Trees -/

theorem Json.getString?_eq_some_iff {name text : String} {value : Json} :
    value.getString? name = some text ↔ value.get? name = some (.string text) := by
  unfold getString?
  rcases value.get? name with _ | _ | _ | _ | _ | _ | _ <;> simp [string?]

namespace Node

theorem holds_group_eq (limit : Nat) (placements : List Placement) (depth : Nat)
    (operator : Operator) (members : List Node) :
    (group operator members).holds limit placements depth =
      (decide (depth ≤ limit) &&
        (members.isEmpty ||
          if operator = .or then members.any (holds limit placements (depth + 1))
          else members.all (holds limit placements (depth + 1)))) := by
  cases operator with
  | and => cases members <;> simp [holds, allHold_eq_all]
  | or => simp [holds, anyHolds_eq_any]

/-- A value that names neither a clause nor a group is loaded as unknown, and fails. -/
theorem holds_ofJson (limit : Nat) (placements : List Placement) (depth : Nat)
    (value : Json) :
    (ofJson value).holds limit placements depth =
      value.treeHolds limit placements depth := by
  have hchildren : ∀ child ∈ presentChildren value,
      (ofJson child).holds limit placements (depth + 1) =
        child.treeHolds limit placements (depth + 1) := by
    intro child hchild
    exact holds_ofJson limit placements (depth + 1) child
  rw [ofJson_eq, Json.treeHolds_eq]
  split
  · next hclause =>
      simp only [Json.getString?_eq_some_iff.mp hclause]
      rw [holds, Clause.holds_ofJson]
  · next hgroup =>
      -- The operator is not known here, so both ways to combine the children are prepared.
      have hverdicts := List.map_congr_left hchildren
      have hany := congrArg (List.any · id) hverdicts
      have hall := congrArg (List.all · id) hverdicts
      simp only [List.any_map, List.all_map, Function.comp_def, id_eq] at hany hall
      simp only [Json.getString?_eq_some_iff.mp hgroup]
      rw [holds_group_eq, Operator.getD_ofJson?, List.isEmpty_map, List.any_map,
        List.all_map]
      simp only [Function.comp_def, hany, hall]
      cases value.namesOr <;> rfl
  · next hclause hgroup =>
      rw [holds]
      split
      · next htype => exact absurd (Json.getString?_eq_some_iff.mpr htype) hclause
      · next htype => exact absurd (Json.getString?_eq_some_iff.mpr htype) hgroup
      · rfl
termination_by sizeOf value
decreasing_by
  exact sizeOf_lt_of_mem_presentChildren hchild

end Node

/-! ## Checks -/

namespace Check

variable (limit : Nat) (placements : List Placement)

theorem holds_ofJson_tree {value : Json} {members : List (String × Json)}
    (htree : value.get? "expression" = some (.object members)) :
    (Check.ofJson value).holds limit placements =
      (Json.object members).treeHolds limit placements 0 := by
  unfold holds
  rw [Check.ofJson, htree, Option.bind_some, Expression.ofJson?]
  exact Node.holds_ofJson limit placements 0 (.object members)

/-- An array of nothing but `null` is loaded as the group that always holds. -/
theorem holds_ofJson_items {value first : Json} {more : List Json}
    (hitems : value.get? "expression" = some (.array (first :: more))) :
    (Check.ofJson value).holds limit placements =
      Json.sequenceHolds placements
        ((first :: more).filter fun item => !item.isNull) := by
  unfold holds
  rw [Check.ofJson, hitems, Option.bind_some, Expression.ofJson?]
  cases (first :: more).filter fun item => !item.isNull with
  | nil => simp [Node.empty, Node.holds, Node.allHold, Json.sequenceHolds]
  | cons item items =>
      rw [← Legacy.holds_map_ofJson]
      rfl

theorem holds_ofJson_required {value : Json}
    (hnone : (value.get? "expression").bind Expression.ofJson? = none) :
    (Check.ofJson value).holds limit placements =
      match value.get? "requiredPlacements" with
      | some (.array entries) => entries.all (Json.isPlacedPair placements)
      | _ => true := by
  unfold holds
  rw [Check.ofJson, hnone, Json.getItems]
  simp only [List.all_map, Function.comp_def, Clause.holds_ofJson]
  rcases value.get? "requiredPlacements" with _ | _ | _ | _ | _ | _ | _ <;> rfl

/-- Whatever is loaded as a check says what the document says. -/
theorem holds_ofJson (value : Json) :
    (Check.ofJson value).holds limit placements =
      value.checkHolds limit placements := by
  cases value with
  | object members =>
      rw [Json.checkHolds]
      split
      · next tree htree => exact holds_ofJson_tree limit placements htree
      · next first more hitems => exact holds_ofJson_items limit placements hitems
      · next hnotree hnoitems =>
          apply holds_ofJson_required
          cases hexpression : (Json.object members).get? "expression" with
          | none => rfl
          | some expression =>
              cases expression with
              | object tree => exact absurd hexpression (hnotree tree)
              | array items =>
                  cases items with
                  | nil => rfl
                  | cons first more => exact absurd hexpression (hnoitems first more)
              | null | bool _ | number _ | string _ => rfl
  | null | bool _ | number _ | string _ | array _ => rfl

end Check

/--
The checks of a rules section are loaded one for each entry, and the compiled condition
of each has, under every limit and on all placements, the verdict that its entry gives.
-/
theorem Rules.loaded_conditions_mean_entries {value : Json} {items : List Json}
    (hitems : value.get? "checks" = some (.array items)) :
    ∃ rules, Rules.ofJson value = .ok rules ∧
      ∀ limit placements,
        (CompiledRules.ofRules limit rules).checks.map
            (fun check => check.condition.holds placements) =
          items.map (Json.checkHolds limit placements) := by
  obtain ⟨rules, hread, hchecks⟩ := exists_ofJson_of_items hitems
  refine ⟨rules, hread, ?_⟩
  intro limit placements
  rw [CompiledRules.ofRules, hchecks, List.map_map, List.map_map]
  apply List.map_congr_left
  intro item _
  exact (Condition.holds_ofCheck placements limit _).trans
    (Check.holds_ofJson limit placements item)

/--
Entries with a fallback each: no object, only `null` in a sequence, a sequence that
drops one, a tree with a group too deep beside a leaf of an unknown kind, and a list
of required placements that holds a value of another kind.
-/
theorem Rules.loaded_conditions_mean_malformed_entries :
    let lamp : Json :=
      .object [("type", .string "clause"), ("deviceId", .string "lamp"),
        ("anchorId", .string "desk")]
    let deep : Json :=
      .object [("type", .string "group"), ("children", .array
        [.object [("type", .string "group"), ("children", .array [])]])]
    let tree : Json :=
      .object [("type", .string "group"), ("operator", .string "or"),
        ("children", .array [.null, deep, .object [("type", .string "lamp")]])]
    let items : List Json :=
      [.string "lamp",
        .object [("expression", .array [.null]), ("requiredPlacements", .array [.null])],
        .object [("expression", .array [.null, lamp, .object [("operator", .string "or")]])],
        .object [("expression", tree)],
        .object [("expression", .array []), ("requiredPlacements", .array [lamp, .null])]]
    let value : Json := .object [("checks", .array items)]
    value.get? "checks" = some (.array items) ∧
      ∃ rules, Rules.ofJson value = .ok rules ∧
        (CompiledRules.ofRules 1 rules).checks.map
            (fun check => check.condition.holds [⟨"lamp", "desk"⟩]) =
          [true, true, true, false, false] := by
  intro lamp deep tree items value
  have hitems : value.get? "checks" = some (.array items) := rfl
  have htree : Json.checkHolds 1 [⟨"lamp", "desk"⟩] (.object [("expression", tree)]) =
      false := by
    change tree.treeHolds 1 [⟨"lamp", "desk"⟩] 0 = false
    simp [tree, deep, Json.treeHolds_eq, Json.presentItems, Json.getItems, Json.isNull,
      Json.array?]
  have hverdicts : items.map (Json.checkHolds 1 [⟨"lamp", "desk"⟩]) =
      [true, true, true, false, false] := by
    simp only [items, List.map_cons, htree]
    rfl
  obtain ⟨rules, hread, hmeaning⟩ := loaded_conditions_mean_entries hitems
  exact ⟨hitems, rules, hread, (hmeaning 1 [⟨"lamp", "desk"⟩]).trans hverdicts⟩

end PlacementRules
