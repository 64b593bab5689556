import PlacementRules.Proofs.Collapse
import PlacementRules.Proofs.RoundTrip
import PlacementRules.Proofs.UsableFiles

/-!
# The rule of a check in words

A check is explained on a line by the same part of it that its condition is made of.
What the line says is what is evaluated: a rule shown in rule text can be read back, and
the tree that is read passes whatever the check passes.
-/

namespace PlacementRules

/-! ## Required placements as a tree -/

namespace Node

theorem charsJoined_clauses (operator : Operator) (clauses : List Clause) :
    charsJoined operator (clauses.map .clause) =
      operator.separator.intercalate (clauses.map Clause.chars) := by
  induction clauses with
  | nil => rfl
  | cons first more ih =>
      cases more with
      | nil => simp
      | cons second more =>
          rw [List.map_cons, List.map_cons, charsJoined_cons_cons, ← List.map_cons, ih]
          simp

/-- A list of required placements is shown like a group of its clauses. -/
theorem text_clauses (clauses : List Clause) :
    (group .and (clauses.map .clause)).text =
      "(" ++ " AND ".intercalate (clauses.map Clause.text) ++ ")" := by
  have hseparator : Operator.separator .and = " AND ".toList := rfl
  apply String.toList_inj.mp
  simp [text, charsJoined_clauses, hseparator, String.toList_intercalate, Clause.text,
    Function.comp_def]

theorem isKnown_clauses (clauses : List Clause) :
    (group .and (clauses.map .clause)).isKnown = true := by
  rw [isKnown, allKnown_eq_all, List.all_map]
  exact List.all_eq_true.mpr fun _ _ => rfl

theorem holdsUnlimited_clauses (placements : List Placement) (clauses : List Clause) :
    (group .and (clauses.map .clause)).holdsUnlimited placements =
      clauses.all fun clause => clause.holds placements := by
  rw [holdsUnlimited, allHoldUnlimited_eq_all, List.all_map]
  rfl

theorem fitsWithin_clauses (limit : Nat) (clauses : List Clause) :
    (group .and (clauses.map .clause)).FitsWithin limit 0 := by
  refine fitsWithin_group.mpr ⟨Nat.zero_le limit, ?_⟩
  intro child hchild
  obtain ⟨leaf, -, rfl⟩ := List.mem_map.mp hchild
  exact fitsWithin_of_not_isGroup limit 1 rfl

end Node

/-! ## Telling the formats apart -/

/-- The last character of a text that is no name character. -/
def lastMark? (text : List Char) : Option Char :=
  text.reverse.find? fun c => !Name.isNameChar c

theorem lastMark?_append (first second : List Char) :
    lastMark? (first ++ second) = (lastMark? second).or (lastMark? first) := by
  rw [lastMark?, List.reverse_append, List.find?_append]
  rfl

theorem lastMark?_singleton {c : Char} (hmark : Name.isNameChar c = false) :
    lastMark? [c] = some c := by
  simp [lastMark?, hmark]

theorem Name.lastMark?_write (name : List Char) :
    lastMark? (write name) = none ∨ lastMark? (write name) = some '"' := by
  rw [write]
  split
  · rename_i hbare
    simp only [isBare, Bool.and_eq_true, List.all_eq_true] at hbare
    left
    simpa [lastMark?] using hbare.1.2
  · right
    have hquote : quote name = ('"' :: escape name) ++ ['"'] := rfl
    rw [hquote, lastMark?_append, lastMark?_singleton (by decide)]
    rfl

theorem Clause.lastMark?_chars (clause : Clause) :
    lastMark? clause.chars = some '@' ∨ lastMark? clause.chars = some '"' := by
  have hat : clause.chars =
      Name.write clause.device.toList ++ ['@'] ++ Name.write clause.anchor.toList := by
    simp [chars]
  rw [hat, lastMark?_append, lastMark?_append, lastMark?_singleton (by decide)]
  rcases Name.lastMark?_write clause.anchor.toList with hanchor | hanchor
  · left
    rw [hanchor]
    rfl
  · right
    rw [hanchor]
    rfl

namespace Node

/-- A printed tree has a mark, and its last one is no blank. -/
theorem exists_lastMark?_chars (node : Node) :
    ∃ c, lastMark? node.chars = some c ∧ c ≠ ' ' := by
  cases node with
  | clause leaf =>
      rcases leaf.lastMark?_chars with hmark | hmark
      · exact ⟨'@', hmark, by decide⟩
      · exact ⟨'"', hmark, by decide⟩
  | group operator members =>
      refine ⟨')', ?_, by decide⟩
      rw [chars_group, ← List.cons_append, lastMark?_append,
        lastMark?_singleton (by decide)]
      rfl
  | unknown => exact ⟨'>', rfl, by decide⟩

theorem exists_lastMark?_charsJoined (operator : Operator) (first : Node)
    (more : List Node) :
    ∃ c, lastMark? (charsJoined operator (first :: more)) = some c ∧ c ≠ ' ' := by
  induction more generalizing first with
  | nil => exact first.exists_lastMark?_chars
  | cons second more ih =>
      obtain ⟨c, hmark, hc⟩ := ih second
      refine ⟨c, ?_, hc⟩
      rw [charsJoined_cons_cons, lastMark?_append, hmark]
      rfl

theorem text_ne_always (node : Node) : node.text ≠ "always" := by
  intro htext
  obtain ⟨c, hmark, -⟩ := node.exists_lastMark?_chars
  have hchars : node.chars = "always".toList := by
    rw [← htext, text, String.toList_ofList]
  have hnone : lastMark? "always".toList = none := by decide
  rw [hchars, hnone] at hmark
  simp at hmark

/-- No printed tree looks like a list of required placements. -/
theorem text_ne_required (node : Node) (inner : String) :
    node.text ≠ "(" ++ inner ++ ") (required placements)" := by
  intro htext
  have hchars : node.chars =
      ('(' :: inner.toList ++ ") (required placements".toList) ++ [')'] := by
    have htoList := congrArg String.toList htext
    rw [text, String.toList_ofList] at htoList
    simpa using htoList
  have hmark : lastMark? node.chars = some ')' := by
    rw [hchars, lastMark?_append]
    rfl
  cases node with
  | clause leaf =>
      rw [chars_clause] at hmark
      rcases leaf.lastMark?_chars with hother | hother <;> simp [hother] at hmark
  | unknown =>
      have hother : some '>' = some ')' := hmark
      simp at hother
  | group operator members =>
      rw [chars_group, ← List.cons_append] at hchars
      obtain ⟨hinner, -⟩ := List.append_inj' hchars rfl
      have hspace : lastMark? (['('] ++ charsJoined operator members) = some ' ' := by
        rw [List.singleton_append, hinner, lastMark?_append]
        rfl
      rw [lastMark?_append] at hspace
      -- the last member is printed right before the closing parenthesis
      cases members with
      | nil =>
          have hother : some '(' = some ' ' := hspace
          simp at hother
      | cons first more =>
          obtain ⟨c, hjoined, hc⟩ := exists_lastMark?_charsJoined operator first more
          rw [hjoined] at hspace
          exact hc (Option.some.inj hspace)

end Node

/-! ## What the words are made of -/

namespace Check

variable {check : Check}

theorem ruleText_tree {root : Node} (htree : check.expression = some (.tree root)) :
    check.ruleText = root.text := by
  rw [ruleText, htree]

theorem ruleText_legacy {first : LegacyStep} {more : Legacy}
    (hlegacy : check.expression = some (.legacy (first :: more))) :
    check.ruleText = Legacy.text (first :: more) ++ " (legacy)" := by
  rw [ruleText, hlegacy]

/-- Without an expression, or with an empty sequence, the required placements count. -/
theorem ruleText_required
    (hnone : check.expression = none ∨ check.expression = some (.legacy [])) :
    check.ruleText =
      if check.requiredPlacements = [] then "always"
      else "(" ++ " AND ".intercalate (check.requiredPlacements.map Clause.text) ++
        ") (required placements)" := by
  rw [ruleText]
  rcases hnone with hnone | hnone <;> rw [hnone] <;>
    cases check.requiredPlacements <;> rfl

theorem ofCheck_tree {root : Node} (htree : check.expression = some (.tree root))
    (limit : Nat) : Condition.ofCheck limit check = .ofNode limit 0 root := by
  rw [Condition.ofCheck, source, htree]

theorem ofCheck_legacy {first : LegacyStep} {more : Legacy}
    (hlegacy : check.expression = some (.legacy (first :: more))) (limit : Nat) :
    Condition.ofCheck limit check = .ofLegacy first more := by
  rw [Condition.ofCheck, source, hlegacy]

theorem ofCheck_required
    (hnone : check.expression = none ∨ check.expression = some (.legacy []))
    (limit : Nat) :
    Condition.ofCheck limit check = .ofRequired check.requiredPlacements := by
  rw [Condition.ofCheck, source]
  rcases hnone with hnone | hnone <;> rw [hnone]

theorem expression_cases (check : Check) :
    (∃ root, check.expression = some (.tree root)) ∨
    (∃ first more, check.expression = some (.legacy (first :: more))) ∨
    (check.expression = none ∨ check.expression = some (.legacy [])) := by
  rcases check.expression with _ | ⟨_ | ⟨first, more⟩⟩ | root
  · exact .inr (.inr (.inl rfl))
  · exact .inr (.inr (.inr rfl))
  · exact .inr (.inl ⟨first, more, rfl⟩)
  · exact .inl ⟨root, rfl⟩

theorem head_ruleText_legacy (first : LegacyStep) (more : Legacy) :
    (Legacy.text (first :: more) ++ " (legacy)").toList.head? = some '[' := by
  simp [Legacy.text, Legacy.chars]

/-- The word `always` stands for a check that demands nothing of the devices. -/
theorem required_of_ruleText_always (halways : check.ruleText = "always") :
    (check.expression = none ∨ check.expression = some (.legacy [])) ∧
      check.requiredPlacements = [] := by
  rcases check.expression_cases with ⟨root, htree⟩ | ⟨first, more, hlegacy⟩ | hnone
  · rw [ruleText_tree htree] at halways
    exact absurd halways root.text_ne_always
  · have hhead := head_ruleText_legacy first more
    rw [← ruleText_legacy hlegacy, halways] at hhead
    simp at hhead
  · refine ⟨hnone, ?_⟩
    rw [ruleText_required hnone] at halways
    by_cases hempty : check.requiredPlacements = []
    · exact hempty
    · rw [if_neg hempty] at halways
      have hhead := congrArg (fun text => text.toList.head?) halways
      simp at hhead

/-- The mark of required placements tells what stands in the parentheses before it. -/
theorem required_of_ruleText_required {inner : String}
    (hrequired : check.ruleText = "(" ++ inner ++ ") (required placements)") :
    (check.expression = none ∨ check.expression = some (.legacy [])) ∧
      inner = " AND ".intercalate (check.requiredPlacements.map Clause.text) := by
  rcases check.expression_cases with ⟨root, htree⟩ | ⟨first, more, hlegacy⟩ | hnone
  · rw [ruleText_tree htree] at hrequired
    exact absurd hrequired (root.text_ne_required inner)
  · have hhead := head_ruleText_legacy first more
    rw [← ruleText_legacy hlegacy, hrequired] at hhead
    simp at hhead
  · refine ⟨hnone, ?_⟩
    rw [ruleText_required hnone] at hrequired
    by_cases hempty : check.requiredPlacements = []
    · rw [if_pos hempty] at hrequired
      have hhead := congrArg (fun text => text.toList.head?) hrequired
      simp at hhead
    · rw [if_neg hempty, String.append_left_inj, String.append_right_inj] at hrequired
      exact hrequired.symm

/-! ## What the words mean -/

theorem holds_of_ruleText_always (halways : check.ruleText = "always") (limit : Nat)
    (placements : List Placement) :
    (Condition.ofCheck limit check).holds placements = true := by
  obtain ⟨hnone, hempty⟩ := required_of_ruleText_always halways
  rw [ofCheck_required hnone, Condition.holds_ofRequired, hempty]
  rfl

/-- The parenthesised list is read as a tree that demands what the list demands. -/
theorem exists_tree_of_ruleText_required {inner : String}
    (hrequired : check.ruleText = "(" ++ inner ++ ") (required placements)") :
    ∃ tree, Node.parse ("(" ++ inner ++ ")") = .ok tree ∧
      ∀ limit placements,
        (Condition.ofCheck limit (check.withTree tree)).holds placements =
          (Condition.ofCheck limit check).holds placements := by
  obtain ⟨hnone, hinner⟩ := required_of_ruleText_required hrequired
  have hknown := Node.isKnown_clauses check.requiredPlacements
  refine ⟨(Node.group .and (check.requiredPlacements.map .clause)).collapse, ?_, ?_⟩
  · rw [hinner, ← Node.text_clauses]
    exact Node.parse_text_of_isKnown hknown
  · intro limit placements
    have hfits := Node.fitsWithin_clauses limit check.requiredPlacements
    rw [Condition.holds_ofCheck_withTree, ofCheck_required hnone,
      Condition.holds_ofRequired, Node.holds_collapse_of_fitsWithin placements hfits,
      Node.holds_of_fitsWithin placements hfits, Node.holdsUnlimited_clauses]

theorem holds_ofCheck_tree {root : Node} (htree : check.expression = some (.tree root))
    (limit : Nat) (placements : List Placement) :
    (Condition.ofCheck limit check).holds placements =
      root.holds limit placements 0 := by
  rw [ofCheck_tree htree, Condition.holds_ofNode]

/-- A tree without unknown parts is read back without its redundant groups. -/
theorem exists_tree_of_isKnown {root : Node} (htree : check.expression = some (.tree root))
    (hknown : root.isKnown = true) :
    ∃ tree, Node.parse root.text = .ok tree ∧
      (∀ limit placements, (Condition.ofCheck limit check).holds placements = true →
        (Condition.ofCheck limit (check.withTree tree)).holds placements = true) ∧
      (∀ limit, root.overflow limit = [] → tree.overflow limit = [] ∧
        ∀ placements,
          (Condition.ofCheck limit (check.withTree tree)).holds placements =
            (Condition.ofCheck limit check).holds placements) ∧
      ∀ placements, tree.holdsUnlimited placements = root.holdsUnlimited placements := by
  refine ⟨root.collapse, Node.parse_text_of_isKnown hknown, ?_, ?_,
    fun placements => root.holdsUnlimited_collapse placements⟩
  · intro limit placements hholds
    rw [holds_ofCheck_tree htree] at hholds
    rw [Condition.holds_ofCheck_withTree]
    exact Node.holds_collapse hholds
  · intro limit hnone
    have hfits : root.FitsWithin limit 0 := Node.overflowFrom_eq_nil_iff.mp hnone
    refine ⟨Node.overflowFrom_eq_nil_iff.mpr (Node.fitsWithin_collapse hfits), ?_⟩
    intro placements
    rw [Condition.holds_ofCheck_withTree, holds_ofCheck_tree htree,
      Node.holds_collapse_of_fitsWithin placements hfits]

end Check

/-! ## The lines that are printed -/

/-- The line of a check says nothing but its aim, its rule and the need to connect. -/
theorem Check.explain_eq_iff {check : Check} {rule : String} :
    check.explain =
        check.aim ++ ": " ++ rule ++
          (if check.connectedRequired then " [connect required]" else "") ↔
      check.ruleText = rule := by
  rw [explain, String.append_left_inj, String.append_right_inj]

/-- The line of a check is printed behind those of the checks before it. -/
theorem Command.output_run_explain {system : Surroundings} {file : String}
    {scenario : Scenario} {check : Check} {before after : List Check}
    (hload : LoadsScenario system.files file scenario)
    (hchecks : scenario.rules.checks = before ++ check :: after) :
    (run system .text (.explain file)).output =
      Response.titleLine scenario.title ++ Check.explainAll before ++
        (check.explain ++ "\n") ++ Check.explainAll after := by
  rw [run, readScenario_eq_ok_iff.mpr hload]
  simp only [Response.explaining, hchecks, Check.explainAll_append, Check.explainAll,
    String.append_assoc]

/--
The explanation of a scenario has a line for each check, in order, which shows the part
of the check that its condition is made of: its tree, its clause sequence, or else its
required placements.  `always` stands for a condition that all placements meet.  A list
of required placements can be read back and has the verdict of the check.  A tree
without unknown parts can be read back too; what is read passes whatever the check
passes, agrees with it under every limit that the tree does not overflow, and has the
same meaning without a limit.
-/
theorem Check.explain_states_condition (check : Check) :
    let line := fun rule : String =>
      check.aim ++ ": " ++ rule ++
        if check.connectedRequired then " [connect required]" else ""
    (∀ (system : Surroundings) file scenario before after,
      Command.LoadsScenario system.files file scenario →
      scenario.rules.checks = before ++ check :: after →
      (Command.run system .text (.explain file)).output =
        Response.titleLine scenario.title ++ explainAll before ++
          (check.explain ++ "\n") ++ explainAll after) ∧
    ((∀ root, check.expression = some (.tree root) →
        check.explain = line root.text ∧
          ∀ limit, Condition.ofCheck limit check = .ofNode limit 0 root) ∧
      (∀ first more, check.expression = some (.legacy (first :: more)) →
        check.explain = line (Legacy.text (first :: more) ++ " (legacy)") ∧
          ∀ limit, Condition.ofCheck limit check = .ofLegacy first more) ∧
      (check.expression = none ∨ check.expression = some (.legacy []) →
        check.explain = line
            (if check.requiredPlacements = [] then "always"
            else "(" ++ " AND ".intercalate (check.requiredPlacements.map Clause.text) ++
              ") (required placements)") ∧
          ∀ limit, Condition.ofCheck limit check =
            .ofRequired check.requiredPlacements)) ∧
    (check.explain = line "always" → ∀ limit placements,
      (Condition.ofCheck limit check).holds placements = true) ∧
    (∀ inner, check.explain = line ("(" ++ inner ++ ") (required placements)") →
      ∃ tree, Node.parse ("(" ++ inner ++ ")") = .ok tree ∧
        ∀ limit placements,
          (Condition.ofCheck limit (check.withTree tree)).holds placements =
            (Condition.ofCheck limit check).holds placements) ∧
    (∀ root rule, check.expression = some (.tree root) → root.isKnown = true →
      check.explain = line rule →
      ∃ tree, Node.parse rule = .ok tree ∧
        (∀ limit placements, (Condition.ofCheck limit check).holds placements = true →
          (Condition.ofCheck limit (check.withTree tree)).holds placements = true) ∧
        (∀ limit, root.overflow limit = [] → tree.overflow limit = [] ∧
          ∀ placements,
            (Condition.ofCheck limit (check.withTree tree)).holds placements =
              (Condition.ofCheck limit check).holds placements) ∧
        ∀ placements,
          tree.holdsUnlimited placements = root.holdsUnlimited placements) := by
  intro line
  refine ⟨?_, ⟨?_, ?_, ?_⟩, ?_, ?_, ?_⟩
  · intro system file scenario before after hload hchecks
    exact Command.output_run_explain hload hchecks
  · intro root htree
    exact ⟨explain_eq_iff.mpr (ruleText_tree htree), ofCheck_tree htree⟩
  · intro first more hlegacy
    exact ⟨explain_eq_iff.mpr (ruleText_legacy hlegacy), ofCheck_legacy hlegacy⟩
  · intro hnone
    exact ⟨explain_eq_iff.mpr (ruleText_required hnone), ofCheck_required hnone⟩
  · intro halways
    exact holds_of_ruleText_always (explain_eq_iff.mp halways)
  · intro inner hrequired
    exact exists_tree_of_ruleText_required (explain_eq_iff.mp hrequired)
  · intro root rule htree hknown hrule
    rw [← explain_eq_iff.mp hrule, ruleText_tree htree]
    exact exists_tree_of_isKnown htree hknown

set_option maxRecDepth 4000 in
/--
A file with a tree that has a group too many and has to be connected, with a list of
required placements and with a check that demands nothing.
-/
theorem Check.explain_states_condition_in_file :
    let text := "\x7b\"stage\": 0, \"devicePool\": 0, \"anchors\": [], \"aims\": [],
      \"rules\": \x7b\"checks\": [
        \x7b\"aimId\": \"light\", \"connectedRequired\": true, \"expression\":
          \x7b\"type\": \"group\", \"operator\": \"or\", \"children\":
            [\x7b\"type\": \"group\", \"children\":
              [\x7b\"type\": \"clause\", \"deviceId\": \"lamp\", \"anchorId\": \"desk\"\x7d]\x7d]\x7d\x7d,
        \x7b\"aimId\": \"air\", \"requiredPlacements\":
          [\x7b\"deviceId\": \"fan\", \"anchorId\": \"hall\"\x7d,
            \x7b\"deviceId\": \"smart plug\", \"anchorId\": \"or\"\x7d]\x7d,
        \x7b\"aimId\": \"heat\"\x7d]\x7d\x7d"
    let system : Surroundings := ⟨fun _ => .ok text, id, id⟩
    let root := Node.group .or [.group .and [.clause ⟨"lamp", "desk"⟩]]
    let nested := { (Check.ofAim "light").withTree root with connectedRequired := true }
    let listed : Check :=
      { aim := "air", requiredPlacements := [⟨"fan", "hall"⟩, ⟨"smart plug", "or"⟩] }
    let placements : List Placement := [⟨"lamp", "desk"⟩]
    (Command.run system .text (.explain "rules")).output =
      "light: ((lamp@desk)) [connect required]\n" ++
        "air: (fan@hall AND \"smart plug\"@\"or\") (required placements)\n" ++
        "heat: always\n" ∧
    (∃ tree, Node.parse "((lamp@desk))" = .ok tree ∧
      (Condition.ofCheck 1 (nested.withTree tree)).holds placements =
        (Condition.ofCheck 1 nested).holds placements) ∧
    (∃ tree, Node.parse "(fan@hall AND \"smart plug\"@\"or\")" = .ok tree ∧
      (Condition.ofCheck 0 (listed.withTree tree)).holds placements =
        (Condition.ofCheck 0 listed).holds placements) ∧
    (Condition.ofCheck 0 (Check.ofAim "heat")).holds placements = true := by
  intro text system root nested listed placements
  have hview : ((Json.ofText? text).bind fun document =>
      (Scenario.ofJson document).toOption).map (fun scenario =>
        (scenario.title, scenario.rules.checks)) =
      some (none, [nested, listed, Check.ofAim "heat"]) := by
    -- the characters of a literal are at hand, those of any other text are decoded
    have hchars : text.toList = _ := String.toList_ofList
    rw [Json.ofText?, Written.ofText?, hchars]
    decide +kernel
  have hfile : system.files "rules" = .ok text := rfl
  obtain ⟨scenario, hload, hscenario⟩ := Command.exists_loadsScenario hfile hview
  obtain ⟨htitle, hchecks⟩ := Prod.mk.inj hscenario
  obtain ⟨hprinted, -, -, -, hnested⟩ := explain_states_condition nested
  obtain ⟨-, -, -, hlisted, -⟩ := explain_states_condition listed
  obtain ⟨-, -, halways, -⟩ := explain_states_condition (Check.ofAim "heat")
  obtain ⟨tree, htree, -, hfits, -⟩ :=
    hnested root "((lamp@desk))" rfl rfl (by decide)
  obtain ⟨other, hother, hverdict⟩ :=
    hlisted "fan@hall AND \"smart plug\"@\"or\"" (by decide)
  refine ⟨?_, ⟨tree, htree, (hfits 1 (by decide)).2 placements⟩,
    ⟨other, hother, hverdict 0 placements⟩, halways rfl 0 placements⟩
  rw [hprinted system "rules" scenario [] [listed, Check.ofAim "heat"] hload hchecks,
    htitle]
  decide

end PlacementRules
