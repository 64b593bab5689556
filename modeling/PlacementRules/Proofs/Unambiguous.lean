import PlacementRules.Proofs.Printing
import PlacementRules.Proofs.Resemblance

/-!
# Printed expressions are unambiguous

A printed name, clause or tree says where it ends, whatever stands behind it, and
printing keeps apart all that means different things.  Two expressions are printed
alike just when they resemble each other.
-/

namespace PlacementRules

open Grammar

/-! ## Names and clauses -/

theorem Grammar.IsName.unique {text rest after : List Char} {name other : String}
    (hname : IsName text name rest) (hother : IsName text other after) :
    name = other ∧ rest = after := by
  have hread := Reading.readName_eq_ok_iff.mpr hname
  rw [Reading.readName_eq_ok_iff.mpr hother] at hread
  obtain ⟨hnames, hrests⟩ := Prod.mk.inj (Except.ok.inj hread)
  exact ⟨hnames.symm, hrests.symm⟩

theorem Name.write_append_inj {id other : String} {rest after : List Char}
    (hrest : Delimited rest) (hafter : Delimited after)
    (htext : write id.toList ++ rest = write other.toList ++ after) :
    id = other ∧ rest = after := by
  have hname := isName_write id hrest
  rw [htext] at hname
  exact hname.unique (isName_write other hafter)

namespace Clause

theorem chars_append (leaf : Clause) (rest : List Char) :
    leaf.chars ++ rest =
      Name.write leaf.device.toList ++ '@' :: (Name.write leaf.anchor.toList ++ rest) := by
  simp [chars]

theorem chars_append_inj {leaf other : Clause} {rest after : List Char}
    (hrest : Delimited rest) (hafter : Delimited after)
    (htext : leaf.chars ++ rest = other.chars ++ after) :
    leaf = other ∧ rest = after := by
  rw [chars_append, chars_append] at htext
  obtain ⟨hdevice, hat⟩ :=
    Name.write_append_inj (delimited_at _) (delimited_at _) htext
  obtain ⟨-, htail⟩ := List.cons.inj hat
  obtain ⟨hanchor, hend⟩ := Name.write_append_inj hrest hafter htail
  refine ⟨?_, hend⟩
  cases leaf
  cases other
  rw [Clause.mk.injEq]
  exact ⟨hdevice, hanchor⟩

/-- A printed clause begins as a name does. -/
theorem chars_append_ne_cons (leaf : Clause) (rest : List Char) {c : Char}
    (hchar : Name.isNameChar c = false) (hquote : c ≠ '"') (text : List Char) :
    leaf.chars ++ rest ≠ c :: text := by
  intro htext
  have hname := Name.isName_write leaf.device
    (delimited_at (Name.write leaf.anchor.toList ++ rest))
  rw [← chars_append, htext] at hname
  exact not_isName_cons hchar hquote hname

end Clause

/-- The keyword between two members tells the operator. -/
theorem Operator.separator_append_inj {operator other : Operator} {text text' : List Char}
    (hkeyword : operator.separator ++ text = other.separator ++ text') :
    operator = other ∧ text = text' := by
  by_cases hsame : operator = other
  · subst hsame
    exact ⟨rfl, List.append_cancel_left hkeyword⟩
  · exfalso
    cases operator <;> cases other <;> simp [separator, keyword] at hsame hkeyword

/-! ## Trees -/

namespace Node

theorem charsTail_cons_append (operator : Operator) (node : Node) (more : List Node)
    (rest : List Char) :
    charsTail operator (node :: more) ++ rest =
      operator.separator ++ (node.chars ++ (charsTail operator more ++ rest)) := by
  simp [charsTail]

/-- Behind the last member of a group there is a parenthesis and no keyword. -/
theorem closeParen_ne_charsTail_cons (operator : Operator) (node : Node)
    (more : List Node) (rest text : List Char) :
    ')' :: text ≠ charsTail operator (node :: more) ++ rest := by
  rw [charsTail_cons]
  simp

theorem chars_append_ne_closeParen (node : Node) (rest text : List Char) :
    node.chars ++ rest ≠ ')' :: text := by
  cases node with
  | clause leaf => exact leaf.chars_append_ne_cons rest (by decide) (by decide) text
  | group operator members => simp
  | unknown => simp

theorem chars_clause_append_ne_group (leaf : Clause) (operator : Operator)
    (members : List Node) (rest after : List Char) :
    (clause leaf).chars ++ rest ≠ (group operator members).chars ++ after := by
  rw [chars_clause, chars_group]
  exact leaf.chars_append_ne_cons rest (by decide) (by decide) _

theorem chars_clause_append_ne_unknown (leaf : Clause) (rest after : List Char) :
    (clause leaf).chars ++ rest ≠ unknown.chars ++ after :=
  leaf.chars_append_ne_cons rest (by decide) (by decide) _

theorem chars_group_append_ne_unknown (operator : Operator) (members : List Node)
    (rest after : List Char) :
    (group operator members).chars ++ rest ≠ unknown.chars ++ after := by
  simp

mutual

/--
A printed tree, with any text behind it that does not go on with a name, tells where it
ends, and it tells the tree but for the operators that combine nothing.
-/
theorem resembles_of_chars_append_eq {node other : Node} {rest after : List Char}
    (hrest : Delimited rest) (hafter : Delimited after)
    (htext : node.chars ++ rest = other.chars ++ after) :
    node.Resembles other ∧ rest = after := by
  match node, other with
  | .clause leaf, .clause head =>
      obtain ⟨hleaf, hend⟩ := Clause.chars_append_inj hrest hafter htext
      exact ⟨hleaf ▸ .clause leaf, hend⟩
  | .unknown, .unknown => exact ⟨.unknown, List.append_cancel_left htext⟩
  | .clause leaf, .group operator members =>
      exact absurd htext (chars_clause_append_ne_group leaf operator members rest after)
  | .clause leaf, .unknown =>
      exact absurd htext (chars_clause_append_ne_unknown leaf rest after)
  | .group operator members, .clause leaf =>
      exact absurd htext.symm
        (chars_clause_append_ne_group leaf operator members after rest)
  | .group operator members, .unknown =>
      exact absurd htext (chars_group_append_ne_unknown operator members rest after)
  | .unknown, .clause leaf =>
      exact absurd htext.symm (chars_clause_append_ne_unknown leaf after rest)
  | .unknown, .group operator members =>
      exact absurd htext.symm (chars_group_append_ne_unknown operator members after rest)
  | .group operator [], .group inner [] =>
      have hend : rest = after := by simpa using htext
      exact ⟨.group (by simp) .nil, hend⟩
  | .group operator [], .group inner (first :: more) =>
      rw [chars_group_cons] at htext
      exact absurd (List.cons.inj htext).2.symm (first.chars_append_ne_closeParen _ _)
  | .group operator (first :: more), .group inner [] =>
      rw [chars_group_cons] at htext
      exact absurd (List.cons.inj htext).2 (first.chars_append_ne_closeParen _ _)
  | .group operator (first :: more), .group inner (head :: others) =>
      rw [chars_group_cons, chars_group_cons] at htext
      obtain ⟨-, hinner⟩ := List.cons.inj htext
      obtain ⟨hfirst, htail⟩ := resembles_of_chars_append_eq
        (delimited_charsTail operator more (delimited_closeParen rest))
        (delimited_charsTail inner others (delimited_closeParen after)) hinner
      obtain ⟨hmore, hoperator, hend⟩ := resemble_of_charsTail_append_eq htail
      refine ⟨.group ?_ (.cons hfirst hmore), hend⟩
      intro hseveral
      apply hoperator
      rintro rfl
      simp at hseveral

/-- The members after the first tell the operator too, if there are any. -/
theorem resemble_of_charsTail_append_eq {operator inner : Operator}
    {nodes others : List Node} {rest after : List Char}
    (htext : charsTail operator nodes ++ ')' :: rest =
      charsTail inner others ++ ')' :: after) :
    List.Forall₂ Resembles nodes others ∧ (nodes ≠ [] → operator = inner) ∧
      rest = after := by
  match nodes, others with
  | [], [] =>
      have hend : rest = after := by simpa [charsTail] using htext
      exact ⟨.nil, by simp, hend⟩
  | [], head :: others =>
      exact absurd htext (closeParen_ne_charsTail_cons inner head others _ _)
  | node :: more, [] =>
      exact absurd htext.symm (closeParen_ne_charsTail_cons operator node more _ _)
  | node :: more, head :: others =>
      rw [charsTail_cons_append, charsTail_cons_append] at htext
      obtain ⟨hoperator, hmembers⟩ := Operator.separator_append_inj htext
      obtain ⟨hnode, htail⟩ := resembles_of_chars_append_eq
        (delimited_charsTail operator more (delimited_closeParen rest))
        (delimited_charsTail inner others (delimited_closeParen after)) hmembers
      obtain ⟨hmore, -, hend⟩ := resemble_of_charsTail_append_eq htail
      exact ⟨.cons hnode hmore, fun _ => hoperator, hend⟩

end

theorem charsJoined_of_length_lt_two {members : List Node} (hfew : members.length < 2)
    (operator inner : Operator) :
    charsJoined operator members = charsJoined inner members := by
  match members with
  | [] => rfl
  | [node] => rfl
  | _ :: _ :: more =>
      simp only [List.length_cons] at hfew
      omega

mutual

theorem Resembles.chars_eq {node other : Node} (hresembles : node.Resembles other) :
    node.chars = other.chars := by
  cases hresembles with
  | clause leaf => rfl
  | unknown => rfl
  | @group operator inner members others hoperator hmembers =>
      rw [chars_group, chars_group, ← charsJoined_eq_of_resemble inner hmembers]
      by_cases hfew : members.length < 2
      · rw [charsJoined_of_length_lt_two hfew operator inner]
      · rw [hoperator (by omega)]

theorem charsJoined_eq_of_resemble (operator : Operator) {nodes others : List Node}
    (hresemble : List.Forall₂ Resembles nodes others) :
    charsJoined operator nodes = charsJoined operator others := by
  cases hresemble with
  | nil => rfl
  | cons hnode hmore =>
      rw [charsJoined_cons, charsJoined_cons, hnode.chars_eq,
        charsTail_eq_of_resemble operator hmore]

theorem charsTail_eq_of_resemble (operator : Operator) {nodes others : List Node}
    (hresemble : List.Forall₂ Resembles nodes others) :
    charsTail operator nodes = charsTail operator others := by
  cases hresemble with
  | nil => rfl
  | cons hnode hmore =>
      rw [charsTail_cons, charsTail_cons, hnode.chars_eq,
        charsTail_eq_of_resemble operator hmore]

end

theorem text_eq_iff {root other : Node} :
    root.text = other.text ↔ root.Resembles other := by
  rw [text, text, String.ofList_inj]
  constructor
  · intro htext
    exact (resembles_of_chars_append_eq delimited_nil delimited_nil
      (congrArg (· ++ []) htext)).1
  · intro hresembles
    exact hresembles.chars_eq

/-- No printed tree begins with the bracket of a sequence. -/
theorem chars_ne_openBracket (node : Node) (text : List Char) :
    node.chars ≠ '[' :: text := by
  cases node with
  | clause leaf =>
      rw [← List.append_nil (clause leaf).chars]
      exact leaf.chars_append_ne_cons [] (by decide) (by decide) text
  | group operator members => simp
  | unknown => simp

end Node

/-! ## Clause sequences -/

namespace Legacy

theorem delimited_charsTail (steps : Legacy) (rest : List Char) :
    Delimited (charsTail steps ++ ']' :: rest) := by
  cases steps with
  | nil => exact delimited_cons (by decide) rest
  | cons step more =>
      rw [charsTail, Operator.separator]
      exact delimited_space _

theorem resemble_of_charsTail_eq {steps others : Legacy}
    (htext : charsTail steps ++ [']'] = charsTail others ++ [']']) :
    List.Forall₂ LegacyStep.Resembles steps others := by
  induction steps generalizing others with
  | nil =>
      cases others with
      | nil => exact .nil
      | cons head others => simp [charsTail, Operator.separator] at htext
  | cons step more ih =>
      cases others with
      | nil => simp [charsTail, Operator.separator] at htext
      | cons head others =>
          simp only [charsTail, List.append_assoc] at htext
          obtain ⟨hjoiner, hclause⟩ := Operator.separator_append_inj htext
          obtain ⟨hclause, hmore⟩ := Clause.chars_append_inj (delimited_charsTail more [])
            (delimited_charsTail others []) hclause
          exact .cons ⟨hclause, hjoiner⟩ (ih hmore)

theorem charsTail_eq_of_resemble {steps others : Legacy}
    (hresemble : List.Forall₂ LegacyStep.Resembles steps others) :
    charsTail steps = charsTail others := by
  induction hresemble with
  | nil => rfl
  | cons hstep _ ih => rw [charsTail, charsTail, hstep.joiner, hstep.clause, ih]

theorem chars_cons_ne_chars_nil (first : LegacyStep) (more : Legacy) :
    chars (first :: more) ≠ chars [] := by
  intro htext
  have hinner : first.clause.chars ++ (charsTail more ++ [']']) = [']'] := by
    simpa [chars] using htext
  exact first.clause.chars_append_ne_cons _ (by decide) (by decide) [] hinner

theorem text_eq_iff {steps others : Legacy} :
    text steps = text others ↔ steps.Resembles others := by
  rw [text, text, String.ofList_inj]
  constructor
  · intro htext
    match steps, others with
    | [], [] => exact .nil
    | [], head :: others => exact absurd htext.symm (chars_cons_ne_chars_nil head others)
    | first :: more, [] => exact absurd htext (chars_cons_ne_chars_nil first more)
    | first :: more, head :: others =>
        simp only [chars, List.append_assoc, List.cons.injEq, true_and] at htext
        obtain ⟨hfirst, hmore⟩ := Clause.chars_append_inj (delimited_charsTail more [])
          (delimited_charsTail others []) htext
        exact .cons hfirst (resemble_of_charsTail_eq hmore)
  · intro hresembles
    cases hresembles with
    | nil => rfl
    | cons hfirst hmore => rw [chars, chars, hfirst, charsTail_eq_of_resemble hmore]

end Legacy

theorem Legacy.exists_chars_eq_cons (steps : Legacy) :
    ∃ text, steps.chars = '[' :: text := by
  cases steps with
  | nil => exact ⟨_, rfl⟩
  | cons first more => exact ⟨_, rfl⟩

theorem Node.text_ne_legacy_text (root : Node) (steps : Legacy) :
    root.text ≠ steps.text := by
  rw [text, Legacy.text, Ne, String.ofList_inj]
  obtain ⟨text, hsteps⟩ := steps.exists_chars_eq_cons
  rw [hsteps]
  exact root.chars_ne_openBracket text

/-! ## Expressions -/

/-- Expressions are printed alike just when they resemble each other. -/
theorem Expression.text_eq_text_iff {expression other : Expression} :
    expression.text = other.text ↔ expression.Resembles other := by
  constructor
  · intro htext
    match expression, other with
    | .legacy steps, .legacy others => exact .legacy (Legacy.text_eq_iff.mp htext)
    | .tree root, .tree other => exact .tree (Node.text_eq_iff.mp htext)
    | .legacy steps, .tree root => exact absurd htext.symm (root.text_ne_legacy_text steps)
    | .tree root, .legacy steps => exact absurd htext (root.text_ne_legacy_text steps)
  · intro hresembles
    cases hresembles with
    | legacy hsteps => exact Legacy.text_eq_iff.mpr hsteps
    | tree hroot => exact Node.text_eq_iff.mpr hroot

/--
Two expressions have one text just when they are trees that differ at most in the
operators of groups with fewer than two members, or sequences that differ at most in the
first operator and in leaving out an `and` or not.  Checks that carry such expressions
overflow every limit at the same paths, and if they require the same placements
otherwise, their conditions agree under every limit on all placements.
-/
theorem Expression.text_determines_meaning (first second : Expression) :
    (first.text = second.text ↔
      (∃ root other, first = .tree root ∧ second = .tree other ∧ root.Resembles other) ∨
      ∃ steps others, first = .legacy steps ∧ second = .legacy others ∧
        Legacy.Resembles steps others) ∧
    (first.text = second.text → ∀ check other : Check,
      check.expression = some first → other.expression = some second →
      (∀ limit, check.overflow limit = other.overflow limit) ∧
      (check.requiredPlacements = other.requiredPlacements →
        ∀ limit placements,
          (Condition.ofCheck limit check).holds placements =
            (Condition.ofCheck limit other).holds placements ∧
          (check.connectedRequired = other.connectedRequired → ∀ connected,
            (CompiledCheck.ofCheck limit check).passes placements connected =
              (CompiledCheck.ofCheck limit other).passes placements connected))) := by
  rw [text_eq_text_iff]
  refine ⟨?_, ?_⟩
  · constructor
    · intro hresembles
      cases hresembles with
      | legacy hsteps => exact .inr ⟨_, _, rfl, rfl, hsteps⟩
      | tree hroot => exact .inl ⟨_, _, rfl, rfl, hroot⟩
    · rintro (⟨root, other, rfl, rfl, hroot⟩ | ⟨steps, others, rfl, rfl, hsteps⟩)
      · exact .tree hroot
      · exact .legacy hsteps
  · intro hresembles check other hcheck hother
    refine ⟨hresembles.overflow_eq hcheck hother, ?_⟩
    intro hrequired limit placements
    have hholds := hresembles.holds_eq hcheck hother hrequired limit placements
    refine ⟨?_, ?_⟩
    · rw [Condition.holds_ofCheck, Condition.holds_ofCheck, hholds]
    · intro hconnection connected
      rw [CompiledCheck.passes_ofCheck, CompiledCheck.passes_ofCheck, Check.passes,
        Check.passes, hholds, hconnection]

/--
The operators of a single member and of an empty group exchanged, and a sequence with
another first operator and an `and` left out.
-/
theorem Expression.text_determines_meaning_of_idle_operators :
    let tree (single empty : Operator) : Expression :=
      .tree (.group .or [.clause ⟨"smart plug", "and"⟩,
        .group single [.group empty []], .unknown])
    let sequence (seed joiner : Option Operator) : Expression :=
      .legacy [⟨seed, ⟨"lamp", ""⟩⟩, ⟨some .or, ⟨"fan", "hall"⟩⟩,
        ⟨joiner, ⟨"lamp", "desk"⟩⟩]
    let check (expression : Expression) : Check :=
      { aim := "light", expression := some expression }
    let condition (limit : Nat) (expression : Expression) :=
      (Condition.ofCheck limit (check expression)).holds [⟨"fan", "hall"⟩]
    (tree .and .or).text = (tree .or .and).text ∧
    (check (tree .and .or)).overflow 1 = (check (tree .or .and)).overflow 1 ∧
    condition 2 (tree .and .or) = condition 2 (tree .or .and) ∧
    (sequence (some .or) none).text = (sequence none (some .and)).text ∧
    condition 0 (sequence (some .or) none) = condition 0 (sequence none (some .and)) := by
  intro tree sequence check condition
  have htree : (tree .and .or).text = (tree .or .and).text := rfl
  have hsequence : (sequence (some .or) none).text = (sequence none (some .and)).text :=
    rfl
  obtain ⟨-, htrees⟩ := text_determines_meaning (tree .and .or) (tree .or .and)
  obtain ⟨-, hsequences⟩ :=
    text_determines_meaning (sequence (some .or) none) (sequence none (some .and))
  obtain ⟨hoverflow, hcondition⟩ :=
    htrees htree (check (tree .and .or)) (check (tree .or .and)) rfl rfl
  obtain ⟨-, hverdict⟩ := hsequences hsequence (check (sequence (some .or) none))
    (check (sequence none (some .and))) rfl rfl
  exact ⟨htree, hoverflow 1, (hcondition rfl 2 _).1, hsequence, (hverdict rfl 0 _).1⟩

end PlacementRules
