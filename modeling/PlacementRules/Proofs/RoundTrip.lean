import PlacementRules.Proofs.Canonical
import PlacementRules.Proofs.Printing

/-!
# Printing a tree and reading it back

A printed tree is read back collapsed, unless some part of it is unknown; then its
text is no rule.  The trees that come back as they are are the canonical ones.
-/

namespace PlacementRules

open Grammar Reading

namespace Node

/-! ## Trees without unknown parts -/

theorem derives_text {node : Node} (hknown : node.isKnown = true) :
    Derives node.text.toList node.collapse := by
  have hoperand := operand_chars hknown delimited_nil
  rw [List.append_nil] at hoperand
  rw [text, String.toList_ofList]
  exact ⟨[], .one (.one hoperand), .none []⟩

/-! ## Trees with unknown parts -/

/-- A printed tree begins neither with a blank nor with a closing parenthesis. -/
theorem head_chars (node : Node) :
    ∃ c more, node.chars = c :: more ∧ Blank.isBlankChar c = false ∧ c ≠ '#' ∧
      c ≠ ')' := by
  match node with
  | .clause ⟨device, anchor⟩ =>
      have hname := Name.isName_write device (delimited_at (Name.write anchor.toList))
      obtain ⟨c, more, hchars, _⟩ := hname.head
      have hstops := Blank.stops_of_isName hname
      rw [hchars] at hstops
      obtain ⟨hblank, hhash⟩ := hstops c (by simp)
      refine ⟨c, more, hchars, hblank, hhash, ?_⟩
      intro hparen
      rw [hchars, hparen] at hname
      exact not_isName_closeParen hname
  | .group operator members => exact ⟨'(', _, rfl, by decide, by decide, by decide⟩
  | .unknown => exact ⟨'<', _, rfl, by decide, by decide, by decide⟩

theorem skip_of_blanks_chars {node : Node} {text rest : List Char}
    (hblanks : Blanks text (node.chars ++ rest)) :
    Blank.skip text = node.chars ++ rest := by
  obtain ⟨c, more, hchars, hblank, hhash, _⟩ := node.head_chars
  apply Blank.skip_eq_of_blanks hblanks
  rw [hchars, List.cons_append]
  exact Blank.stops_cons hblank hhash _

theorem readJoiner?_charsTail_cons (operator : Operator) (node : Node)
    (more : List Node) (rest : List Char) :
    readJoiner? operator (charsTail operator (node :: more) ++ rest) =
      some (' ' :: (node.chars ++ (charsTail operator more ++ rest))) := by
  rw [charsTail_cons]
  simp only [List.cons_append, List.append_assoc]
  exact readJoiner?_eq_some_of_blanks (blanks_space _)
    (keyword_keyword operator (delimited_space _))

/--
The reader takes a printed member of a group as a whole if it has no unknown part,
and refuses it otherwise.
-/
structure ReadsMembers (operator : Operator) (part : Reader Node) (bound : Nat)
    (nodes : List Node) : Prop where
  takes : ∀ node ∈ nodes, node.isKnown = true →
    ∀ (text : List Char) (more : List Node) (rest : List Char),
      Blanks text (node.chars ++ (charsTail operator more ++ ')' :: rest)) →
      text.length < bound →
      part text = .ok (node.collapse, charsTail operator more ++ ')' :: rest)
  refuses : ∀ node ∈ nodes, node.isKnown = false →
    ∀ (text rest : List Char), Blanks text (node.chars ++ rest) →
      text.length < bound → ∀ result, part text ≠ .ok result

theorem ReadsMembers.tail {operator : Operator} {part : Reader Node} {bound : Nat}
    {node : Node} {more : List Node}
    (hreads : ReadsMembers operator part bound (node :: more)) :
    ReadsMembers operator part bound more where
  takes := fun other hmem => hreads.takes other (List.mem_cons_of_mem node hmem)
  refuses := fun other hmem => hreads.refuses other (List.mem_cons_of_mem node hmem)

section

variable {operator : Operator} {part : Reader Node} {bound : Nat}

theorem readMore_refuses {nodes : List Node}
    (hreads : ReadsMembers operator part bound nodes)
    (hunknown : allKnown nodes = false) (rest : List Char) {count : Nat}
    (hcount : (charsTail operator nodes ++ ')' :: rest).length ≤ count)
    (hbound : (charsTail operator nodes ++ ')' :: rest).length < bound)
    (result : List Node × List Char) :
    readMore operator part count (charsTail operator nodes ++ ')' :: rest) ≠
      .ok result := by
  induction nodes generalizing count result with
  | nil => simp [allKnown] at hunknown
  | cons node more ih =>
      have hjoiner := readJoiner?_charsTail_cons operator node more (')' :: rest)
      have hlength := (keyword_keyword operator (delimited_space
        (node.chars ++ (charsTail operator more ++ ')' :: rest)))).length_lt
      rw [charsTail_cons] at hcount hbound
      simp only [List.length_cons, List.length_append] at hcount hbound hlength
      have hblanks := blanks_space
        (node.chars ++ (charsTail operator more ++ ')' :: rest))
      have hshort : (' ' :: (node.chars ++
          (charsTail operator more ++ ')' :: rest))).length < bound := by
        simp only [List.length_cons, List.length_append]
        omega
      intro hread
      cases count with
      | zero => omega
      | succ count =>
          cases hknown : node.isKnown with
          | false =>
              simp only [readMore, hjoiner] at hread
              split at hread
              · simp at hread
              · rename_i hnode
                exact hreads.refuses node List.mem_cons_self hknown _ _ hblanks hshort _
                  hnode
          | true =>
              have hnode := hreads.takes node List.mem_cons_self hknown _ more rest
                hblanks hshort
              have hmore : allKnown more = false := by
                simpa [allKnown, hknown] using hunknown
              simp only [readMore, hjoiner, hnode] at hread
              split at hread
              · simp at hread
              · rename_i htail
                refine ih hreads.tail hmore ?_ ?_ _ htail
                · simp only [List.length_cons, List.length_append]
                  omega
                · simp only [List.length_cons, List.length_append]
                  omega

theorem readChain_refuses {first : Node} {more : List Node}
    (hreads : ReadsMembers operator part bound (first :: more))
    (hunknown : allKnown (first :: more) = false) (rest : List Char)
    (hbound : (first.chars ++ (charsTail operator more ++ ')' :: rest)).length < bound)
    (result : Node × List Char) :
    readChain operator part (first.chars ++ (charsTail operator more ++ ')' :: rest)) ≠
      .ok result := by
  intro hread
  obtain ⟨node, after, nodes, hfirst, hmore, _⟩ := readChain_eq_ok_iff.mp hread
  cases hknown : first.isKnown with
  | false =>
      exact hreads.refuses first List.mem_cons_self hknown _ _ (.none _) hbound _ hfirst
  | true =>
      have htakes := hreads.takes first List.mem_cons_self hknown _ more rest (.none _)
        hbound
      obtain ⟨rfl, rfl⟩ := Prod.mk.inj (Except.ok.inj (hfirst.symm.trans htakes))
      have hmore' : allKnown more = false := by
        simpa [allKnown, hknown] using hunknown
      rw [List.length_append] at hbound
      exact readMore_refuses hreads.tail hmore' rest (Nat.le_refl _) (by omega) _ hmore

end

/-- Refusing what has unknown parts, for readers of operands with little fuel or much. -/
def Refused (node : Node) : Prop :=
  node.isKnown = false → ∀ (fuel : Nat) (text rest : List Char),
    Blanks text (node.chars ++ rest) → text.length < fuel + 1 →
    ∀ result, readOperand (readRule fuel) text ≠ .ok result

theorem operand_readsMembers (operator : Operator) (fuel : Nat) {nodes : List Node}
    (hrefused : ∀ node ∈ nodes, node.Refused) :
    ReadsMembers operator (readOperand (readRule fuel)) (fuel + 1) nodes where
  takes := by
    intro node _ hknown text more rest hblanks hbound
    have hdelimited := delimited_charsTail operator more (delimited_closeParen rest)
    exact readOperand_complete (readRule_complete fuel) _ _ _
      (Operand.allowsBlanks _ _ _ _ hblanks (operand_chars hknown hdelimited)) hbound
      trivial
  refuses := fun node hmem hunknown => hrefused node hmem hunknown fuel

theorem conjunction_readsMembers (fuel : Nat) {nodes : List Node}
    (hrefused : ∀ node ∈ nodes, node.Refused) :
    ReadsMembers .or (readChain .and (readOperand (readRule fuel))) (fuel + 1) nodes where
  takes := by
    intro node hmem hknown text more rest hblanks hbound
    have hoperand := (operand_readsMembers .or fuel hrefused).takes node hmem hknown text
      more rest hblanks hbound
    have hlast : readJoiner? .and (charsTail .or more ++ ')' :: rest) = none := by
      cases more with
      | nil => exact noJoiner_of_closeParen (.none _) .and
      | cons second more =>
          exact readJoiner?_eq_none_of_ne
            (readJoiner?_charsTail_cons .or second more (')' :: rest)) (by decide)
    rw [readChain_eq_ok_iff]
    exact ⟨node.collapse, _, [], hoperand, readMore_of_joiner_eq_none hlast _ _, rfl⟩
  refuses := by
    intro node hmem hunknown text rest hblanks hbound result hread
    obtain ⟨first, after, _, hfirst, _, _⟩ := readChain_eq_ok_iff.mp hread
    exact hrefused node hmem hunknown fuel text rest hblanks hbound _ hfirst

/-- No rule is read from the members of a group if one of them has unknown parts. -/
theorem readRule_refuses {operator : Operator} {first : Node} {more : List Node}
    (hrefused : ∀ node ∈ first :: more, node.Refused)
    (hunknown : allKnown (first :: more) = false) {fuel : Nat} (rest : List Char)
    (hbound : (first.chars ++ (charsTail operator more ++ ')' :: rest)).length < fuel)
    (result : Node × List Char) :
    readRule fuel (first.chars ++ (charsTail operator more ++ ')' :: rest)) ≠
      .ok result := by
  cases fuel with
  | zero => omega
  | succ fuel =>
      intro hread
      cases operator with
      | and =>
          obtain ⟨_, _, _, hconjunction, _, _⟩ := readChain_eq_ok_iff.mp hread
          exact readChain_refuses (operand_readsMembers .and fuel hrefused) hunknown rest
            hbound _ hconjunction
      | or =>
          exact readChain_refuses (conjunction_readsMembers fuel hrefused) hunknown rest
            hbound _ hread

mutual

theorem refused (node : Node) : node.Refused := by
  intro hunknown fuel text rest hblanks hbound result hread
  have hskip := skip_of_blanks_chars hblanks
  have hle := (Blank.blanks_skip text).length_le
  rw [hskip] at hle
  obtain ⟨value, last⟩ := result
  rw [readOperand_eq_ok_iff, hskip] at hread
  match node with
  | .clause _ => simp [isKnown] at hunknown
  | .unknown =>
      rcases hread with ⟨_, hparen, _⟩ | ⟨_, hclause⟩
      · simp at hparen
      · obtain ⟨_, _, _, hname, _, _⟩ := readClause_eq_ok_iff.mp hclause
        exact not_isName_cons (by decide) (by decide) hname
  | .group _ [] => simp [isKnown, allKnown] at hunknown
  | .group operator (first :: more) =>
      rw [chars_group_cons] at hread hle
      rw [List.length_cons] at hle
      rcases hread with ⟨inner, hinner, hparen⟩ | ⟨hnone, _⟩
      · obtain ⟨_, rfl⟩ := List.cons.inj hinner
        rw [readParenthesized_eq_ok_iff, skip_of_blanks_chars (.none _)] at hparen
        rcases hparen with ⟨hclose, _⟩ | ⟨_, after, hrule, _⟩
        · obtain ⟨c, chars, hchars, _, _, hc⟩ := first.head_chars
          rw [hchars] at hclose
          exact hc (List.cons.inj hclose).1
        · exact readRule_refuses (refused_members (first :: more))
            (by simpa [isKnown] using hunknown) rest (by omega) _ hrule
      · exact hnone _ rfl

theorem refused_members (nodes : List Node) : ∀ node ∈ nodes, node.Refused := by
  match nodes with
  | [] =>
      intro node hmem
      exact absurd hmem List.not_mem_nil
  | first :: more =>
      intro node hmem
      rcases List.mem_cons.mp hmem with heq | hmore
      · rw [heq]
        exact refused first
      · exact refused_members more node hmore

end

theorem parse_text_of_isKnown {node : Node} (hknown : node.isKnown = true) :
    parse node.text = .ok node.collapse :=
  parse_of_derives (derives_text hknown)

theorem parse_text_of_not_isKnown {node : Node} (hunknown : node.isKnown = false) :
    ∃ error, parse node.text = .error error := by
  cases hparse : parse node.text with
  | error error => exact ⟨error, rfl⟩
  | ok root =>
      rw [parse, mapError_eq_ok_iff, text, String.toList_ofList] at hparse
      unfold readWhole at hparse
      split at hparse
      · simp at hparse
      · rename_i hrule
        obtain ⟨_, _, _, hconjunction, _, _⟩ := readChain_eq_ok_iff.mp hrule
        obtain ⟨_, _, _, hoperand, _, _⟩ := readChain_eq_ok_iff.mp hconjunction
        refine absurd hoperand (refused node hunknown _ node.chars [] ?_ (by omega) _)
        rw [List.append_nil]
        exact .none _

/--
Reading a printed tree fails exactly if some part of the tree is unknown, and
otherwise gives the collapsed tree.  It gives the tree itself exactly if the tree is
canonical.
-/
theorem parse_text (node : Node) :
    ((∃ error, parse node.text = .error error) ↔ node.isKnown = false) ∧
    (parse node.text = .ok node.collapse ↔ node.isKnown = true) ∧
    (parse node.text = .ok node ↔ node.isCanonical = true) := by
  cases hknown : node.isKnown with
  | false =>
      obtain ⟨error, herror⟩ := parse_text_of_not_isKnown hknown
      have hnot : ¬ node.isCanonical = true := by
        rw [isCanonical_iff, hknown]
        simp
      simp [herror, hnot]
  | true =>
      have hread := parse_text_of_isKnown hknown
      simp [hread, isCanonical_iff, hknown]

end Node

end PlacementRules
