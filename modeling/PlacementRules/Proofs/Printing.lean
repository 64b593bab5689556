import PlacementRules.Proofs.Recognition
import PlacementRules.Text.Printer

/-!
# Printed text in the grammar

A printed name is a name of the grammar, and a printed tree without unknown parts is
an operand that stands for the collapsed tree.  Both hold with any text behind them
that does not begin with a name character.
-/

namespace PlacementRules

open Grammar

/-- The text does not go on with a name character. -/
def Delimited (text : List Char) : Prop :=
  ∀ c ∈ text.head?, ¬ NameChar c

theorem delimited_nil : Delimited [] := by
  intro c hc
  simp at hc

theorem delimited_cons {c : Char} (hc : Name.isNameChar c = false) (rest : List Char) :
    Delimited (c :: rest) := by
  intro first hfirst
  obtain rfl : c = first := by simpa using hfirst
  exact (Name.isNameChar_eq_false_iff c).mp hc

theorem delimited_space (rest : List Char) : Delimited (' ' :: rest) :=
  delimited_cons (by decide) rest

theorem delimited_at (rest : List Char) : Delimited ('@' :: rest) :=
  delimited_cons (by decide) rest

theorem delimited_closeParen (rest : List Char) : Delimited (')' :: rest) :=
  delimited_cons (by decide) rest

/-! ## Names -/

namespace Name

/-- An escaped name is read back, backslashes and quotes in any arrangement. -/
theorem quoted_escape (name rest : List Char) :
    Quoted (escape name ++ '"' :: rest) name rest := by
  induction name with
  | nil => exact .close rest
  | cons c name ih =>
      rw [escape]
      by_cases hquote : c = '"'
      · rw [if_pos (.inl hquote), hquote]
        exact .quote ih
      · by_cases hbackslash : c = '\\'
        · rw [if_pos (.inr hbackslash), hbackslash]
          exact .backslash ih
        · have hplain : ¬ (c = '"' ∨ c = '\\') := by
            simp [hquote, hbackslash]
          rw [if_neg hplain]
          exact .plain hquote hbackslash ih

theorem word_of_isBare {name rest : List Char} (hbare : isBare name = true)
    (hrest : Delimited rest) : Word (name ++ rest) name rest := by
  simp only [isBare, Bool.and_eq_true, Bool.not_eq_true', List.isEmpty_eq_false_iff,
    List.all_eq_true] at hbare
  obtain ⟨⟨hnonempty, hall⟩, _⟩ := hbare
  exact ⟨rfl, hnonempty, fun c hc => (isNameChar_iff c).mp (hall c hc), hrest⟩

/-- A quoted name ends with its closing quote, whatever stands behind that. -/
theorem isName_quote (id : String) (rest : List Char) :
    IsName (quote id.toList ++ rest) id rest := by
  have hname := IsName.quoted (quoted_escape id.toList rest)
  rw [String.ofList_toList] at hname
  simpa [quote] using hname

theorem isName_write (id : String) {rest : List Char} (hrest : Delimited rest) :
    IsName (write id.toList ++ rest) id rest := by
  rw [write]
  split
  · rename_i hbare
    have hname := IsName.bare (word_of_isBare hbare hrest)
    rwa [String.ofList_toList] at hname
  · exact isName_quote id rest

end Name

theorem Grammar.keyword_keyword (operator : Operator) {rest : List Char}
    (hrest : Delimited rest) : Keyword operator (operator.keyword.toList ++ rest) rest := by
  refine ⟨operator.keyword.toList, ⟨rfl, ?_, ?_, hrest⟩, rfl⟩
  · cases operator <;> decide
  · have hall : operator.keyword.toList.all Name.isNameChar = true := by
      cases operator <;> decide
    intro c hc
    exact (Name.isNameChar_iff c).mp (List.all_eq_true.mp hall c hc)

namespace Node

/-! ## Trees -/

/-- The members of a group after the first, each behind the operator. -/
def charsTail (operator : Operator) (members : List Node) : List Char :=
  members.flatMap fun node => operator.separator ++ node.chars

theorem charsTail_cons (operator : Operator) (node : Node) (more : List Node) :
    charsTail operator (node :: more) =
      ' ' :: (operator.keyword.toList ++ ' ' :: (node.chars ++ charsTail operator more)) := by
  simp [charsTail, Operator.separator]

theorem charsJoined_cons (operator : Operator) (first : Node) (more : List Node) :
    charsJoined operator (first :: more) = first.chars ++ charsTail operator more := by
  induction more generalizing first with
  | nil => simp [charsTail]
  | cons second more ih =>
      rw [charsJoined_cons_cons, ih]
      simp [charsTail]

theorem delimited_charsTail (operator : Operator) (members : List Node)
    {rest : List Char} (hrest : Delimited rest) :
    Delimited (charsTail operator members ++ rest) := by
  cases members with
  | nil => exact hrest
  | cons node more =>
      rw [charsTail_cons]
      exact delimited_space _

theorem chars_group_cons (operator : Operator) (first : Node) (more : List Node)
    (rest : List Char) :
    (group operator (first :: more)).chars ++ rest =
      '(' :: (first.chars ++ (charsTail operator more ++ ')' :: rest)) := by
  rw [chars_group, charsJoined_cons]
  simp

theorem blanks_space (text : List Char) : Blanks (' ' :: text) text :=
  .blank List.mem_cons_self (.none text)

/-- A chain with the parts of a list, the first of them apart. -/
theorem chain_join {operator : Operator} {phrase : Phrase Node} {first : Node}
    {more : List Node} {text after rest : List Char} (hfirst : phrase text first after)
    (hmore : Links operator phrase after more rest) :
    Chain operator phrase text (join operator first more) rest := by
  cases more with
  | nil =>
      cases hmore
      exact .one hfirst
  | cons second more => exact .several hfirst hmore

mutual

/-- A printed tree without unknown parts is an operand that stands for its collapse. -/
theorem operand_chars {node : Node} (hknown : node.isKnown = true) {rest : List Char}
    (hrest : Delimited rest) : Operand (node.chars ++ rest) node.collapse rest := by
  match node with
  | .clause ⟨device, anchor⟩ =>
      have hdevice := Name.isName_write device
        (delimited_at (Name.write anchor.toList ++ rest))
      have hclause := Operand.clause (.none _) hdevice (Name.isName_write anchor hrest)
      simpa [Clause.chars, collapse] using hclause
  | .unknown => simp [isKnown] at hknown
  | .group operator [] =>
      have hgroup := Operand.emptyGroup (.none ('(' :: ')' :: rest)) (.none (')' :: rest))
      simpa [collapse, collapseList, empty] using hgroup
  | .group operator (first :: more) =>
      rw [isKnown, allKnown, Bool.and_eq_true] at hknown
      have hclose := delimited_closeParen rest
      have hfirst := operand_chars hknown.1 (delimited_charsTail operator more hclose)
      rw [chars_group_cons, collapse, collapseList]
      -- a conjunction within the parentheses is a rule of one part, and an operand of
      -- a disjunction is a conjunction of one part
      cases operator with
      | and =>
          have hmore := links_charsTail .and Operand (fun _ _ _ hoperand => hoperand)
            hknown.2 hclose
          exact .parenthesized (.none _) (.one (chain_join hfirst hmore)) (.none _)
      | or =>
          have hmore := links_charsTail .or Conjunction (fun _ _ _ hoperand => .one hoperand)
            hknown.2 hclose
          exact .parenthesized (.none _) (chain_join (.one hfirst) hmore) (.none _)

theorem links_charsTail (operator : Operator) (phrase : Phrase Node)
    (hphrase : ∀ (text rest : List Char) (node : Node),
      Operand text node rest → phrase text node rest)
    {nodes : List Node} (hknown : allKnown nodes = true) {rest : List Char}
    (hrest : Delimited rest) :
    Links operator phrase (charsTail operator nodes ++ rest) (collapseList nodes) rest := by
  match nodes with
  | [] => exact .nil rest
  | node :: more =>
      rw [allKnown, Bool.and_eq_true] at hknown
      have hnode := operand_chars hknown.1 (delimited_charsTail operator more hrest)
      have hmore := links_charsTail operator phrase hphrase hknown.2 hrest
      have hkeyword := keyword_keyword operator (delimited_space
        (node.chars ++ (charsTail operator more ++ rest)))
      have hspaced := Operand.allowsBlanks _ _ _ _ (blanks_space _) hnode
      have hlinks := Links.cons (blanks_space _) hkeyword (hphrase _ _ _ hspaced) hmore
      simpa [charsTail_cons, collapseList] using hlinks

end

end Node

end PlacementRules
