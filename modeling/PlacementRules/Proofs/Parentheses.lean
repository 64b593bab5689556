import PlacementRules.Proofs.Locality

/-!
# The parentheses of a text

The parentheses that group the parts of a rule are those outside quoted names and
comments.  A phrase of the grammar closes as many of them as it opens.
-/

namespace PlacementRules

/-- What a place in rule text can be inside of. -/
inductive Enclosure where
  | none
  | comment
  | quotes
  /-- Inside quotes, right behind a backslash. -/
  | escape
deriving DecidableEq, Repr

namespace Enclosure

/-- The parentheses from a place on that lie outside quoted names and comments. -/
def parentheses : Enclosure → List Char → List Char
  | _, [] => []
  | none, c :: rest =>
      if c = '"' then quotes.parentheses rest
      else if c = '#' ∧ Blank.startsComment rest then comment.parentheses rest
      else if c = '(' ∨ c = ')' then c :: none.parentheses rest
      else none.parentheses rest
  | comment, c :: rest =>
      if Blank.isLineEndChar c then none.parentheses rest else comment.parentheses rest
  | quotes, c :: rest =>
      if c = '"' then none.parentheses rest
      else if c = '\\' then escape.parentheses rest
      else quotes.parentheses rest
  | escape, _ :: rest => quotes.parentheses rest

end Enclosure

/-- The parentheses of a text that lie outside quoted names and comments. -/
def parentheses (text : List Char) : List Char :=
  Enclosure.none.parentheses text

/-- In the text, `opened` parentheses are opened and not closed. -/
def LeavesOpen (opened : Nat) (text : List Char) : Prop :=
  (parentheses text).count '(' = (parentheses text).count ')' + opened

theorem parentheses_open (rest : List Char) :
    parentheses ('(' :: rest) = '(' :: parentheses rest := rfl

theorem parentheses_close (rest : List Char) :
    parentheses (')' :: rest) = ')' :: parentheses rest := rfl

theorem parentheses_at (rest : List Char) :
    parentheses ('@' :: rest) = parentheses rest := rfl

theorem parentheses_quote (rest : List Char) :
    parentheses ('"' :: rest) = Enclosure.quotes.parentheses rest := rfl

namespace Grammar

/-! ## Blanks, names and keywords -/

theorem parentheses_blank {c : Char} (hc : c ∈ [' ', '\t', '\n', '\x0c', '\r'])
    (rest : List Char) : parentheses (c :: rest) = parentheses rest := by
  simp only [List.mem_cons, List.not_mem_nil, or_false] at hc
  rcases hc with rfl | rfl | rfl | rfl | rfl <;> rfl

theorem parentheses_nameChar {c : Char} (hc : NameChar c) (rest : List Char) :
    parentheses (c :: rest) = parentheses rest := by
  have hother : ∀ other, Name.isNameChar other = false → c ≠ other := by
    intro other hfalse heq
    rw [heq, ← Name.isNameChar_iff, hfalse] at hc
    exact absurd hc Bool.false_ne_true
  have hquote := hother '"' (by decide)
  have hhash := hother '#' (by decide)
  have hopen := hother '(' (by decide)
  have hclose := hother ')' (by decide)
  simp [parentheses, Enclosure.parentheses, hquote, hhash, hopen, hclose]

/-- A comment lasts up to the end of its line, and that end is a blank. -/
theorem parentheses_comment {words after : List Char}
    (hwords : ∀ c ∈ words, c ≠ '\r' ∧ c ≠ '\n') (hend : LineEnd after) :
    parentheses ('#' :: (words ++ after)) = parentheses after := by
  have hstarts : Blank.startsComment (words ++ after) = true := by
    rw [Blank.startsComment_iff, Blank.dropWhile_words hwords hend]
    exact hend
  have hhash : parentheses ('#' :: (words ++ after)) =
      Enclosure.comment.parentheses (words ++ after) := by
    simp [parentheses, Enclosure.parentheses, hstarts]
  rw [hhash]
  clear hstarts hhash
  induction words with
  | nil => cases hend <;> rfl
  | cons c words ih =>
      obtain ⟨hfirst, hmore⟩ := List.forall_mem_cons.mp hwords
      have hinside : Blank.isLineEndChar c = false := by
        simp [Blank.isLineEndChar, hfirst]
      rw [List.cons_append, Enclosure.parentheses, hinside]
      exact ih hmore

theorem Blanks.parentheses_eq {text rest : List Char} (hblanks : Blanks text rest) :
    parentheses text = parentheses rest := by
  induction hblanks with
  | none text => rfl
  | blank hc _ ih => rw [parentheses_blank hc, ih]
  | comment hwords hend _ ih => rw [parentheses_comment hwords hend, ih]

theorem Word.parentheses_eq {text word rest : List Char} (hword : Word text word rest) :
    parentheses text = parentheses rest := by
  have hchars := hword.nameChars
  rw [hword.split]
  clear hword
  induction word with
  | nil => rfl
  | cons c word ih =>
      obtain ⟨hfirst, hmore⟩ := List.forall_mem_cons.mp hchars
      rw [List.cons_append, parentheses_nameChar hfirst, ih hmore]

theorem Quoted.parentheses_eq {text name rest : List Char}
    (hquoted : Quoted text name rest) :
    Enclosure.quotes.parentheses text = parentheses rest := by
  induction hquoted with
  | close rest => rfl
  | quote _ ih | backslash _ ih | kept _ _ _ ih => exact ih
  | plain hquote hbackslash _ ih => simpa [Enclosure.parentheses, hquote, hbackslash] using ih

theorem IsName.parentheses_eq {text rest : List Char} {name : String}
    (hname : IsName text name rest) : parentheses text = parentheses rest := by
  cases hname with
  | bare hword => exact hword.parentheses_eq
  | quoted hquoted => rw [parentheses_quote, hquoted.parentheses_eq]

theorem Keyword.parentheses_eq {operator : Operator} {text rest : List Char}
    (hkeyword : Keyword operator text rest) : parentheses text = parentheses rest := by
  obtain ⟨_, hword, _⟩ := hkeyword
  exact hword.parentheses_eq

/-! ## Operands and rules -/

/-- The part of the text before `rest` closes as many parentheses as it opens. -/
def Balances {α : Type} : Phrase α := fun text _ rest =>
  ∃ marks, parentheses text = marks ++ parentheses rest ∧
    marks.count '(' = marks.count ')'

section

variable {operator : Operator} {text rest : List Char}

theorem Links.balances {nodes : List Node}
    (hlinks : Links operator Balances text nodes rest) : Balances text nodes rest := by
  induction hlinks with
  | nil text => exact ⟨[], rfl, rfl⟩
  | cons hblanks hkeyword hnode _ ih =>
      obtain ⟨first, hfirst, hfirstCount⟩ := hnode
      obtain ⟨more, hmore, hmoreCount⟩ := ih
      refine ⟨first ++ more, ?_, ?_⟩
      · rw [hblanks.parentheses_eq, hkeyword.parentheses_eq, hfirst, hmore,
          List.append_assoc]
      · rw [List.count_append, List.count_append, hfirstCount, hmoreCount]

theorem Chain.balances {node : Node} (hchain : Chain operator Balances text node rest) :
    Balances text node rest := by
  cases hchain with
  | one hfirst => exact hfirst
  | several hfirst hlinks =>
      obtain ⟨first, hfirst, hfirstCount⟩ := hfirst
      obtain ⟨more, hmore, hmoreCount⟩ := hlinks.balances
      refine ⟨first ++ more, ?_, ?_⟩
      · rw [hfirst, hmore, List.append_assoc]
      · rw [List.count_append, List.count_append, hfirstCount, hmoreCount]

theorem Operand.balances {node : Node} (hoperand : Operand text node rest) :
    Balances text node rest := by
  refine Operand.induction (motive := Balances) ?_ ?_ ?_ hoperand
  · intro text inner rest hopen hclose
    refine ⟨['(', ')'], ?_, rfl⟩
    rw [hopen.parentheses_eq, parentheses_open, hclose.parentheses_eq, parentheses_close]
    rfl
  · intro text inner after rest node hopen hinner hclose
    obtain ⟨marks, hmarks, hcount⟩ := Chain.balances (hinner.mono Chain.balances)
    refine ⟨'(' :: (marks ++ [')']), ?_, ?_⟩
    · rw [hopen.parentheses_eq, parentheses_open, hmarks, hclose.parentheses_eq,
        parentheses_close]
      simp
    · simp [hcount]
  · intro text start middle rest device anchor hblanks hdevice hanchor
    refine ⟨[], ?_, rfl⟩
    rw [hblanks.parentheses_eq, hdevice.parentheses_eq, parentheses_at,
      hanchor.parentheses_eq]
    rfl

theorem Rule.balances {node : Node} (hrule : Rule text node rest) :
    Balances text node rest :=
  Chain.balances (hrule.mono fun hconjunction =>
    Chain.balances (hconjunction.mono Operand.balances))

end

end Grammar

end PlacementRules
