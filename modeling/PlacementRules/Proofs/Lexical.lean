import Mathlib.Data.List.TakeWhile
import PlacementRules.Proofs.Grammar
import PlacementRules.Text.Reader

/-!
# Reading blanks, names and keywords

The readers of the smallest parts of rule text take exactly what the grammar calls
by that name.  Blanks are skipped as far as they go, so a derivation that stops
earlier cannot be continued by any word.
-/

namespace PlacementRules

open Grammar

namespace Blank

/-! ## Blanks and comments -/

/-- No blank and no comment can start the text. -/
def Stops (text : List Char) : Prop :=
  ∀ c ∈ text.head?, isBlankChar c = false ∧ c ≠ '#'

theorem stops_nil : Stops [] := by
  intro c hc
  simp at hc

theorem stops_cons {c : Char} (hblank : isBlankChar c = false) (hhash : c ≠ '#')
    (rest : List Char) : Stops (c :: rest) := by
  intro first hfirst
  obtain rfl : c = first := by simpa using hfirst
  exact ⟨hblank, hhash⟩

theorem stops_openParen (rest : List Char) : Stops ('(' :: rest) :=
  stops_cons (by decide) (by decide) rest

theorem stops_closeParen (rest : List Char) : Stops (')' :: rest) :=
  stops_cons (by decide) (by decide) rest

theorem isBlankChar_iff (c : Char) :
    isBlankChar c = true ↔ c ∈ [' ', '\t', '\n', '\x0c', '\r'] := by
  simp only [isBlankChar, Bool.or_eq_true, beq_iff_eq, List.mem_cons,
    List.not_mem_nil, or_false]
  constructor
  · rintro ((((h | h) | h) | h) | h) <;> simp [h]
  · rintro (h | h | h | h | h) <;> simp [h]

theorem isBlankChar_of_isLineEndChar {c : Char} (hend : isLineEndChar c = true) :
    isBlankChar c = true := by
  rw [isBlankChar_iff]
  simp only [isLineEndChar, Bool.or_eq_true, beq_iff_eq] at hend
  rcases hend with rfl | rfl <;> simp

theorem skip_blank {c : Char} (hblank : isBlankChar c = true) (rest : List Char) :
    skip (c :: rest) = skip rest := by
  rw [skip, skipFrom, if_pos hblank, skip]

theorem skip_eq_self {text : List Char} (hstops : Stops text) : skip text = text := by
  cases text with
  | nil => rfl
  | cons c rest =>
      obtain ⟨hblank, hhash⟩ := hstops c (by simp)
      rw [skip, skipFrom, if_neg (by simp [hblank]), if_neg (by simp [hhash])]

/-- Inside a comment, everything before the end of the line is passed over. -/
theorem skipFrom_true (text : List Char) :
    skipFrom true text = skip (text.dropWhile fun c => !isLineEndChar c) := by
  induction text with
  | nil => rfl
  | cons c rest ih =>
      cases hend : isLineEndChar c with
      | true =>
          have hblank := isBlankChar_of_isLineEndChar hend
          rw [List.dropWhile_cons_of_neg (by simp [hend]), skip_blank hblank, skipFrom,
            hend]
          rfl
      | false => simp [skipFrom, hend, ih]

theorem skip_comment {rest : List Char} (hcomment : startsComment rest = true) :
    skip ('#' :: rest) = skip (rest.dropWhile fun c => !isLineEndChar c) := by
  rw [skip, skipFrom, if_neg (by decide), if_pos ⟨rfl, hcomment⟩, skipFrom_true]

theorem skip_hash {rest : List Char} (hcomment : startsComment rest = false) :
    skip ('#' :: rest) = '#' :: rest := by
  rw [skip, skipFrom, if_neg (by decide), if_neg (by simp [hcomment])]

/-- A comment starts where the line goes on up to an end that the grammar knows. -/
theorem startsComment_iff (text : List Char) :
    startsComment text = true ↔
      LineEnd (text.dropWhile fun c => !isLineEndChar c) := by
  have hhead : ∀ c ∈ (text.dropWhile fun c => !isLineEndChar c).head?,
      isLineEndChar c = true := by
    intro c hc
    have := List.head?_dropWhile_not (fun c => !isLineEndChar c) text
    rw [Option.mem_def.mp hc] at this
    simpa using this
  unfold startsComment
  generalize (text.dropWhile fun c => !isLineEndChar c) = line at hhead
  constructor
  · intro hstarts
    rcases line with _ | ⟨c, line⟩
    · exact .atEnd
    · have hc : c = '\n' ∨ c = '\r' := by
        simpa [isLineEndChar] using hhead c (by simp)
      rcases hc with rfl | rfl
      · exact .lineFeed line
      · split at hstarts
        · rename_i heq
          rw [heq]
          exact .returnLineFeed _
        · simp at hstarts
        · rename_i _ hreturn
          exact absurd rfl (hreturn line)
  · rintro (_ | _ | _) <;> rfl

theorem dropWhile_words {words after : List Char}
    (hwords : ∀ c ∈ words, c ≠ '\r' ∧ c ≠ '\n') (hend : LineEnd after) :
    (words ++ after).dropWhile (fun c => !isLineEndChar c) = after := by
  have hall : ∀ c ∈ words, (!isLineEndChar c) = true := by
    intro c hc
    simp [isLineEndChar, hwords c hc]
  rw [List.dropWhile_append_of_pos hall]
  cases hend <;> simp [isLineEndChar]

/-- A comment that is skipped is one of the grammar. -/
theorem exists_words_of_startsComment {rest : List Char}
    (hcomment : startsComment rest = true) :
    ∃ words after, rest = words ++ after ∧ (∀ c ∈ words, c ≠ '\r' ∧ c ≠ '\n') ∧
      LineEnd after ∧ skip ('#' :: rest) = skip after := by
  refine ⟨rest.takeWhile fun c => !isLineEndChar c,
    rest.dropWhile fun c => !isLineEndChar c, ?_, ?_, ?_, skip_comment hcomment⟩
  · exact List.takeWhile_append_dropWhile.symm
  · intro c hc
    have hword := List.mem_takeWhile_imp hc
    simpa [isLineEndChar, and_comm] using hword
  · exact (startsComment_iff rest).mp hcomment

/-- What is skipped is blanks and comments. -/
theorem blanks_skip (text : List Char) : Blanks text (skip text) := by
  match text with
  | [] => exact .none []
  | c :: rest =>
      by_cases hblank : isBlankChar c = true
      · rw [skip_blank hblank]
        exact .blank ((isBlankChar_iff c).mp hblank) (blanks_skip rest)
      · by_cases hhash : c = '#'
        · subst hhash
          cases hcomment : startsComment rest with
          | false =>
              rw [skip_hash hcomment]
              exact .none _
          | true =>
              obtain ⟨words, after, hrest, hwords, hend, hskip⟩ :=
                exists_words_of_startsComment hcomment
              rw [hskip, hrest]
              exact .comment hwords hend (blanks_skip after)
        · rw [skip_eq_self (stops_cons (by simpa using hblank) hhash rest)]
          exact .none _
termination_by text.length
decreasing_by
  · simp
  · rw [List.length_cons, hrest, List.length_append]
    omega

/-- Blanks that lead up to a stop are skipped as a whole. -/
theorem skip_eq_of_blanks {text rest : List Char} (hblanks : Blanks text rest)
    (hstops : Stops rest) : skip text = rest := by
  induction hblanks with
  | none text => exact skip_eq_self hstops
  | blank hc _ ih =>
      rw [skip_blank ((isBlankChar_iff _).mpr hc)]
      exact ih hstops
  | comment hwords hend _ ih =>
      rw [skip_comment, dropWhile_words hwords hend]
      · exact ih hstops
      · rw [startsComment_iff, dropWhile_words hwords hend]
        exact hend

end Blank

namespace Name

/-! ## Names -/

theorem readQuoted_eq_some_of_quoted {text name rest : List Char}
    (hquoted : Quoted text name rest) : readQuoted text = some (name, rest) := by
  induction hquoted with
  | close rest => simp [readQuoted]
  | quote _ ih => simp [readQuoted, ih]
  | backslash _ ih => simp [readQuoted, ih]
  | kept hquote hbackslash _ ih => simp [readQuoted, ih, hquote, hbackslash]
  | @plain c text name rest hquote hbackslash _ ih =>
      rw [readQuoted, if_neg hquote, ih]
      · rfl
      · intro h
        exact absurd h hbackslash
      · intro _ _ h
        exact absurd h hbackslash

theorem quoted_of_readQuoted_eq_some {text name rest : List Char}
    (hread : readQuoted text = some (name, rest)) : Quoted text name rest := by
  fun_induction readQuoted text generalizing name with
  | case1 => simp at hread
  | case2 => simp at hread
  | case3 c text ih =>
      obtain ⟨⟨inner, after⟩, hinner, heq⟩ := Option.map_eq_some_iff.mp hread
      obtain ⟨rfl, rfl⟩ := Prod.mk.inj heq
      have hquoted := ih hinner
      by_cases hquote : c = '"'
      · simpa [hquote] using Quoted.quote hquoted
      · by_cases hbackslash : c = '\\'
        · simpa [hbackslash] using Quoted.backslash hquoted
        · simpa [hquote, hbackslash] using Quoted.kept hquote hbackslash hquoted
  | case4 text =>
      obtain ⟨rfl, rfl⟩ := Prod.mk.inj (Option.some.inj hread)
      exact .close text
  | case5 c text hlone hescape hquote ih =>
      obtain ⟨⟨inner, after⟩, hinner, heq⟩ := Option.map_eq_some_iff.mp hread
      obtain ⟨rfl, rfl⟩ := Prod.mk.inj heq
      have hbackslash : c ≠ '\\' := by
        rintro rfl
        cases text with
        | nil => exact hlone rfl rfl
        | cons next text => exact hescape next text rfl rfl
      exact .plain hquote hbackslash (ih hinner)

theorem isNameChar_iff (c : Char) : isNameChar c = true ↔ NameChar c := by
  have hrange : ∀ low high : Char,
      (decide (low ≤ c) && decide (c ≤ high)) = true ↔ low ≤ c ∧ c ≤ high := by
    intro low high
    rw [Bool.and_eq_true, decide_eq_true_iff, decide_eq_true_iff]
  have hupper : c.isUpper = true ↔ 'A' ≤ c ∧ c ≤ 'Z' := decide_eq_true_iff
  have hlower : c.isLower = true ↔ 'a' ≤ c ∧ c ≤ 'z' := hrange 'a' 'z'
  have hdigit : c.isDigit = true ↔ '0' ≤ c ∧ c ≤ '9' := hrange '0' '9'
  have halphanum : c.isAlphanum = (c.isUpper || c.isLower || c.isDigit) := rfl
  simp only [isNameChar, NameChar, halphanum, Bool.or_eq_true, beq_iff_eq, hupper,
    hlower, hdigit, List.mem_cons, List.not_mem_nil, or_false, or_assoc]

theorem isNameChar_eq_false_iff (c : Char) : isNameChar c = false ↔ ¬ NameChar c := by
  rw [← isNameChar_iff, Bool.not_eq_true]

theorem spanWord_of_word {text word rest : List Char} (hword : Word text word rest) :
    spanWord text = (word, rest) := by
  have hall : ∀ c ∈ word, isNameChar c = true :=
    fun c hc => (isNameChar_iff c).mpr (hword.nameChars c hc)
  have hlongest : ∀ c ∈ rest.head?, isNameChar c = false :=
    fun c hc => (isNameChar_eq_false_iff c).mpr (hword.longest c hc)
  rw [hword.split, spanWord, List.takeWhile_append_of_pos hall,
    List.dropWhile_append_of_pos hall]
  cases rest with
  | nil => simp
  | cons c rest =>
      have hc := hlongest c (by simp)
      simp [hc]

theorem word_spanWord {text : List Char} (hnonempty : (spanWord text).1 ≠ []) :
    Word text (spanWord text).1 (spanWord text).2 where
  split := (spanWord_append text).symm
  nonempty := hnonempty
  nameChars := fun c hc => (isNameChar_iff c).mp (List.mem_takeWhile_imp hc)
  longest := by
    intro c hc
    have hhead := List.head?_dropWhile_not isNameChar text
    rw [← show (spanWord text).2 = text.dropWhile isNameChar from rfl,
      Option.mem_def.mp hc] at hhead
    rw [← isNameChar_eq_false_iff]
    simpa using hhead

theorem isNameChar_head_of_word {text word rest : List Char}
    (hword : Word text word rest) : ∃ c more, text = c :: more ∧ isNameChar c = true := by
  obtain ⟨c, more, hcons⟩ := List.exists_cons_of_ne_nil hword.nonempty
  have hc := hword.nameChars c (by simp [hcons])
  refine ⟨c, more ++ rest, ?_, (isNameChar_iff c).mpr hc⟩
  rw [hword.split, hcons, List.cons_append]

theorem read?_of_word {text word rest : List Char} (hword : Word text word rest) :
    read? text = some (word, rest) := by
  obtain ⟨c, more, rfl, hc⟩ := isNameChar_head_of_word hword
  have hquote : c ≠ '"' := by
    rintro rfl
    exact absurd hc (by decide)
  have hspan := spanWord_of_word hword
  have hnonempty : (spanWord (c :: more)).1.isEmpty = false := by
    simpa [hspan] using hword.nonempty
  rw [read?, hnonempty, hspan]
  · rfl
  · intro rest h
    exact hquote (List.cons.inj h).1

end Name

open Reading

/-- Reading a name takes exactly what the grammar calls one. -/
theorem Reading.readName_eq_ok_iff {text rest : List Char} {name : String} :
    readName text = .ok (name, rest) ↔ IsName text name rest := by
  constructor
  · intro hread
    unfold readName at hread
    split at hread
    · rename_i word after hword
      obtain ⟨rfl, rfl⟩ := Prod.mk.inj (Except.ok.inj hread)
      unfold Name.read? at hword
      split at hword
      · exact .quoted (Name.quoted_of_readQuoted_eq_some hword)
      · split at hword
        · simp at hword
        · rename_i hnonempty
          have hspan := Option.some.inj hword
          have hne : (Name.spanWord text).1 ≠ [] := by simpa using hnonempty
          have hbare := Name.word_spanWord hne
          rw [hspan] at hbare
          exact .bare hbare
    · simp at hread
  · intro hname
    cases hname with
    | bare hword => rw [readName, Name.read?_of_word hword]
    | quoted hquoted =>
        rw [readName, Name.read?, Name.readQuoted_eq_some_of_quoted hquoted]

/-- A name begins with a name character or a quote. -/
theorem Grammar.IsName.head {text rest : List Char} {name : String}
    (hname : IsName text name rest) :
    ∃ c more, text = c :: more ∧ (Name.isNameChar c = true ∨ c = '"') := by
  cases hname with
  | bare hword =>
      obtain ⟨c, more, htext, hc⟩ := Name.isNameChar_head_of_word hword
      exact ⟨c, more, htext, .inl hc⟩
  | quoted _ => exact ⟨'"', _, rfl, .inr rfl⟩

theorem Grammar.not_isName_cons {c : Char} (hchar : Name.isNameChar c = false)
    (hquote : c ≠ '"') {text rest : List Char} {name : String} :
    ¬ IsName (c :: text) name rest := by
  intro hname
  obtain ⟨first, more, htext, hfirst⟩ := hname.head
  obtain ⟨rfl, _⟩ := List.cons.inj htext
  rcases hfirst with htrue | heq
  · rw [hchar] at htrue
    exact absurd htrue Bool.false_ne_true
  · exact hquote heq

theorem Grammar.not_isName_openParen {text rest : List Char} {name : String} :
    ¬ IsName ('(' :: text) name rest :=
  not_isName_cons (by decide) (by decide)

theorem Grammar.not_isName_closeParen {text rest : List Char} {name : String} :
    ¬ IsName (')' :: text) name rest :=
  not_isName_cons (by decide) (by decide)

/-! ## What is read is gone -/

theorem Grammar.Blanks.length_le {text rest : List Char} (hblanks : Blanks text rest) :
    rest.length ≤ text.length := by
  induction hblanks with
  | none _ => exact Nat.le_refl _
  | blank _ _ ih =>
      rw [List.length_cons]
      omega
  | comment _ _ _ ih =>
      rw [List.length_cons, List.length_append]
      omega

theorem Grammar.Word.length_lt {text word rest : List Char} (hword : Word text word rest) :
    rest.length < text.length := by
  have hpos := List.length_pos_iff.mpr hword.nonempty
  rw [hword.split, List.length_append]
  omega

theorem Grammar.Quoted.length_lt {text name rest : List Char}
    (hquoted : Quoted text name rest) : rest.length < text.length := by
  induction hquoted with
  | close _ => simp
  | quote _ ih | backslash _ ih | kept _ _ _ ih | plain _ _ _ ih =>
      simp only [List.length_cons]
      omega

theorem Grammar.IsName.length_lt {text rest : List Char} {name : String}
    (hname : IsName text name rest) : rest.length < text.length := by
  cases hname with
  | bare hword => exact hword.length_lt
  | quoted hquoted =>
      have hlt := hquoted.length_lt
      rw [List.length_cons]
      omega

theorem Grammar.Keyword.length_lt {operator : Operator} {text rest : List Char}
    (hkeyword : Keyword operator text rest) : rest.length < text.length := by
  obtain ⟨_, hword, _⟩ := hkeyword
  exact hword.length_lt

/-! ## Keywords -/

theorem Operator.ofWord?_nil : ofWord? [] = none := by
  decide

theorem Operator.ofWord?_eq_some_iff (operator : Operator) (word : List Char) :
    ofWord? word = some operator ↔
      word.map Char.toLower = operator.keyword.toList.map Char.toLower := by
  have hand : Operator.and.keyword.toList.map Char.toLower = ['a', 'n', 'd'] := by decide
  have hor : Operator.or.keyword.toList.map Char.toLower = ['o', 'r'] := by decide
  unfold ofWord?
  cases operator with
  | and =>
      rw [hand]
      split <;> simp_all
  | or =>
      rw [hor]
      split <;> simp_all

theorem Name.readKeyword?_eq_some_iff (operator : Operator) (text rest : List Char) :
    readKeyword? operator text = some rest ↔ Keyword operator text rest := by
  constructor
  · intro hread
    unfold readKeyword? at hread
    split at hread
    · rename_i hword
      have hne : (spanWord text).1 ≠ [] := by
        intro hnil
        simp [hnil, Operator.ofWord?_nil] at hword
      rw [← Option.some.inj hread]
      exact ⟨_, word_spanWord hne, (Operator.ofWord?_eq_some_iff operator _).mp hword⟩
    · simp at hread
  · rintro ⟨word, hword, hkeyword⟩
    have hoperator := (Operator.ofWord?_eq_some_iff operator word).mpr hkeyword
    rw [readKeyword?, spanWord_of_word hword, if_pos hoperator]

theorem Blank.stops_of_isNameChar {c : Char} (hname : Name.isNameChar c = true)
    (rest : List Char) : Stops (c :: rest) := by
  apply stops_cons
  · cases hblank : isBlankChar c with
    | false => rfl
    | true =>
        have hmem := (isBlankChar_iff c).mp hblank
        simp only [List.mem_cons, List.not_mem_nil, or_false] at hmem
        rcases hmem with rfl | rfl | rfl | rfl | rfl <;> exact absurd hname (by decide)
  · rintro rfl
    exact absurd hname (by decide)

theorem Blank.stops_of_isName {text rest : List Char} {name : String}
    (hname : IsName text name rest) : Stops text := by
  obtain ⟨c, more, rfl, hc | rfl⟩ := hname.head
  · exact stops_of_isNameChar hc more
  · exact stops_cons (by decide) (by decide) more

theorem Blank.stops_of_keyword {operator : Operator} {text rest : List Char}
    (hkeyword : Keyword operator text rest) : Stops text := by
  obtain ⟨word, hword, _⟩ := hkeyword
  obtain ⟨c, more, rfl, hc⟩ := Name.isNameChar_head_of_word hword
  exact stops_of_isNameChar hc more

namespace Reading

theorem readJoiner?_eq_some_of_blanks {operator : Operator} {text word start : List Char}
    (hblanks : Blanks text word) (hkeyword : Keyword operator word start) :
    readJoiner? operator text = some start := by
  rw [readJoiner?, Blank.skip_eq_of_blanks hblanks (Blank.stops_of_keyword hkeyword)]
  exact (Name.readKeyword?_eq_some_iff operator word start).mpr hkeyword

theorem exists_blanks_of_readJoiner? {operator : Operator} {text start : List Char}
    (hjoiner : readJoiner? operator text = some start) :
    ∃ word, Blanks text word ∧ Keyword operator word start :=
  ⟨Blank.skip text, Blank.blanks_skip text,
    (Name.readKeyword?_eq_some_iff operator _ start).mp hjoiner⟩

/-- A text goes on with a keyword of at most one operator. -/
theorem readJoiner?_eq_none_of_ne {operator other : Operator} {text start : List Char}
    (hjoiner : readJoiner? operator text = some start) (hother : other ≠ operator) :
    readJoiner? other text = none := by
  unfold readJoiner? Name.readKeyword? at hjoiner ⊢
  split at hjoiner
  · rename_i hword
    rw [hword, if_neg]
    intro heq
    exact hother (Option.some.inj heq).symm
  · simp at hjoiner

/-- No keyword is read where the text has no name character. -/
theorem readJoiner?_eq_none_of_head (operator : Operator) {text rest : List Char}
    (hblanks : Blanks text rest) (hstops : Blank.Stops rest)
    (hhead : ∀ c ∈ rest.head?, Name.isNameChar c = false) :
    readJoiner? operator text = none := by
  rw [readJoiner?, Blank.skip_eq_of_blanks hblanks hstops, Name.readKeyword?, if_neg]
  have hspan : (Name.spanWord rest).1 = [] := by
    cases rest with
    | nil => rfl
    | cons c rest =>
        have hc := hhead c (by simp)
        simp [Name.spanWord, hc]
  simp [hspan, Operator.ofWord?_nil]

end Reading

end PlacementRules
