import PlacementRules.Proofs.Beginnings

/-!
# Where reading fails

A text that is no rule is reported at the place up to which it can still become one,
with what is missing there: an operand or the other half of a clause, a closing
parenthesis, or the end of the text.
-/

namespace PlacementRules

open Grammar

theorem Blank.head_skipFrom (inComment : Bool) (text : List Char) :
    ∀ c ∈ (skipFrom inComment text).head?, isBlankChar c = false := by
  fun_induction skipFrom inComment text with
  | case1 => simp
  | case2 c rest ih => exact ih
  | case3 c rest hblank ih => exact ih
  | case4 c rest hblank hcomment ih => exact ih
  | case5 c rest hblank hcomment => simpa using hblank

/-- No blank is left where blanks have been skipped. -/
theorem Blank.head_skip (text : List Char) :
    ∀ c ∈ (skip text).head?, isBlankChar c = false :=
  head_skipFrom false text

/--
No name begins the text: it goes on with no character that a name can begin with, or
with the quote of a name that is never closed.
-/
def Grammar.NameMissing (text : List Char) : Prop :=
  (∀ c ∈ text.head?, ¬ NameChar c ∧ c ≠ '"') ∨
    ∃ inner, text = '"' :: inner ∧ ∀ name rest, ¬ Quoted inner name rest

theorem Grammar.nameMissing_of_not_isName {text : List Char}
    (hnone : ∀ name rest, ¬ IsName text name rest) : NameMissing text := by
  cases text with
  | nil => exact .inl (by simp)
  | cons c more =>
      by_cases hquote : c = '"'
      · refine .inr ⟨more, by rw [hquote], ?_⟩
        intro name rest hquoted
        rw [hquote] at hnone
        exact hnone _ _ (.quoted hquoted)
      · refine .inl ?_
        intro first hfirst
        obtain rfl : c = first := by simpa using hfirst
        refine ⟨?_, hquote⟩
        intro hchar
        have hword : (Name.spanWord (c :: more)).1 ≠ [] := by
          simp [Name.spanWord, (Name.isNameChar_iff c).mpr hchar]
        exact hnone _ _ (.bare (Name.word_spanWord hword))

namespace Reading

/-! ## Failures of an operand -/

/-- How reading can fail in an operand at `start`, with `opened` parentheses open. -/
inductive FailsAt (opened : Nat) (start : List Char) : Failure → Prop
  | operand :
      NameMissing start → (∀ more, start ≠ '(' :: more) →
      (∀ c ∈ start.head?, Blank.isBlankChar c = false) →
      FailsAt opened start ⟨start, .name :: List.replicate (opened + 1) .expression⟩
  | atSign {device : String} {rest : List Char} :
      IsName start device rest → (∀ more, rest ≠ '@' :: more) →
      FailsAt opened start ⟨rest, .atSign :: List.replicate (opened + 1) .expression⟩
  | anchor {device : String} {rest : List Char} :
      IsName start device ('@' :: rest) → NameMissing rest →
      FailsAt opened start ⟨rest, .name :: List.replicate (opened + 1) .expression⟩
  | closing {node : Node} {after rest : List Char} :
      1 ≤ opened → Rule start node after → Blanks after rest →
      (∀ more, rest ≠ ')' :: more) →
      (∀ c ∈ rest.head?, Blank.isBlankChar c = false) →
      FailsAt opened start ⟨rest, .closeParen :: List.replicate opened .expression⟩

/-- Each parenthesis around the place adds an expectation. -/
theorem FailsAt.within {opened : Nat} {start : List Char} {failure : Failure}
    (hfails : FailsAt opened start failure) :
    FailsAt (opened + 1) start (failure.within .expression) := by
  have hmore : ∀ count, List.replicate count Expectation.expression ++ [.expression] =
      List.replicate (count + 1) .expression := fun _ => List.replicate_succ'.symm
  cases hfails with
  | operand hname hparen hblank =>
      rw [Failure.within, List.cons_append, hmore]
      exact .operand hname hparen hblank
  | atSign hdevice hat =>
      rw [Failure.within, List.cons_append, hmore]
      exact .atSign hdevice hat
  | anchor hdevice hanchor =>
      rw [Failure.within, List.cons_append, hmore]
      exact .anchor hdevice hanchor
  | closing hopened hrule hend hparen hblank =>
      rw [Failure.within, List.cons_append, hmore]
      exact .closing (by omega) hrule hend hparen hblank

/-- Reading fails in an operand that is due somewhere in the text. -/
def Stuck (text : List Char) (failure : Failure) : Prop :=
  ∃ opened start, OperandDue text opened start ∧ FailsAt opened start failure

namespace Stuck

variable {text start : List Char} {failure : Failure}

theorem afterBlanks (hblanks : Blanks text start) (hstuck : Stuck start failure) :
    Stuck text failure := by
  obtain ⟨opened, place, hdue, hfails⟩ := hstuck
  exact ⟨opened, place, hdue.afterBlanks hblanks, hfails⟩

theorem afterJoiner {operator : Operator} {after word : List Char} {node : Node}
    (hoperand : Operand text node after) (hblanks : Blanks after word)
    (hkeyword : Keyword operator word start) (hstuck : Stuck start failure) :
    Stuck text failure := by
  obtain ⟨opened, place, hdue, hfails⟩ := hstuck
  exact ⟨opened, place, .afterJoiner hoperand hblanks hkeyword hdue, hfails⟩

theorem inParentheses (hopen : Blanks text ('(' :: start)) (hstuck : Stuck start failure) :
    Stuck text (failure.within .expression) := by
  obtain ⟨opened, place, hdue, hfails⟩ := hstuck
  exact ⟨opened + 1, place, .inParentheses hopen hdue, hfails.within⟩

end Stuck

/-! ## Names and clauses -/

theorem readName_eq_error {text : List Char} {failure : Failure}
    (hread : readName text = .error failure) :
    failure = ⟨text, [.name]⟩ ∧ NameMissing text := by
  constructor
  · unfold readName at hread
    split at hread
    · simp at hread
    · exact (Except.error.inj hread).symm
  · apply nameMissing_of_not_isName
    intro name rest hname
    rw [readName_eq_ok_iff.mpr hname] at hread
    simp at hread

theorem readClause_fails {text : List Char} {failure : Failure}
    (hopen : ∀ more, text ≠ '(' :: more)
    (hblank : ∀ c ∈ text.head?, Blank.isBlankChar c = false)
    (hread : readClause text = .error failure) :
    FailsAt 0 text (failure.within .expression) := by
  unfold readClause at hread
  split at hread
  · next hname =>
      obtain ⟨rfl, hmissing⟩ := readName_eq_error hname
      rw [← Except.error.inj hread]
      exact .operand hmissing hopen hblank
  · next device rest hdevice =>
      split at hread
      · next hname =>
          obtain ⟨rfl, hmissing⟩ := readName_eq_error hname
          rw [← Except.error.inj hread]
          exact .anchor (readName_eq_ok_iff.mp hdevice) hmissing
      · simp at hread
  · next device rest hat hdevice =>
      rw [← Except.error.inj hread]
      exact .atSign (readName_eq_ok_iff.mp hdevice) hat

/-! ## Operands, chains and rules -/

/-- Where the reader fails on a text shorter than `bound`, it is stuck there. -/
def FailsSoundly (bound : Nat) (reader : Reader Node) : Prop :=
  ∀ (text : List Char) (failure : Failure), text.length < bound →
    reader text = .error failure → Stuck text failure

theorem mapError_eq_error_iff {ε ε' α : Type} {result : Except ε α} {f : ε → ε'}
    {error : ε'} :
    result.mapError f = .error error ↔ ∃ inner, result = .error inner ∧ f inner = error := by
  cases result <;> simp [Except.mapError]

theorem readParenthesized_fails {bound : Nat} {rule : Reader Node}
    (hsound : Sound rule Rule) (hrule : FailsSoundly bound rule) {text inner : List Char}
    {failure : Failure} (hopen : Blanks text ('(' :: inner)) (hbound : inner.length < bound)
    (hread : readParenthesized rule inner = .error failure) :
    Stuck text (failure.within .expression) := by
  have hblanks := Blank.blanks_skip inner
  have hlength := hblanks.length_le
  unfold readParenthesized at hread
  split at hread
  · simp at hread
  · split at hread
    · next hinner =>
        rw [← Except.error.inj hread]
        have hstuck := hrule _ _ (by omega) hinner
        exact (hstuck.afterBlanks hblanks).inParentheses hopen
    · next node after hinner =>
        split at hread
        · simp at hread
        · next hclose =>
            rw [← Except.error.inj hread]
            exact ⟨1, _, .inParentheses hopen (.atStart hblanks),
              .closing (Nat.le_refl 1) (hsound.derives hinner) (Blank.blanks_skip after)
                hclose (Blank.head_skip after)⟩

theorem readOperand_fails {bound : Nat} {rule : Reader Node} (hsound : Sound rule Rule)
    (hrule : FailsSoundly bound rule) : FailsSoundly (bound + 1) (readOperand rule) := by
  intro text failure hbound hread
  have hblanks := Blank.blanks_skip text
  have hlength := hblanks.length_le
  unfold readOperand at hread
  obtain ⟨inner, hinner, rfl⟩ := mapError_eq_error_iff.mp hread
  split at hinner
  · next after hskip =>
      rw [hskip] at hblanks hlength
      rw [List.length_cons] at hlength
      exact readParenthesized_fails hsound hrule hblanks (by omega) hinner
  · next hopen =>
      exact ⟨0, _, .atStart hblanks,
        readClause_fails hopen (Blank.head_skip text) hinner⟩

/-- A failure behind the phrase and a keyword is one of the text that begins with both. -/
def PassesFailures (phrase : Phrase Node) : Prop :=
  ∀ ⦃operator : Operator⦄ ⦃text after word start : List Char⦄ ⦃node : Node⦄
    ⦃failure : Failure⦄, phrase text node after → Blanks after word →
    Keyword operator word start → Stuck start failure → Stuck text failure

theorem operand_passesFailures : PassesFailures Operand := by
  intro operator text after word start node failure hoperand hblanks hkeyword hstuck
  exact hstuck.afterJoiner hoperand hblanks hkeyword

theorem links_passFailures {operator other : Operator} {phrase : Phrase Node}
    (hphrase : PassesFailures phrase) {text after rest word start : List Char} {node : Node}
    {nodes : List Node} {failure : Failure} (hnode : phrase text node after)
    (hlinks : Links operator phrase after nodes rest) (hblanks : Blanks rest word)
    (hkeyword : Keyword other word start) (hstuck : Stuck start failure) :
    Stuck text failure := by
  induction hlinks generalizing text node with
  | nil after => exact hphrase hnode hblanks hkeyword hstuck
  | cons hblanks' hkeyword' hsecond _ ih =>
      exact hphrase hnode hblanks' hkeyword' (ih hsecond hblanks)

theorem chain_passesFailures {operator : Operator} {phrase : Phrase Node}
    (hphrase : PassesFailures phrase) : PassesFailures (Chain operator phrase) := by
  intro other text after word start node failure hchain hblanks hkeyword hstuck
  cases hchain with
  | one hfirst => exact hphrase hfirst hblanks hkeyword hstuck
  | several hfirst hlinks =>
      exact links_passFailures hphrase hfirst hlinks hblanks hkeyword hstuck

section

variable (operator : Operator) {part : Reader Node} {phrase : Phrase Node} {bound : Nat}

theorem readMore_fails (hsound : Sound part phrase) (hpart : FailsSoundly bound part)
    (hpasses : PassesFailures phrase) {count : Nat} {text after : List Char} {node : Node}
    {failure : Failure} (hnode : phrase text node after) (hbound : after.length < bound)
    (hread : readMore operator part count after = .error failure) : Stuck text failure := by
  induction count generalizing text after node failure with
  | zero => simp [readMore] at hread
  | succ count ih =>
      unfold readMore at hread
      split at hread
      · simp at hread
      · next start hjoiner =>
          obtain ⟨word, hblanks, hkeyword⟩ := exists_blanks_of_readJoiner? hjoiner
          have hword := hblanks.length_le
          have hstart := hkeyword.length_lt
          apply hpasses hnode hblanks hkeyword
          split at hread
          · next hfails =>
              rw [← Except.error.inj hread]
              exact hpart _ _ (by omega) hfails
          · next second rest hsecond =>
              have hrest := hsound.shortens hsecond
              split at hread
              · next hmore =>
                  rw [← Except.error.inj hread]
                  exact ih (hsound.derives hsecond) (by omega) hmore
              · simp at hread

theorem readChain_fails (hsound : Sound part phrase) (hpart : FailsSoundly bound part)
    (hpasses : PassesFailures phrase) : FailsSoundly bound (readChain operator part) := by
  intro text failure hbound hread
  unfold readChain at hread
  split at hread
  · next hfails =>
      rw [← Except.error.inj hread]
      exact hpart _ _ hbound hfails
  · next first after hfirst =>
      have hafter := hsound.shortens hfirst
      split at hread
      · next hmore =>
          rw [← Except.error.inj hread]
          have hnode := hsound.derives hfirst
          exact readMore_fails operator hsound hpart hpasses hnode (by omega) hmore
      · simp at hread

end

theorem readRule_fails (fuel : Nat) : FailsSoundly fuel (readRule fuel) := by
  induction fuel with
  | zero =>
      intro text failure hbound
      omega
  | succ fuel ih =>
      have hsound := readOperand_sound (readRule_sound fuel)
      have hoperand := readOperand_fails (readRule_sound fuel) ih
      have hconjunction := readChain_fails .and hsound hoperand operand_passesFailures
      exact readChain_fails .or (readChain_sound .and hsound) hconjunction
        (chain_passesFailures operand_passesFailures)

/-! ## The text before a failure -/

/-- What is missing behind the text before a failure, and how that is reported. -/
inductive Missing (opened : Nat) (before rest : List Char) : List Expectation → Prop
  | operand :
      OperandDue before opened [] → (∀ more, rest ≠ '(' :: more) → NameMissing rest →
      Missing opened before rest (.name :: List.replicate (opened + 1) .expression)
  | atSign :
      AtSignDue before opened → (∀ more, rest ≠ '@' :: more) →
      Missing opened before rest (.atSign :: List.replicate (opened + 1) .expression)
  | anchor :
      AnchorDue before opened → NameMissing rest →
      Missing opened before rest (.name :: List.replicate (opened + 1) .expression)
  | closing :
      ClosingDue before opened → (∀ more, rest ≠ ')' :: more) →
      Missing opened before rest (.closeParen :: List.replicate opened .expression)

theorem Missing.completable {opened : Nat} {before rest : List Char}
    {expected : List Expectation} (hmissing : Missing opened before rest expected) :
    Completable before := by
  cases hmissing with
  | operand hdue _ _ => exact hdue.completable
  | atSign hdue _ => exact hdue.completable
  | anchor hdue _ => exact hdue.completable
  | closing hdue _ => exact hdue.completable

theorem Missing.leavesOpen {opened : Nat} {before rest : List Char}
    {expected : List Expectation} (hmissing : Missing opened before rest expected) :
    LeavesOpen opened before := by
  cases hmissing with
  | operand hdue _ _ => exact hdue.leavesOpen rfl
  | atSign hdue _ => exact hdue.leavesOpen
  | anchor hdue _ => exact hdue.leavesOpen
  | closing hdue _ => exact hdue.leavesOpen

theorem endsAlike_nil_of_head {rest : List Char}
    (hblank : ∀ c ∈ rest.head?, Blank.isBlankChar c = false) : EndsAlike rest [] := by
  apply EndsAlike.nil
  intro hfeed
  exact absurd (hblank '\n' hfeed) (by decide)

/-- A failure depends on the text before its place only through what is due there. -/
theorem Stuck.exists_missing {text : List Char} {failure : Failure}
    (hstuck : Stuck text failure) :
    ∃ before opened, text = before ++ failure.rest ∧
      Missing opened before failure.rest failure.expected := by
  obtain ⟨opened, start, hdue, hfails⟩ := hstuck
  cases hfails with
  | operand hname hparen hblank =>
      obtain ⟨before, htext, hbefore⟩ := hdue.exchange
      have hend := hbefore [] (endsAlike_nil_of_head hblank)
      rw [List.append_nil] at hend
      exact ⟨before, opened, htext, .operand hend hparen hname⟩
  | atSign hdevice hat =>
      obtain ⟨before, htext, hbefore⟩ := hdue.exchange_name hdevice
      obtain ⟨start', hstart, hdevice'⟩ := hbefore [] fun _ => delimited_nil
      rw [List.append_nil] at hstart
      exact ⟨before, opened, htext, .atSign ⟨start', _, hstart, hdevice'⟩ hat⟩
  | anchor hdevice hanchor =>
      obtain ⟨before, htext, hbefore⟩ := hdue.exchange_name hdevice
      obtain ⟨start', hstart, hdevice'⟩ := hbefore ['@'] fun _ => delimited_at []
      refine ⟨before ++ ['@'], opened, by rw [htext]; simp, ?_⟩
      exact .anchor ⟨start', _, hstart, hdevice'⟩ hanchor
  | closing hopened hrule hend hparen hblank =>
      obtain ⟨before, rfl, hbefore⟩ := hdue.exchange
      obtain ⟨rule, rfl, hrule'⟩ := hrule.exchange
      obtain ⟨blanks, rfl, hblanks⟩ := hend.exchange
      have halike := endsAlike_nil_of_head hblank
      have hafter := halike.append blanks
      refine ⟨before ++ (rule ++ blanks), opened, by simp, .closing ⟨hopened, ?_⟩ hparen⟩
      refine ⟨_, _, _, ?_, hrule' _ hafter, hblanks [] halike⟩
      simpa using hbefore _ (hafter.append rule)

/-- What reading leaves over comes behind a text that is a rule by itself. -/
theorem exists_derives_of_leftover {text after : List Char} {node : Node}
    (hrule : Rule text node after) :
    ∃ before, text = before ++ Blank.skip after ∧ Derives before node := by
  obtain ⟨rule, rfl, hrule'⟩ := hrule.exchange
  obtain ⟨blanks, hsplit, hblanks⟩ := (Blank.blanks_skip after).exchange
  have halike := endsAlike_nil_of_head (Blank.head_skip after)
  have hafter := halike.append blanks
  rw [← hsplit] at hafter
  refine ⟨rule ++ blanks, ?_, _, ?_, hblanks [] halike⟩
  · rw [List.append_assoc, ← hsplit]
  · simpa using hrule' _ hafter

theorem readWhole_fails {text : List Char} {failure : Failure}
    (hread : readWhole text = .error failure) :
    ∃ before, text = before ++ failure.rest ∧
      ((failure.expected = [] ∧ failure.rest ≠ [] ∧ ∃ node, Derives before node) ∨
        ∃ opened, Missing opened before failure.rest failure.expected) := by
  unfold readWhole at hread
  split at hread
  · next hfails =>
      rw [← Except.error.inj hread]
      obtain ⟨before, opened, htext, hmissing⟩ :=
        (readRule_fails _ _ _ (Nat.lt_succ_self _) hfails).exists_missing
      exact ⟨before, htext, .inr ⟨opened, hmissing⟩⟩
  · next node after hrule =>
      obtain ⟨before, htext, hderives⟩ :=
        exists_derives_of_leftover ((readRule_sound _).derives hrule)
      split at hread
      · simp at hread
      · next hleft =>
          rw [← Except.error.inj hread]
          exact ⟨before, htext, .inl ⟨rfl, fun hnil => hleft hnil, node, hderives⟩⟩

theorem Failure.inText_append (before : List Char) (failure : Failure) :
    failure.inText (before ++ failure.rest) = ⟨before, failure.rest, failure.expected⟩ := by
  rw [inText, List.length_append, Nat.add_sub_cancel, List.take_left]

end Reading

/-! ## Places in bytes -/

namespace ParseError

theorem byteCount_eq (chars : List Char) :
    byteCount chars = (String.ofList chars).utf8ByteSize := by
  induction chars with
  | nil => rfl
  | cons c chars ih =>
      rw [String.ofList_cons, String.utf8ByteSize_append, String.utf8ByteSize_singleton,
        ← ih]
      rfl

theorem offset_isValid (error : ParseError) :
    (⟨error.offset⟩ : String.Pos.Raw).IsValid (String.ofList error.source) := by
  rw [String.Pos.Raw.isValid_iff_exists_append, source, String.ofList_append]
  refine ⟨_, _, rfl, ?_⟩
  rw [offset, byteCount_eq]
  rfl

end ParseError

open Reading

theorem Grammar.Completable.exists_parse {before : List Char}
    (hcompletable : Completable before) :
    ∃ more node, Node.parse (String.ofList before ++ more) = .ok node := by
  obtain ⟨more, node, hderives⟩ := hcompletable
  refine ⟨String.ofList more, node, Node.parse_of_derives ?_⟩
  rwa [← String.ofList_append, String.toList_ofList]

theorem Grammar.Derives.exists_parse {before : List Char} {node : Node}
    (hderives : Derives before node) : Node.parse (String.ofList before) = .ok node :=
  Node.parse_of_derives (by rwa [String.toList_ofList])

theorem Node.exists_missing_of_parse {text : String} {error : ParseError}
    (hfails : parse text = .error error) :
    error.source = text.toList ∧
      ((error.expected = [] ∧ error.rest ≠ [] ∧ ∃ node, Derives error.before node) ∨
        ∃ opened, Missing opened error.before error.rest error.expected) := by
  obtain ⟨failure, hread, rfl⟩ := mapError_eq_error_iff.mp hfails
  obtain ⟨before, htext, hcause⟩ := readWhole_fails hread
  rw [htext, Failure.inText_append]
  exact ⟨rfl, hcause⟩

/--
A text that is no rule is reported at a place that splits it between two characters, and
what comes before that place can be completed to a rule.  With `opened` parentheses left
open there, the list of what was expected is one of four.  It is empty if a whole rule
comes before and something is left over.  It begins with the closing parenthesis behind a
rule in parentheses that another character follows, with the `@` behind the name of a
device, or with a name: there an operand or an anchor is due, and what follows begins no
name or is a quoted name, from its opening quote on, that is never closed.
-/
theorem Node.parse_error_states_what_is_missing (text : String) (error : ParseError)
    (hfails : Node.parse text = .error error) :
    text = String.ofList error.before ++ String.ofList error.rest ∧
    error.offset = (String.ofList error.before).utf8ByteSize ∧
    (⟨error.offset⟩ : String.Pos.Raw).IsValid text ∧
    error.offset ≤ text.utf8ByteSize ∧
    (∃ more node, Node.parse (String.ofList error.before ++ more) = .ok node) ∧
    ∃ opened, LeavesOpen opened error.before ∧
      ((error.expected = [] ∧ opened = 0 ∧
          (∃ node, Node.parse (String.ofList error.before) = .ok node) ∧
          error.rest ≠ []) ∨
        (error.expected = .closeParen :: List.replicate opened .expression ∧
          1 ≤ opened ∧ ClosingDue error.before opened ∧
          ∀ more, error.rest ≠ ')' :: more) ∨
        (error.expected = .atSign :: List.replicate (opened + 1) .expression ∧
          AtSignDue error.before opened ∧ ∀ more, error.rest ≠ '@' :: more) ∨
        (error.expected = .name :: List.replicate (opened + 1) .expression ∧
          (OperandDue error.before opened [] ∧ (∀ more, error.rest ≠ '(' :: more) ∨
            AnchorDue error.before opened) ∧
          NameMissing error.rest)) := by
  obtain ⟨hsource, hcause⟩ := exists_missing_of_parse hfails
  have htext : text = String.ofList error.source := by
    rw [hsource, String.ofList_toList]
  have hvalid := error.offset_isValid
  rw [← htext] at hvalid
  have hcompletable : Completable error.before := by
    rcases hcause with ⟨_, _, node, hderives⟩ | ⟨opened, hmissing⟩
    · exact ⟨[], node, by rwa [List.append_nil]⟩
    · exact hmissing.completable
  refine ⟨?_, ParseError.byteCount_eq error.before, hvalid, hvalid.le_rawEndPos,
    hcompletable.exists_parse, ?_⟩
  · rw [htext, ParseError.source, String.ofList_append]
  · rcases hcause with ⟨hempty, hrest, node, hderives⟩ | ⟨opened, hmissing⟩
    · exact ⟨0, hderives.leavesOpen, .inl ⟨hempty, rfl, ⟨node, hderives.exists_parse⟩, hrest⟩⟩
    · refine ⟨opened, hmissing.leavesOpen, .inr ?_⟩
      generalize error.expected = expected at hmissing
      cases hmissing with
      | operand hdue hparen hname => exact .inr (.inr ⟨rfl, .inl ⟨hdue, hparen⟩, hname⟩)
      | atSign hdue hat => exact .inr (.inl ⟨rfl, hdue, hat⟩)
      | anchor hdue hname => exact .inr (.inr ⟨rfl, .inr hdue, hname⟩)
      | closing hdue hparen => exact .inl ⟨rfl, hdue.1, hdue, hparen⟩

/--
A quoted name that is never closed, behind a comment and with parentheses in both, in a
text where bytes and characters differ.
-/
theorem Node.parse_error_states_what_is_missing_open_quote :
    let before := "(\"é\"@x # )\nOR ".toList
    let error : ParseError := ⟨before, "\"b)".toList, [.name, .expression, .expression]⟩
    Node.parse "(\"é\"@x # )\nOR \"b)" = .error error ∧
    error.offset = 15 ∧ error.offset = (String.ofList before).utf8ByteSize ∧
    (∃ more node, Node.parse (String.ofList before ++ more) = .ok node) ∧
    LeavesOpen 1 before ∧ (OperandDue before 1 [] ∨ AnchorDue before 1) ∧
    NameMissing "\"b)".toList := by
  intro before error
  have hfails : Node.parse "(\"é\"@x # )\nOR \"b)" = .error error := by decide +kernel
  obtain ⟨-, hoffset, -, -, hmore, opened, hopen, hcause⟩ :=
    parse_error_states_what_is_missing _ error hfails
  have hbytes : error.offset = 15 := by decide
  rcases hcause with hcase | hcase | hcase | ⟨hexpected, hdue, hname⟩
  · exact absurd hcase.1 (by simp [error])
  · exact absurd hcase.1 (by simp [error])
  · exact absurd hcase.1 (by simp [error])
  · have hlength := congrArg List.length hexpected
    obtain rfl : opened = 1 := by simpa [error, eq_comm] using hlength
    exact ⟨hfails, hbytes, hoffset, hmore, hopen, hdue.imp And.left id, hname⟩

end PlacementRules
