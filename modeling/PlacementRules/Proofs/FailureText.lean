import Mathlib.Data.List.Infix
import Mathlib.Data.List.TakeWhile
import PlacementRules.Text.Failure

/-!
# What a failure shows

The text of a failure ends in a caret and in the list of what was expected.  On a text of
one line the caret stands as far to the right as the place has bytes before it, so the
failure can be read off its text.  Otherwise the line of the place is shown by its number,
and the caret stands under the character at which reading stopped.
-/

namespace PlacementRules

/-! ## The list of what was expected -/

namespace Expectation

/-- No expectation begins like another. -/
theorem text_append_inj {first second : Expectation} {rest others : List Char}
    (hsame : first.text.toList ++ rest = second.text.toList ++ others) :
    first = second ∧ rest = others := by
  cases first <;> cases second <;> simp_all [text]

/-- The expectations behind the first, each with a comma. -/
def charsTail (expected : List Expectation) : List Char :=
  expected.flatMap fun item => ", ".toList ++ item.text.toList

theorem charsTail_inj {first second : List Expectation}
    (hsame : charsTail first = charsTail second) : first = second := by
  induction first generalizing second with
  | nil =>
      cases second with
      | nil => rfl
      | cons item more => simp [charsTail] at hsame
  | cons item more ih =>
      cases second with
      | nil => simp [charsTail] at hsame
      | cons other others =>
          simp only [charsTail, List.flatMap_cons, List.append_assoc,
            List.append_cancel_left_eq] at hsame
          obtain ⟨rfl, hmore⟩ := text_append_inj hsame
          rw [ih hmore]

theorem toList_intercalate_cons (item : Expectation) (more : List Expectation) :
    (", ".intercalate ((item :: more).map text)).toList =
      item.text.toList ++ charsTail more := by
  induction more generalizing item with
  | nil => simp [charsTail]
  | cons second more ih =>
      rw [List.map_cons, List.map_cons, String.intercalate_cons_cons, ← List.map_cons,
        String.toList_append, String.toList_append, ih]
      simp [charsTail]

end Expectation

namespace ParseError

theorem toList_expectedText_cons {error : ParseError} {first : Expectation}
    {more : List Expectation} (hexpected : error.expected = first :: more) :
    error.expectedText.toList =
      "expected ".toList ++ (first.text.toList ++ Expectation.charsTail more) := by
  rw [expectedText, hexpected]
  simp only [String.toList_append, Expectation.toList_intercalate_cons]

theorem expected_of_expectedText {error other : ParseError}
    (hsame : error.expectedText = other.expectedText) :
    error.expected = other.expected := by
  have hchars := congrArg String.toList hsame
  cases hfirst : error.expected with
  | nil =>
      cases hsecond : other.expected with
      | nil => rfl
      | cons item more =>
          rw [toList_expectedText_cons hsecond, expectedText, hfirst] at hchars
          simp at hchars
  | cons item more =>
      rw [toList_expectedText_cons hfirst] at hchars
      cases hsecond : other.expected with
      | nil =>
          rw [expectedText, hsecond] at hchars
          simp at hchars
      | cons second others =>
          rw [toList_expectedText_cons hsecond, List.append_cancel_left_eq] at hchars
          obtain ⟨rfl, hmore⟩ := Expectation.text_append_inj hchars
          rw [Expectation.charsTail_inj hmore]

/-! ## The place on a text of one line -/

theorem blanks_append_inj {count other : Nat} {rest others : List Char}
    (hsame : List.replicate count ' ' ++ '^' :: rest =
      List.replicate other ' ' ++ '^' :: others) :
    count = other ∧ rest = others := by
  induction count generalizing other with
  | zero =>
      cases other with
      | zero => simpa using hsame
      | succ other => simp [List.replicate_succ] at hsame
  | succ count ih =>
      cases other with
      | zero => simp [List.replicate_succ] at hsame
      | succ other =>
          rw [List.replicate_succ, List.replicate_succ, List.cons_append,
            List.cons_append, List.cons_inj_right] at hsame
          obtain ⟨rfl, hrest⟩ := ih hsame
          exact ⟨rfl, hrest⟩

theorem line_append_inj {line other rest others : List Char} (hline : '\n' ∉ line)
    (hother : '\n' ∉ other) (hsame : line ++ '\n' :: rest = other ++ '\n' :: others) :
    line = other ∧ rest = others := by
  rcases List.append_eq_append_iff.mp hsame with
    ⟨between, rfl, hrest⟩ | ⟨between, rfl, hrest⟩
  · cases between with
    | nil => simpa using hrest
    | cons c more =>
        obtain ⟨rfl, -⟩ := List.cons.inj hrest
        exact absurd (by simp) hother
  · cases between with
    | nil => simpa [eq_comm] using hrest
    | cons c more =>
        obtain ⟨rfl, -⟩ := List.cons.inj hrest
        exact absurd (by simp) hline

theorem byteCount_append (front back : List Char) :
    byteCount (front ++ back) = byteCount front + byteCount back := by
  induction front with
  | nil => simp [byteCount]
  | cons c front ih =>
      simp only [byteCount, List.cons_append, List.foldr_cons] at ih ⊢
      omega

theorem eq_nil_of_byteCount_eq_zero {chars : List Char} (hzero : byteCount chars = 0) :
    chars = [] := by
  cases chars with
  | nil => rfl
  | cons c more =>
      have hpos := c.utf8Size_pos
      simp only [byteCount, List.foldr_cons] at hzero
      omega

/-- The parts of a text are known by the number of bytes in the first. -/
theorem split_of_byteCount_eq {before rest other others : List Char}
    (hsame : before ++ rest = other ++ others)
    (hcount : byteCount before = byteCount other) : before = other ∧ rest = others := by
  rcases List.append_eq_append_iff.mp hsame with
    ⟨between, rfl, hrest⟩ | ⟨between, rfl, hrest⟩
  · rw [byteCount_append] at hcount
    obtain rfl : between = [] := eq_nil_of_byteCount_eq_zero (by omega)
    simpa using hrest
  · rw [byteCount_append] at hcount
    obtain rfl : between = [] := eq_nil_of_byteCount_eq_zero (by omega)
    simpa [eq_comm] using hrest

theorem toList_detail_of_one_line {error : ParseError} (hline : '\n' ∉ error.source) :
    error.detail.toList =
      error.source ++ '\n' ::
        (List.replicate error.offset ' ' ++ '^' :: '\n' :: error.expectedText.toList) := by
  rw [detail, if_neg (by simpa using hline)]
  simp [spaces]

/-- On texts of one line no two failures are shown alike. -/
theorem eq_of_message_eq {error other : ParseError} (hline : '\n' ∉ error.source)
    (hother : '\n' ∉ other.source) (hsame : error.message = other.message) :
    error = other := by
  have hdetail := congrArg String.toList ((String.append_right_inj _).mp hsame)
  rw [toList_detail_of_one_line hline, toList_detail_of_one_line hother] at hdetail
  obtain ⟨hsource, hbelow⟩ := line_append_inj hline hother hdetail
  obtain ⟨hoffset, hend⟩ := blanks_append_inj hbelow
  have hexpected : error.expected = other.expected :=
    expected_of_expectedText (String.toList_inj.mp (List.cons.inj hend).2)
  obtain ⟨hbefore, hrest⟩ := split_of_byteCount_eq hsource hoffset
  calc
    error = ⟨error.before, error.rest, error.expected⟩ := rfl
    _ = ⟨other.before, other.rest, other.expected⟩ := by rw [hbefore, hrest, hexpected]
    _ = other := rfl

/-! ## The place on a text of several lines -/

/-- The last line of a text stands behind a line feed, if it is not the first. -/
theorem exists_append_lastLine (chars : List Char) :
    ∃ front, chars = front ++ lastLine chars ∧ '\n' ∉ lastLine chars ∧
      (front = [] ∨ ∃ lines, front = lines ++ ['\n']) := by
  refine ⟨(chars.reverse.dropWhile (· != '\n')).reverse, ?_, ?_, ?_⟩
  · rw [lastLine, ← List.reverse_append, List.takeWhile_append_dropWhile,
      List.reverse_reverse]
  · intro hmem
    have hpassed := List.mem_takeWhile_imp (List.mem_reverse.mp hmem)
    simp at hpassed
  · have hstop := List.head?_dropWhile_not (· != '\n') chars.reverse
    cases hback : chars.reverse.dropWhile (· != '\n') with
    | nil => simp
    | cons c more =>
        rw [hback] at hstop
        obtain rfl : c = '\n' := by simpa using hstop
        exact .inr ⟨more.reverse, by simp⟩

/-- A character of one byte at which reading stopped has the caret under it. -/
theorem getElem?_caretLine_column {error : ParseError} {c : Char} {more : List Char}
    (hrest : error.rest = c :: more) (hsize : c.utf8Size = 1) (hline : c ≠ '\n') :
    error.caretLine[error.column]? = some c := by
  have hbefore : error.beforeCaret = error.before := by
    rw [beforeCaret, hrest]
    rfl
  have hcolumn : error.column = (lastLine error.before).length := by
    rw [column, hrest, hbefore]
    cases error.before <;> simp [hsize]
  rw [caretLine, hbefore, hcolumn, source, List.drop_left, hrest,
    List.getElem?_append_right le_rfl]
  simp [hline]

theorem source_eq_beforeCaret_append (error : ParseError) :
    error.source =
      error.beforeCaret ++ error.source.drop error.beforeCaret.length := by
  have hprefix : error.beforeCaret <+: error.source := by
    rw [beforeCaret, source]
    split
    · exact (List.dropLast_prefix error.before).trans (List.prefix_append ..)
    · exact List.prefix_append ..
  exact (List.prefix_iff_eq_append.mp hprefix).symm

/--
A failure in a text of several lines is shown with the number of a line, that line and a
caret.  The number counts the line feeds above the line, and the caret stands under the
character at which reading stopped, if that takes a single byte.  What was expected comes
last.
-/
theorem detail_of_lines {error : ParseError} (hlines : '\n' ∈ error.source) :
    ∃ above below, error.source = above ++ error.caretLine ++ below ∧
      '\n' ∉ error.caretLine ∧ (above = [] ∨ ∃ lines, above = lines ++ ['\n']) ∧
      (∀ c more, error.rest = c :: more → c.utf8Size = 1 → c ≠ '\n' →
        error.caretLine[error.column]? = some c) ∧
      let number := toString (above.count '\n' + 1)
      error.detail =
        "parse error at line " ++ number ++ ", column " ++ toString (error.column + 1) ++
          "\n" ++ spaces number.length ++ " |\n" ++
          number ++ " | " ++ String.ofList error.caretLine ++ "\n" ++
          spaces number.length ++ " | " ++ spaces error.column ++ "^\n" ++
          error.expectedText := by
  obtain ⟨above, habove, hlast, hfeed⟩ := exists_append_lastLine error.beforeCaret
  have hcount : above.count '\n' = error.line := by
    rw [line, habove, List.count_append, List.count_eq_zero.mpr hlast, Nat.add_zero]
  refine ⟨above, (error.source.drop error.beforeCaret.length).dropWhile (· != '\n'),
    ?_, ?_, hfeed, fun c more => getElem?_caretLine_column, ?_⟩
  · rw [caretLine, ← List.append_assoc, ← habove, List.append_assoc,
      List.takeWhile_append_dropWhile]
    exact error.source_eq_beforeCaret_append
  · intro hmem
    rcases List.mem_append.mp hmem with hmem | hmem
    · exact hlast hmem
    · simpa using List.mem_takeWhile_imp hmem
  · rw [hcount, detail, if_pos (by simpa using hlines)]

end ParseError

end PlacementRules
