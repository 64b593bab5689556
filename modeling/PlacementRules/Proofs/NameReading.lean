import PlacementRules.Proofs.Unambiguous

/-!
# Reading printed names

A printed name says where it ends.  A quoted one does so by its closing quote, with
anything behind it; a bare one ends where the name characters end, so what is behind it
must not go on with one.  Hence no two ids are printed alike, and no printed name with a
mark behind it begins another.
-/

namespace PlacementRules

open Grammar

namespace Name

/-- A bare name begins with a name character, which a quote is not. -/
theorem head_ne_quote_of_isBare {name : List Char} (hbare : isBare name = true)
    (rest inner : List Char) : name ++ rest ≠ '"' :: inner := by
  intro htext
  obtain ⟨c, more, hcons, hc⟩ :=
    isNameChar_head_of_word (word_of_isBare hbare delimited_nil)
  rw [List.append_nil] at hcons
  rw [hcons, List.cons_append] at htext
  rw [(List.cons.inj htext).1] at hc
  exact absurd hc (by decide)

theorem write_eq_quote_iff {name : List Char} :
    write name = quote name ↔ isBare name = false := by
  cases hbare : isBare name with
  | false => simp [write, hbare]
  | true =>
      have hne := head_ne_quote_of_isBare hbare [] (escape name ++ ['"'])
      rw [List.append_nil] at hne
      simpa [write, hbare, quote] using hne

theorem delimited_of_isName {id : String} {rest : List Char}
    (hbare : isBare id.toList = true) (hname : IsName (id.toList ++ rest) id rest) :
    Delimited rest := by
  have hne := head_ne_quote_of_isBare hbare rest
  generalize id.toList ++ rest = text at hname hne
  cases hname with
  | bare hword => exact hword.longest
  | quoted _ => exact absurd rfl (hne _)

theorem isName_write_iff (id : String) (rest : List Char) :
    IsName (write id.toList ++ rest) id rest ↔
      write id.toList = quote id.toList ∨ Delimited rest := by
  constructor
  · intro hname
    cases hbare : isBare id.toList with
    | false => exact .inl (write_eq_quote_iff.mpr hbare)
    | true =>
        rw [write, if_pos hbare] at hname
        exact .inr (delimited_of_isName hbare hname)
  · intro hends
    cases hends with
    | inl hquoted =>
        rw [hquoted]
        exact isName_quote id rest
    | inr hrest => exact isName_write id hrest

theorem write_injective : Function.Injective fun id : String => write id.toList := by
  intro id other hwrite
  have htext : write id.toList ++ [] = write other.toList ++ [] := by
    rw [List.append_nil, List.append_nil]
    exact hwrite
  exact (write_append_inj delimited_nil delimited_nil htext).1

/-- A printed name that goes on is read up to the same place, so it does not go on. -/
theorem not_write_append_prefix {c : Char} (hc : isNameChar c = false)
    (id other : String) : ¬ write id.toList ++ [c] <+: write other.toList := by
  rintro ⟨more, htext⟩
  rw [List.append_assoc, ← List.append_nil (write other.toList)] at htext
  obtain ⟨-, hrest⟩ := write_append_inj (delimited_cons hc more) delimited_nil htext
  exact absurd hrest (List.cons_ne_nil c more)

/--
Reading takes a printed name off the front of a text, no more and no less, and gives the
id back, just if the name is quoted or the text behind it does not begin with a name
character.  Different ids are printed differently, and with `@`, a space or a closing
parenthesis behind it no printed name begins another.
-/
theorem write_delimits_itself :
    (∀ (id : String) (rest : List Char),
      Reading.readName (write id.toList ++ rest) = .ok (id, rest) ↔
        write id.toList = quote id.toList ∨ Delimited rest) ∧
    (Function.Injective fun id : String => write id.toList) ∧
    ∀ id other : String, ∀ c ∈ ['@', ' ', ')'],
      ¬ write id.toList ++ [c] <+: write other.toList := by
  refine ⟨?_, write_injective, ?_⟩
  · intro id rest
    rw [Reading.readName_eq_ok_iff, isName_write_iff]
  · intro id other c hc
    have hmarks : ['@', ' ', ')'].all (fun mark => !isNameChar mark) = true := by decide
    have hmark := List.all_eq_true.mp hmarks c hc
    exact not_write_append_prefix (by simpa using hmark) id other

/-- A keyword and backslashes before quotes, with name characters right behind them. -/
theorem write_delimits_itself_of_keyword :
    Reading.readName "\"oR\"s@x".toList = .ok ("oR", "s@x".toList) ∧
    Reading.readName "\"\\\\\\\"\\\\\\\\\"n".toList = .ok ("\\\"\\\\", ['n']) ∧
    Reading.readName "lamp@x".toList = .ok ("lamp", "@x".toList) ∧
    Reading.readName "lamps".toList ≠ .ok ("lamp", ['s']) ∧
    write "lamp".toList ≠ write "Lamp".toList ∧
    ¬ "lamp@".toList <+: write "lamp@".toList := by
  obtain ⟨hread, hinjective, hprefix⟩ := write_delimits_itself
  refine ⟨(hread "oR" _).mpr (.inl (by decide)), (hread "\\\"\\\\" _).mpr (.inl (by decide)),
    (hread "lamp" _).mpr (.inr (delimited_at _)), ?_, ?_, hprefix "lamp" "lamp@" '@' (by decide)⟩
  · intro hlamp
    cases (hread "lamp" ['s']).mp hlamp with
    | inl hquoted => exact absurd hquoted (by decide)
    | inr hdelimited =>
        have hs := (isNameChar_eq_false_iff 's').mpr (hdelimited 's' rfl)
        exact absurd hs (by decide)
  · intro hsame
    exact absurd (hinjective hsame) (by decide)

end Name

end PlacementRules
