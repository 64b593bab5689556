import PlacementRules.Outcome

/-!
# Outcomes that improve

One outcome improves on another if it has the same aims in the same order and passes
every aim that the other passes.  Outcomes made of verdicts improve when the verdicts
do, however often an aim comes up.
-/

namespace PlacementRules

namespace Outcome

/-- Aim by aim, the later outcome passes what the earlier one passes. -/
inductive Improves : (earlier later : Outcome) → Prop where
  | nil : Improves ⟨[]⟩ ⟨[]⟩
  | cons {aim : String} {passed passed' : Bool} {before after : List (String × Bool)}
      (hpassed : passed = true → passed' = true) (hmore : Improves ⟨before⟩ ⟨after⟩) :
      Improves ⟨(aim, passed) :: before⟩ ⟨(aim, passed') :: after⟩

namespace Improves

variable {earlier later : Outcome}

/-! ## Outcomes made of verdicts -/

theorem insert (himproves : earlier.Improves later) (aim : String)
    {passed passed' : Bool} (hpassed : passed = true → passed' = true) :
    (earlier.insert aim passed).Improves (later.insert aim passed') := by
  induction himproves with
  | nil => exact .cons hpassed .nil
  | @cons id verdict verdict' before after hverdict hmore ih =>
      simp only [Outcome.insert, insertEntry]
      by_cases haim : id = aim
      · rw [if_pos haim, if_pos haim]
        exact .cons hpassed hmore
      · rw [if_neg haim, if_neg haim]
        exact .cons hverdict ih

theorem foldl_insert {α : Type} {items : List α} (aim : α → String)
    {first second : α → Bool}
    (hitems : ∀ item ∈ items, first item = true → second item = true)
    (himproves : earlier.Improves later) :
    (items.foldl (fun outcome item => outcome.insert (aim item) (first item))
      earlier).Improves
    (items.foldl (fun outcome item => outcome.insert (aim item) (second item))
      later) := by
  induction items generalizing earlier later with
  | nil => exact himproves
  | cons item more ih =>
      obtain ⟨hitem, hmore⟩ := List.forall_mem_cons.mp hitems
      exact ih hmore (himproves.insert (aim item) hitem)

/-- Item by item, what is made of later verdicts improves. -/
theorem ofVerdicts {α : Type} {items : List α} (aim : α → String)
    {first second : α → Bool}
    (hitems : ∀ item ∈ items, first item = true → second item = true) :
    (ofVerdicts (items.map fun item => (aim item, first item))).Improves
      (ofVerdicts (items.map fun item => (aim item, second item))) := by
  rw [Outcome.ofVerdicts, Outcome.ofVerdicts, List.foldl_map, List.foldl_map]
  exact foldl_insert aim hitems .nil

/-! ## What an improvement keeps -/

theorem aims_eq (himproves : earlier.Improves later) : later.aims = earlier.aims := by
  induction himproves with
  | nil => rfl
  | cons _ _ ih =>
      unfold aims at ih ⊢
      rw [List.map_cons, List.map_cons, ih]

theorem get?_eq_some_true (himproves : earlier.Improves later) {aim : String}
    (hpassed : earlier.get? aim = some true) : later.get? aim = some true := by
  induction himproves with
  | nil => exact hpassed
  | @cons id verdict verdict' before after hverdict _ ih =>
      rw [get?, lookup_cons_entry] at hpassed ⊢
      by_cases haim : aim = id
      · rw [if_pos haim, Option.some.injEq] at hpassed ⊢
        exact hverdict hpassed
      · rw [if_neg haim] at hpassed ⊢
        exact ih hpassed

/-- No aim fails later that did not fail earlier, and the order is kept. -/
theorem failed_sublist (himproves : earlier.Improves later) :
    later.failed.Sublist earlier.failed := by
  induction himproves with
  | nil => exact .slnil
  | @cons id verdict verdict' before after hverdict _ ih =>
      unfold failed at ih ⊢
      cases verdict with
      | true =>
          obtain rfl : verdict' = true := hverdict rfl
          simpa using ih
      | false =>
          cases verdict' with
          | true => simpa using ih.cons id
          | false => simpa using ih

theorem passedAll (himproves : earlier.Improves later)
    (hpassed : earlier.passedAll = true) : later.passedAll = true := by
  induction himproves with
  | nil => rfl
  | cons hverdict _ ih =>
      rw [Outcome.passedAll, List.all_cons, Bool.and_eq_true] at hpassed ⊢
      exact ⟨hverdict hpassed.1, ih hpassed.2⟩

/-- Outcomes that improve on each other are the same. -/
theorem antisymm (himproves : earlier.Improves later) (hback : later.Improves earlier) :
    later = earlier := by
  induction himproves with
  | nil => rfl
  | @cons id verdict verdict' before after hverdict _ ih =>
      cases hback with
      | cons hverdict' hmore =>
          have hsame : verdict' = verdict := Bool.eq_iff_iff.mpr ⟨hverdict', hverdict⟩
          obtain rfl : after = before := Outcome.mk.inj (ih hmore)
          rw [hsame]

end Improves

end Outcome

end PlacementRules
