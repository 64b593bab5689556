import Mathlib.Data.Finset.Card
import Mathlib.Data.List.Induction
import PlacementRules.Document.Reports
import PlacementRules.Proofs.Compilation

/-!
# Outcomes in check order

An outcome is filled check by check.  An aim keeps the place that its first check gives
it and has the verdict of its last check, so each aim is there once, and every reader
of the outcome speaks about last checks only.
-/

namespace PlacementRules

namespace Outcome

/-! ## Filling an outcome -/

theorem map_fst_insertEntry (aim : String) (passed : Bool)
    (entries : List (String × Bool)) :
    (insertEntry aim passed entries).map Prod.fst =
      if aim ∈ entries.map Prod.fst then entries.map Prod.fst
      else entries.map Prod.fst ++ [aim] := by
  induction entries with
  | nil => rfl
  | cons entry more ih =>
      obtain ⟨id, verdict⟩ := entry
      unfold insertEntry
      by_cases hid : id = aim
      · simp [hid]
      · have hother : aim ≠ id := Ne.symm hid
        rw [if_neg hid, List.map_cons, List.map_cons, ih]
        by_cases hmem : aim ∈ more.map Prod.fst
        · rw [if_pos hmem, if_pos (List.mem_cons_of_mem id hmem)]
        · have hnot : aim ∉ id :: more.map Prod.fst := by
            rw [List.mem_cons]
            exact not_or.mpr ⟨hother, hmem⟩
          rw [if_neg hmem, if_neg hnot, List.cons_append]

theorem aims_insert_of_mem {outcome : Outcome} {aim : String} (hmem : aim ∈ outcome.aims)
    (passed : Bool) : (outcome.insert aim passed).aims = outcome.aims :=
  (map_fst_insertEntry aim passed outcome.entries).trans (if_pos hmem)

theorem aims_insert_of_not_mem {outcome : Outcome} {aim : String}
    (hmem : aim ∉ outcome.aims) (passed : Bool) :
    (outcome.insert aim passed).aims = outcome.aims ++ [aim] :=
  (map_fst_insertEntry aim passed outcome.entries).trans (if_neg hmem)

theorem mem_aims_insert {outcome : Outcome} {aim other : String} {passed : Bool} :
    other ∈ (outcome.insert aim passed).aims ↔ other ∈ outcome.aims ∨ other = aim := by
  by_cases hmem : aim ∈ outcome.aims
  · rw [aims_insert_of_mem hmem]
    constructor
    · exact .inl
    · rintro (hother | rfl)
      · exact hother
      · exact hmem
  · rw [aims_insert_of_not_mem hmem, List.mem_append, List.mem_singleton]

theorem ofVerdicts_append_singleton (verdicts : List (String × Bool)) (aim : String)
    (passed : Bool) :
    ofVerdicts (verdicts ++ [(aim, passed)]) = (ofVerdicts verdicts).insert aim passed := by
  rw [ofVerdicts, List.foldl_append]
  rfl

theorem mem_aims_ofVerdicts {verdicts : List (String × Bool)} {aim : String} :
    aim ∈ (ofVerdicts verdicts).aims ↔ aim ∈ verdicts.map Prod.fst := by
  induction verdicts using List.reverseRecOn with
  | nil => rfl
  | append_singleton verdicts verdict ih =>
      rw [ofVerdicts_append_singleton, mem_aims_insert, ih, List.map_append,
        List.mem_append, List.map_singleton, List.mem_singleton]

/-- The aims stand in the order in which they first come up. -/
theorem pairwise_aims_ofVerdicts (verdicts : List (String × Bool)) :
    (ofVerdicts verdicts).aims.Pairwise fun earlier later =>
      (verdicts.map Prod.fst).idxOf earlier < (verdicts.map Prod.fst).idxOf later := by
  induction verdicts using List.reverseRecOn with
  | nil => exact .nil
  | append_singleton verdicts verdict ih =>
      obtain ⟨aim, passed⟩ := verdict
      -- a further verdict does not move the aims that have come up before
      have hplaces : ∀ other ∈ (ofVerdicts verdicts).aims,
          ((verdicts ++ [(aim, passed)]).map Prod.fst).idxOf other =
            (verdicts.map Prod.fst).idxOf other := by
        intro other hother
        rw [List.map_append, List.idxOf_append, if_pos (mem_aims_ofVerdicts.mp hother)]
      have hbefore : (ofVerdicts verdicts).aims.Pairwise fun earlier later =>
          ((verdicts ++ [(aim, passed)]).map Prod.fst).idxOf earlier <
            ((verdicts ++ [(aim, passed)]).map Prod.fst).idxOf later := by
        refine ih.imp_of_mem ?_
        intro earlier later hearlier hlater hless
        rwa [hplaces earlier hearlier, hplaces later hlater]
      rw [ofVerdicts_append_singleton]
      by_cases hmem : aim ∈ (ofVerdicts verdicts).aims
      · rw [aims_insert_of_mem hmem]
        exact hbefore
      · rw [aims_insert_of_not_mem hmem, List.pairwise_append]
        refine ⟨hbefore, List.pairwise_singleton _ _, ?_⟩
        intro earlier hearlier later hlater
        obtain rfl : later = aim := List.mem_singleton.mp hlater
        have hnew : later ∉ verdicts.map Prod.fst := fun hold =>
          hmem (mem_aims_ofVerdicts.mpr hold)
        have hearly := List.idxOf_lt_length_of_mem (mem_aims_ofVerdicts.mp hearlier)
        rw [hplaces earlier hearlier, List.map_append, List.idxOf_append, if_neg hnew]
        omega

theorem nodup_aims_ofVerdicts (verdicts : List (String × Bool)) :
    (ofVerdicts verdicts).aims.Nodup := by
  refine (pairwise_aims_ofVerdicts verdicts).imp ?_
  intro earlier later hless heq
  rw [heq] at hless
  omega

/-! ## Reading an outcome -/

section

variable {outcome : Outcome}

theorem get?_eq_none_iff {aim : String} :
    outcome.get? aim = none ↔ aim ∉ outcome.aims := by
  rw [get?, List.lookup_eq_none_iff, aims, List.mem_map]
  constructor
  · rintro hnone ⟨entry, hentry, rfl⟩
    simpa using hnone entry hentry
  · intro hnone entry hentry
    rw [bne_iff_ne]
    rintro rfl
    exact hnone ⟨entry, hentry, rfl⟩

theorem mem_entries_of_get? {aim : String} {passed : Bool}
    (hverdict : outcome.get? aim = some passed) : (aim, passed) ∈ outcome.entries := by
  rw [get?, List.lookup_eq_some_iff] at hverdict
  obtain ⟨before, after, hentries, -⟩ := hverdict
  rw [hentries]
  exact List.mem_append_right before List.mem_cons_self

theorem get?_of_mem_entries (hnodup : outcome.aims.Nodup) {aim : String} {passed : Bool}
    (hentry : (aim, passed) ∈ outcome.entries) : outcome.get? aim = some passed := by
  obtain ⟨entries⟩ := outcome
  rw [get?]
  induction entries with
  | nil => exact absurd hentry List.not_mem_nil
  | cons entry more ih =>
      obtain ⟨id, verdict⟩ := entry
      obtain ⟨hid, hmore⟩ := List.nodup_cons.mp hnodup
      rw [lookup_cons_entry]
      rcases List.mem_cons.mp hentry with heq | hlater
      · obtain ⟨rfl, rfl⟩ := Prod.mk.inj heq
        exact if_pos rfl
      · have hother : aim ≠ id := by
          rintro rfl
          exact hid (List.mem_map.mpr ⟨_, hlater, rfl⟩)
        rw [if_neg hother]
        exact ih hmore hlater

/-- An entry is what its aim is found with, as no aim has two entries. -/
theorem mem_entries_iff (hnodup : outcome.aims.Nodup) {aim : String} {passed : Bool} :
    (aim, passed) ∈ outcome.entries ↔ outcome.get? aim = some passed :=
  ⟨get?_of_mem_entries hnodup, mem_entries_of_get?⟩

theorem failed_eq_filter (hnodup : outcome.aims.Nodup) :
    outcome.failed = outcome.aims.filter fun aim => outcome.get? aim == some false := by
  rw [failed, aims, List.filter_map]
  congr 1
  apply List.filter_congr
  intro entry hentry
  have hverdict := get?_of_mem_entries hnodup hentry
  rw [Function.comp_apply, hverdict]
  cases entry.2 <;> rfl

theorem passedAll_iff_failed_eq_nil : outcome.passedAll = true ↔ outcome.failed = [] := by
  rw [passedAll, failed, List.map_eq_nil_iff, List.filter_eq_nil_iff, List.all_eq_true]
  simp

theorem passedAll_iff (hnodup : outcome.aims.Nodup) :
    outcome.passedAll = true ↔ ∀ aim ∈ outcome.aims, outcome.get? aim = some true := by
  rw [passedAll, List.all_eq_true, aims, List.forall_mem_map]
  constructor
  · intro hpassed entry hentry
    rw [get?_of_mem_entries hnodup hentry, hpassed entry hentry]
  · intro hpassed entry hentry
    have hverdict := get?_of_mem_entries hnodup hentry
    rw [hpassed entry hentry] at hverdict
    exact (Option.some.inj hverdict).symm

theorem size_eq_card (hnodup : outcome.aims.Nodup) {ids : List String}
    (hids : ∀ aim, aim ∈ outcome.aims ↔ aim ∈ ids) :
    outcome.size = ids.toFinset.card := by
  have hset : ids.toFinset = outcome.aims.toFinset := by
    ext aim
    rw [List.mem_toFinset, List.mem_toFinset, hids]
  rw [hset, List.toFinset_card_of_nodup hnodup, aims, List.length_map, size]

theorem toJson_get? (aim : String) :
    outcome.toJson.get? aim = (outcome.get? aim).map Json.bool := by
  obtain ⟨entries⟩ := outcome
  rw [get?]
  induction entries with
  | nil => rfl
  | cons entry more ih =>
      obtain ⟨id, verdict⟩ := entry
      rw [toJson, List.map_cons, Json.get?_cons, lookup_cons_entry]
      by_cases haim : aim = id
      · rw [if_pos haim, if_pos haim, Option.map_some]
      · rw [if_neg haim, if_neg haim]
        exact ih

end

end Outcome

/-! ## The last check of an aim -/

/-- The check is the one for the aim behind which no other of the checks is for it. -/
def Check.IsLast (checks : List Check) (aim : String) (check : Check) : Prop :=
  ∃ before after, checks = before ++ check :: after ∧ check.aim = aim ∧
    ∀ later ∈ after, later.aim ≠ aim

namespace Check

theorem not_isLast_nil (aim : String) (check : Check) : ¬ IsLast [] aim check := by
  rintro ⟨before, after, hchecks, -⟩
  simp at hchecks

/-- A further check is the last one of its aim, and changes nothing for other aims. -/
theorem isLast_append_singleton {checks : List Check} {aim : String} {last check : Check} :
    IsLast (checks ++ [last]) aim check ↔
      if last.aim = aim then check = last else IsLast checks aim check := by
  constructor
  · rintro ⟨before, after, hchecks, haim, hafter⟩
    rcases after.eq_nil_or_concat with rfl | ⟨init, final, rfl⟩
    · obtain ⟨-, hlast⟩ := List.append_inj' hchecks rfl
      obtain rfl : last = check := (List.cons.inj hlast).1
      rw [if_pos haim]
    · have hsplit : checks ++ [last] = (before ++ check :: init) ++ [final] := by
        rw [hchecks]
        simp
      obtain ⟨hinit, hlast⟩ := List.append_inj' hsplit rfl
      obtain rfl : last = final := (List.cons.inj hlast).1
      rw [if_neg (hafter last (by simp))]
      exact ⟨before, init, hinit, haim, fun later hlater => hafter later (by simp [hlater])⟩
  · by_cases haim : last.aim = aim
    · rw [if_pos haim]
      rintro rfl
      exact ⟨checks, [], rfl, haim, by simp⟩
    · rw [if_neg haim]
      rintro ⟨before, after, rfl, hcheck, hafter⟩
      refine ⟨before, after ++ [last], by simp, hcheck, ?_⟩
      intro later hlater
      rcases List.mem_append.mp hlater with hold | hnew
      · exact hafter later hold
      · rwa [List.mem_singleton.mp hnew]

theorem IsLast.mem {checks : List Check} {aim : String} {check : Check}
    (hlast : IsLast checks aim check) : check ∈ checks := by
  obtain ⟨before, after, rfl, -⟩ := hlast
  exact List.mem_append_right before List.mem_cons_self

theorem IsLast.aim_eq {checks : List Check} {aim : String} {check : Check}
    (hlast : IsLast checks aim check) : check.aim = aim := by
  obtain ⟨-, -, -, haim, -⟩ := hlast
  exact haim

theorem isLast_of_nodup {checks : List Check} (hnodup : (checks.map Check.aim).Nodup)
    {check : Check} (hcheck : check ∈ checks) : IsLast checks check.aim check := by
  obtain ⟨before, after, rfl⟩ := List.append_of_mem hcheck
  refine ⟨before, after, rfl, rfl, ?_⟩
  intro later hlater heq
  rw [List.map_append, List.map_cons] at hnodup
  obtain ⟨-, hcons, -⟩ := List.nodup_append.mp hnodup
  exact (List.nodup_cons.mp hcons).1 (heq ▸ List.mem_map_of_mem hlater)

end Check

/-- The verdict of an aim is that of its last check. -/
theorem Outcome.get?_ofVerdicts_eq_some_iff {checks : List Check} (verdict : Check → Bool)
    {aim : String} {passed : Bool} :
    (ofVerdicts (checks.map fun check => (check.aim, verdict check))).get? aim =
        some passed ↔
      ∃ check, Check.IsLast checks aim check ∧ verdict check = passed := by
  induction checks using List.reverseRecOn with
  | nil =>
      constructor
      · intro hnone
        simp [ofVerdicts, get?] at hnone
      · rintro ⟨check, hlast, -⟩
        exact absurd hlast (Check.not_isLast_nil aim check)
  | append_singleton checks last ih =>
      rw [List.map_append, List.map_singleton, ofVerdicts_append_singleton, get?_insert]
      simp only [Check.isLast_append_singleton]
      by_cases haim : aim = last.aim
      · simp [haim]
      · rw [if_neg haim, ih]
        simp [Ne.symm haim]

/-! ## Evaluated rules -/

namespace Rules

variable (limit : Nat) (rules : Rules) (placements : List Placement) (connected : Bool)

theorem mem_aims_evaluate {aim : String} :
    aim ∈ (rules.evaluate limit placements connected).aims ↔
      aim ∈ rules.checks.map Check.aim := by
  rw [evaluate_eq_ofVerdicts, Outcome.mem_aims_ofVerdicts, List.map_map]
  rfl

theorem pairwise_aims_evaluate :
    (rules.evaluate limit placements connected).aims.Pairwise fun earlier later =>
      (rules.checks.map Check.aim).idxOf earlier <
        (rules.checks.map Check.aim).idxOf later := by
  have hpairwise := Outcome.pairwise_aims_ofVerdicts
    (rules.checks.map fun check => (check.aim, check.passes limit placements connected))
  rw [List.map_map, ← evaluate_eq_ofVerdicts] at hpairwise
  exact hpairwise

theorem nodup_aims_evaluate : (rules.evaluate limit placements connected).aims.Nodup := by
  rw [evaluate_eq_ofVerdicts]
  exact Outcome.nodup_aims_ofVerdicts _

theorem get?_evaluate_eq_some_iff {aim : String} {passed : Bool} :
    (rules.evaluate limit placements connected).get? aim = some passed ↔
      ∃ check, Check.IsLast rules.checks aim check ∧
        check.passes limit placements connected = passed := by
  rw [evaluate_eq_ofVerdicts]
  exact Outcome.get?_ofVerdicts_eq_some_iff (Check.passes limit placements connected)

theorem get?_evaluate_of_isLast {aim : String} {check : Check}
    (hlast : Check.IsLast rules.checks aim check) :
    (rules.evaluate limit placements connected).get? aim =
      some (check.passes limit placements connected) :=
  (rules.get?_evaluate_eq_some_iff limit placements connected).mpr ⟨check, hlast, rfl⟩

/-- All aims pass if the last check of each does. -/
theorem passedAll_evaluate_iff :
    (rules.evaluate limit placements connected).passedAll = true ↔
      ∀ aim check, Check.IsLast rules.checks aim check →
        check.passes limit placements connected = true := by
  rw [Outcome.passedAll_iff (rules.nodup_aims_evaluate limit placements connected)]
  constructor
  · intro hpassed aim check hlast
    have hmem : aim ∈ (rules.evaluate limit placements connected).aims := by
      rw [mem_aims_evaluate, ← hlast.aim_eq]
      exact List.mem_map_of_mem hlast.mem
    have hverdict := hpassed aim hmem
    rw [rules.get?_evaluate_of_isLast limit placements connected hlast] at hverdict
    exact Option.some.inj hverdict
  · intro hlast aim hmem
    cases hverdict : (rules.evaluate limit placements connected).get? aim with
    | none => exact absurd hmem (Outcome.get?_eq_none_iff.mp hverdict)
    | some passed =>
        obtain ⟨check, hcheck, rfl⟩ :=
          (rules.get?_evaluate_eq_some_iff limit placements connected).mp hverdict
        rw [hlast aim check hcheck]

end Rules

theorem Check.passes_iff {limit : Nat} {placements : List Placement} {connected : Bool}
    {check : Check} :
    check.passes limit placements connected = true ↔
      (Condition.ofCheck limit check).holds placements = true ∧
        (check.connectedRequired = true → connected = true) := by
  rw [passes, Condition.holds_ofCheck, Bool.and_eq_true]
  cases check.connectedRequired <;> simp

/--
An outcome has each aim of the checks once, in the order of the first check for it and
with the verdict of the last; other aims it has not.  Its size is the number of aims,
what failed are the aims with that verdict, in the same order, and all pass just when
the last check of each aim has its condition met and its connection made.  As a JSON
object it has the aims for keys, again in order.  So no check but the last one for an
aim has a say in its verdict.
-/
theorem Rules.outcome_in_check_order (limit : Nat) (rules : Rules)
    (placements : List Placement) (connected : Bool) :
    let outcome := (CompiledRules.ofRules limit rules).evaluate placements connected
    let aims := rules.checks.map Check.aim
    let verdict := fun check =>
      (CompiledCheck.ofCheck limit check).passes placements connected
    (∀ aim, aim ∈ outcome.aims ↔ aim ∈ aims) ∧
    outcome.aims.Nodup ∧
    outcome.aims.Pairwise (fun earlier later =>
      aims.idxOf earlier < aims.idxOf later) ∧
    outcome.size = aims.toFinset.card ∧
    (∀ aim passed, (aim, passed) ∈ outcome.entries ↔ outcome.get? aim = some passed) ∧
    (∀ aim passed, outcome.get? aim = some passed ↔
      ∃ check, Check.IsLast rules.checks aim check ∧ verdict check = passed) ∧
    (∀ aim, outcome.get? aim = none ↔ aim ∉ aims) ∧
    outcome.failed = outcome.aims.filter (fun aim => outcome.get? aim == some false) ∧
    (outcome.passedAll = true ↔ outcome.failed = []) ∧
    (outcome.passedAll = true ↔ ∀ aim check, Check.IsLast rules.checks aim check →
      (Condition.ofCheck limit check).holds placements = true ∧
        (check.connectedRequired = true → connected = true)) ∧
    (aims.Nodup →
      (outcome.passedAll = true ↔ ∀ check ∈ rules.checks, verdict check = true)) ∧
    (∃ members, outcome.toJson = .object members ∧
      members.map Prod.fst = outcome.aims ∧
      ∀ aim, outcome.toJson.get? aim = (outcome.get? aim).map Json.bool) ∧
    (∀ (other : Rules) (aim : String) (check : Check),
      Check.IsLast rules.checks aim check → Check.IsLast other.checks aim check →
      ((CompiledRules.ofRules limit other).evaluate placements connected).get? aim =
        outcome.get? aim) := by
  intro outcome aims verdict
  have hpasses : verdict = Check.passes limit placements connected := by
    funext check
    exact CompiledCheck.passes_ofCheck limit placements connected check
  have hmem : ∀ aim, aim ∈ outcome.aims ↔ aim ∈ aims :=
    fun aim => rules.mem_aims_evaluate limit placements connected
  have hnodup : outcome.aims.Nodup :=
    rules.nodup_aims_evaluate limit placements connected
  have hpassed := rules.passedAll_evaluate_iff limit placements connected
  rw [hpasses]
  refine ⟨hmem, hnodup, rules.pairwise_aims_evaluate limit placements connected,
    Outcome.size_eq_card hnodup hmem, fun _ _ => Outcome.mem_entries_iff hnodup,
    fun _ _ => rules.get?_evaluate_eq_some_iff limit placements connected, ?_,
    Outcome.failed_eq_filter hnodup, Outcome.passedAll_iff_failed_eq_nil, ?_, ?_, ?_, ?_⟩
  · intro aim
    rw [Outcome.get?_eq_none_iff, hmem]
  · simp only [← Check.passes_iff]
    exact hpassed
  · intro hdistinct
    constructor
    · intro hall check hcheck
      exact hpassed.mp hall check.aim check (Check.isLast_of_nodup hdistinct hcheck)
    · intro hall
      exact hpassed.mpr fun aim check hlast => hall check hlast.mem
  · refine ⟨_, rfl, ?_, Outcome.toJson_get?⟩
    rw [List.map_map]
    rfl
  · intro other aim check hlast hother
    exact (other.get?_evaluate_of_isLast limit placements connected hother).trans
      (rules.get?_evaluate_of_isLast limit placements connected hlast).symm

/-- An aim with two checks, a check without an aim, and other rules that end alike. -/
theorem Rules.outcome_in_check_order_repeated :
    let light : Check := { aim := "light", requiredPlacements := [⟨"fan", "hall"⟩] }
    let rules : Rules :=
      { checks :=
          [{ aim := "light", requiredPlacements := [⟨"lamp", "desk"⟩] },
            { connectedRequired := true }, light, { aim := "air" }] }
    let other : Rules := { checks := [{ aim := "", connectedRequired := true }, light] }
    let outcome (rules : Rules) :=
      (CompiledRules.ofRules 1 rules).evaluate [⟨"lamp", "desk"⟩] true
    outcome rules = ⟨[("light", false), ("", true), ("air", true)]⟩ ∧
    (outcome rules).get? "light" = some false ∧
    (outcome other).get? "light" = (outcome rules).get? "light" ∧
    ((outcome other).passedAll = true ↔ ∀ check ∈ other.checks,
      (CompiledCheck.ofCheck 1 check).passes [⟨"lamp", "desk"⟩] true = true) := by
  intro light rules other outcome
  have hlast : Check.IsLast rules.checks "light" light :=
    ⟨[_, _], [_], rfl, rfl, by decide⟩
  have hother : Check.IsLast other.checks "light" light := ⟨[_], [], rfl, rfl, by decide⟩
  have hdistinct : (other.checks.map Check.aim).Nodup := by decide
  obtain ⟨-, -, -, -, -, hverdict, -, -, -, -, -, -, hsame⟩ :=
    outcome_in_check_order 1 rules [⟨"lamp", "desk"⟩] true
  obtain ⟨-, -, -, -, -, -, -, -, -, -, hall, -⟩ :=
    outcome_in_check_order 1 other [⟨"lamp", "desk"⟩] true
  exact ⟨rfl, (hverdict "light" false).mpr ⟨light, hlast, rfl⟩,
    hsame other "light" light hlast hother, hall hdistinct⟩

end PlacementRules
