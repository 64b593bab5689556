import Mathlib.Data.List.TakeWhile
import PlacementRules.Document.Demands
import PlacementRules.Document.Scenario

/-!
# The first fault of a document

Loading a scenario document fails with the first demand that the document does not
meet, and succeeds if it meets them all.
-/

namespace PlacementRules

/-! ## First faults -/

namespace FirstFault

variable {demands others : List Demand} {error : LoadError}

theorem append_left (hfault : FirstFault demands error) :
    FirstFault (demands ++ others) error := by
  induction hfault with
  | here hfault => exact .here hfault
  | later hmet _ ih => exact .later hmet ih

theorem append_right (hmet : ∀ demand ∈ demands, demand.met)
    (hfault : FirstFault others error) : FirstFault (demands ++ others) error := by
  induction demands with
  | nil => exact hfault
  | cons demand more ih =>
      obtain ⟨hdemand, hmore⟩ := List.forall_mem_cons.mp hmet
      exact .later hdemand (ih hmore)

theorem not_met (hfault : FirstFault demands error) :
    ¬ ∀ demand ∈ demands, demand.met := by
  intro hmet
  induction hfault with
  | here hfault => exact hfault (hmet _ List.mem_cons_self)
  | later _ _ ih => exact ih fun demand hdemand => hmet demand (List.mem_cons_of_mem _ hdemand)

theorem unique {other : LoadError} (hfault : FirstFault demands error)
    (hother : FirstFault demands other) : error = other := by
  induction hfault with
  | here hfault =>
      cases hother with
      | here => rfl
      | later hmet => exact absurd hmet hfault
  | later hmet _ ih =>
      cases hother with
      | here hfault => exact absurd hmet hfault
      | later _ hmore => exact ih hmore

end FirstFault

/-! ## Results that demands settle -/

/-- The demands decide the result: all are met, or it is the first fault of them. -/
def Settles {α : Type} (demands : List Demand) : Except LoadError α → Prop
  | .ok _ => ∀ demand ∈ demands, demand.met
  | .error error => FirstFault demands error

namespace Settles

variable {α β : Type} {demands others : List Demand}

theorem pure (value : α) : Settles [] (.ok value) := by
  simp [Settles]

theorem later {demand : Demand} {result : Except LoadError α} (hmet : demand.met)
    (hsettles : Settles demands result) : Settles (demand :: demands) result := by
  cases result with
  | ok value => exact List.forall_mem_cons.mpr ⟨hmet, hsettles⟩
  | error error => exact FirstFault.later hmet hsettles

/-- The end of a list of demands that are given group by group. -/
theorem last {result : Except LoadError α} (hsettles : Settles demands result) :
    Settles (demands ++ []) result := by
  simpa using hsettles

/-- A test that stands before everything else, and fails if its demand is not met. -/
theorem guard {demand : Demand} {holds : Bool} {result : Except LoadError α}
    (htest : holds = true ↔ demand.met) (hsettles : Settles demands result) :
    Settles (demand :: demands) (if holds then result else .error demand.error) := by
  cases holds with
  | true => exact later (htest.mp rfl) hsettles
  | false => exact FirstFault.here (by simpa using htest)

theorem bind {first : Except LoadError α} {next : α → Except LoadError β}
    (hfirst : Settles demands first)
    (hnext : ∀ value, first = .ok value → Settles others (next value)) :
    Settles (demands ++ others) (first >>= next) := by
  cases first with
  | error error =>
      -- What comes next is not run, so nothing is known of the other demands.
      exact FirstFault.append_left hfirst
  | ok value =>
      have hvalue := hnext value rfl
      change Settles (demands ++ others) (next value)
      cases hresult : next value with
      | error error =>
          rw [hresult] at hvalue
          exact FirstFault.append_right hfirst hvalue
      | ok result =>
          rw [hresult] at hvalue
          exact List.forall_mem_append.mpr ⟨hfirst, hvalue⟩

/-- What is made of a value in the end demands nothing. -/
theorem map {first : Except LoadError α} (make : α → β)
    (hfirst : Settles demands first) :
    Settles demands (first >>= fun value => .ok (make value)) := by
  cases first <;> exact hfirst

theorem eq_error_iff {result : Except LoadError α} (hsettles : Settles demands result)
    {error : LoadError} : result = .error error ↔ FirstFault demands error := by
  cases result with
  | ok value =>
      refine ⟨nofun, ?_⟩
      intro hfault
      exact absurd hsettles hfault.not_met
  | error other =>
      constructor
      · rintro ⟨⟩
        exact hsettles
      · intro hfault
        exact congrArg Except.error (FirstFault.unique hsettles hfault)

theorem exists_ok_iff {result : Except LoadError α} (hsettles : Settles demands result) :
    (∃ value, result = .ok value) ↔ ∀ demand ∈ demands, demand.met := by
  cases result with
  | ok value => exact ⟨fun _ => hsettles, fun _ => ⟨value, rfl⟩⟩
  | error error =>
      constructor
      · rintro ⟨value, ⟨⟩⟩
      · intro hmet
        exact absurd hmet (FirstFault.not_met hsettles)

end Settles

/-! ## Clips -/

namespace AudioClip

theorem isWhiteSpace_head_dropWhile {text : List Char} {c : Char}
    (hhead : (text.dropWhile isWhiteSpace).head? = some c) : isWhiteSpace c = false := by
  have hstop := List.head?_dropWhile_not isWhiteSpace text
  rwa [hhead] at hstop

theorem dropWhile_eq_self_of_head {text : List Char}
    (hhead : ∀ c, text.head? = some c → isWhiteSpace c = false) :
    text.dropWhile isWhiteSpace = text := by
  cases text with
  | nil => rfl
  | cons c more => simp [hhead c rfl]

/-- What trimming takes off the end is white space. -/
theorem exists_dropWhile_eq_trim_append (text : List Char) :
    ∃ back, text.dropWhile isWhiteSpace = trim text ++ back ∧
      ∀ c ∈ back, isWhiteSpace c = true := by
  refine ⟨((text.dropWhile isWhiteSpace).reverse.takeWhile isWhiteSpace).reverse, ?_, ?_⟩
  · rw [trim, ← List.reverse_append, List.takeWhile_append_dropWhile, List.reverse_reverse]
  · intro c hc
    exact List.mem_takeWhile_imp (List.mem_reverse.mp hc)

theorem isTrimmed_trim (text : List Char) : Demand.IsTrimmed text (trim text) := by
  obtain ⟨back, hinner, hback⟩ := exists_dropWhile_eq_trim_append text
  refine ⟨⟨text.takeWhile isWhiteSpace, back, ?_, ?_⟩, ?_, ?_⟩
  · rw [List.append_assoc, ← hinner, List.takeWhile_append_dropWhile]
  · intro c hc
    rcases List.mem_append.mp hc with hfront | hc
    · exact List.mem_takeWhile_imp hfront
    · exact hback c hc
  · intro c hc
    have hhead : (text.dropWhile isWhiteSpace).head? = some c := by
      rw [hinner, List.head?_append, hc]
      rfl
    exact isWhiteSpace_head_dropWhile hhead
  · intro c hc
    rw [trim, List.getLast?_reverse] at hc
    exact isWhiteSpace_head_dropWhile hc

/-- There is only one way to trim a text. -/
theorem trim_of_isTrimmed {text name : List Char}
    (htrimmed : Demand.IsTrimmed text name) : trim text = name := by
  obtain ⟨⟨front, back, rfl, hblank⟩, hfirst, hlast⟩ := htrimmed
  obtain ⟨hfront, hback⟩ := List.forall_mem_append.mp hblank
  -- With no name between them, the front and the back are dropped as one.
  by_cases hname : name = []
  · rw [hname, List.append_nil, trim, List.dropWhile_eq_nil_iff.mpr hblank]
    rfl
  · have hhead : ∀ c, (name ++ back).head? = some c → isWhiteSpace c = false := by
      intro c hc
      obtain ⟨first, more, rfl⟩ := List.exists_cons_of_ne_nil hname
      exact hfirst c hc
    have htail : ∀ c, name.reverse.head? = some c → isWhiteSpace c = false := by
      rw [List.head?_reverse]
      exact hlast
    have hreverse : ∀ c ∈ back.reverse, isWhiteSpace c = true := by
      simpa using hback
    rw [trim, List.append_assoc, List.dropWhile_append_of_pos hfront,
      dropWhile_eq_self_of_head hhead, List.reverse_append,
      List.dropWhile_append_of_pos hreverse, dropWhile_eq_self_of_head htail,
      List.reverse_reverse]

theorem isClipPath_iff {path : String} :
    isClipPath path = true ↔ Demand.IsClipPath path := by
  unfold isClipPath Demand.IsClipPath
  simp only [extensions, List.any_cons, List.any_nil, Bool.or_false, Bool.or_eq_true,
    List.isSuffixOf_iff_suffix]
  constructor
  · intro hextension
    exact ⟨trim path.toList, isTrimmed_trim path.toList, hextension⟩
  · rintro ⟨name, htrimmed, hextension⟩
    rw [trim_of_isTrimmed htrimmed]
    exact hextension

theorem isGood_iff {clip : Option Json} :
    isGood clip = true ↔ Demand.IsGoodClip clip := by
  unfold Demand.IsGoodClip Demand.IsAbsent
  rcases clip with _ | _ | _ | _ | path | _ | _
  case some.string => simpa [isGood] using isClipPath_iff
  all_goals simp [isGood]

theorem settles_require (field : String) (clip : Option Json) :
    Settles [⟨Demand.IsGoodClip clip, .audioClip field⟩] (require field clip) :=
  Settles.guard isGood_iff (Settles.pure ())

end AudioClip

theorem Json.isObject_iff {value : Json} :
    value.isObject = true ↔ Demand.IsObject value := by
  cases value <;> simp [isObject, Demand.IsObject]

namespace AudioClip

theorem settles_requireObject (field : String) (value : Json) :
    Settles [⟨Demand.IsObject value, .wrongType field .object⟩]
      (requireObject field value) :=
  Settles.guard Json.isObject_iff (Settles.pure ())

theorem settles_requirePair (field : String) (pair : Option Json) :
    Settles (Demand.clipPair field pair) (requirePair field pair) := by
  cases pair with
  | none => exact Settles.pure ()
  | some pair =>
      refine Settles.bind (settles_requireObject field pair) fun _ _ => ?_
      refine Settles.bind (settles_require (field ++ ".pass") (pair.get? "pass")) fun _ _ => ?_
      exact settles_require (field ++ ".fail") (pair.get? "fail")

theorem settles_requireManifest (audio : Option Json) :
    Settles (Demand.audio audio) (requireManifest audio) := by
  cases audio with
  | none => exact Settles.pure ()
  | some manifest =>
      refine Settles.bind (settles_requireObject "audio" manifest) fun _ _ => ?_
      refine Settles.bind (settles_require "audio.placement" _) fun _ _ => ?_
      refine Settles.bind (settles_requirePair "audio.aims" _) fun _ _ => ?_
      exact (settles_requirePair "audio.rulesets" _).last

end AudioClip

/-! ## Rulesets -/

namespace Ruleset

theorem settles_stringField (index : Nat) (field : RulesetField) (value : Json) :
    Settles
      [⟨Demand.IsAbsent (value.get? field.name) ∨ Demand.IsText (value.get? field.name),
        .rulesetField index field⟩]
      (stringField index field value) := by
  unfold stringField Demand.IsAbsent Demand.IsText
  cases value.get? field.name with
  | none => simp [Settles]
  | some member =>
      cases member with
      | null | string _ => simp [Settles]
      | bool _ | number _ | array _ | object _ => exact .here (by simp)

theorem settles_answerField (index : Nat) (value : Json) :
    Settles
      [⟨Demand.IsAbsent (value.get? "correct") ∨ Demand.IsFlag (value.get? "correct") ∨
          Demand.IsText (value.get? "correct") ∨ Demand.IsNumber (value.get? "correct"),
        .rulesetField index .correct⟩]
      (answerField index value) := by
  unfold answerField Demand.IsAbsent Demand.IsFlag Demand.IsText Demand.IsNumber
  rw [RulesetField.name]
  cases value.get? "correct" with
  | none => simp [Settles]
  | some member =>
      cases member with
      | null | bool _ | number _ | string _ => simp [Settles]
      | array _ | object _ => exact .here (by simp)

theorem settles_ofJson (index : Nat) (value : Json) :
    Settles (Demand.ruleset index value) (ofJson index value) := by
  apply Settles.guard Json.isObject_iff
  refine Settles.bind (settles_answerField index value) fun _ _ => ?_
  refine Settles.bind (settles_stringField index .id value) fun _ _ => ?_
  refine Settles.bind (settles_stringField index .text value) fun _ _ => ?_
  exact Settles.pure _

theorem settles_listOfJson (index : Nat) (values : List Json) :
    Settles (Demand.rulesetsFrom index values) (listOfJson index values) := by
  induction values generalizing index with
  | nil => exact Settles.pure []
  | cons value more ih =>
      rw [Demand.rulesetsFrom, List.zipIdx_cons, List.flatMap_cons]
      refine Settles.bind (settles_ofJson index value) fun _ _ => ?_
      exact Settles.map _ (ih (index + 1))

end Ruleset

/-! ## Rules -/

theorem Rules.settles_ofJson (value : Json) :
    Settles (Demand.rules value) (ofJson value) := by
  apply Settles.guard Json.isObject_iff
  unfold Demand.IsAbsent Demand.IsArray
  cases value.get? "checks" with
  | none => simp [Settles]
  | some checks =>
      cases checks with
      | null | array _ => simp [Settles]
      | bool _ | number _ | string _ | object _ => exact .here (by simp)

/-! ## Documents -/

namespace Scenario

theorem settles_requireRoot (document : Json) :
    Settles [⟨Demand.IsObject document, .notAnObject⟩] (requireRoot document) :=
  Settles.guard Json.isObject_iff (Settles.pure ())

theorem getPresent?_eq_none_iff {document : Json} {field : String} :
    document.getPresent? field = none ↔ Demand.IsAbsent (document.get? field) := by
  unfold Json.getPresent? Demand.IsAbsent
  rcases document.get? field with _ | _ | _ | _ | _ | _ | _ <;> simp [Json.isNull]

theorem settles_requireFields (document : Json) (fields : List String) :
    Settles (fields.map (Demand.present document)) (requireFields document fields) := by
  induction fields with
  | nil => exact Settles.pure ()
  | cons field more ih =>
      rw [List.map_cons, requireFields]
      cases hpresent : document.getPresent? field with
      | none => exact .here (not_not_intro (getPresent?_eq_none_iff.mp hpresent))
      | some member =>
          refine Settles.later ?_ ih
          simp [Demand.present, ← getPresent?_eq_none_iff, hpresent]

theorem settles_requireArray (document : Json) (field : String) :
    Settles [Demand.array document field] (requireArray document field) := by
  unfold requireArray Demand.array Demand.IsArray
  cases document.get? field with
  | none => exact .here (by simp)
  | some member =>
      cases member with
      | array _ => simp [Settles]
      | null | bool _ | number _ | string _ | object _ => exact .here (by simp)

theorem settles_rulesetsOfJson (document : Json) :
    Settles (Demand.rulesets document) (rulesetsOfJson document) := by
  unfold rulesetsOfJson Demand.rulesets Json.getItems Demand.IsAbsent Demand.IsArray
  cases document.get? "rulesets" with
  | none => simp [Settles, Demand.rulesetsFrom]
  | some member =>
      cases member with
      | null => simp [Settles, Demand.rulesetsFrom, Json.array?]
      | array items => exact Settles.later (by simp) (Ruleset.settles_listOfJson 0 items)
      | bool _ | number _ | string _ | object _ => exact .here (by simp)

theorem settles_ofJson (document : Json) :
    Settles (Demand.ofDocument document) (ofJson document) := by
  refine Settles.bind (settles_requireRoot document) fun _ _ => ?_
  refine Settles.bind (settles_requireFields document _) fun _ _ => ?_
  refine Settles.bind (settles_requireArray document "anchors") fun _ _ => ?_
  refine Settles.bind (settles_requireArray document "aims") fun _ _ => ?_
  refine Settles.bind (AudioClip.settles_requireManifest _) fun _ _ => ?_
  refine Settles.bind (settles_rulesetsOfJson document) fun _ _ => ?_
  exact (Settles.map _ (Rules.settles_ofJson _)).last

end Scenario

/-! ## What stands inside checks -/

namespace Demand

theorem HasChecks.isObject {document : Json} {entries : List Json}
    (hchecks : HasChecks document entries) : IsObject document := by
  obtain ⟨members, hrules, _⟩ := hchecks
  cases document with
  | object members => exact ⟨members, rfl⟩
  | null | bool _ | number _ | string _ | array _ => cases hrules

theorem ofDocument_of_hasChecks {document : Json} {entries : List Json}
    (hchecks : HasChecks document entries) :
    ofDocument document = List.flatten
      [[⟨True, .notAnObject⟩],
        ["stage", "devicePool", "anchors", "aims"].map (present document),
        [⟨True, .missingField "rules"⟩],
        [array document "anchors"],
        [array document "aims"],
        audio (document.get? "audio"),
        rulesets document,
        [⟨True, .wrongType "rules" .object⟩],
        [⟨True, .wrongType "rules.checks" .array⟩]] := by
  obtain ⟨all, rfl⟩ := hchecks.isObject
  obtain ⟨members, hrules, hentries⟩ := hchecks
  simp [ofDocument, present, rules, hrules, hentries, IsAbsent, IsArray, IsObject]

/-- No demand looks at the entries of an array of checks. -/
theorem SameButChecks.ofDocument_eq {document other : Json}
    (hsame : SameButChecks document other) : ofDocument document = ofDocument other := by
  obtain ⟨helsewhere, entries, others, hentries, hothers⟩ := hsame
  rw [ofDocument_of_hasChecks hentries, ofDocument_of_hasChecks hothers]
  simp [present, array, rulesets, Json.getItems, helsewhere]

end Demand

/--
Loading fails with an error if and only if this is the first fault of the document,
and gives a scenario if and only if all demands are met.  Documents that differ only
in what stands inside their checks fail alike or not at all.
-/
theorem Scenario.ofJson_fails_with_first_fault :
    (∀ document,
      (∀ error, Scenario.ofJson document = .error error ↔
        FirstFault (Demand.ofDocument document) error) ∧
      ((∃ scenario, Scenario.ofJson document = .ok scenario) ↔
        ∀ demand ∈ Demand.ofDocument document, demand.met)) ∧
    ∀ document other, Demand.SameButChecks document other →
      (∀ error, Scenario.ofJson document = .error error ↔
        Scenario.ofJson other = .error error) ∧
      ((∃ scenario, Scenario.ofJson document = .ok scenario) ↔
        ∃ scenario, Scenario.ofJson other = .ok scenario) := by
  constructor
  · intro document
    have hsettles := settles_ofJson document
    exact ⟨fun error => hsettles.eq_error_iff, hsettles.exists_ok_iff⟩
  · intro document other hsame
    have hdocument := settles_ofJson document
    have hother := settles_ofJson other
    rw [← hsame.ofDocument_eq] at hother
    constructor
    · intro error
      rw [hdocument.eq_error_iff, hother.eq_error_iff]
    · rw [hdocument.exists_ok_iff, hother.exists_ok_iff]

/-- A document with a wrong clip and a wrong ruleset, whatever its checks hold. -/
theorem Scenario.ofJson_fails_with_first_fault_of_two :
    let shape : List (String × Json) :=
      [("stage", .bool false), ("devicePool", .object []), ("anchors", .array []),
        ("aims", .array [.null]), ("rulesets", .array [.object [], .string "lamp"]),
        ("audio", .object
          [("placement", .string " Click.MP3\t"),
            ("aims", .object [("pass", .null), ("fail", .string "click.mp3.txt")])])]
    let document : Json :=
      .object (("rules", .object [("checks", .array [])]) :: shape)
    let other : Json :=
      .object (("rules", .object [("checks", .array [.null, .object []])]) :: shape)
    Demand.SameButChecks document other ∧
      Scenario.ofJson document = .error (.audioClip "audio.aims.fail") ∧
      Scenario.ofJson other = .error (.audioClip "audio.aims.fail") := by
  intro shape document other
  have hsame : Demand.SameButChecks document other := by
    refine ⟨?_, [], [.null, .object []], ⟨_, rfl, rfl⟩, ⟨_, rfl, rfl⟩⟩
    intro name hname
    simp [document, other, hname]
  have hfault : Scenario.ofJson document = .error (.audioClip "audio.aims.fail") := rfl
  have hfaults := ofJson_fails_with_first_fault.2 document other hsame
  exact ⟨hsame, hfault, (hfaults.1 _).mp hfault⟩

end PlacementRules
