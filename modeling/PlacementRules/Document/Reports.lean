import PlacementRules.Json.Value
import PlacementRules.Outcome
import PlacementRules.Report

/-!
# Reports and outcomes as JSON

What is told about rules, and what they come to, as JSON values.
-/

namespace PlacementRules

def Violation.toJson (violation : Violation) : Json :=
  .object
    [("path", .string violation.path), ("depth", .ofNat violation.depth)]

def Issue.toJson (issue : Issue) : Json :=
  .object
    [("aimId", (issue.aim.map Json.string).getD .null),
      ("index", .ofNat issue.index),
      ("violations", .array (issue.violations.map Violation.toJson))]

def Report.toJson (report : Report) : Json :=
  .object
    [("ok", .bool report.isOk),
      ("issues", .array (report.issues.map Issue.toJson)),
      ("message", .string report.message)]

/-- An outcome as a JSON object with a member for each aim. -/
def Outcome.toJson (outcome : Outcome) : Json :=
  .object (outcome.entries.map fun entry => (entry.1, .bool entry.2))

/-! ## What the values tell -/

theorem Violation.members_toJson (violation : Violation) :
    violation.toJson.getText "path" = violation.path ∧
      violation.toJson.get? "depth" = some (.ofNat violation.depth) :=
  ⟨rfl, rfl⟩

theorem Issue.members_toJson (issue : Issue) :
    issue.toJson.getString? "aimId" = issue.aim ∧
      issue.toJson.get? "index" = some (.ofNat issue.index) ∧
      issue.toJson.getItems "violations" = issue.violations.map Violation.toJson := by
  refine ⟨?_, rfl, rfl⟩
  rcases issue with ⟨_ | aim, index, violations⟩ <;> rfl

/-- The members of the value are the fields of the report. -/
theorem Report.members_toJson (report : Report) :
    report.toJson.getFlag "ok" = report.isOk ∧
      report.toJson.getItems "issues" = report.issues.map Issue.toJson ∧
      report.toJson.getText "message" = report.message :=
  ⟨rfl, rfl, rfl⟩

theorem Violation.eq_of_toJson_eq {violation other : Violation}
    (hsame : violation.toJson = other.toJson) : violation = other := by
  obtain ⟨hpath, hdepth⟩ := violation.members_toJson
  rw [hsame, other.members_toJson.1] at hpath
  rw [hsame, other.members_toJson.2, Option.some_inj] at hdepth
  cases violation
  cases other
  rw [Violation.mk.injEq]
  exact ⟨hpath.symm, (Json.ofNat_injective hdepth).symm⟩

theorem Issue.eq_of_toJson_eq {issue other : Issue} (hsame : issue.toJson = other.toJson) :
    issue = other := by
  obtain ⟨haim, hindex, hviolations⟩ := issue.members_toJson
  obtain ⟨haim', hindex', hviolations'⟩ := other.members_toJson
  rw [hsame, haim'] at haim
  rw [hsame, hindex', Option.some_inj] at hindex
  rw [hsame, hviolations',
    List.map_inj_right fun _ _ => Violation.eq_of_toJson_eq] at hviolations
  cases issue
  cases other
  rw [Issue.mk.injEq]
  exact ⟨haim.symm, (Json.ofNat_injective hindex).symm, hviolations.symm⟩

/-- The value leaves nothing of the report out. -/
theorem Report.eq_of_toJson_eq {report other : Report}
    (hsame : report.toJson = other.toJson) : report = other := by
  obtain ⟨hok, hissues, hmessage⟩ := report.members_toJson
  obtain ⟨hok', hissues', hmessage'⟩ := other.members_toJson
  rw [hsame, hok'] at hok
  rw [hsame, hissues', List.map_inj_right fun _ _ => Issue.eq_of_toJson_eq] at hissues
  rw [hsame, hmessage'] at hmessage
  cases report
  cases other
  rw [Report.mk.injEq]
  exact ⟨hok.symm, hissues.symm, hmessage.symm⟩

end PlacementRules
