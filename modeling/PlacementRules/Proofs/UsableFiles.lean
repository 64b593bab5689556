import Mathlib.Data.Option.Basic
import PlacementRules.Command.Response

/-!
# Files that can be used

A file that a command names is of use if it is there and its text is a scenario, or a
list of placements.  What the JSON library says of other texts is of no concern to that.
-/

namespace PlacementRules

namespace Command

variable {system : Surroundings} {file : String} {placements : Option String}

/-- The file is there and holds the scenario. -/
def LoadsScenario (files : Files) (file : String) (scenario : Scenario) : Prop :=
  ∃ text document, files file = .ok text ∧ Json.ofText? text = some document ∧
    Scenario.ofJson document = .ok scenario

/-- The file is there and holds the placements; without a file there are none. -/
def ReadsPlacements (files : Files) (file : Option String) (list : List Placement) :
    Prop :=
  match file with
  | none => list = []
  | some file => ∃ text, files file = .ok text ∧ Placement.listOfText? text = some list

theorem readScenario_eq_ok_iff {scenario : Scenario} :
    readScenario system file = .ok scenario ↔
      LoadsScenario system.files file scenario := by
  unfold readScenario LoadsScenario
  cases system.files file with
  | error error => simp
  | ok text =>
      cases hdocument : Json.ofText? text with
      | none => simp [Scenario.ofText, hdocument, Except.mapError]
      | some document =>
          cases hload : Scenario.ofJson document <;>
            simp [Scenario.ofText, hdocument, hload, Except.mapError]

theorem readPlacements_eq_ok_iff {list : List Placement} :
    readPlacements system placements = .ok list ↔
      ReadsPlacements system.files placements list := by
  unfold readPlacements ReadsPlacements
  cases placements with
  | none => simp [eq_comm]
  | some file =>
      cases hfile : system.files file with
      | error error => simp [hfile]
      | ok text => cases hread : Placement.listOfText? text <;> simp [hfile, hread]

theorem exists_readScenario_error_iff :
    (∃ error, readScenario system file = .error error) ↔
      ¬ ∃ scenario, LoadsScenario system.files file scenario := by
  simp only [← readScenario_eq_ok_iff]
  cases readScenario system file <;> simp

theorem exists_readPlacements_error_iff :
    (∃ error, readPlacements system placements = .error error) ↔
      ¬ ∃ list, ReadsPlacements system.files placements list := by
  simp only [← readPlacements_eq_ok_iff]
  cases readPlacements system placements <;> simp

/-- Scenarios hold doubles and are not compared; one is known by what a view shows. -/
theorem exists_loadsScenario {α : Type} {files : Files} {text : String}
    {view : Scenario → α} {value : α} (hfile : files file = .ok text)
    (hview : ((Json.ofText? text).bind fun document =>
      (Scenario.ofJson document).toOption).map view = some value) :
    ∃ scenario, LoadsScenario files file scenario ∧ view scenario = value := by
  obtain ⟨scenario, hscenario, hsame⟩ := Option.map_eq_some_iff.mp hview
  obtain ⟨document, hdocument, hload⟩ := Option.bind_eq_some_iff.mp hscenario
  refine ⟨scenario, ⟨text, document, hfile, hdocument, ?_⟩, hsame⟩
  cases hread : Scenario.ofJson document with
  | error error => simp [hread, Except.toOption] at hload
  | ok other =>
      rw [hread] at hload
      exact congrArg Except.ok (Option.some.inj hload)

end Command

end PlacementRules
