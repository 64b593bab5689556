import PlacementRules.Check

/-!
# Scenarios

The parts of an authored scenario that rules are evaluated and presented with.
-/

namespace PlacementRules

/-- A named objective of the learner. -/
structure Aim where
  id : String
  text : String
deriving DecidableEq, Repr, Inhabited

/-- A point of the stage where a device may be placed. -/
structure Anchor where
  id : String
  x : Float
  y : Float
deriving Repr, Inhabited

inductive Answer where
  | flag (value : Bool)
  | text (value : String)
  | number (value : Float)
deriving Repr, Inhabited

/-- A statement that the learner judges after placing the devices. -/
structure Ruleset where
  id : Option String := none
  text : Option String := none
  correct : Option Answer := none
deriving Repr, Inhabited

structure Scenario where
  title : Option String := none
  aims : List Aim := []
  anchors : List Anchor := []
  allowedDevices : List String := []
  rulesets : List Ruleset := []
  rules : Rules := {}
deriving Repr, Inhabited

namespace Scenario

def ofRules (rules : Rules) : Scenario :=
  { rules := rules }

def aim? (scenario : Scenario) (id : String) : Option Aim :=
  scenario.aims.find? fun aim => aim.id == id

end Scenario

end PlacementRules
