import PlacementRules.Condition
import PlacementRules.Outcome
import PlacementRules.Report

/-!
# Evaluation

Rules are compiled once under a depth limit and then decided on placements as
often as needed.  Evaluation may also be refused, with a report, if the rules
nest groups deeper than the limit.
-/

namespace PlacementRules

def defaultMaxDepth : Nat := 1

structure CompiledCheck where
  aim : String
  connectedRequired : Bool
  condition : Condition
deriving Repr, Inhabited

namespace CompiledCheck

def ofCheck (limit : Nat) (check : Check) : CompiledCheck where
  aim := check.aim
  connectedRequired := check.connectedRequired
  condition := Condition.ofCheck limit check

/-- The verdict of a check: its condition holds, and it is connected if it must be. -/
def passes (placements : List Placement) (connected : Bool) (check : CompiledCheck) :
    Bool :=
  check.condition.holds placements && (!check.connectedRequired || connected)

end CompiledCheck

structure CompiledRules where
  checks : List CompiledCheck
  maxDepth : Nat
deriving Repr, Inhabited

namespace CompiledRules

def ofRules (limit : Nat) (rules : Rules) : CompiledRules where
  checks := rules.checks.map (CompiledCheck.ofCheck limit)
  maxDepth := limit

def aims (rules : CompiledRules) : List String :=
  rules.checks.map CompiledCheck.aim

def size (rules : CompiledRules) : Nat :=
  rules.checks.length

def text (rules : CompiledRules) : String :=
  "CompiledRules(" ++ toString rules.size ++ " checks, max group depth " ++
    toString rules.maxDepth ++ ")"

def evaluate (rules : CompiledRules) (placements : List Placement)
    (connected : Bool) : Outcome :=
  .ofVerdicts <|
    rules.checks.map fun check => (check.aim, check.passes placements connected)

end CompiledRules

namespace Rules

/-- The outcome of rules whose groups deeper than the limit fail closed. -/
def evaluate (limit : Nat) (rules : Rules) (placements : List Placement)
    (connected : Bool) : Outcome :=
  (CompiledRules.ofRules limit rules).evaluate placements connected

/-- The outcome of rules, or the report if they nest groups beyond the limit. -/
def evaluateValidated (limit : Nat) (rules : Rules) (placements : List Placement)
    (connected : Bool) : Except Report Outcome :=
  let report := Check.validate limit rules.checks
  if report.isOk then .ok (rules.evaluate limit placements connected)
  else .error report

end Rules

/-- The check's condition holds, whether or not it is connected. -/
def Check.resolve (check : Check) (placements : List Placement) : Bool :=
  (Condition.ofCheck defaultMaxDepth check).holds placements

end PlacementRules
