import PlacementRules.Check
import PlacementRules.Document.LoadError
import PlacementRules.Json.Value

/-!
# Rules in documents

Rules are written as JSON objects and read back.  Reading is strict about the
rules section itself and permissive inside it: whatever a check holds, it is read
as some check.
-/

namespace PlacementRules

def Operator.ofJson? (value : Json) : Option Operator :=
  (value.getString? "operator").map Operator.ofName

def Operator.toJson (operator : Operator) : Json :=
  .string operator.name

namespace Clause

/-- The clause of an object; an id that is no string is missing. -/
def ofJson (value : Json) : Clause where
  device := value.getText "deviceId"
  anchor := value.getText "anchorId"

def members (clause : Clause) : List (String × Json) :=
  [("deviceId", .string clause.device), ("anchorId", .string clause.anchor)]

def toJson (clause : Clause) : Json :=
  .object clause.members

end Clause

namespace LegacyStep

def ofJson (value : Json) : LegacyStep where
  operator := Operator.ofJson? value
  clause := Clause.ofJson value

/-- A step as a JSON value, without the operator if it has none. -/
def toJson (step : LegacyStep) : Json :=
  match step.operator with
  | none => step.clause.toJson
  | some operator => .object (("operator", operator.toJson) :: step.clause.members)

end LegacyStep

namespace Node

def presentChildren (value : Json) : List Json :=
  (value.getItems "children").filter fun child => !child.isNull

theorem sizeOf_lt_of_mem_presentChildren {value child : Json}
    (hchild : child ∈ presentChildren value) : sizeOf child < sizeOf value :=
  Json.sizeOf_lt_of_mem_getItems (List.mem_filter.mp hchild).1

/--
The tree that a JSON value holds.  A value that is neither a clause nor a group
is kept as unknown.
-/
def ofJson (value : Json) : Node :=
  match value.getString? "type" with
  | some "clause" => .clause (Clause.ofJson value)
  | some "group" =>
      .group ((Operator.ofJson? value).getD .and)
        ((presentChildren value).attach.map fun child => ofJson child.val)
  | _ => .unknown
termination_by sizeOf value
decreasing_by
  exact sizeOf_lt_of_mem_presentChildren child.property

theorem ofJson_eq (value : Json) :
    ofJson value =
      match value.getString? "type" with
      | some "clause" => .clause (Clause.ofJson value)
      | some "group" =>
          .group ((Operator.ofJson? value).getD .and)
            ((presentChildren value).map ofJson)
      | _ => .unknown := by
  rw [ofJson]
  split <;> simp

mutual

def toJson : Node → Json
  | .clause leaf => .object (("type", .string "clause") :: leaf.members)
  | .group operator members =>
      .object
        [("type", .string "group"), ("operator", operator.toJson),
          ("children", .array (toJsonList members))]
  | .unknown => .object [("type", .string "unknown")]

def toJsonList : List Node → List Json
  | [] => []
  | node :: more => node.toJson :: toJsonList more

end

theorem toJsonList_eq_map (nodes : List Node) :
    toJsonList nodes = nodes.map toJson := by
  induction nodes with
  | nil => rfl
  | cons node more ih => simp [toJsonList, ih]

end Node

namespace Expression

/--
The expression that a JSON value holds.  An array is a clause sequence, without
its `null` entries; if it has only those, it is the group that always holds.  An
empty array and a value of any other kind hold no expression.
-/
def ofJson? : Json → Option Expression
  | .array [] => none
  | .array (first :: more) =>
      match (first :: more).filter fun item => !item.isNull with
      | [] => some (.tree .empty)
      | items => some (.legacy (items.map LegacyStep.ofJson))
  | .object members => some (.tree (Node.ofJson (.object members)))
  | _ => none

def toJson : Expression → Json
  | .legacy steps => .array (steps.map LegacyStep.toJson)
  | .tree root => root.toJson

end Expression

namespace Check

/-- The check that a JSON value holds; one that is no object demands nothing. -/
def ofJson (value : Json) : Check where
  aim := value.getText "aimId"
  connectedRequired := value.getFlag "connectedRequired"
  expression := (value.get? "expression").bind Expression.ofJson?
  requiredPlacements := (value.getItems "requiredPlacements").map Clause.ofJson

def toJson (check : Check) : Json :=
  .object <|
    [("aimId", .string check.aim), ("connectedRequired", .bool check.connectedRequired)] ++
      (match check.expression with
        | none => []
        | some expression => [("expression", expression.toJson)]) ++
      match check.requiredPlacements with
      | [] => []
      | clauses => [("requiredPlacements", .array (clauses.map Clause.toJson))]

end Check

namespace Rules

def ofJson (value : Json) : Except LoadError Rules :=
  if value.isObject then
    match value.get? "checks" with
    | none | some .null =>
        .ok { requireConnectButton := value.getFlag "requireConnectButton" }
    | some (.array items) =>
        .ok
          { requireConnectButton := value.getFlag "requireConnectButton"
            checks := items.map Check.ofJson }
    | some _ => .error (.wrongType "rules.checks" .array)
  else .error (.wrongType "rules" .object)

def toJson (rules : Rules) : Json :=
  .object
    [("requireConnectButton", .bool rules.requireConnectButton),
      ("checks", .array (rules.checks.map Check.toJson))]

/-- The checks of a rules section are those of its entries, each in its place. -/
theorem exists_ofJson_of_items {value : Json} {items : List Json}
    (hitems : value.get? "checks" = some (.array items)) :
    ∃ rules, Rules.ofJson value = .ok rules ∧ rules.checks = items.map Check.ofJson := by
  have hobject : value.isObject = true := by
    cases value with
    | object members => rfl
    | null | bool _ | number _ | string _ | array _ => cases hitems
  refine ⟨⟨value.getFlag "requireConnectButton", items.map Check.ofJson⟩, ?_, rfl⟩
  rw [ofJson, if_pos hobject, hitems]

end Rules

end PlacementRules
