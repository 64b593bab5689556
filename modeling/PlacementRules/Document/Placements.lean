import PlacementRules.Clause
import PlacementRules.Json.Written

/-!
# Placements in documents

A placement is written as an object with two ids or as an array of at most two;
an id that is left out is empty.  A text may name each id only once, and what
else it holds is not looked into.
-/

namespace PlacementRules

namespace Placement

/-- The placement of a list of ids, if there are no more than two. -/
def ofIds? : List String → Option Placement
  | [] => some {}
  | [device] => some { device := device }
  | [device, anchor] => some ⟨device, anchor⟩
  | _ => none

/-- The id member of a name: empty if it is missing, and refused if it is no string. -/
def idOfJson? (name : String) (value : Json) : Option String :=
  match value.get? name with
  | none => some ""
  | some member => member.string?

def ofJson? (value : Json) : Option Placement :=
  match value with
  | .object _ => do
      let device ← idOfJson? "deviceId" value
      let anchor ← idOfJson? "anchorId" value
      return ⟨device, anchor⟩
  | .array items => (items.mapM Json.string?).bind ofIds?
  | _ => none

def listOfJson? (value : Json) : Option (List Placement) :=
  value.array?.bind fun items => items.mapM ofJson?

def toJson (placement : Placement) : Json :=
  .object
    [("deviceId", .string placement.device), ("anchorId", .string placement.anchor)]

end Placement

namespace Written

def string? : Written → Option String
  | .string parts => text? parts
  | _ => none

def membersOf (name : String) (members : List (String × Written)) : List Written :=
  (members.filter fun member => member.1 == name).map Prod.snd

/-- The id member of a name, which may be there once at most. -/
def id? (name : String) (members : List (String × Written)) : Option String :=
  match membersOf name members with
  | [] => some ""
  | [member] => member.string?
  | _ => none

def namedMembers? (members : List (List StringPart × Written)) :
    Option (List (String × Written)) :=
  members.mapM fun (name, member) => (text? name).map fun name => (name, member)

def placement? : Written → Option Placement
  | .object members => do
      let members ← namedMembers? members
      let device ← id? "deviceId" members
      let anchor ← id? "anchorId" members
      return ⟨device, anchor⟩
  | .array items => (items.mapM string?).bind Placement.ofIds?
  | _ => none

def placements? : Written → Option (List Placement)
  | .array items => items.mapM placement?
  | _ => none

end Written

def Placement.listOfText? (text : String) : Option (List Placement) :=
  (Written.ofText? text).bind Written.placements?

end PlacementRules
