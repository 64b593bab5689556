import PlacementRules.Clause
import PlacementRules.Json.Value

/-!
# The meaning of a check in a document

What a JSON value says about placements when it stands as a check of a document, read
off the value itself.  Any value says something: a member that is missing or of
another kind than expected has a fallback of its own.
-/

namespace PlacementRules

namespace Json

/-- The value names two ids, neither of them empty, and some placement has exactly these. -/
def isPlacedPair (placements : List Placement) (value : Json) : Bool :=
  match value.get? "deviceId", value.get? "anchorId" with
  | some (.string device), some (.string anchor) =>
      device != "" && anchor != "" && placements.contains ⟨device, anchor⟩
  | _, _ => false

def namesOr (value : Json) : Bool :=
  match value.get? "operator" with
  | some (.string name) => name == "or"
  | _ => false

def presentItems (name : String) (value : Json) : List Json :=
  (value.getItems name).filter fun item => !item.isNull

theorem sizeOf_lt_of_mem_presentItems {name : String} {value item : Json}
    (hitem : item ∈ value.presentItems name) : sizeOf item < sizeOf value :=
  sizeOf_lt_of_mem_getItems (List.mem_filter.mp hitem).1

/--
The verdict of a value that stands in a tree with `depth` groups above it.  A group
that lies too deep fails, and one without children holds.
-/
def treeHolds (limit : Nat) (placements : List Placement) (depth : Nat)
    (value : Json) : Bool :=
  match value.get? "type" with
  | some (.string "clause") => value.isPlacedPair placements
  | some (.string "group") =>
      decide (depth ≤ limit) &&
        ((value.presentItems "children").isEmpty ||
          if value.namesOr then
            (value.presentItems "children").attach.any fun child =>
              treeHolds limit placements (depth + 1) child.val
          else
            (value.presentItems "children").attach.all fun child =>
              treeHolds limit placements (depth + 1) child.val)
  | _ => false
termination_by sizeOf value
decreasing_by
  all_goals exact sizeOf_lt_of_mem_presentItems child.property

theorem treeHolds_eq (limit : Nat) (placements : List Placement) (depth : Nat)
    (value : Json) :
    value.treeHolds limit placements depth =
      match value.get? "type" with
      | some (.string "clause") => value.isPlacedPair placements
      | some (.string "group") =>
          decide (depth ≤ limit) &&
            ((value.presentItems "children").isEmpty ||
              if value.namesOr then
                (value.presentItems "children").any
                  (treeHolds limit placements (depth + 1))
              else
                (value.presentItems "children").all
                  (treeHolds limit placements (depth + 1)))
      | _ => false := by
  rw [treeHolds]
  split
  · rfl
  · simp
  · rfl

/--
The verdict of entries that stand in a row: the first one starts it, and each later
one combines with it by its own operator.
-/
def sequenceHolds (placements : List Placement) : List Json → Bool
  | [] => true
  | first :: more =>
      more.foldl
        (fun verdict item =>
          if item.namesOr then verdict || item.isPlacedPair placements
          else verdict && item.isPlacedPair placements)
        (first.isPlacedPair placements)

/--
The verdict of a value that stands as a check.  An expression that is an object is a
tree, and one that is an array with entries is a sequence of those that are not
`null`; in place of any other, all required placements must hold.
-/
def checkHolds (limit : Nat) (placements : List Placement) : Json → Bool
  | .object members =>
      match (object members).get? "expression" with
      | some (.object tree) => (object tree).treeHolds limit placements 0
      | some (.array (first :: more)) =>
          sequenceHolds placements ((first :: more).filter fun item => !item.isNull)
      | _ =>
          match (object members).get? "requiredPlacements" with
          | some (.array entries) => entries.all (isPlacedPair placements)
          | _ => true
  | _ => true

end Json

end PlacementRules
