import PlacementRules.Check

/-!
# The meaning of a check

What a check says about placements, read directly off its storage format.
-/

namespace PlacementRules

mutual

/--
The verdict of a tree whose root has `depth` groups above it.  A group with more
than `limit` groups above it fails; an empty group within the limit holds.
-/
def Node.holds (limit : Nat) (placements : List Placement) (depth : Nat) :
    Node → Bool
  | .clause leaf => leaf.holds placements
  | .group .and members =>
      decide (depth ≤ limit) && Node.allHold limit placements (depth + 1) members
  | .group .or members =>
      decide (depth ≤ limit) &&
        (members.isEmpty || Node.anyHolds limit placements (depth + 1) members)
  | .unknown => false

def Node.allHold (limit : Nat) (placements : List Placement) (depth : Nat) :
    List Node → Bool
  | [] => true
  | node :: more =>
      node.holds limit placements depth && Node.allHold limit placements depth more

def Node.anyHolds (limit : Nat) (placements : List Placement) (depth : Nat) :
    List Node → Bool
  | [] => false
  | node :: more =>
      node.holds limit placements depth || Node.anyHolds limit placements depth more

end

theorem Node.allHold_eq_all (limit : Nat) (placements : List Placement)
    (depth : Nat) (nodes : List Node) :
    Node.allHold limit placements depth nodes =
      nodes.all (Node.holds limit placements depth) := by
  induction nodes with
  | nil => rfl
  | cons node more ih => simp [Node.allHold, ih]

theorem Node.anyHolds_eq_any (limit : Nat) (placements : List Placement)
    (depth : Nat) (nodes : List Node) :
    Node.anyHolds limit placements depth nodes =
      nodes.any (Node.holds limit placements depth) := by
  induction nodes with
  | nil => rfl
  | cons node more ih => simp [Node.anyHolds, ih]

/--
The condition on the devices that the check states, leaving its connection
requirement aside.
-/
def Check.holds (limit : Nat) (placements : List Placement) (check : Check) : Bool :=
  match check.expression with
  | some (.tree root) => root.holds limit placements 0
  | some (.legacy (first :: more)) => Legacy.holds placements (first :: more)
  | some (.legacy []) | none =>
      check.requiredPlacements.all fun clause => clause.holds placements

/-- The verdict of a check: its condition holds, and it is connected if it must be. -/
def Check.passes (limit : Nat) (placements : List Placement) (connected : Bool)
    (check : Check) : Bool :=
  check.holds limit placements && (!check.connectedRequired || connected)

end PlacementRules
