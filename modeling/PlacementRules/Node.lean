import PlacementRules.Operator
import PlacementRules.Clause

/-!
# Rule trees

A rule tree has clauses at its leaves and groups inside.  A leaf whose shape was
not recognised is `unknown`; it stands in the tree so that its siblings keep
their positions.
-/

namespace PlacementRules

inductive Node where
  | clause (clause : Clause)
  | group (operator : Operator) (children : List Node)
  | unknown
deriving Repr, Inhabited

namespace Node

mutual

def decEq : (left right : Node) → Decidable (left = right)
  | .clause left, .clause right =>
      decidable_of_iff (left = right) (by simp)
  | .group leftOperator leftChildren, .group rightOperator rightChildren =>
      match decEqList leftChildren rightChildren with
      | isTrue hchildren =>
          decidable_of_iff (leftOperator = rightOperator) (by simp [hchildren])
      | isFalse hchildren => isFalse (by simp [hchildren])
  | .unknown, .unknown => isTrue rfl
  | .clause _, .group _ _ | .clause _, .unknown | .group _ _, .clause _
  | .group _ _, .unknown | .unknown, .clause _ | .unknown, .group _ _ =>
      isFalse (by simp)

def decEqList : (left right : List Node) → Decidable (left = right)
  | [], [] => isTrue rfl
  | left :: lefts, right :: rights =>
      match decEq left right with
      | isTrue hhead =>
          match decEqList lefts rights with
          | isTrue htail => isTrue (by simp [hhead, htail])
          | isFalse htail => isFalse (by simp [htail])
      | isFalse hhead => isFalse (by simp [hhead])
  | [], _ :: _ | _ :: _, [] => isFalse (by simp)

end

instance : DecidableEq Node := decEq

/-- A group with no members at all, the tree that every placement satisfies. -/
def empty : Node :=
  .group .and []

def isGroup : Node → Bool
  | .group _ _ => true
  | _ => false

def children : Node → List Node
  | .group _ members => members
  | _ => []

/--
Join operands by one operator.  A single operand stands for itself, so no group
with one member arises.
-/
def join (operator : Operator) (first : Node) : List Node → Node
  | [] => first
  | second :: more => .group operator (first :: second :: more)

/--
Add an operand on the right.  It becomes a further member of a group with the
same operator, and otherwise the second member of a new group.
-/
def append (operator : Operator) (node next : Node) : Node :=
  match node with
  | .group inner members =>
      if inner = operator then .group operator (members ++ [next])
      else .group operator [.group inner members, next]
  | other => .group operator [other, next]

/-- The node reached from the root by a path of child indices. -/
def descend? : Node → List Nat → Option Node
  | node, [] => some node
  | node, index :: path =>
      match node.children[index]? with
      | some child => child.descend? path
      | none => none

@[simp] theorem descend?_nil (node : Node) : node.descend? [] = some node := by
  cases node <;> rfl

theorem descend?_cons (node : Node) (index : Nat) (path : List Nat) :
    node.descend? (index :: path) =
      node.children[index]?.bind fun child => child.descend? path := by
  rw [descend?]
  split <;> simp [*]

theorem descend?_append (node : Node) (first second : List Nat) :
    node.descend? (first ++ second) =
      (node.descend? first).bind fun child => child.descend? second := by
  induction first generalizing node with
  | nil => simp
  | cons index path ih =>
      rw [List.cons_append, descend?_cons, descend?_cons]
      cases node.children[index]? with
      | none => rfl
      | some child => simp [ih]

mutual

/--
The tree without redundant groups: a group with one member becomes that member,
and an empty group becomes the empty `and` group.
-/
def collapse : Node → Node
  | .clause leaf => .clause leaf
  | .group operator members =>
      match collapseList members with
      | [] => empty
      | first :: more => join operator first more
  | .unknown => .unknown

def collapseList : List Node → List Node
  | [] => []
  | node :: more => node.collapse :: collapseList more

end

theorem collapseList_eq_map (nodes : List Node) :
    collapseList nodes = nodes.map collapse := by
  induction nodes with
  | nil => rfl
  | cons node more ih => simp [collapseList, ih]

mutual

def isKnown : Node → Bool
  | .clause _ => true
  | .group _ members => allKnown members
  | .unknown => false

def allKnown : List Node → Bool
  | [] => true
  | node :: more => node.isKnown && allKnown more

end

theorem allKnown_eq_all (nodes : List Node) :
    allKnown nodes = nodes.all isKnown := by
  induction nodes with
  | nil => rfl
  | cons node more ih => simp [allKnown, ih]

mutual

def leaves : Node → List Clause
  | .clause leaf => [leaf]
  | .group _ members => leavesOf members
  | .unknown => []

def leavesOf : List Node → List Clause
  | [] => []
  | node :: more => node.leaves ++ leavesOf more

end

theorem leavesOf_append (nodes more : List Node) :
    leavesOf (nodes ++ more) = leavesOf nodes ++ leavesOf more := by
  induction nodes with
  | nil => rfl
  | cons node nodes ih => simp [leavesOf, ih]

end Node

end PlacementRules
