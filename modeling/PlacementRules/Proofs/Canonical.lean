import PlacementRules.Node

/-!
# Canonical trees

The trees that leave nothing out of their text: no part is unknown, and every group
either has two members or more or is the empty `and` group.  Collapsing a known tree
makes it canonical and leaves canonical trees alone.
-/

namespace PlacementRules

namespace Node

mutual

/--
No part of the tree is unknown, and each of its groups has at least two members or
is the empty `and` group.
-/
def isCanonical : Node → Bool
  | .clause _ => true
  | .group operator members =>
      (decide (2 ≤ members.length) || (members.isEmpty && operator == .and)) &&
        allCanonical members
  | .unknown => false

def allCanonical : List Node → Bool
  | [] => true
  | node :: more => node.isCanonical && allCanonical more

end

theorem allCanonical_eq_all (nodes : List Node) :
    allCanonical nodes = nodes.all isCanonical := by
  induction nodes with
  | nil => rfl
  | cons node more ih => simp [allCanonical, ih]

theorem isCanonical_empty : empty.isCanonical = true := by
  decide

theorem isCanonical_join (operator : Operator) {first : Node} {more : List Node}
    (hfirst : first.isCanonical = true) (hmore : allCanonical more = true) :
    (join operator first more).isCanonical = true := by
  cases more with
  | nil => exact hfirst
  | cons second more => simp [join, isCanonical, allCanonical, hfirst, ← hmore]

mutual

theorem isCanonical_collapse {node : Node} (hknown : node.isKnown = true) :
    node.collapse.isCanonical = true := by
  match node with
  | .clause _ => simp [collapse, isCanonical]
  | .unknown => simp [isKnown] at hknown
  | .group operator members =>
      rw [isKnown] at hknown
      have hall := allCanonical_collapseList hknown
      rw [collapse]
      cases hmembers : collapseList members with
      | nil => exact isCanonical_empty
      | cons first more =>
          rw [hmembers, allCanonical, Bool.and_eq_true] at hall
          exact isCanonical_join operator hall.1 hall.2

theorem allCanonical_collapseList {nodes : List Node} (hknown : allKnown nodes = true) :
    allCanonical (collapseList nodes) = true := by
  match nodes with
  | [] => simp [collapseList, allCanonical]
  | node :: more =>
      rw [allKnown, Bool.and_eq_true] at hknown
      rw [collapseList, allCanonical, isCanonical_collapse hknown.1,
        allCanonical_collapseList hknown.2]
      rfl

end

mutual

theorem collapse_eq_self {node : Node} (hcanonical : node.isCanonical = true) :
    node.collapse = node := by
  match node with
  | .clause _ => simp [collapse]
  | .unknown => simp [isCanonical] at hcanonical
  | .group operator members =>
      rw [isCanonical, Bool.and_eq_true] at hcanonical
      obtain ⟨hshape, hall⟩ := hcanonical
      have hmembers := collapseList_eq_self hall
      rw [collapse, hmembers]
      match members with
      | [] =>
          have hand : operator = .and := by simpa using hshape
          rw [hand]
          rfl
      | [_] => simp at hshape
      | first :: second :: more => rfl

theorem collapseList_eq_self {nodes : List Node} (hcanonical : allCanonical nodes = true) :
    collapseList nodes = nodes := by
  match nodes with
  | [] => simp [collapseList]
  | node :: more =>
      rw [allCanonical, Bool.and_eq_true] at hcanonical
      rw [collapseList, collapse_eq_self hcanonical.1,
        collapseList_eq_self hcanonical.2]

end

mutual

theorem isKnown_of_isCanonical {node : Node} (hcanonical : node.isCanonical = true) :
    node.isKnown = true := by
  match node with
  | .clause _ => simp [isKnown]
  | .unknown => simp [isCanonical] at hcanonical
  | .group operator members =>
      rw [isCanonical, Bool.and_eq_true] at hcanonical
      rw [isKnown]
      exact allKnown_of_allCanonical hcanonical.2

theorem allKnown_of_allCanonical {nodes : List Node}
    (hcanonical : allCanonical nodes = true) : allKnown nodes = true := by
  match nodes with
  | [] => simp [allKnown]
  | node :: more =>
      rw [allCanonical, Bool.and_eq_true] at hcanonical
      rw [allKnown, isKnown_of_isCanonical hcanonical.1,
        allKnown_of_allCanonical hcanonical.2]
      rfl

end

/-- The canonical trees are the known trees that collapsing leaves alone. -/
theorem isCanonical_iff (node : Node) :
    node.isCanonical = true ↔ node.isKnown = true ∧ node.collapse = node := by
  constructor
  · intro hcanonical
    exact ⟨isKnown_of_isCanonical hcanonical, collapse_eq_self hcanonical⟩
  · intro hboth
    rw [← hboth.2]
    exact isCanonical_collapse hboth.1

end Node

end PlacementRules
