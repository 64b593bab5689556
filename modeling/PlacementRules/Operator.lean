/-!
# Operators

The two ways in which the members of a rule combine, with the spelling each one
has in documents, in rule text, and as a Boolean operation.
-/

namespace PlacementRules

/-- How the members of a group, or two neighbours of a clause sequence, combine. -/
inductive Operator where
  | and
  | or
deriving DecidableEq, Repr, Inhabited

namespace Operator

/-- The operator a document names.  Only the exact name `or` means `or`. -/
def ofName (name : String) : Operator :=
  if name = "or" then .or else .and

def name : Operator → String
  | and => "and"
  | or => "or"

def keyword : Operator → String
  | and => "AND"
  | or => "OR"

/-- The operator a word of rule text stands for, whatever its letter case. -/
def ofWord? (word : List Char) : Option Operator :=
  if word.map Char.toLower = ['a', 'n', 'd'] then some .and
  else if word.map Char.toLower = ['o', 'r'] then some .or
  else none

def combine : Operator → Bool → Bool → Bool
  | and, left, right => left && right
  | or, left, right => left || right

@[simp] theorem ofName_name (operator : Operator) :
    ofName operator.name = operator := by
  cases operator <;> simp [ofName, name]

theorem combine_mono {operator : Operator} {left right left' right' : Bool}
    (hleft : left = true → left' = true) (hright : right = true → right' = true)
    (hcombine : operator.combine left right = true) :
    operator.combine left' right' = true := by
  cases operator with
  | and =>
      rw [combine, Bool.and_eq_true] at hcombine ⊢
      exact hcombine.imp hleft hright
  | or =>
      rw [combine, Bool.or_eq_true] at hcombine ⊢
      exact hcombine.imp hleft hright

end Operator

end PlacementRules
