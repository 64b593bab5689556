import PlacementRules.Legacy

/-!
# Checks

A check is the rule of one aim.  Its condition on the devices is stored in one
of three formats: a tree, a clause sequence, or a plain list of clauses that
must all be placed.
-/

namespace PlacementRules

/-- The expression of a check, in the format it was stored in. -/
inductive Expression where
  | legacy (steps : Legacy)
  | tree (root : Node)
deriving DecidableEq, Repr, Inhabited

/--
The rule of one aim.  An expression takes precedence over the required
placements, which are the oldest format.
-/
structure Check where
  aim : String := ""
  connectedRequired : Bool := false
  expression : Option Expression := none
  requiredPlacements : List Clause := []
deriving DecidableEq, Repr, Inhabited

structure Rules where
  requireConnectButton : Bool := false
  checks : List Check := []
deriving DecidableEq, Repr, Inhabited

namespace Check

def ofAim (aim : String) : Check :=
  { aim := aim }

def withTree (check : Check) (root : Node) : Check :=
  { check with expression := some (.tree root) }

def withLegacy (check : Check) (steps : Legacy) : Check :=
  { check with expression := some (.legacy steps) }

def root? (check : Check) : Option Node :=
  match check.expression with
  | some (.tree root) => some root
  | _ => none

/--
Where the condition of a check comes from, in the order of precedence.  An empty
sequence counts as no expression.
-/
inductive Source where
  | legacy (first : LegacyStep) (more : Legacy)
  | tree (root : Node)
  | required (clauses : List Clause)
deriving DecidableEq, Repr

def source (check : Check) : Source :=
  match check.expression with
  | some (.legacy (first :: more)) => .legacy first more
  | some (.tree root) => .tree root
  | _ => .required check.requiredPlacements

end Check

end PlacementRules
