import PlacementRules.Node

/-!
# Group depth

Rules can be edited only down to a limited depth of groups within groups.  The
overflow of a tree is the list of groups that are the first on their branch to
lie deeper than the limit, in the order of the tree.
-/

namespace PlacementRules

structure Violation where
  /-- Indices of the children that lead from the root to the group, joined by dots. -/
  path : String
  /-- Number of groups above the group. -/
  depth : Nat
deriving DecidableEq, Repr, Inhabited

def Violation.pathsText (violations : List Violation) : String :=
  ", ".intercalate (violations.map Violation.path)

namespace Node

/-- What stands for the path of the root, to which no indices lead. -/
def rootPath : String := "root"

def childPath (path : String) (index : Nat) : String :=
  if path = rootPath then toString index else path ++ "." ++ toString index

mutual

/--
The groups at or below this node that are the first on their branch to lie
deeper than `limit`.  The node itself is reached by `path` and lies at `depth`.
-/
def overflowFrom (limit : Nat) (path : String) (depth : Nat) :
    Node → List Violation
  | .group _ members =>
      if limit < depth then [⟨path, depth⟩]
      else overflowMembers limit path depth 0 members
  | .clause _ | .unknown => []

/-- The overflow of the members of a group, counted from `index` on. -/
def overflowMembers (limit : Nat) (path : String) (depth index : Nat) :
    List Node → List Violation
  | [] => []
  | node :: more =>
      overflowFrom limit (childPath path index) (depth + 1) node ++
        overflowMembers limit path depth (index + 1) more

end

def overflow (limit : Nat) (root : Node) : List Violation :=
  root.overflowFrom limit rootPath 0

end Node

end PlacementRules
