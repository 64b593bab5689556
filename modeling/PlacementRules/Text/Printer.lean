import PlacementRules.Check
import PlacementRules.Text.Name

/-!
# Printing rules as text

A clause is printed as `device@anchor`, and a group as its members in
parentheses with the keyword of its operator between them.
-/

namespace PlacementRules

def Clause.chars (clause : Clause) : List Char :=
  Name.write clause.device.toList ++ '@' :: Name.write clause.anchor.toList

def Clause.text (clause : Clause) : String :=
  String.ofList clause.chars

def Operator.separator (operator : Operator) : List Char :=
  ' ' :: (operator.keyword.toList ++ [' '])

namespace Node

mutual

def chars : Node → List Char
  | .clause leaf => leaf.chars
  | .group operator members => '(' :: (charsJoined operator members ++ [')'])
  | .unknown => "<unknown>".toList

def charsJoined (operator : Operator) : List Node → List Char
  | [] => []
  | [node] => node.chars
  | node :: second :: more =>
      node.chars ++ operator.separator ++ charsJoined operator (second :: more)

end

@[simp] theorem chars_clause (leaf : Clause) : (clause leaf).chars = leaf.chars := rfl

@[simp] theorem chars_unknown : unknown.chars = "<unknown>".toList := rfl

@[simp] theorem chars_group (operator : Operator) (members : List Node) :
    (group operator members).chars = '(' :: (charsJoined operator members ++ [')']) :=
  rfl

@[simp] theorem charsJoined_nil (operator : Operator) : charsJoined operator [] = [] := rfl

@[simp] theorem charsJoined_singleton (operator : Operator) (node : Node) :
    charsJoined operator [node] = node.chars := rfl

theorem charsJoined_cons_cons (operator : Operator) (node second : Node)
    (more : List Node) :
    charsJoined operator (node :: second :: more) =
      node.chars ++ operator.separator ++ charsJoined operator (second :: more) := rfl

def text (node : Node) : String :=
  String.ofList node.chars

end Node

namespace Legacy

/-- The steps after the first, each behind its operator. -/
def charsTail : Legacy → List Char
  | [] => []
  | step :: more => step.joiner.separator ++ step.clause.chars ++ charsTail more

/-- A clause sequence as text.  The operator of its first clause is left out. -/
def chars : Legacy → List Char
  | [] => ['[', ']']
  | first :: more => '[' :: (first.clause.chars ++ charsTail more ++ [']'])

def text (steps : Legacy) : String :=
  String.ofList steps.chars

end Legacy

def Expression.text : Expression → String
  | .legacy steps => steps.text
  | .tree root => root.text

namespace Check

/-- The rule of a check in words, with the format it comes from. -/
def ruleText (check : Check) : String :=
  match check.expression with
  | some (.tree root) => root.text
  | some (.legacy (first :: more)) => Legacy.text (first :: more) ++ " (legacy)"
  | some (.legacy []) | none =>
      match check.requiredPlacements with
      | [] => "always"
      | first :: more =>
          "(" ++ " AND ".intercalate ((first :: more).map Clause.text) ++
            ") (required placements)"

def explain (check : Check) : String :=
  check.aim ++ ": " ++ check.ruleText ++
    if check.connectedRequired then " [connect required]" else ""

def explainAll : List Check → String
  | [] => ""
  | check :: more => check.explain ++ "\n" ++ explainAll more

theorem explainAll_append (checks others : List Check) :
    explainAll (checks ++ others) = explainAll checks ++ explainAll others := by
  induction checks with
  | nil => simp [explainAll]
  | cons check more ih => simp [explainAll, ih, String.append_assoc]

end Check

end PlacementRules
