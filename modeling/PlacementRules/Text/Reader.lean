import PlacementRules.Node
import PlacementRules.Text.Blank
import PlacementRules.Text.Failure
import PlacementRules.Text.Name

/-!
# Reading rules from text

A rule is a chain of conjunctions joined by `or`, a conjunction a chain of
operands joined by `and`, and an operand a clause or a rule in parentheses.
Once a keyword or an opening parenthesis has been read, what it calls for is
required.
-/

namespace PlacementRules

namespace Reading

structure Failure where
  rest : List Char
  expected : List Expectation
deriving DecidableEq, Repr, Inhabited

/-- A reader takes a value off the front of a text and leaves the rest. -/
abbrev Reader (α : Type) := List Char → Except Failure (α × List Char)

def Failure.within (expectation : Expectation) (failure : Failure) : Failure :=
  { failure with expected := failure.expected ++ [expectation] }

def readName : Reader String := fun text =>
  match Name.read? text with
  | some (name, rest) => .ok (String.ofList name, rest)
  | none => .error ⟨text, [.name]⟩

/-- Read a clause: two names with an `@` directly between them. -/
def readClause : Reader Node := fun text =>
  match readName text with
  | .error failure => .error failure
  | .ok (device, '@' :: rest) =>
      match readName rest with
      | .error failure => .error failure
      | .ok (anchor, rest) => .ok (.clause ⟨device, anchor⟩, rest)
  | .ok (_, rest) => .error ⟨rest, [.atSign]⟩

/--
Read what follows an opening parenthesis: a rule and the closing parenthesis, or
the closing parenthesis alone, which makes an empty group.
-/
def readParenthesized (rule : Reader Node) : Reader Node := fun text =>
  match Blank.skip text with
  | ')' :: rest => .ok (.empty, rest)
  | inner =>
      match rule inner with
      | .error failure => .error failure
      | .ok (node, rest) =>
          match Blank.skip rest with
          | ')' :: rest => .ok (node, rest)
          | rest => .error ⟨rest, [.closeParen]⟩

def readOperand (rule : Reader Node) : Reader Node := fun text =>
  let result :=
    match Blank.skip text with
    | '(' :: inner => readParenthesized rule inner
    | inner => readClause inner
  result.mapError (Failure.within .expression)

def readJoiner? (operator : Operator) (text : List Char) : Option (List Char) :=
  Name.readKeyword? operator (Blank.skip text)

/--
Read further operands, each behind a keyword of the operator.  At most `fuel` of
them are read.
-/
def readMore (operator : Operator) (operand : Reader Node) :
    (fuel : Nat) → Reader (List Node)
  | 0, text => .ok ([], text)
  | fuel + 1, text =>
      match readJoiner? operator text with
      | none => .ok ([], text)
      | some rest =>
          match operand rest with
          | .error failure => .error failure
          | .ok (node, rest) =>
              match readMore operator operand fuel rest with
              | .error failure => .error failure
              | .ok (nodes, rest) => .ok (node :: nodes, rest)

/--
Read a chain of operands joined by one operator.  Each further operand takes a
keyword, so there are no more of them than characters.
-/
def readChain (operator : Operator) (operand : Reader Node) : Reader Node := fun text =>
  match operand text with
  | .error failure => .error failure
  | .ok (first, rest) =>
      match readMore operator operand rest.length rest with
      | .error failure => .error failure
      | .ok (more, rest) => .ok (Node.join operator first more, rest)

/-- Read a rule with fewer than `fuel` parentheses inside one another. -/
def readRule : (fuel : Nat) → Reader Node
  | 0 => fun text => .error ⟨text, []⟩
  | fuel + 1 => readChain .or (readChain .and (readOperand (readRule fuel)))

def readWhole (text : List Char) : Except Failure Node :=
  match readRule (text.length + 1) text with
  | .error failure => .error failure
  | .ok (node, rest) =>
      match Blank.skip rest with
      | [] => .ok node
      | rest => .error ⟨rest, []⟩

def Failure.inText (text : List Char) (failure : Failure) : ParseError where
  before := text.take (text.length - failure.rest.length)
  rest := failure.rest
  expected := failure.expected

end Reading

def Node.parse (text : String) : Except ParseError Node :=
  (Reading.readWhole text.toList).mapError (Reading.Failure.inText text.toList)

end PlacementRules
