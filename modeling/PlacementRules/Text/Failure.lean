/-!
# Failures of reading rule text

A failure splits the text at the place where reading stopped and lists what was
expected there, from the inside out.  It is shown with a caret under that place.
-/

namespace PlacementRules

inductive Expectation where
  | name
  | atSign
  | closeParen
  | expression
deriving DecidableEq, Repr, Inhabited

def Expectation.text : Expectation → String
  | name => "name"
  | atSign => "`@`"
  | closeParen => "`)`"
  | expression => "expression"

/-- Why a text is no rule: where reading stopped, and what was expected there. -/
structure ParseError where
  /-- The text before the place where reading stopped. -/
  before : List Char
  /-- The text from that place on. -/
  rest : List Char
  expected : List Expectation
deriving DecidableEq, Repr, Inhabited

namespace ParseError

def byteCount (chars : List Char) : Nat :=
  chars.foldr (fun c count => c.utf8Size + count) 0

/-- The place where reading stopped, in bytes from the start of the text. -/
def offset (error : ParseError) : Nat :=
  byteCount error.before

def source (error : ParseError) : List Char :=
  error.before ++ error.rest

def lastLine (chars : List Char) : List Char :=
  (chars.reverse.takeWhile (· != '\n')).reverse

/--
The text before the character the caret is for.  At the end of the text that is
its last character.
-/
def beforeCaret (error : ParseError) : List Char :=
  if error.rest.isEmpty then error.before.dropLast else error.before

/-- The number of line feeds before the caret. -/
def line (error : ParseError) : Nat :=
  error.beforeCaret.count '\n'

/--
How far the caret stands to the right: the characters before it on its line, or
their bytes if it points at a character of several bytes.
-/
def column (error : ParseError) : Nat :=
  let shown := lastLine error.beforeCaret
  match error.before, error.rest with
  | [], [] => 0
  | _ :: _, [] => shown.length + 1
  | _, c :: _ => if c.utf8Size = 1 then shown.length else byteCount shown

def caretLine (error : ParseError) : List Char :=
  lastLine error.beforeCaret ++
    (error.source.drop error.beforeCaret.length).takeWhile (· != '\n')

def spaces (count : Nat) : String :=
  String.ofList (List.replicate count ' ')

def expectedText (error : ParseError) : String :=
  match error.expected with
  | [] => ""
  | first :: more =>
      "expected " ++ ", ".intercalate ((first :: more).map Expectation.text)

/--
The failure as shown to the user.  A text of one line is shown whole; otherwise
the line at fault is shown under a headline with its number.
-/
def detail (error : ParseError) : String :=
  if error.source.contains '\n' then
    let number := toString (error.line + 1)
    let gutter := spaces number.length
    "parse error at line " ++ number ++ ", column " ++ toString (error.column + 1) ++
      "\n" ++ gutter ++ " |\n" ++
      number ++ " | " ++ String.ofList error.caretLine ++ "\n" ++
      gutter ++ " | " ++ spaces error.column ++ "^\n" ++ error.expectedText
  else
    String.ofList error.source ++ "\n" ++
      spaces error.offset ++ "^\n" ++ error.expectedText

def message (error : ParseError) : String :=
  "invalid rule expression: " ++ error.detail

end ParseError

end PlacementRules
