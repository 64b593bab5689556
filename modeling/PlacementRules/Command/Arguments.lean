import PlacementRules.Command.Response

/-!
# Command-line arguments

A command line is a word for the command, its operands, and options anywhere
between them.  An option with a value takes the next argument, or what follows
an equals sign.  After `--` there are only operands.
-/

namespace PlacementRules

structure Invocation where
  format : OutputFormat := .text
  command : Command
deriving DecidableEq, Repr, Inhabited

inductive Argument where
  | operand (text : String)
  | option (name : String) (value : Option String)
  | endOfOptions
deriving DecidableEq, Repr, Inhabited

/--
The kind of an argument.  An option starts with a hyphen and may carry a value
after an equals sign; a hyphen alone is an operand.
-/
def Argument.ofText (text : String) : Argument :=
  match text.toList with
  | ['-', '-'] => .endOfOptions
  | ['-'] => .operand text
  | '-' :: name =>
      match name.dropWhile (· != '=') with
      | _ :: value =>
          .option (String.ofList ('-' :: name.takeWhile (· != '=')))
            (some (String.ofList value))
      | [] => .option text none
  | _ => .operand text

structure Arguments where
  operands : List String := []
  format : OutputFormat := .text
  placements : Option String := none
  maxDepth : Option Nat := none
  connected : Bool := false
  skipValidation : Bool := false
deriving DecidableEq, Repr, Inhabited

namespace Arguments

def format? : String → Option OutputFormat
  | "text" => some .text
  | "json" => some .json
  | _ => none

def depthBound : Nat := UInt64.size

def depthOfDigits? (digits : List Char) : Option Nat :=
  if digits.isEmpty || !digits.all Char.isDigit then none
  else
    let depth := digits.foldl (fun value c => 10 * value + (c.toNat - '0'.toNat)) 0
    if depth < depthBound then some depth else none

/-- The depth limit of a text: digits, with a plus sign in front or not. -/
def depth? (text : String) : Option Nat :=
  match text.toList with
  | '+' :: digits => depthOfDigits? digits
  | digits => depthOfDigits? digits

def withOperands (arguments : Arguments) (texts : List String) : Arguments :=
  { arguments with operands := arguments.operands ++ texts }

def withValue? (arguments : Arguments) (option value : String) : Option Arguments :=
  match option with
  | "--output" => (format? value).map fun format => { arguments with format := format }
  | "--placements" => some { arguments with placements := some value }
  | "--max-depth" =>
      (depth? value).map fun depth => { arguments with maxDepth := some depth }
  | _ => none

/-- The option asks for more log output: `-v`, `-vv` and so on. -/
def isVerbosity (option : String) : Bool :=
  match option.toList with
  | '-' :: 'v' :: more => more.all (· == 'v')
  | _ => option == "--verbose"

def withFlag? (arguments : Arguments) (option : String) : Option Arguments :=
  match option with
  | "--connected" => some { arguments with connected := true }
  | "--skip-validation" => some { arguments with skipValidation := true }
  | _ => if isVerbosity option then some arguments else none

def takesValue (option : String) : Bool :=
  option == "--output" || option == "--placements" || option == "--max-depth"

def read? (arguments : Arguments) : List String → Option Arguments
  | [] => some arguments
  | text :: more =>
      match Argument.ofText text with
      | .operand operand => (arguments.withOperands [operand]).read? more
      | .endOfOptions => some (arguments.withOperands more)
      | .option option (some value) =>
          match arguments.withValue? option value with
          | some arguments => arguments.read? more
          | none => none
      | .option option none =>
          if takesValue option then
            match more with
            | [] => none
            | value :: more =>
                match arguments.withValue? option value with
                | some arguments => arguments.read? more
                | none => none
          else
            match arguments.withFlag? option with
            | some arguments => arguments.read? more
            | none => none

def command? (arguments : Arguments) : Option Command :=
  match arguments.operands with
  | ["evaluate", file] =>
      some <| .evaluate file arguments.placements arguments.connected
        arguments.skipValidation (arguments.maxDepth.getD defaultMaxDepth)
  | ["validate", file] =>
      some <| .validate file (arguments.maxDepth.getD defaultMaxDepth)
  | ["explain", file] => some <| .explain file
  | ["expr", rule] => some <| .expression rule arguments.placements
  | _ => none

end Arguments

def Invocation.ofArguments? (arguments : List String) : Option Invocation := do
  let read ← Arguments.read? {} arguments
  let command ← read.command?
  return { format := read.format, command := command }

end PlacementRules
