import PlacementRules.Json.Value

/-!
# Printing JSON

A value is printed on one line without spaces, or over several lines with an
indentation of two spaces.
-/

namespace PlacementRules

namespace Json

def hexChar (n : Nat) : Char :=
  Nat.digitChar (n % 16)

def escapeChar (c : Char) : List Char :=
  if c = '"' then ['\\', '"']
  else if c = '\\' then ['\\', '\\']
  else if c = '\x08' then ['\\', 'b']
  else if c = '\x0c' then ['\\', 'f']
  else if c = '\n' then ['\\', 'n']
  else if c = '\r' then ['\\', 'r']
  else if c = '\t' then ['\\', 't']
  else if c.toNat < 0x20 then
    ['\\', 'u', '0', '0', hexChar (c.toNat / 16), hexChar c.toNat]
  else [c]

def quote (text : String) : String :=
  String.ofList ('"' :: (text.toList.flatMap escapeChar ++ ['"']))

/-- The start of a line that is indented by so many steps. -/
def newLine (indent : Nat) : String :=
  String.ofList ('\n' :: List.replicate (2 * indent) ' ')

mutual

def compact : Json → String
  | .null => "null"
  | .bool true => "true"
  | .bool false => "false"
  | .number value => String.ofList value.chars
  | .string value => quote value
  | .array items => "[" ++ ",".intercalate (compactItems items) ++ "]"
  | .object members => "\x7b" ++ ",".intercalate (compactMembers members) ++ "\x7d"

def compactItems : List Json → List String
  | [] => []
  | item :: more => item.compact :: compactItems more

def compactMembers : List (String × Json) → List String
  | [] => []
  | (name, member) :: more =>
      (quote name ++ ":" ++ member.compact) :: compactMembers more

end

mutual

/-- A value over several lines, the first of which is already indented. -/
def prettyFrom (indent : Nat) : Json → String
  | .null => "null"
  | .bool true => "true"
  | .bool false => "false"
  | .number value => String.ofList value.chars
  | .string value => quote value
  | .array [] => "[]"
  | .array (first :: more) =>
      "[" ++ newLine (indent + 1) ++ first.prettyFrom (indent + 1) ++
        prettyItems (indent + 1) more ++ newLine indent ++ "]"
  | .object [] => "\x7b\x7d"
  | .object ((name, first) :: more) =>
      "\x7b" ++ newLine (indent + 1) ++
        quote name ++ ": " ++ first.prettyFrom (indent + 1) ++
        prettyMembers (indent + 1) more ++ newLine indent ++ "\x7d"

def prettyItems (indent : Nat) : List Json → String
  | [] => ""
  | item :: more =>
      "," ++ newLine indent ++ item.prettyFrom indent ++ prettyItems indent more

def prettyMembers (indent : Nat) : List (String × Json) → String
  | [] => ""
  | (name, member) :: more =>
      "," ++ newLine indent ++ quote name ++ ": " ++ member.prettyFrom indent ++
        prettyMembers indent more

end

def pretty (value : Json) : String :=
  value.prettyFrom 0

end Json

end PlacementRules
