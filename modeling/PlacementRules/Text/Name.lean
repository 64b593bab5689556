import PlacementRules.Operator

/-!
# Names in rule text

An id is written bare if it consists of name characters and cannot be mistaken
for a keyword, and between quotes otherwise.  Reading takes a quoted name, or
the longest run of name characters.
-/

namespace PlacementRules

namespace Name

/-- The characters of a bare name: letters and digits of ASCII, and `_ - . :`. -/
def isNameChar (c : Char) : Bool :=
  c.isAlphanum || c == '_' || c == '-' || c == '.' || c == ':'

def isBare (name : List Char) : Bool :=
  !name.isEmpty && name.all isNameChar && (Operator.ofWord? name).isNone

/-- The inside of a quoted name: a backslash goes before each quote and backslash. -/
def escape : List Char → List Char
  | [] => []
  | c :: rest =>
      if c = '"' ∨ c = '\\' then '\\' :: c :: escape rest else c :: escape rest

def quote (name : List Char) : List Char :=
  '"' :: (escape name ++ ['"'])

def write (name : List Char) : List Char :=
  if isBare name then name else quote name

/--
Read the inside of a quoted name and its closing quote.  A backslash before a
quote or a backslash is dropped; before anything else it stands for itself.
There is no result if the closing quote is missing.
-/
def readQuoted : List Char → Option (List Char × List Char)
  | [] => none
  | ['\\'] => none
  | '\\' :: c :: rest =>
      (readQuoted rest).map fun (name, rest) =>
        (if c = '"' ∨ c = '\\' then c :: name else '\\' :: c :: name, rest)
  | c :: rest =>
      if c = '"' then some ([], rest)
      else (readQuoted rest).map fun (name, rest) => (c :: name, rest)

/-- The longest run of name characters at the front, and what follows it. -/
def spanWord (text : List Char) : List Char × List Char :=
  (text.takeWhile isNameChar, text.dropWhile isNameChar)

def read? (text : List Char) : Option (List Char × List Char) :=
  match text with
  | '"' :: rest => readQuoted rest
  | _ => if (spanWord text).1.isEmpty then none else some (spanWord text)

def readKeyword? (operator : Operator) (text : List Char) : Option (List Char) :=
  if Operator.ofWord? (spanWord text).1 = some operator then some (spanWord text).2
  else none

theorem spanWord_append (text : List Char) :
    (spanWord text).1 ++ (spanWord text).2 = text :=
  List.takeWhile_append_dropWhile

end Name

end PlacementRules
