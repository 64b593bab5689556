import PlacementRules.Json.Value

/-!
# JSON texts

A JSON text as it is written: strings are still in their parts, numbers are
numerals, and an object may repeat a name.  `Written.value?` gives the text its
value, if all its strings are well formed, its numbers fit doubles and its
nesting is within bounds.
-/

namespace PlacementRules

/-- A part of a string: a character, or a UTF-16 unit given by its number. -/
inductive StringPart where
  | char (c : Char)
  | unit (code : Nat)
deriving DecidableEq, Repr, Inhabited

namespace StringPart

def isHighSurrogate (code : Nat) : Bool :=
  0xD800 ≤ code && code < 0xDC00

def isLowSurrogate (code : Nat) : Bool :=
  0xDC00 ≤ code && code < 0xE000

def ofSurrogates (high low : Nat) : Char :=
  Char.ofNat (0x10000 + (high - 0xD800) * 0x400 + (low - 0xDC00))

/-- The characters of a string, unless half a character stands alone. -/
def decode? : List StringPart → Option (List Char)
  | [] => some []
  | .char c :: rest => (decode? rest).map (c :: ·)
  | .unit high :: .unit low :: rest =>
      if isHighSurrogate high then
        if isLowSurrogate low then (decode? rest).map (ofSurrogates high low :: ·)
        else none
      else if isLowSurrogate high then none
      else (decode? (.unit low :: rest)).map (Char.ofNat high :: ·)
  | .unit code :: rest =>
      if isHighSurrogate code || isLowSurrogate code then none
      else (decode? rest).map (Char.ofNat code :: ·)

end StringPart

inductive Written where
  | null
  | bool (value : Bool)
  | number (value : Numeral)
  | string (parts : List StringPart)
  | array (items : List Written)
  | object (members : List (List StringPart × Written))
deriving Repr, Inhabited

namespace Written

def isSpace (c : Char) : Bool :=
  c == ' ' || c == '\t' || c == '\n' || c == '\r'

def skipSpace (text : List Char) : List Char :=
  text.dropWhile isSpace

def hexDigit? (c : Char) : Option Nat :=
  if c.isDigit then some (c.toNat - '0'.toNat)
  else if 'a' ≤ c ∧ c ≤ 'f' then some (c.toNat - 'a'.toNat + 10)
  else if 'A' ≤ c ∧ c ≤ 'F' then some (c.toNat - 'A'.toNat + 10)
  else none

def hexNumber? (digits : List Char) : Option Nat :=
  digits.foldl
    (fun number c =>
      match number, hexDigit? c with
      | some value, some digit => some (16 * value + digit)
      | _, _ => none)
    (some 0)

def escaped? : Char → Option Char
  | '"' => some '"'
  | '\\' => some '\\'
  | '/' => some '/'
  | 'b' => some '\x08'
  | 'f' => some '\x0c'
  | 'n' => some '\n'
  | 'r' => some '\r'
  | 't' => some '\t'
  | _ => none

def readString? : List Char → Option (List StringPart × List Char)
  | [] => none
  | '"' :: rest => some ([], rest)
  | '\\' :: 'u' :: a :: b :: c :: d :: rest =>
      match hexNumber? [a, b, c, d], readString? rest with
      | some code, some (parts, rest) => some (.unit code :: parts, rest)
      | _, _ => none
  | ['\\'] => none
  | '\\' :: letter :: rest =>
      match escaped? letter, readString? rest with
      | some c, some (parts, rest) => some (.char c :: parts, rest)
      | _, _ => none
  | c :: rest =>
      if c.toNat < 0x20 then none
      else
        match readString? rest with
        | some (parts, rest) => some (.char c :: parts, rest)
        | none => none

def readDigits? (text : List Char) : Option (List Char × List Char) :=
  match text.takeWhile Char.isDigit with
  | [] => none
  | digits => some (digits, text.dropWhile Char.isDigit)

/-- Read the digits before the point.  A zero stands alone. -/
def readWhole? : List Char → Option (List Char × List Char)
  | '0' :: rest => some (['0'], rest)
  | text => readDigits? text

/-- Read a point and the digits behind it, if there is a point. -/
def readFraction? : List Char → Option (List Char × List Char)
  | '.' :: rest => readDigits? rest
  | text => some ([], text)

def readPower? (text : List Char) : Option (Nat × List Char) :=
  (readDigits? text).map fun (digits, rest) =>
    (digits.foldl (fun value c => 10 * value + Numeral.digitValue c) 0, rest)

def readSignedPower? : List Char → Option (Int × List Char)
  | '-' :: rest => (readPower? rest).map fun (power, rest) => (-(power : Int), rest)
  | '+' :: rest => (readPower? rest).map fun (power, rest) => ((power : Int), rest)
  | text => (readPower? text).map fun (power, rest) => ((power : Int), rest)

def readExponent? : List Char → Option (Option Int × List Char)
  | 'e' :: rest => (readSignedPower? rest).map fun (power, rest) => (some power, rest)
  | 'E' :: rest => (readSignedPower? rest).map fun (power, rest) => (some power, rest)
  | text => some (none, text)

def readUnsigned? (negative : Bool) (text : List Char) :
    Option (Written × List Char) := do
  let (whole, rest) ← readWhole? text
  let (fraction, rest) ← readFraction? rest
  let (exponent, rest) ← readExponent? rest
  some (.number ⟨negative, whole, fraction, exponent⟩, rest)

def readScalar? : List Char → Option (Written × List Char)
  | 'n' :: 'u' :: 'l' :: 'l' :: rest => some (.null, rest)
  | 't' :: 'r' :: 'u' :: 'e' :: rest => some (.bool true, rest)
  | 'f' :: 'a' :: 'l' :: 's' :: 'e' :: rest => some (.bool false, rest)
  | '"' :: rest => (readString? rest).map fun (parts, rest) => (.string parts, rest)
  | '-' :: rest => readUnsigned? true rest
  | text => readUnsigned? false text

/-- A reader takes a value off the front of a text and leaves the rest. -/
abbrev Reader (α : Type) := List Char → Option (α × List Char)

def readMember? (value : Reader Written) : Reader (List StringPart × Written) :=
  fun text =>
    match skipSpace text with
    | '"' :: rest =>
        match readString? rest with
        | none => none
        | some (name, rest) =>
            match skipSpace rest with
            | ':' :: rest => (value rest).map fun (member, rest) => ((name, member), rest)
            | _ => none
    | _ => none

/--
Read one or more entries with commas between them, and the closing bracket.  At
most `fuel` entries are read.
-/
def readEntries? {α : Type} (close : Char) (entry : Reader α) :
    (fuel : Nat) → Reader (List α)
  | 0, _ => none
  | fuel + 1, text =>
      match entry text with
      | none => none
      | some (first, rest) =>
          match skipSpace rest with
          | ',' :: rest =>
              (readEntries? close entry fuel rest).map fun (more, rest) =>
                (first :: more, rest)
          | c :: rest => if c = close then some ([first], rest) else none
          | [] => none

def readBracketed? {α : Type} (bound : Nat) (close : Char) (entry : Reader α) :
    Reader (List α) :=
  fun text =>
    match skipSpace text with
    | [] => none
    | c :: rest =>
        if c = close then some ([], rest)
        else readEntries? close entry bound (c :: rest)

/--
Read a value with fewer than `fuel` brackets inside one another, each around at
most `bound` entries.
-/
def readValue? (bound : Nat) : (fuel : Nat) → Reader Written
  | 0, _ => none
  | fuel + 1, text =>
      match skipSpace text with
      | '[' :: rest =>
          (readBracketed? bound ']' (readValue? bound fuel) rest).map
            fun (items, rest) => (.array items, rest)
      | '\x7b' :: rest =>
          (readBracketed? bound '\x7d' (readMember? (readValue? bound fuel)) rest).map
            fun (members, rest) => (.object members, rest)
      | text => readScalar? text

/--
The JSON text that a string holds, if it holds one and nothing else.  Brackets
and entries take a character each, so there are no more of either than
characters.
-/
def ofText? (text : String) : Option Written :=
  let chars := text.toList
  let size := chars.length + 1
  match readValue? size size chars with
  | some (written, rest) =>
      match skipSpace rest with
      | [] => some written
      | _ => none
  | none => none

def text? (parts : List StringPart) : Option String :=
  (StringPart.decode? parts).map String.ofList

/-- Of members that share a name, keep the last. -/
def keepLast : List (String × Json) → List (String × Json)
  | [] => []
  | (name, value) :: more =>
      if more.any fun member => member.1 == name then keepLast more
      else (name, value) :: keepLast more

mutual

/--
The value of a JSON text.  There is none if a string or number is ill formed, or
if more than `room` arrays and objects lie inside one another.
-/
def value? (room : Nat) : Written → Option Json
  | .null => some .null
  | .bool flag => some (.bool flag)
  | .number numeral => numeral.toFloat?.map fun _ => .number numeral
  | .string parts => (text? parts).map .string
  | .array items =>
      if room = 0 then none else (itemValues? (room - 1) items).map .array
  | .object members =>
      if room = 0 then none
      else (memberValues? (room - 1) members).map fun members =>
        .object (keepLast members)

def itemValues? (room : Nat) : List Written → Option (List Json)
  | [] => some []
  | item :: more =>
      match value? room item, itemValues? room more with
      | some first, some others => some (first :: others)
      | _, _ => none

def memberValues? (room : Nat) :
    List (List StringPart × Written) → Option (List (String × Json))
  | [] => some []
  | (name, member) :: more =>
      match text? name, value? room member, memberValues? room more with
      | some name, some first, some others => some ((name, first) :: others)
      | _, _, _ => none

end

end Written

namespace Json

def maxNesting : Nat := 127

def ofText? (text : String) : Option Json :=
  (Written.ofText? text).bind (Written.value? maxNesting)

end Json

end PlacementRules
