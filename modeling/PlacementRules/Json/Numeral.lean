/-!
# Numerals

A number of a JSON text as it is written, and the double it stands for.  The
digits are taken into a significand of 64 bits as long as they fit; the
significand is rounded to a double once and then scaled by powers of ten.
-/

namespace PlacementRules

/--
A number as written: digits before and after the point, and an exponent if there
is one.
-/
structure Numeral where
  negative : Bool := false
  whole : List Char
  fraction : List Char := []
  exponent : Option Int := none
deriving DecidableEq, Repr, Inhabited

namespace Numeral

def digitValue (c : Char) : Nat :=
  c.toNat - '0'.toNat

def ofNat (n : Nat) : Numeral :=
  { whole := Nat.toDigits 10 n }

def toNat? (numeral : Numeral) : Option Nat :=
  if numeral.negative || !numeral.fraction.isEmpty || numeral.exponent.isSome then none
  else some (numeral.whole.foldl (fun value c => 10 * value + digitValue c) 0)

@[simp] theorem toNat?_ofNat (n : Nat) : (ofNat n).toNat? = some n := by
  have hread : Nat.ofDigitChars 10 (Nat.toDigits 10 n) 0 = n :=
    Nat.ofDigitChars_ten_toDigits
  simp only [toNat?, ofNat, Bool.false_or, List.isEmpty_nil, Bool.not_true,
    Option.isSome_none, Bool.false_eq_true, if_false]
  exact congrArg some hread

def significandBound : Nat := UInt64.size

/--
Take digits into a significand as long as it stays within bounds.  The result
holds the significand and the digits that were left over.
-/
def absorb (significand : Nat) : List Char → Nat × List Char
  | [] => (significand, [])
  | c :: rest =>
      if 10 * significand + digitValue c < significandBound then
        absorb (10 * significand + digitValue c) rest
      else (significand, c :: rest)

def largestPower : Nat := 308

def powerOfTen (exponent : Nat) : Float :=
  Float.ofScientific 1 false exponent

/--
Divide by a power of ten, by the largest one first if it has to be done in two
steps.  After two steps of the largest one nothing is left of any significand.
-/
def scaleDown (value : Float) (exponent : Nat) : Float :=
  if exponent ≤ largestPower then value / powerOfTen exponent
  else if exponent ≤ 2 * largestPower then
    value / powerOfTen largestPower / powerOfTen (exponent - largestPower)
  else 0.0

/-- Multiply by a power of ten, unless the result is too large for a double. -/
def scaleUp? (value : Float) (exponent : Nat) : Option Float :=
  if exponent ≤ largestPower then
    let scaled := value * powerOfTen exponent
    if scaled.isInf then none else some scaled
  else if value == 0.0 then some value
  else none

def magnitude? (numeral : Numeral) : Option Float :=
  let (wholeDigits, wholeRest) := absorb 0 numeral.whole
  let (significand, fractionRest) := absorb wholeDigits numeral.fraction
  let taken := numeral.fraction.length - fractionRest.length
  let exponent : Int := numeral.exponent.getD 0 + wholeRest.length - taken
  let value := significand.toUInt64.toFloat
  match exponent with
  | .ofNat power => scaleUp? value power
  | .negSucc power => some (scaleDown value (power + 1))

/-- The double a numeral stands for, unless it is too large for one. -/
def toFloat? (numeral : Numeral) : Option Float :=
  numeral.magnitude?.map fun value => if numeral.negative then -value else value

def chars (numeral : Numeral) : List Char :=
  (if numeral.negative then ['-'] else []) ++ numeral.whole ++
    (if numeral.fraction.isEmpty then [] else '.' :: numeral.fraction) ++
    (match numeral.exponent with
      | none => []
      | some exponent => 'e' :: (toString exponent).toList)

end Numeral

end PlacementRules
