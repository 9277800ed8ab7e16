import FlowDominance.Number.Double

/-!
# Significant digits

A number is written with a fixed count of significant digits, rounded from its exact value with ties
to even, and without trailing zeros.  Numbers of moderate size are written positionally, others with
an exponent of at least two digits.
-/

namespace FlowDominance.Number

structure GeneralFormat where
  precision : Nat
  width : Nat
  leastPositional : Int

/-- `digits` times ten to the power of `exponent` less all but one of the digits. -/
structure Scientific where
  digits : Nat
  exponent : Int
  deriving DecidableEq, Repr

def digitCount (n : Nat) : Nat := (Nat.toDigits 10 n).length

def floorLog10 (num den : Nat) : Int :=
  if den ≤ num then (digitCount (num / den) : Int) - 1
  else -(digitCount ((den - 1) / num) : Int)

def Scientific.ofRatio (precision num den : Nat) : Scientific :=
  let exponent := floorLog10 num den
  let shift := (precision : Int) - 1 - exponent
  let digits :=
    if 0 ≤ shift then roundDiv (num * Nat.pow 10 shift.toNat) den
    else roundDiv num (den * Nat.pow 10 (-shift).toNat)
  if digits < Nat.pow 10 precision then ⟨digits, exponent⟩ else ⟨digits / 10, exponent + 1⟩

/-- The digits behind the point without trailing zeros, and no point if none is left. -/
def fraction (digits : List Char) : List Char :=
  match (digits.reverse.dropWhile (· = '0')).reverse with
  | [] => []
  | kept => '.' :: kept

def exponentMark (e : Int) : List Char :=
  let digits := Nat.toDigits 10 e.natAbs
  'e' :: (if e < 0 then '-' else '+') :: (List.replicate (2 - digits.length) '0' ++ digits)

def Scientific.chars (format : GeneralFormat) (s : Scientific) : List Char :=
  let digits := Nat.toDigits 10 s.digits
  if s.exponent < format.leastPositional || (format.precision : Int) ≤ s.exponent then
    digits.take 1 ++ fraction (digits.drop 1) ++ exponentMark s.exponent
  else if 0 ≤ s.exponent then
    let whole := s.exponent.toNat + 1
    digits.take whole ++ fraction (digits.drop whole)
  else
    '0' :: fraction (List.replicate ((-s.exponent).toNat - 1) '0' ++ digits)

def unsignedChars (format : GeneralFormat) (mantissa : Nat) (exponent : Int) : List Char :=
  if mantissa = 0 then ['0']
  else if 0 ≤ exponent then
    (Scientific.ofRatio format.precision (mantissa * Nat.pow 2 exponent.toNat) 1).chars format
  else
    (Scientific.ofRatio format.precision mantissa (Nat.pow 2 (-exponent).toNat)).chars format

def signed (negative : Bool) (cs : List Char) : List Char := if negative then '-' :: cs else cs

def generalChars (format : GeneralFormat) : Double → List Char
  | .undefined => "nan".toList
  | .infinite negative => signed negative "inf".toList
  | .finite negative mantissa exponent =>
      signed negative (unsignedChars format mantissa exponent)

def general (format : GeneralFormat) (x : Float) : String :=
  let cs := generalChars format (.ofFloat x)
  String.ofList (List.replicate (format.width - cs.length) ' ' ++ cs)

end FlowDominance.Number
