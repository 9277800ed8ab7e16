/-!
# Binary floating-point numbers

A finite double is a whole number times a power of two, up to sign.  Rounding a ratio of natural
numbers to the nearest double takes the even neighbour of two that are equally near.
-/

namespace FlowDominance.Number

/-- The quotient rounded to the nearest whole number, a half to the even one. -/
def roundDiv (num den : Nat) : Nat :=
  let q := num / den
  let twice := 2 * (num % den)
  if twice < den then q
  else if den < twice then q + 1
  else if q % 2 = 0 then q else q + 1

inductive Double where
  | finite (negative : Bool) (mantissa : Nat) (exponent : Int)
  | infinite (negative : Bool)
  | undefined
  deriving DecidableEq, Repr

namespace Double

def ofFloat (x : Float) : Double :=
  let bits := x.toBits.toNat
  let negative := bits / Nat.pow 2 63 = 1
  let field : Nat := bits / Nat.pow 2 52 % Nat.pow 2 11
  let fraction : Nat := bits % Nat.pow 2 52
  if field = Nat.pow 2 11 - 1 then
    if fraction = 0 then .infinite negative else .undefined
  else if field = 0 then .finite negative fraction (-1074)
  else .finite negative (Nat.pow 2 52 + fraction) ((field : Int) - 1075)

def floorLog2 (num den : Nat) : Int :=
  let guess : Int := (Nat.log2 num : Int) - (Nat.log2 den : Int)
  let reached :=
    if 0 ≤ guess then decide (den * Nat.pow 2 guess.toNat ≤ num)
    else decide (den ≤ num * Nat.pow 2 (-guess).toNat)
  if reached then guess else guess - 1

/-- The bits of the double nearest to a ratio, or nothing if it is beyond the largest double. -/
def nearestBits? (num den : Nat) : Option Nat :=
  if num = 0 then some 0
  else
    let exponent := max (floorLog2 num den - 52) (-1074)
    let mantissa :=
      if 0 ≤ exponent then roundDiv num (den * Nat.pow 2 exponent.toNat)
      else roundDiv (num * Nat.pow 2 (-exponent).toNat) den
    let bits := (exponent + 1074).toNat * Nat.pow 2 52 + mantissa
    if bits < 2047 * Nat.pow 2 52 then some bits else none

def nearest? (negative : Bool) (num den : Nat) : Option Float :=
  (nearestBits? num den).map fun bits =>
    Float.ofBits (UInt64.ofNat (if negative then Nat.pow 2 63 + bits else bits))

end Double

end FlowDominance.Number
