import Wiring.Number.Power

/-! # Double precision numbers

A finite double is a sign, a mantissa below `2 ^ 53` and a power of two, the mantissa
being at least `2 ^ 52` unless the power is the smallest one. All rounding goes through
`Double.round`, which takes an exact quotient to the nearest double, ties to even.
-/
namespace Wiring

structure Double where
  negative : Bool
  mantissa : Nat
  exponent : Int
  deriving DecidableEq, Repr, Inhabited

/-- The quotient of two naturals as the nearest natural; a half goes to the even neighbour. -/
def roundQuotient (num den : Nat) : Nat :=
  let q := num / den
  let r := num % den
  if 2 * r < den then q
  else if den < 2 * r then q + 1
  else if q % 2 = 0 then q else q + 1

namespace Double

def minExponent : Int := -1074
def maxExponent : Int := 971

def zero (negative : Bool) : Double := ⟨negative, 0, minExponent⟩

def num (d : Double) : Nat := d.mantissa * twoTo d.exponent.toNat
def den (d : Double) : Nat := twoTo (-d.exponent).toNat

/-- The power of two at which `num / den` has a mantissa of 53 bits. -/
def scale (num den : Nat) : Int :=
  let low : Int := num.log2 - den.log2 - 53
  let fits := num * twoTo (-low).toNat < twoTo 53 * (den * twoTo low.toNat)
  max (if fits then low else low + 1) minExponent

/-- The double nearest to `num / den`, or nothing when that is beyond every finite double. -/
def round (negative : Bool) (num den : Nat) : Option Double :=
  if num = 0 then some (zero negative)
  else
    let e := scale num den
    let m := roundQuotient (num * twoTo (-e).toNat) (den * twoTo e.toNat)
    let (m, e) := if m = twoTo 53 then (twoTo 52, e + 1) else (m, e)
    if maxExponent < e then none else some ⟨negative, m, e⟩

def isZero (d : Double) : Bool := d.mantissa = 0

def mul (a b : Double) : Option Double :=
  round (a.negative != b.negative) (a.num * b.num) (a.den * b.den)

def div (a b : Double) : Option Double :=
  round (a.negative != b.negative) (a.num * b.den) (a.den * b.num)

def neg (d : Double) : Double := { d with negative := !d.negative }

def unsignedZero (d : Double) : Double := if d.isZero then zero false else d

end Double
end Wiring
