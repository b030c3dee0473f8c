import Wiring.Number.Double

/-! # The shortest decimal of a double

Of all decimals that round to a given double, `shortest` picks one with the fewest digits,
and of those the nearest. For each digit count only the two neighbours of the value on that
decimal grid need a look: if any point of the grid rounds to the double, so does one of these.
-/
namespace Wiring

structure Decimal where
  digits : Nat
  power : Int
  deriving DecidableEq, Repr, Inhabited

namespace Decimal

def num (d : Decimal) : Nat := d.digits * tenTo d.power.toNat
def den (d : Decimal) : Nat := tenTo (-d.power).toNat

def toDouble (negative : Bool) (d : Decimal) : Option Double :=
  Double.round negative d.num d.den

def dropTrailingZeros : Nat → Decimal → Decimal
  | 0, d => d
  | fuel + 1, d =>
    if d.digits ≠ 0 ∧ d.digits % 10 = 0 then dropTrailingZeros fuel ⟨d.digits / 10, d.power + 1⟩
    else d

end Decimal

namespace Double

def countDigits (n : Nat) : Nat := (Nat.toDigits 10 n).length

def leadingPower (num den : Nat) : Int :=
  let p : Int := (countDigits num : Int) - countDigits den
  if num * tenTo (-p).toNat < den * tenTo p.toNat then p - 1 else p

/-- A decimal with `count` digits that rounds to `d`, the nearest one if there are two. -/
def decimalOf (d : Double) (count : Nat) : Option Decimal :=
  let power := leadingPower d.num d.den - count + 1
  let top := d.num * tenTo (-power).toNat
  let bottom := d.den * tenTo power.toNat
  let below : Decimal := ⟨top / bottom, power⟩
  let above : Decimal := ⟨top / bottom + 1, power⟩
  let fits (c : Decimal) : Bool := c.toDouble d.negative == some d
  let nearest := if roundQuotient top bottom = below.digits then below else above
  if fits nearest then some nearest
  else if fits below then some below
  else if fits above then some above
  else none

/-- Seventeen digits always suffice. -/
def shortest (d : Double) : Decimal :=
  if d.isZero then ⟨0, 0⟩
  else
    (((List.range 17).findSome? fun i => d.decimalOf (i + 1)).getD ⟨0, 0⟩).dropTrailingZeros 400

end Double
end Wiring
