import Wiring.Number.Shortest

/-! # Numbers of the data format

A number is an integer that fits 64 bits, signed or unsigned, or a double. A numeral without
fraction and exponent whose value fits is an integer; every other numeral, `-0` among them, is
a double. Its leading digits that fit 64 bits are the significand, which is then multiplied or
divided by a power of ten in double arithmetic.
-/
namespace Wiring

/-- An integer that fits 64 bits, signed or unsigned. -/
structure Integer where
  value : Int
  inRange : Fits64 value
  deriving DecidableEq

instance : Inhabited Integer := ⟨0, by decide⟩
instance : Repr Integer := ⟨fun n p => reprPrec n.value p⟩

namespace Integer

def ofInt? (n : Int) : Option Integer :=
  if h : Fits64 n then some ⟨n, h⟩ else none

def digitsOf (n : Nat) : List Char := Nat.toDigits 10 n

def text (n : Integer) : List Char :=
  if n.value < 0 then '-' :: digitsOf n.value.natAbs else digitsOf n.value.natAbs

def signed? (n : Integer) : Option Int := if Signed64 n.value then some n.value else none

end Integer

inductive Number where
  | integer (n : Integer)
  | double (d : Double)
  deriving DecidableEq, Repr, Inhabited

namespace Double

/-- Powers of ten from the fifth place after the point up to the sixteenth before it are written out. -/
def positional (power : Int) : Bool := -5 ≤ power && power ≤ 15

def zeros (n : Nat) : List Char := List.replicate n '0'

def layout (digits : List Char) (power : Int) : List Char :=
  if positional power then
    if power < 0 then '0' :: '.' :: zeros (-power - 1).toNat ++ digits
    else
      let whole := power.toNat + 1
      if digits.length ≤ whole then digits ++ zeros (whole - digits.length) ++ ['.', '0']
      else digits.take whole ++ '.' :: digits.drop whole
  else
    let fraction := digits.drop 1
    digits.take 1 ++ (if fraction.isEmpty then [] else '.' :: fraction) ++
      'e' :: (if power < 0 then '-' else '+') :: Integer.digitsOf power.natAbs

/-- The shortest decimal that reads back as the double. -/
def text (d : Double) : List Char :=
  let magnitude :=
    if d.isZero then ['0', '.', '0']
    else
      let decimal := d.shortest
      let digits := Integer.digitsOf decimal.digits
      layout digits (decimal.power + digits.length - 1)
  if d.negative then '-' :: magnitude else magnitude

def scaleTen : Nat → Double → Int → Option Double
  | 0, d, _ => some (zero d.negative)
  | fuel + 1, d, power =>
    if power.natAbs ≤ 308 then do
      let factor ← round false (tenTo power.natAbs) 1
      if 0 ≤ power then d.mul factor else d.div factor
    else if d.isZero then some d
    else if 0 ≤ power then none
    else do
      let factor ← round false (tenTo 308) 1
      scaleTen fuel (← d.div factor) (power + 308)

end Double

namespace Number

def text : Number → List Char
  | .integer n => n.text
  | .double d => d.text

end Number

structure Numeral where
  negative : Bool
  whole : List Nat
  fraction : Option (List Nat)
  exponent : Option (Bool × List Nat)
  deriving Repr

namespace Numeral

/-- Appends digits to a significand as long as it stays below `2 ^ 64`; the rest is left over. -/
def absorb (significand : Nat) : List Nat → Nat × List Nat
  | [] => (significand, [])
  | d :: rest =>
    if significand * 10 + d < twoTo 64 then absorb (significand * 10 + d) rest
    else (significand, d :: rest)

def natOf (digits : List Nat) : Nat := digits.foldl (fun n d => n * 10 + d) 0

def exponentValue (n : Numeral) : Int :=
  match n.exponent with
  | none => 0
  | some (negative, digits) => if negative then -(natOf digits : Int) else natOf digits

/-- The number a numeral stands for, unless it is larger than every double. -/
def value? (n : Numeral) : Option Number :=
  let (significand, dropped) := absorb 0 n.whole
  if n.fraction.isNone && n.exponent.isNone && dropped.isEmpty then
    let signed : Int := if n.negative then -significand else significand
    match Integer.ofInt? signed with
    | some i =>
      if n.negative && significand = 0 then some (.double (Double.zero true)) else some (.integer i)
    | none => (Double.round n.negative significand 1).map .double
  else
    let fraction := n.fraction.getD []
    let (significand, unread) := absorb significand fraction
    let power : Int := dropped.length - (fraction.length - unread.length : Nat) + n.exponentValue
    do
      let start ← Double.round false significand 1
      let magnitude ← start.scaleTen 4 power
      some (.double (if n.negative then magnitude.neg else magnitude))

end Numeral
end Wiring
