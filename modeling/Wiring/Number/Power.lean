/-! # Powers and word ranges

Powers of two and ten, and the ranges of the machine integers that are written and read.
-/
namespace Wiring

def twoTo (n : Nat) : Nat := Nat.pow 2 n
def tenTo (n : Nat) : Nat := Nat.pow 10 n

abbrev Signed64 (n : Int) : Prop := -9223372036854775808 ≤ n ∧ n < 9223372036854775808

abbrev Unsigned64 (n : Int) : Prop := 0 ≤ n ∧ n < 18446744073709551616

/-- The integers of 64 bits with or without a sign. -/
abbrev Fits64 (n : Int) : Prop := -9223372036854775808 ≤ n ∧ n < 18446744073709551616

abbrev Unsigned32 (n : Int) : Prop := 0 ≤ n ∧ n < 4294967296

end Wiring
