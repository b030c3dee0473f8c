/-! # White space

The characters with the white-space property, and texts without them at either end.
-/
namespace Wiring.Text

def wideBlanks : List Nat := [0x85, 0xA0, 0x1680, 0x2028, 0x2029, 0x202F, 0x205F, 0x3000]

def isBlank (c : Char) : Bool :=
  let n := c.toNat
  n = 32 || (9 ≤ n && n ≤ 13) || (0x2000 ≤ n && n ≤ 0x200A) || wideBlanks.contains n

/-- The characters between the first and the last that is not white space. -/
def trim (cs : List Char) : List Char :=
  ((cs.dropWhile isBlank).reverse.dropWhile isBlank).reverse

end Wiring.Text
