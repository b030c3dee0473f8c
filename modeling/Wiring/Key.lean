import Wiring.Text.Hex

/-! # Keys

A key names one binding: an interface and a qualifier, which is empty for the plain binding of the
interface. Keys order by interface, then by qualifier. The token of a key is a text of ASCII
letters, digits, points, underscores and one dash.
-/
namespace Wiring

structure Key where
  interface : String
  name : String := ""
  deriving DecidableEq, Repr, Inhabited

namespace Key

instance : Ord Key where
  compare := compareLex (compareOn Key.interface) (compareOn Key.name)

instance : Std.TransOrd Key :=
  inferInstanceAs (Std.TransCmp (compareLex (compareOn Key.interface) (compareOn Key.name)))

theorem eq_of_compare {a b : Key} (h : compare a b = .eq) : a = b := by
  have both : compareLex (compareOn Key.interface) (compareOn Key.name) a b = .eq := h
  simp only [compareLex, compareOn, Ordering.then_eq_eq, Std.compare_eq_iff_eq] at both
  cases a
  cases b
  simp_all

instance : Std.LawfulEqOrd Key where
  eq_of_compare := eq_of_compare

def plain (interface : String) : Key := ⟨interface, ""⟩

def isPlain (k : Key) : Bool := k.name = ""

def display (k : Key) : String :=
  if k.isPlain then k.interface else k.interface ++ "#" ++ k.name

def escapeByte (b : UInt8) : List Char :=
  ['_', Text.upperHexDigit (b.toNat / 16), Text.upperHexDigit (b.toNat % 16)]

def encodeChar (c : Char) : List Char :=
  if c.isAlphanum then [c] else (String.utf8EncodeChar c).flatMap escapeByte

/-- A double colon becomes a point, letters and digits stay, every other byte is escaped. -/
def encode : List Char → List Char
  | [] => []
  | ':' :: ':' :: rest => '.' :: encode rest
  | c :: rest => encodeChar c ++ encode rest

def tokenChars (k : Key) : List Char := encode k.interface.toList ++ '-' :: encode k.name.toList

def token (k : Key) : String := String.ofList k.tokenChars

end Key
end Wiring
