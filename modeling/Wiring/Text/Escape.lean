import Wiring.Text.Hex

/-! # Escapes in strings of settings

Which characters stand for themselves between quotes, and what follows a backslash: a letter for a
control character, the quote or the backslash itself, or a code point of four or eight hexadecimal
digits.
-/
namespace Wiring.Text

def isPrintable (c : Char) : Bool := c = '\t' || (32 ≤ c.toNat && c.toNat ≠ 127)

def codePoint? (count : Nat) (cs : List Char) : Option (Char × List Char) := do
  let digits ← (cs.take count).mapM hexValue?
  let n := digits.foldl (fun n d => n * 16 + d) 0
  if digits.length = count ∧ n.isValidChar then some (Char.ofNat n, cs.drop count) else none

def escape? : List Char → Option (Char × List Char)
  | 'b' :: rest => some ('\x08', rest)
  | 't' :: rest => some ('\t', rest)
  | 'n' :: rest => some ('\n', rest)
  | 'f' :: rest => some ('\x0c', rest)
  | 'r' :: rest => some ('\r', rest)
  | '"' :: rest => some ('"', rest)
  | '\\' :: rest => some ('\\', rest)
  | 'u' :: rest => codePoint? 4 rest
  | 'U' :: rest => codePoint? 8 rest
  | _ => none

/-- A text with its escapes replaced; `fuel` is at least its length. -/
def unescape : Nat → List Char → Option (List Char)
  | 0, cs => if cs.isEmpty then some [] else none
  | _ + 1, [] => some []
  | fuel + 1, '\\' :: rest => do
    let (c, rest) ← escape? rest
    (unescape fuel rest).map (c :: ·)
  | fuel + 1, c :: rest => if isPrintable c then (unescape fuel rest).map (c :: ·) else none

end Wiring.Text
