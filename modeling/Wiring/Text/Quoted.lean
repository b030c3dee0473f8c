import Wiring.Text.Hidden

/-! # Quoted text

A quoted text stands between double quotes. Quote, backslash, newline, carriage return, tab and
NUL have short escapes, characters that do not show are written by number, and all else is raw.
-/
namespace Wiring.Text

def hexDigits (n : Nat) : List Char := Nat.toDigits 16 n

def quoteChar (c : Char) : List Char :=
  if c = '"' then ['\\', '"']
  else if c = '\\' then ['\\', '\\']
  else if c = '\n' then ['\\', 'n']
  else if c = '\r' then ['\\', 'r']
  else if c = '\t' then ['\\', 't']
  else if c = '\x00' then ['\\', '0']
  else if isHidden c then ['\\', 'u', '\x7b'] ++ hexDigits c.toNat ++ ['\x7d']
  else [c]

def quoted (s : String) : List Char :=
  '"' :: s.toList.flatMap quoteChar ++ ['"']

/-- The quoted form as a string. -/
def quote (s : String) : String := String.ofList (quoted s)

end Wiring.Text
