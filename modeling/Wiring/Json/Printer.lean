import Wiring.Json.Tree
import Wiring.Text.Hex

/-! # Printing the data format

One printer serves both layouts: a layout says what stands before an item at a nesting level and
what follows a member name. The compact layout puts nothing before items; the indented one starts
a new line with two blanks a level. Empty arrays and objects never open a line.
-/
namespace Wiring.Json

structure Layout where
  gap : Nat → List Char
  colon : List Char

def Layout.compact : Layout := ⟨fun _ => [], [':']⟩
def Layout.indented : Layout := ⟨fun level => '\n' :: List.replicate (2 * level) ' ', [':', ' ']⟩

/-- Controls below the blank are written by number unless they have a short escape. -/
def escapeChar (c : Char) : List Char :=
  if c = '"' then ['\\', '"']
  else if c = '\\' then ['\\', '\\']
  else if c = '\n' then ['\\', 'n']
  else if c = '\r' then ['\\', 'r']
  else if c = '\t' then ['\\', 't']
  else if c = '\x08' then ['\\', 'b']
  else if c = '\x0c' then ['\\', 'f']
  else if c.toNat < 32 then
    ['\\', 'u', '0', '0', Text.lowerHexDigit (c.toNat / 16), Text.lowerHexDigit (c.toNat % 16)]
  else [c]

def printString (s : String) : List Char :=
  '"' :: s.toList.flatMap escapeChar ++ ['"']

def printScalar : Scalar → List Char
  | .null => ['n', 'u', 'l', 'l']
  | .bool true => ['t', 'r', 'u', 'e']
  | .bool false => ['f', 'a', 'l', 's', 'e']
  | .number n => n.text
  | .string s => printString s

mutual
def print (layout : Layout) (level : Nat) : Json → List Char
  | .leaf s => printScalar s
  | .array [] => ['[', ']']
  | .array (x :: rest) =>
    '[' :: layout.gap (level + 1) ++ print layout (level + 1) x ++
      printItems layout (level + 1) rest ++ layout.gap level ++ [']']
  | .object [] => ['\x7b', '\x7d']
  | .object ((k, x) :: rest) =>
    '\x7b' :: layout.gap (level + 1) ++ printString k ++ layout.colon ++
      print layout (level + 1) x ++ printMembers layout (level + 1) rest ++ layout.gap level ++ ['\x7d']

/-- The items after the first one, each behind a comma. -/
def printItems (layout : Layout) (level : Nat) : List Json → List Char
  | [] => []
  | x :: rest => ',' :: layout.gap level ++ print layout level x ++ printItems layout level rest

def printMembers (layout : Layout) (level : Nat) : List (String × Json) → List Char
  | [] => []
  | (k, x) :: rest =>
    ',' :: layout.gap level ++ printString k ++ layout.colon ++ print layout level x ++
      printMembers layout level rest
end

def compact (j : Json) : String := String.ofList (print .compact 0 j)
def indented (j : Json) : String := String.ofList (print .indented 0 j)

end Wiring.Json
