import Wiring.Json.Tree
import Wiring.Text.Hex

/-! # Reading the data format

`Source.readBytes` gives the tree that some bytes spell out, members in the order written. It goes over
the bytes one by one, each given as the character of its number: the signs of the format are ASCII, and
what stands within a string is decoded as a whole. A leaf `none` is a well-formed part that stands for no
value: a number beyond every double, a string that is no UTF-8 or has half a surrogate pair, or an array
or object inside `Source.maxDepth` others. Such a part spoils only what needs its value; `Source.value?`
needs all of them.
-/
namespace Wiring

/-- A text's tree, with `none` for leaves that stand for no value. -/
abbrev Source := Tree (Option Scalar)

namespace Source

def maxDepth : Nat := 127

def isBlank (c : Char) : Bool := c = ' ' || c = '\n' || c = '\t' || c = '\r'

def skipBlanks (cs : List Char) : List Char := cs.dropWhile isBlank

inductive Piece where
  | byte (b : UInt8)
  | code (n : Nat)
  deriving DecidableEq, Repr

def readPieces : List Char → Option (List Piece × List Char)
  | [] => none
  | '"' :: rest => some ([], rest)
  | '\\' :: 'u' :: a :: b :: c :: d :: rest => do
    let a ← Text.hexValue? a
    let b ← Text.hexValue? b
    let c ← Text.hexValue? c
    let d ← Text.hexValue? d
    let (pieces, rest) ← readPieces rest
    some (.code (((a * 16 + b) * 16 + c) * 16 + d) :: pieces, rest)
  | '\\' :: e :: rest => do
    let c ← match e with
      | '"' => some '"'
      | '\\' => some '\\'
      | '/' => some '/'
      | 'b' => some '\x08'
      | 'f' => some '\x0c'
      | 'n' => some '\n'
      | 'r' => some '\r'
      | 't' => some '\t'
      | _ => none
    let (pieces, rest) ← readPieces rest
    some (.byte c.toUInt8 :: pieces, rest)
  | c :: rest =>
    if c.toNat < 32 || c = '\\' then none
    else do
      let (pieces, rest) ← readPieces rest
      some (.byte c.toUInt8 :: pieces, rest)

/-- The bytes of a string, surrogate pairs joined; nothing when half a pair is left over. -/
def joinPieces : List Piece → Option (List UInt8)
  | [] => some []
  | .byte b :: rest => (joinPieces rest).map (b :: ·)
  | .code high :: .code low :: rest =>
    if 0xD800 ≤ high ∧ high < 0xDC00 then
      if 0xDC00 ≤ low ∧ low < 0xE000 then
        let c := Char.ofNat (0x10000 + (high - 0xD800) * 1024 + (low - 0xDC00))
        (joinPieces rest).map (String.utf8EncodeChar c ++ ·)
      else none
    else if 0xDC00 ≤ high ∧ high < 0xE000 then none
    else (joinPieces (.code low :: rest)).map (String.utf8EncodeChar (Char.ofNat high) ++ ·)
  | .code n :: rest =>
    if 0xD800 ≤ n ∧ n < 0xE000 then none
    else (joinPieces rest).map (String.utf8EncodeChar (Char.ofNat n) ++ ·)

/-- A string after its opening quote, none if its bytes are no UTF-8, and what follows it. -/
def readString (cs : List Char) : Option (Option String × List Char) := do
  let (pieces, rest) ← readPieces cs
  some ((joinPieces pieces).bind fun bytes => String.fromUTF8? bytes.toByteArray, rest)

def readDigits (cs : List Char) : List Nat × List Char :=
  let (digits, rest) := cs.span Char.isDigit
  (digits.map fun c => c.toNat - 48, rest)

def readSomeDigits (cs : List Char) : Option (List Nat × List Char) :=
  match readDigits cs with
  | ([], _) => none
  | found => some found

def readFraction : List Char → Option (Option (List Nat) × List Char)
  | '.' :: rest => (readSomeDigits rest).map fun (digits, rest) => (some digits, rest)
  | cs => some (none, cs)

def readExponentDigits (negative : Bool) (cs : List Char) :
    Option (Option (Bool × List Nat) × List Char) :=
  (readSomeDigits cs).map fun (digits, rest) => (some (negative, digits), rest)

def readExponent : List Char → Option (Option (Bool × List Nat) × List Char)
  | c :: rest =>
    if c = 'e' || c = 'E' then
      match rest with
      | '-' :: rest => readExponentDigits true rest
      | '+' :: rest => readExponentDigits false rest
      | rest => readExponentDigits false rest
    else some (none, c :: rest)
  | [] => some (none, [])

def readNumeral (cs : List Char) : Option (Numeral × List Char) := do
  let (negative, cs) := match cs with
    | '-' :: rest => (true, rest)
    | cs => (false, cs)
  let (whole, rest) ← readSomeDigits cs
  if whole.head? = some 0 && whole.length ≠ 1 then none
  else do
    let (fraction, rest) ← readFraction rest
    let (exponent, rest) ← readExponent rest
    some (⟨negative, whole, fraction, exponent⟩, rest)

mutual
/-- One value; `room` counts the levels of nesting that are left. -/
def readValue : Nat → Nat → List Char → Option (Source × List Char)
  | 0, _, _ => none
  | fuel + 1, room, cs =>
    match skipBlanks cs with
    | '"' :: rest => do
      let (s, rest) ← readString rest
      some (.leaf (s.map .string), rest)
    | '[' :: rest => do
      let (items, rest) ← match skipBlanks rest with
        | ']' :: rest => some ([], rest)
        | rest => readItems fuel (room - 1) rest
      some (if room = 0 then .leaf none else .array items, rest)
    | '\x7b' :: rest => do
      let (members, rest) ← match skipBlanks rest with
        | '\x7d' :: rest => some (some [], rest)
        | rest => readMembers fuel (room - 1) rest
      some (match members with
        | some members => if room = 0 then .leaf none else .object members
        | none => .leaf none, rest)
    | 'n' :: 'u' :: 'l' :: 'l' :: rest => some (.leaf (some .null), rest)
    | 't' :: 'r' :: 'u' :: 'e' :: rest => some (.leaf (some (.bool true)), rest)
    | 'f' :: 'a' :: 'l' :: 's' :: 'e' :: rest => some (.leaf (some (.bool false)), rest)
    | cs => do
      let (numeral, rest) ← readNumeral cs
      some (.leaf (numeral.value?.map .number), rest)

def readItems : Nat → Nat → List Char → Option (List Source × List Char)
  | 0, _, _ => none
  | fuel + 1, room, cs => do
    let (x, rest) ← readValue fuel room cs
    match skipBlanks rest with
    | ',' :: rest => do
      let (items, rest) ← readItems fuel room rest
      some (x :: items, rest)
    | ']' :: rest => some ([x], rest)
    | _ => none

/-- The members of an object up to its end; none when some name stands for no string. -/
def readMembers : Nat → Nat → List Char → Option (Option (List (String × Source)) × List Char)
  | 0, _, _ => none
  | fuel + 1, room, cs => do
    match skipBlanks cs with
    | '"' :: rest => do
      let (name, rest) ← readString rest
      match skipBlanks rest with
      | ':' :: rest => do
        let (x, rest) ← readValue fuel room rest
        match skipBlanks rest with
        | ',' :: rest => do
          let (members, rest) ← readMembers fuel room rest
          some (do some ((← name, x) :: (← members)), rest)
        | '\x7d' :: rest => some (name.map fun name => [(name, x)], rest)
        | _ => none
      | _ => none
    | _ => none
end

def readChars (cs : List Char) : Option Source := do
  let (tree, rest) ← readValue (2 * cs.length + 2) maxDepth cs
  if (skipBlanks rest).isEmpty then some tree else none

def byteChar (b : UInt8) : Char := Char.ofNat b.toNat

def readBytes (contents : ByteArray) : Option Source := readChars (contents.data.toList.map byteChar)

def read (text : String) : Option Source := readBytes text.toUTF8

mutual
/-- The value of a tree: every part must stand for a value, and of repeated members the last stays. -/
def value? : Source → Option Json
  | .leaf s => s.map .leaf
  | .array items => (valueItems? items).map .array
  | .object members => (valueMembers? members).map fun members => .object (Entries.ofList members)

def valueItems? : List Source → Option (List Json)
  | [] => some []
  | x :: rest => do some ((← value? x) :: (← valueItems? rest))

def valueMembers? : List (String × Source) → Option (List (String × Json))
  | [] => some []
  | (k, x) :: rest => do some ((k, ← value? x) :: (← valueMembers? rest))
end

end Source

def Json.read (text : String) : Option Json := do (← Source.read text).value?

end Wiring
