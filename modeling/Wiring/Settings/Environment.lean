import Wiring.Settings.Tree
import Wiring.Text.Blank
import Wiring.Text.Escape

/-! # Settings from environment variables

A variable whose name begins with the prefix, in any case, sets the value at the path that the rest
of its name spells: two underscores or a point lead one level down. White space around a name does
not count, and a path with an empty name on it sets nothing. Texts that look like truth values,
numbers, lists or tables are read as such, all other texts are strings.
-/
namespace Wiring.Environment

abbrev Variables := List (String × String)

def set (name value : String) : Variables → Variables
  | [] => [(name, value)]
  | v :: rest => if v.1 = name then (name, value) :: rest else v :: set name value rest

def ofList (assignments : List (String × String)) : Variables :=
  assignments.foldl (fun assigned a => set a.1 a.2 assigned) []

/-- White space of the basic alphabet, without the vertical tab. -/
def isBlank (c : Char) : Bool := c = ' ' || c = '\t' || c = '\n' || c = '\x0c' || c = '\r'
def skipBlanks (cs : List Char) : List Char := cs.dropWhile isBlank

def isSeparator (c : Char) : Bool := c = ',' || c = '\x7b' || c = '\x7d' || c = '[' || c = ']'

def isKeyChar (c : Char) : Bool := c.isAlphanum || c = '_' || c = '-'

/-- The inside of a string up to its closing quote, its escapes as they are written; a backslash
keeps the next character in. -/
def quotedText : List Char → Option (List Char × List Char)
  | [] => none
  | '"' :: rest => some ([], rest)
  | '\\' :: c :: rest => (quotedText rest).map fun (s, rest) => ('\\' :: c :: s, rest)
  | c :: rest => (quotedText rest).map fun (s, rest) => (c :: s, rest)

def takeBytes : Nat → List Char → Option (List Char)
  | 0, _ => some []
  | _ + 1, [] => none
  | count + 1, c :: rest =>
    if c.utf8Size ≤ count + 1 then (takeBytes (count + 1 - c.utf8Size) rest).map (c :: ·) else none

/-- The text that the inside of a string stands for. In front of its first escape it keeps as many
bytes as there are characters, which is all of them in the basic alphabet. -/
def stringText (cs : List Char) : Option (List Char) :=
  let plain := cs.takeWhile (· ≠ '\\')
  if plain.all Text.isPrintable then do
    if plain.length = cs.length then some cs
    else
      let start ← takeBytes plain.length plain
      let rest ← Text.unescape cs.length (cs.drop plain.length)
      some (start ++ rest)
  else none

def string? (cs : List Char) : Option (String × List Char) := do
  let (inside, rest) ← quotedText cs
  some (String.ofList (← stringText inside), rest)

def unsigned (cs : List Char) : List Char :=
  match cs with
  | '-' :: rest => rest
  | '+' :: rest => rest
  | _ => cs

def isDigits (cs : List Char) : Bool := !cs.isEmpty && cs.all Char.isDigit

def integer? (cs : List Char) : Option Int :=
  if isDigits (unsigned cs) then
    let magnitude : Int := (unsigned cs).foldl (fun n c => n * 10 + (c.toNat - 48)) 0
    let n := if cs.head? = some '-' then -magnitude else magnitude
    if Fits64 n then some n else none
  else none

def isFraction (cs : List Char) : Bool :=
  let (mantissa, exponent) := (unsigned cs).span fun c => c ≠ 'e' && c ≠ 'E'
  let (whole, places) := mantissa.span (· ≠ '.')
  let digits := whole ++ places.drop 1
  cs.contains '.' && isDigits digits && (exponent.isEmpty || isDigits (unsigned (exponent.drop 1)))

def bareValue (cs : List Char) : Setting :=
  if isFraction cs then .fraction
  else
    match integer? cs with
    | some n => .integer n
    | none => .text (String.ofList cs)

def keyText (cs : List Char) : Option (String × List Char) :=
  match cs with
  | '"' :: rest => string? rest
  | _ =>
    let (name, rest) := cs.span isKeyChar
    if name.isEmpty then none else some (String.ofList name, rest)

mutual
def value : Nat → List Char → Option (Setting × List Char)
  | 0, _ => none
  | fuel + 1, cs => do
    let (found, rest) ← match skipBlanks cs with
      | 't' :: 'r' :: 'u' :: 'e' :: rest => some (Setting.flag true, rest)
      | 'f' :: 'a' :: 'l' :: 's' :: 'e' :: rest => some (.flag false, rest)
      | '\x7b' :: rest => do
        let (members, rest) ← members fuel rest
        some (.table members, rest)
      | '[' :: rest => do
        let (items, rest) ← items fuel rest
        some (.list items, rest)
      | '"' :: rest => (string? rest).map fun (s, rest) => (.text s, rest)
      | '\'' :: c :: '\'' :: rest => some (.text (String.ofList [c]), rest)
      | '\'' :: _ => none
      | rest =>
        let (bare, rest) := rest.span fun c => !isSeparator c
        some (bareValue (Text.trim bare), rest)
    some (found, skipBlanks rest)

/-- The items of a list up to its end. Only right after the opening bracket or a comma does the
closing bracket end a list; after a blank there it ends an empty string. -/
def items : Nat → List Char → Option (List Setting × List Char)
  | 0, _ => none
  | fuel + 1, cs =>
    match cs with
    | ']' :: rest => some ([], rest)
    | _ => do
      let (x, rest) ← value fuel cs
      match rest with
      | ',' :: rest => do
        let (xs, rest) ← items fuel rest
        some (x :: xs, rest)
      | ']' :: rest => some ([x], rest)
      | _ => none

def members : Nat → List Char → Option (Setting.Members × List Char)
  | 0, _ => none
  | fuel + 1, cs =>
    match cs with
    | '\x7d' :: rest => some ([], rest)
    | _ => do
      let (name, rest) ← keyText (skipBlanks cs)
      match skipBlanks rest with
      | '=' :: rest => do
        let (x, rest) ← value fuel rest
        let (more, rest) ← match rest with
          | ',' :: rest => members fuel rest
          | '\x7d' :: rest => some ([], rest)
          | _ => none
        some (if (Setting.member? name more).isSome then more else (name, x) :: more, rest)
      | _ => none
end

/-- What a text sets; a text that is no value as a whole is a string as it is. -/
def settingOf (text : String) : Setting :=
  match value (text.length + 1) text.toList with
  | some (found, []) => found
  | _ => .text text

def pointed : List Char → List Char
  | '_' :: '_' :: rest => '.' :: pointed rest
  | c :: rest => c :: pointed rest
  | [] => []

def pathNames? (cs : List Char) : Option (List String) :=
  let names := (String.ofList cs).splitOn "."
  if names.contains "" then none else some names

def path? (start name : String) : Option (List String) :=
  let start := start.toLower.toList
  let name := Text.trim name.toLower.toList
  if start.isPrefixOf name then pathNames? (Text.trim (pointed (name.drop start.length))) else none

/-- The settings of the variables with a prefix; of two variables for one path the later counts. -/
def settings (start : String) (assigned : Variables) : Setting :=
  let found := assigned.filterMap fun v =>
    (path? start v.1).map fun path => Setting.nested path (settingOf v.2)
  found.foldl Setting.merge (.table [])

end Wiring.Environment
