import Wiring.Instant
import Wiring.Number.Shortest
import Wiring.Settings.Tree
import Wiring.Text.Escape

/-! # Settings files

A settings file is a document of tables, key-value lines and comments. A key is defined once: a
table by one header, a value by one line; dotted keys make tables that headers do not extend and
the other way round. Strings, integers, booleans, arrays, inline tables and table arrays are read
in full, to a bounded depth; fractions and dates are only checked, for their form and their range.
-/
namespace Wiring.Toml

inductive Entry where
  | value (value : Setting)
  /-- A table, whether it only arose on the way to another one, and whether dotted keys made it. -/
  | table (implicit dotted : Bool) (members : List (String × Entry))
  | tables (elements : List (List (String × Entry)))

abbrev Entries := List (String × Entry)

def lookup (name : String) (entries : Entries) : Option Entry :=
  (entries.find? fun e => e.1 = name).map Prod.snd

def replace (name : String) (entry : Entry) (entries : Entries) : Entries :=
  entries.map fun e => if e.1 = name then (name, entry) else e

/-- Changes the table that a path leads to, making tables on the way. `dotted` tells a dotted key
from a header. -/
def update (dotted : Bool) (change : Bool → Entries → Option Entries) :
    List String → Bool → Entries → Option Entries
  | [], isDotted, entries => change isDotted entries
  | name :: rest, _, entries =>
    match lookup name entries with
    | none => do
      let inner ← update dotted change rest dotted []
      some (entries ++ [(name, .table true dotted inner)])
    | some (.value _) => none
    | some (.tables elements) => do
      let inner ← update dotted change rest false (← elements.getLast?)
      some (replace name (.tables (elements.dropLast ++ [inner])) entries)
    | some (.table implicit isDotted inner) =>
      if dotted && !implicit then none
      else do
        let inner ← update dotted change rest isDotted inner
        some (replace name (.table implicit isDotted inner) entries)

def define (path : List String) (name : String) (value : Setting) (isDotted : Bool)
    (entries : Entries) : Option Entries :=
  let add (isDotted : Bool) (entries : Entries) : Option Entries :=
    if isDotted == path.isEmpty || (lookup name entries).isSome then none
    else some (entries ++ [(name, .value value)])
  update true add path isDotted entries

def openTable (path : List String) (name : String) (entries : Entries) : Option Entries :=
  let add (_ : Bool) (entries : Entries) : Option Entries :=
    match lookup name entries with
    | none => some (entries ++ [(name, .table false false [])])
    | some (.table true false inner) => some (replace name (.table false false inner) entries)
    | some _ => none
  update false add path false entries

/-- Opens the next table of a table array. -/
def openElement (path : List String) (name : String) (entries : Entries) : Option Entries :=
  let add (_ : Bool) (entries : Entries) : Option Entries :=
    match lookup name entries with
    | none => some (entries ++ [(name, .tables [[]])])
    | some (.tables elements) => some (replace name (.tables (elements ++ [[]])) entries)
    | some _ => none
  update false add path false entries

mutual
def Entry.setting : Entry → Setting
  | .value value => value
  | .table _ _ members => .table (settings members)
  | .tables elements => .list (elementSettings elements)

def settings : List (String × Entry) → List (String × Setting)
  | [] => []
  | (name, entry) :: rest => (name, entry.setting) :: settings rest

def elementSettings : List (List (String × Entry)) → List Setting
  | [] => []
  | entries :: rest => .table (settings entries) :: elementSettings rest
end

def isBlank (c : Char) : Bool := c = ' ' || c = '\t'
def skipBlanks (cs : List Char) : List Char := cs.dropWhile isBlank

def isBareKey (c : Char) : Bool := c.isAlphanum || c = '_' || c = '-'

def newline? : List Char → Option (List Char)
  | '\n' :: rest => some rest
  | '\r' :: '\n' :: rest => some rest
  | _ => none

def skipComment : List Char → List Char
  | '#' :: rest => rest.dropWhile Text.isPrintable
  | cs => cs

def endLine (cs : List Char) : Option (List Char) :=
  match skipComment (skipBlanks cs) with
  | [] => some []
  | rest => newline? rest

def skipFiller : Nat → List Char → List Char
  | 0, cs => cs
  | fuel + 1, cs =>
    let rest := skipComment (skipBlanks cs)
    match newline? rest with
    | some rest => skipFiller fuel rest
    | none => rest

def basicString : Nat → List Char → Option (List Char × List Char)
  | 0, _ => none
  | _ + 1, [] => none
  | _ + 1, '"' :: rest => some ([], rest)
  | fuel + 1, '\\' :: rest => do
    let (c, rest) ← Text.escape? rest
    let (s, rest) ← basicString fuel rest
    some (c :: s, rest)
  | fuel + 1, c :: rest =>
    if Text.isPrintable c then do
      let (s, rest) ← basicString fuel rest
      some (c :: s, rest)
    else none

def literalString (cs : List Char) : Option (List Char × List Char) :=
  let (s, rest) := cs.span fun c => Text.isPrintable c && c ≠ '\''
  match rest with
  | '\'' :: rest => some (s, rest)
  | _ => none

def skipLineEnds : Nat → List Char → List Char
  | 0, cs => cs
  | fuel + 1, cs =>
    match newline? (skipBlanks cs) with
    | some rest => skipLineEnds fuel rest
    | none => skipBlanks cs

/-- What follows a backslash at the end of a line: all blanks and line ends are dropped. -/
def foldedLine (cs : List Char) : Option (List Char) := do
  let rest ← newline? (skipBlanks cs)
  some (skipLineEnds (rest.length + 1) rest)

/-- The rest of a string of several lines with the given quote; basic strings have escapes. -/
def multilineString (quote : Char) : Nat → List Char → Option (List Char × List Char)
  | 0, _ => none
  | fuel + 1, cs =>
    let quotes := cs.takeWhile (· = quote)
    if 3 ≤ quotes.length then
      if quotes.length ≤ 5 then some (quotes.drop 3, cs.drop quotes.length) else none
    else
      match cs with
      | [] => none
      | '\r' :: '\n' :: rest => do
        let (s, rest) ← multilineString quote fuel rest
        some ('\n' :: s, rest)
      | '\\' :: rest =>
        if quote = '\'' then do
          let (s, rest) ← multilineString quote fuel rest
          some ('\\' :: s, rest)
        else
          match foldedLine rest with
          | some rest => multilineString quote fuel rest
          | none => do
            let (c, rest) ← Text.escape? rest
            let (s, rest) ← multilineString quote fuel rest
            some (c :: s, rest)
      | c :: rest =>
        if Text.isPrintable c || c = '\n' then do
          let (s, rest) ← multilineString quote fuel rest
          some (c :: s, rest)
        else none

def multilineStart (cs : List Char) : List Char := (newline? cs).getD cs

def simpleKey (cs : List Char) : Option (String × List Char) :=
  match cs with
  | '"' :: rest => (basicString (rest.length + 1) rest).map fun (s, rest) => (String.ofList s, rest)
  | '\'' :: rest => (literalString rest).map fun (s, rest) => (String.ofList s, rest)
  | _ =>
    let (s, rest) := cs.span isBareKey
    if s.isEmpty then none else some (String.ofList s, rest)

/-- Values stand in fewer than so many arrays and inline tables, and a key has fewer than so many
parts. -/
def maxDepth : Nat := 80

def keyParts : Nat → List Char → Option (List String × List Char)
  | 0, _ => none
  | fuel + 1, cs => do
    let (name, rest) ← simpleKey (skipBlanks cs)
    match skipBlanks rest with
    | '.' :: rest => do
      let (path, rest) ← keyParts fuel rest
      some (name :: path, rest)
    | rest => some ([name], rest)

def keyPath (cs : List Char) : Option (List String × List Char) := do
  let (path, rest) ← keyParts (cs.length + 1) cs
  if path.length < maxDepth then some (path, rest) else none

def plainDigits (isDigit : Char → Bool) : List Char → Option (List Char)
  | [] => none
  | c :: rest =>
    if isDigit c then
      match rest with
      | [] => some [c]
      | '_' :: rest => (plainDigits isDigit rest).map (c :: ·)
      | rest => (plainDigits isDigit rest).map (c :: ·)
    else none

def valueOf (base : Nat) (digits : List Char) : Nat :=
  digits.foldl (fun n c => n * base + (Text.hexValue? c).getD 0) 0

def ofRange (n : Int) : Option Setting :=
  if Signed64 n then some (.integer n) else none

def isDigitOf (base : Nat) (c : Char) : Bool :=
  match Text.hexValue? c with
  | some d => d < base
  | none => false

def inBase (base : Nat) (cs : List Char) : Option Setting := do
  let digits ← plainDigits (isDigitOf base) cs
  ofRange (valueOf base digits)

/-- Decimal digits without a leading zero. -/
def decimalDigits (cs : List Char) : Option (List Char) := do
  let digits ← plainDigits Char.isDigit cs
  if digits.head? = some '0' ∧ digits.length ≠ 1 then none else some digits

def unsigned (cs : List Char) : Bool × List Char :=
  match cs with
  | '-' :: rest => (true, rest)
  | '+' :: rest => (false, rest)
  | _ => (false, cs)

def exponent? (cs : List Char) : Option Int := do
  let (negative, body) := unsigned cs
  let n : Int := valueOf 10 (← plainDigits Char.isDigit body)
  some (if negative then -n else n)

/-- Whether a number is beyond all doubles. Its count of digits tells unless it is close. -/
def overflows (d : Decimal) : Bool :=
  let magnitude : Int := (Nat.toDigits 10 d.digits).length + d.power
  if d.digits = 0 ∨ magnitude < 300 then false
  else if 400 < magnitude then true
  else (d.toDouble false).isNone

def fraction (cs : List Char) : Option Setting := do
  let (negative, body) := unsigned cs
  if body = ['i', 'n', 'f'] ∨ body = ['n', 'a', 'n'] then some .fraction
  else
    let (mantissa, tail) := body.span fun c => c ≠ 'e' && c ≠ 'E'
    let (whole, places) := mantissa.span (· ≠ '.')
    let wholeDigits ← decimalDigits whole
    let placeDigits ← if places = [] then some [] else plainDigits Char.isDigit (places.drop 1)
    let power ← if tail = [] then some 0 else exponent? (tail.drop 1)
    let magnitude : Decimal :=
      ⟨valueOf 10 (wholeDigits ++ placeDigits), power - placeDigits.length⟩
    if !negative && overflows magnitude then none else some .fraction

def twoDigits (low high : Nat) : List Char → Option (Nat × List Char)
  | a :: b :: rest =>
    let n := valueOf 10 [a, b]
    if a.isDigit ∧ b.isDigit ∧ low ≤ n ∧ n ≤ high then some (n, rest) else none
  | _ => none

def expect (c : Char) : List Char → Option (List Char)
  | d :: rest => if c = d then some rest else none
  | [] => none

def date (cs : List Char) : Option (List Char) := do
  let (century, rest) ← twoDigits 0 99 cs
  let (year, rest) ← twoDigits 0 99 rest
  let (month, rest) ← twoDigits 1 12 (← expect '-' rest)
  let (_, rest) ← twoDigits 1 (Instant.daysInMonth (century * 100 + year) month) (← expect '-' rest)
  some rest

def time (cs : List Char) : Option (List Char) := do
  let (_, rest) ← twoDigits 0 23 cs
  let (_, rest) ← twoDigits 0 59 (← expect ':' rest)
  let (_, rest) ← twoDigits 0 60 (← expect ':' rest)
  match rest with
  | '.' :: rest =>
    let places := rest.takeWhile Char.isDigit
    if places.isEmpty then none else some (rest.drop places.length)
  | rest => some rest

def offset (cs : List Char) : Option (List Char) :=
  match cs with
  | 'Z' :: rest => some rest
  | 'z' :: rest => some rest
  | c :: rest =>
    if c = '+' || c = '-' then do
      let (_, rest) ← twoDigits 0 23 rest
      let (_, rest) ← twoDigits 0 59 (← expect ':' rest)
      some rest
    else some (c :: rest)
  | [] => some []

def isDateTime (cs : List Char) : Bool :=
  match date cs with
  | some [] => true
  | some (c :: rest) =>
    (c = 'T' || c = 't' || c = ' ') && (time rest).bind offset == some []
  | none => time cs == some []

/-- A date or time as a setting: a table whose one member names nothing. -/
def dateTime (cs : List Char) : Setting := .table [("date and time", .text (String.ofList cs))]

def isWordChar (c : Char) : Bool := c.isAlphanum || c = '+' || c = '-' || c = '_' || c = '.' || c = ':'

/-- The characters of a bare value; a date may go on after one blank. -/
def word (cs : List Char) : List Char × List Char :=
  let (first, rest) := cs.span isWordChar
  match rest with
  | ' ' :: d :: more =>
    if date first = some [] ∧ d.isDigit then
      let (second, rest) := (d :: more).span isWordChar
      (first ++ ' ' :: second, rest)
    else (first, rest)
  | _ => (first, rest)

def bareValue (cs : List Char) : Option Setting :=
  match cs with
  | ['t', 'r', 'u', 'e'] => some (.flag true)
  | ['f', 'a', 'l', 's', 'e'] => some (.flag false)
  | '0' :: 'x' :: rest => inBase 16 rest
  | '0' :: 'o' :: rest => inBase 8 rest
  | '0' :: 'b' :: rest => inBase 2 rest
  | _ =>
    let (negative, body) := unsigned cs
    match decimalDigits body with
    | some digits =>
      let n : Int := valueOf 10 digits
      ofRange (if negative then -n else n)
    | none => if isDateTime cs then some (dateTime cs) else fraction cs

def text : List Char × List Char → Setting × List Char
  | (s, rest) => (.text (String.ofList s), rest)

mutual
/-- A value at the start of a text, in which arrays and inline tables go `depth` deep. -/
def value : Nat → Nat → List Char → Option (Setting × List Char)
  | 0, _, _ => none
  | fuel + 1, depth, cs =>
    match cs with
    | '"' :: '"' :: '"' :: rest =>
      (multilineString '"' (rest.length + 1) (multilineStart rest)).map text
    | '\'' :: '\'' :: '\'' :: rest =>
      (multilineString '\'' (rest.length + 1) (multilineStart rest)).map text
    | '"' :: rest => (basicString (rest.length + 1) rest).map text
    | '\'' :: rest => (literalString rest).map text
    | '[' :: rest =>
      match depth with
      | 0 => none
      | depth + 1 => do
        let (xs, rest) ← items fuel depth (skipFiller rest.length rest)
        some (.list xs, rest)
    | '\x7b' :: rest =>
      match depth, skipBlanks rest with
      | 0, _ => none
      | _, '\x7d' :: rest => some (.table [], rest)
      | depth + 1, rest => do
        let (entries, rest) ← inlineMembers fuel depth [] rest
        some (.table (settings entries), rest)
    | _ =>
      let (bare, rest) := word cs
      (bareValue bare).map fun v => (v, rest)

def items : Nat → Nat → List Char → Option (List Setting × List Char)
  | 0, _, _ => none
  | fuel + 1, depth, cs =>
    match cs with
    | ']' :: rest => some ([], rest)
    | _ => do
      let (x, rest) ← value fuel depth cs
      match skipFiller rest.length rest with
      | ',' :: rest => do
        let (xs, rest) ← items fuel depth (skipFiller rest.length rest)
        some (x :: xs, rest)
      | ']' :: rest => some ([x], rest)
      | _ => none

def inlineMembers : Nat → Nat → Entries → List Char → Option (Entries × List Char)
  | 0, _, _, _ => none
  | fuel + 1, depth, entries, cs => do
    let (path, rest) ← keyPath cs
    let rest ← expect '=' rest
    let (x, rest) ← value fuel depth (skipBlanks rest)
    let entries ← define path.dropLast (← path.getLast?) x false entries
    match skipBlanks rest with
    | ',' :: rest => inlineMembers fuel depth entries rest
    | '\x7d' :: rest => some (entries, rest)
    | _ => none
end

/-- What has been read: all entries, and the path of the table that lines now belong to. -/
structure Progress where
  entries : Entries
  current : List String

def keyValue (p : Progress) (cs : List Char) : Option (Progress × List Char) := do
  let (path, rest) ← keyPath cs
  let rest ← expect '=' rest
  let (x, rest) ← value (rest.length + 1) (maxDepth - 1) (skipBlanks rest)
  let rest ← endLine rest
  let name ← path.getLast?
  let entries ← update false (define path.dropLast name x) p.current false p.entries
  some ({ p with entries := entries }, rest)

def header (p : Progress) (isArray : Bool) (cs : List Char) : Option (Progress × List Char) := do
  let (path, rest) ← keyPath cs
  let rest ← expect ']' rest
  let rest ← if isArray then expect ']' rest else some rest
  let rest ← endLine rest
  let name ← path.getLast?
  let openIt := if isArray then openElement else openTable
  let entries ← openIt path.dropLast name p.entries
  some (⟨entries, path⟩, rest)

/-- One line after another; every line takes at least one character. -/
def lines : Nat → Progress → List Char → Option Progress
  | 0, p, cs => if cs.isEmpty then some p else none
  | fuel + 1, p, cs =>
    match skipBlanks cs with
    | [] => some p
    | '[' :: '[' :: rest => do
      let (p, rest) ← header p true rest
      lines fuel p rest
    | '[' :: rest => do
      let (p, rest) ← header p false rest
      lines fuel p rest
    | rest =>
      match endLine rest with
      | some rest => lines fuel p rest
      | none => do
        let (p, rest) ← keyValue p rest
        lines fuel p rest

def read (document : String) : Option Setting.Members := do
  let cs := match document.toList with
    | '\ufeff' :: rest => rest
    | cs => cs
  let p ← lines cs.length ⟨[], []⟩ cs
  some (settings p.entries)

def isControl (c : Char) : Bool := c.toNat < 32 && c ≠ '\t' && c ≠ '\n' || c.toNat = 127

def escaped (multiline : Bool) (c : Char) : List Char :=
  if c = '\\' then ['\\', '\\']
  else if c = '\x08' then ['\\', 'b']
  else if c = '\t' then ['\\', 't']
  else if c = '\n' then if multiline then [c] else ['\\', 'n']
  else if c = '\x0c' then ['\\', 'f']
  else if c = '\r' then ['\\', 'r']
  else if isControl c then
    ['\\', 'u', '0', '0', Text.upperHexDigit (c.toNat / 16), Text.upperHexDigit (c.toNat % 16)]
  else [c]

/-- The inside of a basic string. Of quotes in a row, `quotes` so far, two stand in several lines as
they are, and none in one line. -/
def basicChars (multiline : Bool) (quotes : Nat) : List Char → List Char
  | [] => []
  | c :: rest =>
    if c = '"' then
      if quotes < (if multiline then 2 else 0) then c :: basicChars multiline (quotes + 1) rest
      else '\\' :: c :: basicChars multiline 0 rest
    else escaped multiline c ++ basicChars multiline 0 rest

def longestRun (c : Char) (cs : List Char) : Nat :=
  (cs.foldl (fun (run, best) d => if c = d then (run + 1, max best (run + 1)) else (0, best)) (0, 0)).2

/-- The forms of a string. -/
inductive Form where
  | basic
  | literal
  | basicLines
  | literalLines

/-- The plainest form that can hold a string: between double quotes, between single quotes, the same
over several lines, and last the forms that need escapes. -/
def form (cs : List Char) : Form :=
  let newlines := cs.any (· = '\n')
  let controls := cs.any isControl
  let backslashes := cs.any (· = '\\')
  let doubles := longestRun '"' cs
  let singles := longestRun '\'' cs
  if !controls && !backslashes && doubles = 0 && !newlines then .basic
  else if !controls && singles = 0 && !newlines then .literal
  else if !controls && !backslashes && doubles < 3 then .basicLines
  else if !controls && singles < 3 then .literalLines
  else if newlines then .basicLines
  else .basic

def quoted (s : String) : List Char :=
  let cs := s.toList
  let opening := if cs.any (· = '\n') then ['\n'] else []
  match form cs with
  | .basic => '"' :: basicChars false 0 cs ++ ['"']
  | .literal => '\'' :: cs ++ ['\'']
  | .basicLines => ['"', '"', '"'] ++ opening ++ basicChars true 0 cs ++ ['"', '"', '"']
  | .literalLines => ['\'', '\'', '\''] ++ opening ++ cs ++ ['\'', '\'', '\'']

def valueChars : Setting → Option (List Char)
  | .flag b => some (toString b).toList
  | .integer n => some (toString n).toList
  | .text s => some (quoted s)
  | _ => none

def lineChars : String × Setting → Option (List Char)
  | (_, .nothing) => some []
  | (name, value) => do some (name.toList ++ [' ', '=', ' '] ++ (← valueChars value) ++ ['\n'])

def tableChars (name : String) (members : Setting.Members) : Option (List Char) := do
  let lines ← members.mapM lineChars
  some ('[' :: name.toList ++ [']', '\n'] ++ lines.flatten)

def sectionChars : String × Setting → Option (List Char)
  | (name, .table members) => tableChars name members
  | _ => none

/-- A document of tables with an empty line between them; nothing if it holds what is not written. -/
def write (tables : Setting.Members) : Option String := do
  some (String.ofList (['\n'].intercalate (← tables.mapM sectionChars)))

end Wiring.Toml
