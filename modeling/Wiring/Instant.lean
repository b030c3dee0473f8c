import Wiring.Number.Power
import Wiring.Text.Blank

/-! # Instants

An instant is a count of days since 1970-01-01, a second of the day and a nanosecond, in universal
time. A nanosecond of a thousand million or more is a leap second. Texts follow the common internet
profile: date, time and offset; reading is lenient about blanks and missing leading zeros.
-/
namespace Wiring

structure Instant where
  day : Int
  second : Nat
  nanosecond : Nat
  deriving DecidableEq, Repr, Inhabited

namespace Instant

def epoch : Instant := ⟨0, 0, 0⟩

def isLeapYear (year : Int) : Bool := year % 4 = 0 && (year % 100 ≠ 0 || year % 400 = 0)

def daysInMonth (year : Int) (month : Nat) : Nat :=
  if month = 2 then if isLeapYear year then 29 else 28
  else if month = 4 || month = 6 || month = 9 || month = 11 then 30
  else 31

/-- Days from 1970-01-01, counted in years that start in March. -/
def dayOfDate (year : Int) (month day : Nat) : Int :=
  let y := if month ≤ 2 then year - 1 else year
  let era := y.fdiv 400
  let yearOfEra := y - era * 400
  let monthFromMarch : Int := (month + 9) % 12
  let dayOfYear := (153 * monthFromMarch + 2) / 5 + day - 1
  let dayOfEra := yearOfEra * 365 + yearOfEra / 4 - yearOfEra / 100 + dayOfYear
  era * 146097 + dayOfEra - 719468

def dateOfDay (day : Int) : Int × Nat × Nat :=
  let z := day + 719468
  let era := z.fdiv 146097
  let dayOfEra := z - era * 146097
  let yearOfEra := (dayOfEra - dayOfEra / 1460 + dayOfEra / 36524 - dayOfEra / 146096) / 365
  let dayOfYear := dayOfEra - (365 * yearOfEra + yearOfEra / 4 - yearOfEra / 100)
  let monthFromMarch := (5 * dayOfYear + 2) / 153
  let dayOfMonth := dayOfYear - (153 * monthFromMarch + 2) / 5 + 1
  let month := if monthFromMarch < 10 then monthFromMarch + 3 else monthFromMarch - 9
  let year := yearOfEra + era * 400 + (if month ≤ 2 then 1 else 0)
  (year, month.toNat, dayOfMonth.toNat)

def minYear : Int := -262143
def maxYear : Int := 262142

def padded (width n : Nat) : List Char :=
  let digits := Nat.toDigits 10 n
  List.replicate (width - digits.length) '0' ++ digits

/-- Years outside 0 to 9999 carry a sign. -/
def yearChars (year : Int) : List Char :=
  if 0 ≤ year ∧ year ≤ 9999 then padded 4 year.toNat
  else if year < 0 then '-' :: padded 4 year.natAbs
  else '+' :: padded 4 year.natAbs

/-- Three, six or nine digits, the fewest that are exact, and none for a whole second. -/
def fractionChars (nanosecond : Nat) : List Char :=
  if nanosecond = 0 then []
  else if nanosecond % 1000000 = 0 then '.' :: padded 3 (nanosecond / 1000000)
  else if nanosecond % 1000 = 0 then '.' :: padded 6 (nanosecond / 1000)
  else '.' :: padded 9 nanosecond

def dateChars (t : Instant) : List Char :=
  let (year, month, day) := dateOfDay t.day
  yearChars year ++ '-' :: padded 2 month ++ '-' :: padded 2 day

def dateText (t : Instant) : String := String.ofList t.dateChars

def chars (zone : List Char) (t : Instant) : List Char :=
  let leap := t.nanosecond / 1000000000
  t.dateChars ++ 'T' ::
    padded 2 (t.second / 3600) ++ ':' :: padded 2 (t.second / 60 % 60) ++ ':' ::
    padded 2 (t.second % 60 + leap) ++ fractionChars (t.nanosecond % 1000000000) ++ zone

def text (t : Instant) : String := String.ofList (t.chars ['Z'])

def offsetText (t : Instant) : String := String.ofList (t.chars ['+', '0', '0', ':', '0', '0'])

def skipBlanks (cs : List Char) : List Char := cs.dropWhile Text.isBlank

def natOf (digits : List Char) : Nat := digits.foldl (fun n c => n * 10 + (c.toNat - 48)) 0

def readNumber (width : Nat) (cs : List Char) : Option (Nat × List Char) :=
  let digits := (cs.take width).takeWhile Char.isDigit
  if digits.isEmpty then none else some (natOf digits, cs.drop digits.length)

def readField (low high : Nat) (cs : List Char) : Option (Nat × List Char) := do
  let (n, rest) ← readNumber 2 (skipBlanks cs)
  if low ≤ n ∧ n ≤ high then some (n, rest) else none

/-- Four digits at most, or any number of digits after a sign. -/
def readYear (cs : List Char) : Option (Int × List Char) := do
  match skipBlanks cs with
  | '-' :: rest =>
    let (n, rest) ← readNumber rest.length rest
    some (-(n : Int), rest)
  | '+' :: rest =>
    let (n, rest) ← readNumber rest.length rest
    some (n, rest)
  | rest =>
    let (n, rest) ← readNumber 4 rest
    some (n, rest)

def expect (c : Char) (cs : List Char) : Option (List Char) :=
  match skipBlanks cs with
  | d :: rest => if d = c then some rest else none
  | [] => none

/-- The first nine digits after the point count. -/
def readFraction : List Char → Option (Nat × List Char)
  | '.' :: rest =>
    let digits := rest.takeWhile Char.isDigit
    if digits.isEmpty then none
    else
      let kept := digits.take 9
      some (natOf kept * tenTo (9 - kept.length), rest.drop digits.length)
  | cs => some (0, cs)

def twoDigits : List Char → Option (Nat × List Char)
  | a :: b :: rest =>
    if a.isDigit && b.isDigit then some (natOf [a, b], rest) else none
  | _ => none

/-- Hours and minutes after the sign, with colons and blanks allowed between them. -/
def readOffsetDigits (cs : List Char) : Option (Nat × List Char) := do
  let (hours, rest) ← twoDigits cs
  let (minutes, rest) ← twoDigits (rest.dropWhile fun c => c = ':' || Text.isBlank c)
  let seconds := hours * 3600 + minutes * 60
  if minutes < 60 ∧ seconds < 86400 then some (seconds, rest) else none

def readOffset (cs : List Char) : Option (Int × List Char) :=
  match cs with
  | 'Z' :: rest => some (0, rest)
  | 'z' :: rest => some (0, rest)
  | '+' :: rest => (readOffsetDigits rest).map fun (seconds, rest) => ((seconds : Int), rest)
  | '-' :: rest => (readOffsetDigits rest).map fun (seconds, rest) => (-(seconds : Int), rest)
  | '\u2212' :: rest => (readOffsetDigits rest).map fun (seconds, rest) => (-(seconds : Int), rest)
  | u :: t :: c :: rest =>
    if u.toUpper = 'U' && t.toUpper = 'T' && c.toUpper = 'C' then some (0, rest) else none
  | _ => none

/-- The instant of a local date and time. -/
def ofLocal (year : Int) (month day hour minute second nanosecond : Nat) (offset : Int) :
    Option Instant :=
  if minYear ≤ year ∧ year ≤ maxYear ∧ day ≤ daysInMonth year month then
    let leap := if second = 60 then 1 else 0
    let total := (hour : Int) * 3600 + minute * 60 + (second - leap : Nat) - offset
    let utcDay := dayOfDate year month day + total.fdiv 86400
    let (utcYear, _, _) := dateOfDay utcDay
    if minYear ≤ utcYear ∧ utcYear ≤ maxYear then
      some ⟨utcDay, (total.fmod 86400).toNat, nanosecond + leap * 1000000000⟩
    else none
  else none

def ofChars? (cs : List Char) : Option Instant := do
  let (year, cs) ← readYear cs
  let cs ← expect '-' cs
  let (month, cs) ← readField 1 12 cs
  let cs ← expect '-' cs
  let (day, cs) ← readField 1 31 cs
  let cs ← match cs with
    | 'T' :: rest => some rest
    | 't' :: rest => some rest
    | ' ' :: rest => some rest
    | _ => none
  let (hour, cs) ← readField 0 23 cs
  let cs ← expect ':' cs
  let (minute, cs) ← readField 0 59 cs
  let cs ← expect ':' cs
  let (second, cs) ← readField 0 60 cs
  let (nanosecond, cs) ← readFraction cs
  let (offset, cs) ← readOffset (skipBlanks cs)
  if (skipBlanks cs).isEmpty then ofLocal year month day hour minute second nanosecond offset
  else none

def ofText? (text : String) : Option Instant := ofChars? text.toList

end Instant
end Wiring
