import Wiring.Instant
import Wiring.Proofs.Text.Digits

/-! # Instants survive as text

The date of a day gives the day back, and the text of an instant reads back as the instant. -/
namespace Wiring.Instant

/-- The parts of a day of an era of 400 years that start in March: a century, a group of four years, a year
of it and a day of that year. Only the last year of a group that has no common century year has a day more. -/
structure Split (day century group year rest : Int) : Prop where
  total : day = 36524 * century + 1461 * group + 365 * year + rest
  centuries : 0 ≤ century ∧ century ≤ 3
  groups : 0 ≤ group ∧ group ≤ 24
  years : 0 ≤ year ∧ year ≤ 3
  days : 0 ≤ rest ∧ rest ≤ 365
  leap : rest = 365 → year = 3 ∧ (group = 24 → century = 3)

theorem exists_split {day : Int} (low : 0 ≤ day) (high : day ≤ 146096) :
    ∃ century group year rest, Split day century group year rest := by
  obtain ⟨century, first, c⟩ : ∃ century first, day = 36524 * century + first ∧ 0 ≤ century ∧ century ≤ 3 ∧
      0 ≤ first ∧ first ≤ 36524 ∧ (first = 36524 → century = 3) := by
    by_cases last : day = 146096
    · exact ⟨3, 36524, by omega⟩
    · exact ⟨day / 36524, day % 36524, by omega⟩
  obtain ⟨group, second, g⟩ : ∃ group second, first = 1461 * group + second ∧ 0 ≤ group ∧ group ≤ 24 ∧
      0 ≤ second ∧ second ≤ 1460 := ⟨first / 1461, first % 1461, by omega⟩
  obtain ⟨year, rest, y⟩ : ∃ year rest, second = 365 * year + rest ∧ 0 ≤ year ∧ year ≤ 3 ∧ 0 ≤ rest ∧
      rest ≤ 365 ∧ (rest = 365 → year = 3) := by
    by_cases last : second = 1460
    · exact ⟨3, 365, by omega⟩
    · exact ⟨second / 365, second % 365, by omega⟩
  exact ⟨century, group, year, rest, by omega, by omega, by omega, by omega, by omega, by omega⟩

theorem Split.yearOfEra {day century group year rest : Int} (split : Split day century group year rest) :
    (day - day / 1460 + day / 36524 - day / 146096) / 365 = 100 * century + 4 * group + year := by
  obtain ⟨total, c, g, y, r, leap⟩ := split
  have groups : day / 1460 = 25 * century + group + (24 * century + group + 365 * year + rest) / 1460 := by
    omega
  have few : (24 * century + group + 365 * year + rest) / 1460 = 0 ∨
    (24 * century + group + 365 * year + rest) / 1460 = 1 ∧ year = 3 := by omega
  have inside : 1461 * group + 365 * year + rest ≤ 36523 ∨
      1461 * group + 365 * year + rest = 36524 ∧ century = 3 := by omega
  have centuries : day / 36524 - day / 146096 = century := by
    rcases inside with inside | ⟨last, rfl⟩
    · have own : day / 36524 = century := by omega
      have none : day / 146096 = 0 := by omega
      omega
    · have end' : day = 146096 := by omega
      subst end'
      rfl
  have whole : (day - day / 1460 + day / 36524 - day / 146096) =
      365 * (100 * century + 4 * group + year) + (rest -
        (24 * century + group + 365 * year + rest) / 1460) := by omega
  rw [whole]
  omega

theorem Split.dayOfYear {day century group year rest : Int} (split : Split day century group year rest)
    {yearOfEra : Int} (same : yearOfEra = 100 * century + 4 * group + year) :
    day - (365 * yearOfEra + yearOfEra / 4 - yearOfEra / 100) = rest := by
  obtain ⟨total, c, g, y, r, leap⟩ := split
  have fours : yearOfEra / 4 = 25 * century + group := by omega
  have hundreds : yearOfEra / 100 = century := by omega
  omega

/-- The month that the `n`-th day of such a year is in, counted from March, and its day there. -/
structure MonthDay (n month day : Int) : Prop where
  months : 0 ≤ month ∧ month ≤ 11
  days : 1 ≤ day ∧ day ≤ 31
  total : (153 * month + 2) / 5 + day - 1 = n
  short : month = 1 ∨ month = 3 ∨ month = 6 ∨ month = 8 → day ≤ 30
  last : month = 11 → day ≤ 29 ∧ (day = 29 → n = 365)

theorem monthDay {n : Int} (low : 0 ≤ n) (high : n ≤ 365) :
    MonthDay n ((5 * n + 2) / 153) (n - (153 * ((5 * n + 2) / 153) + 2) / 5 + 1) := by
  refine ⟨by omega, by omega, by omega, ?_, by omega⟩
  rintro (h | h | h | h) <;> rw [h] <;> omega

theorem Split.isLeapYear {day century group year : Int} (split : Split day century group year 365)
    (era : Int) :
    Instant.isLeapYear (100 * century + 4 * group + year + era * 400 + 1) = true := by
  obtain ⟨total, c, g, y, r, leap⟩ := split
  obtain ⟨rfl, common⟩ := leap rfl
  simp only [Instant.isLeapYear, Bool.and_eq_true, Bool.or_eq_true, decide_eq_true_eq]
  by_cases last : group = 24
  · have third := common last
    omega
  · omega

theorem dayOfDate_eq {era yearOfEra m d : Int} (year : 0 ≤ yearOfEra ∧ yearOfEra ≤ 399)
    (month : 0 ≤ m ∧ m ≤ 11) (day : 1 ≤ d) :
    dayOfDate (yearOfEra + era * 400 + (if (if m < 10 then m + 3 else m - 9) ≤ 2 then 1 else 0))
        (if m < 10 then m + 3 else m - 9).toNat d.toNat =
      era * 146097 + (yearOfEra * 365 + yearOfEra / 4 - yearOfEra / 100 + ((153 * m + 2) / 5 + d - 1)) -
        719468 := by
  have floor : ∀ a : Int, a.fdiv 400 = a / 400 := fun a => Int.fdiv_eq_ediv_of_nonneg a (by decide)
  have whole : (yearOfEra + era * 400) / 400 = era := by omega
  have counted : (d.toNat : Int) = d := by omega
  by_cases early : m < 10
  · have number : ((m + 3).toNat : Int) = m + 3 := by omega
    have late : ¬ m + 3 ≤ 2 := by omega
    have late' : ¬ (m + 3).toNat ≤ 2 := by omega
    have back : (m + 3 + 9) % 12 = m := by omega
    simp only [if_pos early, if_neg late, dayOfDate, if_neg late', floor, number, counted, back,
      Int.add_zero, whole, Int.add_sub_cancel]
  · have number : ((m - 9).toNat : Int) = m - 9 := by omega
    have first : m - 9 ≤ 2 := by omega
    have first' : (m - 9).toNat ≤ 2 := by omega
    have back : (m - 9 + 9) % 12 = m := by omega
    simp only [if_neg early, if_pos first, dayOfDate, if_pos first', floor, number, counted, back,
      Int.add_sub_cancel, whole]

theorem le_daysInMonth_february {year : Int} {d : Nat} (few : d ≤ 29)
    (leap : d = 29 → isLeapYear year = true) : d ≤ daysInMonth year 2 := by
  have length : daysInMonth year 2 = if isLeapYear year then 29 else 28 := rfl
  rw [length]
  cases isLeap : isLeapYear year with
  | true => exact few
  | false =>
    have common : d ≠ 29 := by
      intro full
      cases isLeap.symm.trans (leap full)
    change d ≤ 28
    omega

theorem le_daysInMonth {year : Int} {month d : Nat} (other : month ≠ 2) (few : d ≤ 31)
    (short : month = 4 ∨ month = 6 ∨ month = 9 ∨ month = 11 → d ≤ 30) : d ≤ daysInMonth year month := by
  unfold daysInMonth
  rw [if_neg other]
  simp only [Bool.or_eq_true, decide_eq_true_eq, or_assoc]
  by_cases h : month = 4 ∨ month = 6 ∨ month = 9 ∨ month = 11
  · rw [if_pos h]
    exact short h
  · rw [if_neg h]
    exact few

/-- The date of a day is one of the calendar, and the day is found back from it. -/
theorem dateOfDay_spec (day : Int) : ∃ year month d, dateOfDay day = (year, month, d) ∧
    1 ≤ month ∧ month ≤ 12 ∧ 1 ≤ d ∧ d ≤ 31 ∧ d ≤ daysInMonth year month ∧ dayOfDate year month d = day := by
  have floor : (day + 719468).fdiv 146097 = (day + 719468) / 146097 :=
    Int.fdiv_eq_ediv_of_nonneg _ (by decide)
  generalize counted : (day + 719468) / 146097 = era at floor
  have low : 0 ≤ day + 719468 - era * 146097 := by omega
  have high : day + 719468 - era * 146097 ≤ 146096 := by omega
  obtain ⟨century, group, year, rest, split⟩ := exists_split low high
  have ofEra := split.yearOfEra
  have ofYear := split.dayOfYear rfl
  have ofMonth := monthDay split.days.1 split.days.2
  have leap := fun last : rest = 365 => (last ▸ split).isLeapYear era
  have range : 0 ≤ 100 * century + 4 * group + year ∧ 100 * century + 4 * group + year ≤ 399 := by
    have c := split.centuries
    have g := split.groups
    have y := split.years
    omega
  generalize 100 * century + 4 * group + year = yearOfEra at ofEra ofYear leap range
  generalize months : (5 * rest + 2) / 153 = m at ofMonth
  generalize days : rest - (153 * m + 2) / 5 + 1 = d at ofMonth
  refine ⟨yearOfEra + era * 400 + (if (if m < 10 then m + 3 else m - 9) ≤ 2 then 1 else 0),
    (if m < 10 then m + 3 else m - 9).toNat, d.toNat, ?_, ?_, ?_, ?_, ?_, ?_, ?_⟩
  · simp only [dateOfDay, floor, ofEra, ofYear, months, days]
  · have bounds := ofMonth.months
    split_ifs <;> omega
  · have bounds := ofMonth.months
    split_ifs <;> omega
  · have bounds := ofMonth.days
    omega
  · have bounds := ofMonth.days
    omega
  · have bounds := ofMonth.months
    have few := ofMonth.days
    have short := ofMonth.short
    have last := ofMonth.last
    by_cases february : m = 11
    · subst february
      have number : (if (11 : Int) < 10 then (11 : Int) + 3 else 11 - 9).toNat = 2 := rfl
      rw [number]
      refine le_daysInMonth_february (by omega) fun full => leap ((last rfl).2 ?_)
      omega
    · refine le_daysInMonth ?_ (by omega) fun number => ?_
      · split_ifs <;> omega
      · split_ifs at number <;> omega
  · rw [dayOfDate_eq range ofMonth.months ofMonth.days.1, ofMonth.total]
    omega

theorem isDigit_padded (width n : Nat) {c : Char} (member : c ∈ padded width n) : c.isDigit = true := by
  rcases List.mem_append.mp member with zero | digit
  · rw [List.eq_of_mem_replicate zero]
    rfl
  · exact Text.isDigit_toDigits digit

theorem natOf_padded (width n : Nat) : natOf (padded width n) = n := by
  have zeros : ∀ count, (List.replicate count '0').foldl (fun n c => n * 10 + (c.toNat - 48)) 0 = 0 := by
    intro count
    induction count with
    | zero => rfl
    | succ count ih => exact ih
  rw [natOf, padded, List.foldl_append, zeros, Text.foldl_toDigits]

theorem length_padded {width n : Nat} (positive : 0 < width) (fits : n < tenTo width) :
    (padded width n).length = width := by
  have short := (Nat.length_toDigits_le_iff (b := 10) (by decide) positive).mpr fits
  simp only [padded, List.length_append, List.length_replicate]
  omega

theorem padded_head (width n : Nat) : ∃ c cs, padded width n = c :: cs ∧ c.isDigit = true := by
  have some : padded width n ≠ [] := by simp [padded]
  obtain ⟨c, cs, same⟩ := List.exists_cons_of_ne_nil some
  exact ⟨c, cs, same, isDigit_padded width n (by simp [same])⟩

theorem readNumber_padded (width n : Nat) (positive : 0 < width) (fits : n < tenTo width) (rest : List Char) :
    readNumber width (padded width n ++ rest) = some (n, rest) := by
  have length := length_padded positive fits
  have all : ∀ c ∈ padded width n, c.isDigit = true := fun c => isDigit_padded width n
  have taken : ((padded width n ++ rest).take width).takeWhile Char.isDigit = padded width n := by
    have whole := (Stops.nil Char.isDigit).takeWhile_append all
    rw [List.append_nil] at whole
    rw [List.take_left' length, whole]
  obtain ⟨c, cs, same, -⟩ := padded_head width n
  have some : (padded width n).isEmpty = false := by rw [same]; rfl
  simp only [readNumber, taken, some, natOf_padded, length]
  rw [List.drop_left' length]
  rfl

theorem readNumber_all (width n : Nat) {rest : List Char} (stops : Stops Char.isDigit rest) :
    readNumber (padded width n ++ rest).length (padded width n ++ rest) = some (n, rest) := by
  have all : ∀ c ∈ padded width n, c.isDigit = true := fun c => isDigit_padded width n
  obtain ⟨c, cs, same, -⟩ := padded_head width n
  have some : (padded width n).isEmpty = false := by rw [same]; rfl
  simp only [readNumber, List.take_length, stops.takeWhile_append all, some, natOf_padded]
  rw [List.drop_left' rfl]
  rfl

theorem skipBlanks_cons {c : Char} (h : Text.isBlank c = false) (rest : List Char) :
    skipBlanks (c :: rest) = c :: rest := (Stops.cons h rest).dropWhile_eq

theorem isBlank_digit {c : Char} (digit : c.isDigit = true) : Text.isBlank c = false := by
  have size := Char.isDigit_iff_toNat.mp digit
  have low : 48 ≤ c.toNat := size.1
  have high : c.toNat ≤ 57 := size.2
  simp only [Text.isBlank, Text.wideBlanks, Bool.or_eq_false_iff, Bool.and_eq_false_iff,
    decide_eq_false_iff_not, List.contains_eq_mem, List.mem_cons, List.not_mem_nil, or_false]
  omega

theorem skipBlanks_padded (width n : Nat) (rest : List Char) :
    skipBlanks (padded width n ++ rest) = padded width n ++ rest := by
  obtain ⟨c, cs, same, digit⟩ := padded_head width n
  rw [same]
  exact skipBlanks_cons (isBlank_digit digit) _

theorem readField_padded {low high n : Nat} (range : low ≤ n ∧ n ≤ high) (fits : n < 100) (rest : List Char) :
    readField low high (padded 2 n ++ rest) = some (n, rest) := by
  simp only [readField, skipBlanks_padded, readNumber_padded 2 n (by decide) fits rest,
    Option.bind_eq_bind, Option.bind_some, if_pos range]

theorem readYear_yearChars (year : Int) (rest : List Char) :
    readYear (yearChars year ++ '-' :: rest) = some (year, '-' :: rest) := by
  have stops : Stops Char.isDigit ('-' :: rest) := .cons rfl rest
  unfold yearChars
  by_cases four : 0 ≤ year ∧ year ≤ 9999
  · obtain ⟨c, cs, same, digit⟩ := padded_head 4 year.toNat
    have read := readNumber_padded 4 year.toNat (by decide) (show year.toNat < 10000 by omega) ('-' :: rest)
    have minus : c ≠ '-' := by
      rintro rfl
      cases digit
    have plus : c ≠ '+' := by
      rintro rfl
      cases digit
    have value : (year.toNat : Int) = year := by omega
    rw [if_pos four]
    rw [same] at read ⊢
    have dense : skipBlanks (c :: cs ++ '-' :: rest) = c :: cs ++ '-' :: rest :=
      skipBlanks_cons (isBlank_digit digit) _
    rw [readYear, dense]
    split
    case h_1 h => exact absurd (List.cons.inj h).1 minus
    case h_2 h => exact absurd (List.cons.inj h).1 plus
    case h_3 => simp only [read, Option.bind_eq_bind, Option.bind_some, value]
  · rw [if_neg four]
    by_cases negative : year < 0
    · have value : -(year.natAbs : Int) = year := by omega
      rw [if_pos negative]
      simp only [readYear, List.cons_append, skipBlanks_cons (c := '-') rfl, readNumber_all 4 _ stops,
        Option.bind_eq_bind, Option.bind_some, value]
    · have value : (year.natAbs : Int) = year := by omega
      rw [if_neg negative]
      simp only [readYear, List.cons_append, skipBlanks_cons (c := '+') rfl, readNumber_all 4 _ stops,
        Option.bind_eq_bind, Option.bind_some, value]

theorem readFraction_digits {width n : Nat} (few : (padded width n).length ≤ 9) {rest : List Char}
    (stops : Stops Char.isDigit rest) :
    readFraction ('.' :: padded width n ++ rest) = some (n * tenTo (9 - (padded width n).length), rest) := by
  have all : ∀ c ∈ padded width n, c.isDigit = true := fun c => isDigit_padded width n
  obtain ⟨c, cs, same, -⟩ := padded_head width n
  have some : (padded width n).isEmpty = false := by rw [same]; rfl
  simp only [List.cons_append, readFraction, stops.takeWhile_append all, some, List.take_of_length_le few,
    natOf_padded]
  rw [List.drop_left' rfl]
  rfl

/-- The fewest digits that are exact give the fraction back. -/
theorem readFraction_fractionChars {nanosecond : Nat} (small : nanosecond < 1000000000) {rest : List Char}
    (stops : Stops Char.isDigit rest) (ended : rest.head? ≠ some '.') :
    readFraction (fractionChars nanosecond ++ rest) = some (nanosecond, rest) := by
  unfold fractionChars
  by_cases none : nanosecond = 0
  · rw [if_pos none, none, List.nil_append, readFraction]
    intro rest' same
    rw [same] at ended
    exact ended rfl
  · rw [if_neg none]
    by_cases milli : nanosecond % 1000000 = 0
    · have length := length_padded (by decide) (show nanosecond / 1000000 < tenTo 3 by change _ < 1000; omega)
      have whole : nanosecond / 1000000 * tenTo (9 - 3) = nanosecond := by
        change nanosecond / 1000000 * 1000000 = nanosecond
        omega
      rw [if_pos milli, readFraction_digits (by omega) stops, length, whole]
    · rw [if_neg milli]
      by_cases micro : nanosecond % 1000 = 0
      · have length :=
          length_padded (by decide) (show nanosecond / 1000 < tenTo 6 by change _ < 1000000; omega)
        have whole : nanosecond / 1000 * tenTo (9 - 6) = nanosecond := by
          change nanosecond / 1000 * 1000 = nanosecond
          omega
        rw [if_pos micro, readFraction_digits (by omega) stops, length, whole]
      · have length := length_padded (by decide) (show nanosecond < tenTo 9 from small)
        have whole : nanosecond * tenTo (9 - 9) = nanosecond := Nat.mul_one nanosecond
        rw [if_neg micro, readFraction_digits (by omega) stops, length, whole]

/-- An instant of the calendar: its year is in range, and a leap second ends a minute. -/
structure Valid (t : Instant) : Prop where
  year : minYear ≤ (dateOfDay t.day).1 ∧ (dateOfDay t.day).1 ≤ maxYear
  second : t.second < 86400
  nanosecond : t.nanosecond < 1000000000 ∨ t.second % 60 = 59 ∧ t.nanosecond < 2000000000

theorem ofLocal_valid {t : Instant} (valid : t.Valid) {year : Int} {month d : Nat}
    (date : dateOfDay t.day = (year, month, d)) (length : d ≤ daysInMonth year month)
    (back : dayOfDate year month d = t.day) :
    ofLocal year month d (t.second / 3600) (t.second / 60 % 60) (t.second % 60 + t.nanosecond / 1000000000)
      (t.nanosecond % 1000000000) 0 = some t := by
  have range := valid.year
  have seconds := valid.second
  have fraction := valid.nanosecond
  have leap : (if t.second % 60 + t.nanosecond / 1000000000 = 60 then 1 else 0) =
      t.nanosecond / 1000000000 := by
    split <;> omega
  have total : ((t.second / 3600 : Nat) : Int) * 3600 + ((t.second / 60 % 60 : Nat) : Int) * 60 +
      ((t.second % 60 + t.nanosecond / 1000000000 - t.nanosecond / 1000000000 : Nat) : Int) - 0 =
        t.second := by omega
  have days : (t.second : Int).fdiv 86400 = 0 := by
    rw [Int.fdiv_eq_ediv_of_nonneg _ (by decide)]
    omega
  have rest : ((t.second : Int).fmod 86400).toNat = t.second := by
    rw [Int.fmod_eq_emod_of_nonneg _ (by decide)]
    omega
  have nanoseconds : t.nanosecond % 1000000000 + t.nanosecond / 1000000000 * 1000000000 = t.nanosecond := by
    omega
  rw [date] at range
  unfold ofLocal
  rw [if_pos ⟨range.1, range.2, length⟩]
  simp only [leap, total, days, rest, back, date, Int.add_zero, if_pos range, nanoseconds]

theorem ofText?_text {t : Instant} (valid : t.Valid) : ofText? t.text = some t := by
  obtain ⟨year, month, d, date, low, high, first, last, length, back⟩ := dateOfDay_spec t.day
  have seconds := valid.second
  have fraction := valid.nanosecond
  have zone : Stops Char.isDigit ['Z'] := .cons rfl []
  have months : ∀ rest, readField 1 12 (padded 2 month ++ rest) = some (month, rest) :=
    readField_padded ⟨low, high⟩ (by omega)
  have days : ∀ rest, readField 1 31 (padded 2 d ++ rest) = some (d, rest) :=
    readField_padded ⟨first, last⟩ (by omega)
  have hours : ∀ rest, readField 0 23 (padded 2 (t.second / 3600) ++ rest) = some (t.second / 3600, rest) :=
    readField_padded (by omega) (by omega)
  have minutes : ∀ rest, readField 0 59 (padded 2 (t.second / 60 % 60) ++ rest) =
      some (t.second / 60 % 60, rest) := readField_padded (by omega) (by omega)
  have whole : ∀ rest, readField 0 60 (padded 2 (t.second % 60 + t.nanosecond / 1000000000) ++ rest) =
      some (t.second % 60 + t.nanosecond / 1000000000, rest) := readField_padded (by omega) (by omega)
  have small : t.nanosecond % 1000000000 < 1000000000 := Nat.mod_lt _ (by decide)
  have nanosecond := readFraction_fractionChars small zone nofun
  have made := ofLocal_valid valid date length back
  have dash : ∀ rest, expect '-' ('-' :: rest) = some rest := fun _ => rfl
  have colon : ∀ rest, expect ':' (':' :: rest) = some rest := fun _ => rfl
  have offset : readOffset (skipBlanks ['Z']) = some (0, []) := rfl
  have ended : (skipBlanks []).isEmpty = true := rfl
  rw [ofText?, text, String.toList_ofList]
  simp only [chars, dateChars, date, List.append_assoc, List.cons_append]
  simp only [ofChars?, readYear_yearChars, Option.bind_eq_bind, Option.bind_some, dash, colon, months, days,
    hours, minutes, whole, nanosecond, offset, ended, made, if_true]

/-- A clock may show a leap second that does not end a minute. Its text is that of a moment of the second
that follows, so it is still the text of an instant of the calendar. -/
theorem exists_valid_text {t : Instant} (year : minYear ≤ (dateOfDay t.day).1 ∧ (dateOfDay t.day).1 ≤ maxYear)
    (second : t.second < 86400) (nanosecond : t.nanosecond < 2000000000) :
    ∃ t' : Instant, t'.Valid ∧ t'.text = t.text := by
  by_cases proper : t.nanosecond < 1000000000 ∨ t.second % 60 = 59
  · exact ⟨t, ⟨year, second, proper.imp_right fun ends => ⟨ends, nanosecond⟩⟩, rfl⟩
  · refine ⟨⟨t.day, t.second + 1, t.nanosecond - 1000000000⟩, ⟨year, ?_, .inl ?_⟩, ?_⟩
    · change t.second + 1 < 86400
      omega
    · change t.nanosecond - 1000000000 < 1000000000
      omega
    · have hour : (t.second + 1) / 3600 = t.second / 3600 := by omega
      have minute : (t.second + 1) / 60 % 60 = t.second / 60 % 60 := by omega
      have shown : (t.second + 1) % 60 + (t.nanosecond - 1000000000) / 1000000000 =
          t.second % 60 + t.nanosecond / 1000000000 := by omega
      have fraction : (t.nanosecond - 1000000000) % 1000000000 = t.nanosecond % 1000000000 := by omega
      simp only [text, chars, dateChars, hour, minute, shown, fraction]

end Wiring.Instant
