import Wiring.Proofs.Json.Strings
import Wiring.Proofs.SortedMap
import Wiring.Proofs.Text.Digits

/-! # Reading what was printed

The text of a literal without doubles reads back as that literal in either layout, whatever follows it. -/
namespace Wiring

namespace Source

/-- What may belong to a numeral that has begun with a digit. -/
def numeralChar (c : Char) : Bool := c.isDigit || c = '.' || c = 'e' || c = 'E'

theorem lt_of_isDigit {c : Char} (digit : c.isDigit = true) : c.toNat < 128 := by
  have range := Char.isDigit_iff_toNat.mp digit
  have last : '9'.toNat = 57 := rfl
  omega

theorem lt_of_numeralChar {c : Char} (part : numeralChar c = true) : c.toNat < 128 := by
  simp only [numeralChar, Bool.or_eq_true, decide_eq_true_eq] at part
  rcases part with ((digit | rfl) | rfl) | rfl
  · exact lt_of_isDigit digit
  all_goals decide

def digits (n : Nat) : List Nat := (Nat.toDigits 10 n).map fun c => c.toNat - 48

theorem stops_isDigit {rest : List Char} (stops : Stops numeralChar rest) : Stops Char.isDigit rest := by
  intro c first
  have other := stops c first
  simp only [numeralChar, Bool.or_eq_false_iff] at other
  exact other.1.1.1

theorem readSomeDigits_printed (n : Nat) {rest : List Char} (stops : Stops numeralChar rest) :
    readSomeDigits (Nat.toDigits 10 n ++ rest) = some (digits n, rest) := by
  have all : ∀ c ∈ Nat.toDigits 10 n, c.isDigit = true := fun c => Text.isDigit_toDigits
  have read : readDigits (Nat.toDigits 10 n ++ rest) = (digits n, rest) := by
    rw [readDigits, List.span_eq_takeWhile_dropWhile, (stops_isDigit stops).takeWhile_append all,
      (stops_isDigit stops).dropWhile_append all]
    rfl
  have some : digits n ≠ [] := by simp [digits]
  rw [readSomeDigits, read]
  cases found : digits n with
  | nil => exact absurd found some
  | cons d ds => rfl

theorem readFraction_stops {rest : List Char} (stops : Stops numeralChar rest) :
    readFraction rest = some (none, rest) := by
  cases rest with
  | nil => rfl
  | cons c rest =>
    have other := stops c rfl
    have point : c ≠ '.' := by
      rintro rfl
      cases other
    simp [readFraction, point]

theorem readExponent_stops {rest : List Char} (stops : Stops numeralChar rest) :
    readExponent rest = some (none, rest) := by
  cases rest with
  | nil => rfl
  | cons c rest =>
    have other := stops c rfl
    simp only [numeralChar, Bool.or_eq_false_iff, decide_eq_false_iff_not] at other
    simp [readExponent, other.1.2, other.2]

theorem no_leading_zero (n : Nat) (first : (digits n).head? = some 0) : (digits n).length = 1 := by
  obtain ⟨c, cs, same⟩ := List.exists_cons_of_ne_nil (Nat.toDigits_ne_nil (n := n) (b := 10))
  have digit : c.isDigit = true := Text.isDigit_toDigits (n := n) (by simp [same])
  have size := Char.isDigit_iff_toNat.mp digit
  have value : c.toNat - 48 = 0 := by simpa [digits, same] using first
  have zero : c = '0' := by
    apply Char.toNat_inj.mp
    have low : '0'.toNat ≤ c.toNat := size.1
    have codes : '0'.toNat = 48 := rfl
    omega
  have none : n = 0 := Text.eq_zero_of_head?_toDigits n (by simp [same, zero])
  rw [none]
  rfl

theorem readNumeral_printed (n : Integer) {rest : List Char} (stops : Stops numeralChar rest) :
    readNumeral (n.text ++ rest) =
      some (⟨decide (n.value < 0), digits n.value.natAbs, none, none⟩, rest) := by
  have whole := readSomeDigits_printed n.value.natAbs stops
  have leading := no_leading_zero n.value.natAbs
  unfold Integer.text Integer.digitsOf
  by_cases negative : n.value < 0
  · rw [if_pos negative]
    simpa [readNumeral, whole, readFraction_stops stops, readExponent_stops stops, negative] using leading
  · rw [if_neg negative]
    obtain ⟨c, cs, same⟩ := List.exists_cons_of_ne_nil
      (Nat.toDigits_ne_nil (n := n.value.natAbs) (b := 10))
    have digit : c.isDigit = true := Text.isDigit_toDigits (n := n.value.natAbs) (by simp [same])
    have unsigned : c ≠ '-' := by
      rintro rfl
      cases digit
    rw [same] at whole ⊢
    simp only [List.cons_append] at whole ⊢
    simpa [readNumeral, unsigned, whole, readFraction_stops stops, readExponent_stops stops,
      negative] using leading

theorem le_foldl_digits (n : Nat) (ds : List Nat) : n ≤ ds.foldl (fun n d => n * 10 + d) n := by
  induction ds generalizing n with
  | nil => exact Nat.le_refl n
  | cons d ds ih =>
    have grown := ih (n * 10 + d)
    rw [List.foldl_cons]
    omega

theorem absorb_eq {n : Nat} {ds : List Nat} (fits : ds.foldl (fun n d => n * 10 + d) n < twoTo 64) :
    Numeral.absorb n ds = (ds.foldl (fun n d => n * 10 + d) n, []) := by
  induction ds generalizing n with
  | nil => rfl
  | cons d ds ih =>
    have small := Nat.lt_of_le_of_lt (le_foldl_digits (n * 10 + d) ds) fits
    rw [Numeral.absorb, if_pos small, ih fits]
    rfl

theorem foldl_digits (n : Nat) : (digits n).foldl (fun n d => n * 10 + d) 0 = n := by
  rw [digits, List.foldl_map]
  exact Text.foldl_toDigits n

theorem value?_printed (n : Integer) :
    (⟨decide (n.value < 0), digits n.value.natAbs, none, none⟩ : Numeral).value? = some (.integer n) := by
  have range := n.inRange
  have word : twoTo 64 = 18446744073709551616 := rfl
  have fits : (digits n.value.natAbs).foldl (fun n d => n * 10 + d) 0 < twoTo 64 := by
    rw [foldl_digits, word]
    omega
  have whole := absorb_eq fits
  rw [foldl_digits] at whole
  have signed : (if n.value < 0 then -(n.value.natAbs : Int) else n.value.natAbs) = n.value := by
    split <;> omega
  have proper : (decide (n.value < 0) && decide (n.value.natAbs = 0)) = false := by
    rw [Bool.and_eq_false_iff, decide_eq_false_iff_not, decide_eq_false_iff_not]
    omega
  have inside : Integer.ofInt? n.value = some n := dif_pos range
  simp only [Numeral.value?, whole, Option.isNone_none, List.isEmpty_nil, Bool.and_self, if_true,
    decide_eq_true_eq, signed, inside, proper, Bool.false_eq_true, if_false]

mutual
/-- The tree of a literal, all of whose parts stand for a value. -/
def ofJson : Json → Source
  | .leaf s => .leaf (some s)
  | .array items => .array (ofItems items)
  | .object members => .object (ofMembers members)

def ofItems : List Json → List Source
  | [] => []
  | x :: rest => ofJson x :: ofItems rest

def ofMembers : List (String × Json) → List (String × Source)
  | [] => []
  | (k, x) :: rest => (k, ofJson x) :: ofMembers rest
end

theorem skipBlanks_append {blanks : List Char} (all : ∀ c ∈ blanks, isBlank c = true) (rest : List Char) :
    skipBlanks (blanks ++ rest) = skipBlanks rest := List.dropWhile_append_of_pos all

theorem skipBlanks_cons {c : Char} (h : isBlank c = false) (rest : List Char) :
    skipBlanks (c :: rest) = c :: rest := (Stops.cons h rest).dropWhile_eq

theorem eq_of_isBlank {c : Char} (blank : isBlank c = true) :
    c = ' ' ∨ c = '\n' ∨ c = '\t' ∨ c = '\r' := by
  simpa only [isBlank, Bool.or_eq_true, decide_eq_true_eq, or_assoc] using blank

theorem spell_blanks {blanks : List Char} (all : ∀ c ∈ blanks, isBlank c = true) : spell blanks = blanks := by
  refine spell_of_ascii fun c member => ?_
  rcases eq_of_isBlank (all c member) with rfl | rfl | rfl | rfl <;> decide

theorem readValue_blanks {blanks : List Char} (all : ∀ c ∈ blanks, isBlank c = true) (fuel room : Nat)
    (rest : List Char) : readValue fuel room (blanks ++ rest) = readValue fuel room rest := by
  cases fuel with
  | zero => rfl
  | succ fuel => simp only [readValue, skipBlanks_append all]

theorem readItems_blanks {blanks : List Char} (all : ∀ c ∈ blanks, isBlank c = true) (fuel room : Nat)
    (rest : List Char) : readItems fuel room (blanks ++ rest) = readItems fuel room rest := by
  cases fuel with
  | zero => rfl
  | succ fuel => simp only [readItems, readValue_blanks all]

theorem readMembers_blanks {blanks : List Char} (all : ∀ c ∈ blanks, isBlank c = true) (fuel room : Nat)
    (rest : List Char) : readMembers fuel room (blanks ++ rest) = readMembers fuel room rest := by
  cases fuel with
  | zero => rfl
  | succ fuel => simp only [readMembers, skipBlanks_append all]

theorem stops_numeral {blanks : List Char} (all : ∀ c ∈ blanks, isBlank c = true) {c : Char}
    (h : numeralChar c = false) (rest : List Char) : Stops numeralChar (blanks ++ c :: rest) := by
  cases blanks with
  | nil => exact .cons h rest
  | cons b blanks =>
    refine .cons ?_ _
    rcases eq_of_isBlank (all b List.mem_cons_self) with rfl | rfl | rfl | rfl <;> rfl

theorem readValue_numeral {c : Char} (first : c = '-' ∨ c.isDigit = true) (fuel room : Nat)
    (rest : List Char) : readValue (fuel + 1) room (c :: rest) =
      (readNumeral (c :: rest)).map fun (numeral, rest) => (.leaf (numeral.value?.map .number), rest) := by
  have apart : ∀ d ∈ [' ', '\n', '\t', '\r', '"', '[', '\x7b', 'n', 't', 'f'], c ≠ d := by
    rintro d member rfl
    rcases first with rfl | digit
    · exact absurd member (by decide)
    · revert digit
      simp only [List.mem_cons, List.not_mem_nil, or_false] at member
      rcases member with rfl | rfl | rfl | rfl | rfl | rfl | rfl | rfl | rfl | rfl <;> decide
  simp only [List.forall_mem_cons] at apart
  obtain ⟨space, newline, tab, carriage, quote, bracket, brace, n, t, f, -⟩ := apart
  have dense : skipBlanks (c :: rest) = c :: rest :=
    skipBlanks_cons (by simp [isBlank, space, newline, tab, carriage]) rest
  rw [readValue, dense]
  split
  case h_1 h => exact absurd (List.cons.inj h).1 quote
  case h_2 h => exact absurd (List.cons.inj h).1 bracket
  case h_3 h => exact absurd (List.cons.inj h).1 brace
  case h_4 h => exact absurd (List.cons.inj h).1 n
  case h_5 h => exact absurd (List.cons.inj h).1 t
  case h_6 h => exact absurd (List.cons.inj h).1 f
  case h_7 => cases readNumeral (c :: rest) <;> rfl

theorem Integer.text_head (n : Integer) : ∃ c cs, n.text = c :: cs ∧ (c = '-' ∨ c.isDigit = true) := by
  unfold Integer.text
  split
  · exact ⟨'-', _, rfl, .inl rfl⟩
  · obtain ⟨c, cs, same⟩ := List.exists_cons_of_ne_nil
      (Nat.toDigits_ne_nil (n := n.value.natAbs) (b := 10))
    exact ⟨c, cs, same, .inr (Text.isDigit_toDigits (n := n.value.natAbs) (by simp [same]))⟩

theorem spell_integer (n : Integer) : spell n.text = n.text := by
  refine spell_of_ascii fun c member => ?_
  have digits : ∀ c ∈ Integer.digitsOf n.value.natAbs, c.toNat < 128 :=
    fun c inside => lt_of_isDigit (Text.isDigit_toDigits inside)
  unfold Integer.text at member
  split_ifs at member
  · rcases List.mem_cons.mp member with rfl | inside
    · decide
    · exact digits c inside
  · exact digits c member

theorem spell_printString (s : String) : spell (Json.printString s) =
    '"' :: (spell (s.toList.flatMap Json.escapeChar) ++ ['"']) := by
  simp only [Json.printString, List.cons_append, spell_append, spell_cons (c := '"') (by decide)]
  rfl

theorem readValue_scalar {scalar : Scalar} (integral : Json.Integral (.leaf scalar)) (fuel room : Nat)
    {rest : List Char} (stops : Stops numeralChar rest) :
    readValue (fuel + 1) room (spell (Json.printScalar scalar) ++ rest) = some (.leaf (some scalar), rest) := by
  cases scalar with
  | null => rfl
  | bool b => cases b <;> rfl
  | string s =>
    have read := readString_printed s rest
    simp only [Json.printScalar, spell_printString, List.append_assoc, List.cons_append, List.nil_append]
    simp only [readValue, skipBlanks_cons (c := '"') rfl, read, Option.bind_eq_bind, Option.bind_some,
      Option.map_some]
  | number n =>
    cases n with
    | double d => exact integral.elim
    | integer n =>
      have read := readNumeral_printed n stops
      obtain ⟨c, cs, same, numeral⟩ := Integer.text_head n
      simp only [Json.printScalar, Number.text, spell_integer]
      rw [same] at read ⊢
      rw [List.cons_append] at read ⊢
      simp only [readValue_numeral numeral, read, Option.map_some, value?_printed]

end Source

/-- A layout that puts nothing but blanks between the parts of a text. -/
structure Json.Layout.Blank (layout : Json.Layout) : Prop where
  gap : ∀ level, ∀ c ∈ layout.gap level, Source.isBlank c = true
  colon : ∃ blanks, layout.colon = ':' :: blanks ∧ ∀ c ∈ blanks, Source.isBlank c = true

theorem Json.Layout.blank_compact : Json.Layout.compact.Blank := ⟨fun _ => nofun, [], rfl, nofun⟩

theorem Json.Layout.blank_indented : Json.Layout.indented.Blank := by
  refine ⟨fun level c member => ?_, [' '], rfl, fun c member => ?_⟩
  · rcases List.mem_cons.mp member with rfl | inside
    · rfl
    · rw [List.eq_of_mem_replicate inside]
      rfl
  · rw [List.mem_singleton.mp member]
    rfl

namespace Source
open Json

/-- The text of a literal begins with a mark that is no blank and closes nothing. -/
theorem print_head (layout : Layout) (level : Nat) {j : Json} (integral : j.Integral) :
    ∃ c cs, spell (print layout level j) = c :: cs ∧ isBlank c = false ∧ c ≠ ']' := by
  match j with
  | .leaf .null | .leaf (.bool true) | .leaf (.bool false) => exact ⟨_, _, rfl, rfl, by decide⟩
  | .leaf (.string s) => exact ⟨_, _, spell_cons (by decide) _, rfl, by decide⟩
  | .leaf (.number (.integer n)) =>
    obtain ⟨c, cs, same, numeral⟩ := Integer.text_head n
    refine ⟨c, cs, (spell_integer n).trans same, ?_, ?_⟩
    · rw [← Bool.not_eq_true]
      intro blank
      rcases eq_of_isBlank blank with rfl | rfl | rfl | rfl <;> simp at numeral
    · rintro rfl
      rcases numeral with same | digit
      · cases same
      · cases digit
  | .array [] | .array (_ :: _) | .object [] | .object ((_, _) :: _) =>
    exact ⟨_, _, spell_cons (by decide) _, rfl, by decide⟩

section
variable {layout : Layout} (blank : layout.Blank)
include blank

theorem spell_colon : spell layout.colon = layout.colon := by
  obtain ⟨blanks, colon, all⟩ := blank.colon
  rw [colon, spell_cons (by decide), spell_blanks all]

theorem spell_array (level : Nat) (x : Json) (items : List Json) :
    spell (print layout level (.array (x :: items))) = '[' :: (layout.gap (level + 1) ++
      (spell (print layout (level + 1) x) ++ (spell (printItems layout (level + 1) items) ++
        (layout.gap level ++ [']'])))) := by
  simp only [print, List.cons_append, List.append_assoc, spell_append, spell_cons (c := '[') (by decide),
    spell_cons (c := ']') (by decide), spell_blanks (blank.gap _)]
  rfl

theorem spell_items (level : Nat) (x : Json) (items : List Json) :
    spell (printItems layout level (x :: items)) = ',' :: (layout.gap level ++
      (spell (print layout level x) ++ spell (printItems layout level items))) := by
  simp only [printItems, List.cons_append, List.append_assoc, spell_append, spell_cons (c := ',') (by decide),
    spell_blanks (blank.gap _)]

theorem spell_object (level : Nat) (k : String) (x : Json) (members : List (String × Json)) :
    spell (print layout level (.object ((k, x) :: members))) = '\x7b' :: (layout.gap (level + 1) ++
      (spell (printString k) ++ (layout.colon ++ (spell (print layout (level + 1) x) ++
        (spell (printMembers layout (level + 1) members) ++ (layout.gap level ++ ['\x7d'])))))) := by
  simp only [print, List.cons_append, List.append_assoc, spell_append, spell_cons (c := '\x7b') (by decide),
    spell_cons (c := '\x7d') (by decide), spell_blanks (blank.gap _), spell_colon blank]
  rfl

theorem spell_members (level : Nat) (k : String) (x : Json) (members : List (String × Json)) :
    spell (printMembers layout level ((k, x) :: members)) = ',' :: (layout.gap level ++
      (spell (printString k) ++ (layout.colon ++ (spell (print layout level x) ++
        spell (printMembers layout level members))))) := by
  simp only [printMembers, List.cons_append, List.append_assoc, spell_append,
    spell_cons (c := ',') (by decide), spell_blanks (blank.gap _), spell_colon blank]

theorem readMembers_member (fuel room : Nat) (k : String) (cs : List Char) :
    readMembers (fuel + 1) room (spell (printString k) ++ (layout.colon ++ cs)) = (do
      let (x, rest) ← readValue fuel room cs
      match skipBlanks rest with
      | ',' :: rest => do
        let (members, rest) ← readMembers fuel room rest
        some (do some ((k, x) :: (← members)), rest)
      | '\x7d' :: rest => some (some [(k, x)], rest)
      | _ => none) := by
  obtain ⟨blanks, colon, all⟩ := blank.colon
  simp only [readMembers, spell_printString, colon, List.cons_append, List.append_assoc, List.nil_append,
    skipBlanks_cons (c := '"') rfl, readString_printed, Option.bind_eq_bind, Option.bind_some,
    skipBlanks_cons (c := ':') rfl, readValue_blanks all]
  rfl

mutual
/-- Whatever follows the text of a literal, it is read as the tree of the literal, if there is room for its
nesting. Every level and every item takes some of the fuel, and each of them at least one character. -/
theorem readValue_print (level fuel room : Nat) (rest : List Char) (stops : Stops numeralChar rest) :
    (j : Json) → j.Integral → j.depth ≤ room → 2 * (spell (print layout level j)).length ≤ fuel →
      readValue fuel room (spell (print layout level j) ++ rest) = some (ofJson j, rest)
  | .leaf scalar, integral, _, long => by
    obtain ⟨c, cs, same, -⟩ := print_head layout level integral
    rw [same, List.length_cons] at long
    obtain ⟨fuel, rfl⟩ : ∃ more, fuel = more + 1 := ⟨fuel - 1, by omega⟩
    exact readValue_scalar integral fuel room stops
  | .array [], _, deep, long => by
    obtain ⟨room, rfl⟩ : ∃ more, room = more + 1 := ⟨room - 1, by simp [Tree.depth] at deep; omega⟩
    obtain ⟨fuel, rfl⟩ : ∃ more, fuel = more + 1 := ⟨fuel - 1, by have enough : 4 ≤ fuel := long; omega⟩
    rfl
  | .array (x :: items), integral, deep, long => by
    have deeper : Tree.depthItems (x :: items) ≤ room - 1 ∧ room ≠ 0 := by
      simp only [Tree.depth] at deep
      omega
    simp only [spell_array blank, List.length_cons, List.length_append, List.cons_append, List.append_assoc,
      List.nil_append] at long ⊢
    obtain ⟨fuel, rfl⟩ : ∃ more, fuel = more + 1 := ⟨fuel - 1, by omega⟩
    obtain ⟨c, cs, same, dense, inner⟩ := print_head layout (level + 1) integral.1
    have inside := readItems_print (level + 1) fuel (room - 1) (layout.gap level) (blank.gap level) rest x
      items integral deeper.1 (by omega)
    have skipped : skipBlanks (layout.gap (level + 1) ++ (spell (print layout (level + 1) x) ++
        (spell (printItems layout (level + 1) items) ++ (layout.gap level ++ ']' :: rest)))) =
          c :: (cs ++ (spell (printItems layout (level + 1) items) ++ (layout.gap level ++ ']' :: rest))) := by
      rw [skipBlanks_append (blank.gap (level + 1)), same]
      exact skipBlanks_cons dense _
    rw [same, List.cons_append] at inside
    simp only [readValue, skipBlanks_cons (c := '[') rfl, skipped]
    split
    case h_1 h => exact absurd (List.cons.inj h).1 inner
    case h_2 =>
      simp only [inside, Option.bind_eq_bind, Option.bind_some, if_neg deeper.2]
      rfl
  | .object [], _, deep, long => by
    obtain ⟨room, rfl⟩ : ∃ more, room = more + 1 := ⟨room - 1, by simp [Tree.depth] at deep; omega⟩
    obtain ⟨fuel, rfl⟩ : ∃ more, fuel = more + 1 := ⟨fuel - 1, by have enough : 4 ≤ fuel := long; omega⟩
    rfl
  | .object ((k, x) :: members), integral, deep, long => by
    have deeper : Tree.depthMembers ((k, x) :: members) ≤ room - 1 ∧ room ≠ 0 := by
      simp only [Tree.depth] at deep
      omega
    simp only [spell_object blank, List.length_cons, List.length_append, List.cons_append, List.append_assoc,
      List.nil_append] at long ⊢
    obtain ⟨fuel, rfl⟩ : ∃ more, fuel = more + 1 := ⟨fuel - 1, by omega⟩
    have inside := readMembers_print (level + 1) fuel (room - 1) (layout.gap level) (blank.gap level) rest k x
      members integral deeper.1 (by omega)
    have skipped : ∀ tail, skipBlanks (layout.gap (level + 1) ++ (spell (printString k) ++ tail)) =
        '"' :: (spell (k.toList.flatMap escapeChar) ++ '"' :: tail) := by
      intro tail
      rw [skipBlanks_append (blank.gap (level + 1)), spell_printString, List.cons_append, List.append_assoc]
      exact skipBlanks_cons (c := '"') rfl _
    rw [spell_printString, List.cons_append, List.append_assoc] at inside
    simp only [List.cons_append, List.nil_append] at inside
    simp only [readValue, skipBlanks_cons (c := '\x7b') rfl, skipped]
    split
    case h_1 h => cases h
    case h_2 =>
      simp only [inside, Option.bind_eq_bind, Option.bind_some, if_neg deeper.2]
      rfl

theorem readItems_print (level fuel room : Nat) (closing : List Char)
    (all : ∀ c ∈ closing, isBlank c = true) (rest : List Char) :
    (x : Json) → (items : List Json) → IntegralItems (x :: items) → Tree.depthItems (x :: items) ≤ room →
      2 * ((spell (print layout level x)).length + (spell (printItems layout level items)).length) < fuel →
      readItems fuel room
        (spell (print layout level x) ++ (spell (printItems layout level items) ++ (closing ++ ']' :: rest))) =
        some (ofItems (x :: items), rest)
  | x, [], integral, deep, long => by
    obtain ⟨fuel, rfl⟩ : ∃ more, fuel = more + 1 := ⟨fuel - 1, by omega⟩
    simp only [Tree.depthItems] at deep
    have stops : Stops numeralChar (closing ++ ']' :: rest) := stops_numeral all rfl rest
    have value := readValue_print level fuel room _ stops x integral.1 (by omega) (by omega)
    simp only [readItems, printItems, spell_nil, List.nil_append, value, Option.bind_eq_bind, Option.bind_some,
      skipBlanks_append all, skipBlanks_cons (c := ']') rfl]
    rfl
  | x, y :: items, integral, deep, long => by
    obtain ⟨fuel, rfl⟩ : ∃ more, fuel = more + 1 := ⟨fuel - 1, by omega⟩
    simp only [spell_items blank, List.length_cons, List.length_append, List.cons_append,
      List.append_assoc] at long ⊢
    simp only [Tree.depthItems] at deep
    have value := fun rest => readValue_print level fuel room (',' :: rest) (.cons rfl rest) x integral.1
      (by omega) (by omega)
    have deeper : Tree.depthItems (y :: items) ≤ room := by
      simp only [Tree.depthItems]
      omega
    have later := readItems_print level fuel room closing all rest y items integral.2 deeper (by omega)
    simp only [readItems, value, Option.bind_eq_bind, Option.bind_some, skipBlanks_cons (c := ',') rfl,
      readItems_blanks (blank.gap level), later]
    rfl

theorem readMembers_print (level fuel room : Nat) (closing : List Char)
    (all : ∀ c ∈ closing, isBlank c = true) (rest : List Char) :
    (k : String) → (x : Json) → (members : List (String × Json)) → IntegralMembers ((k, x) :: members) →
      Tree.depthMembers ((k, x) :: members) ≤ room →
      2 * ((spell (print layout level x)).length + (spell (printMembers layout level members)).length) < fuel →
      readMembers fuel room (spell (printString k) ++ (layout.colon ++ (spell (print layout level x) ++
          (spell (printMembers layout level members) ++ (closing ++ '\x7d' :: rest))))) =
        some (some (ofMembers ((k, x) :: members)), rest)
  | k, x, [], integral, deep, long => by
    obtain ⟨fuel, rfl⟩ : ∃ more, fuel = more + 1 := ⟨fuel - 1, by omega⟩
    simp only [Tree.depthMembers] at deep
    have stops : Stops numeralChar (closing ++ '\x7d' :: rest) := stops_numeral all rfl rest
    have value := readValue_print level fuel room _ stops x integral.1 (by omega) (by omega)
    simp only [readMembers_member blank, printMembers, spell_nil, List.nil_append, value, Option.bind_eq_bind,
      Option.bind_some, skipBlanks_append all, skipBlanks_cons (c := '\x7d') rfl]
    rfl
  | k, x, (l, y) :: members, integral, deep, long => by
    obtain ⟨fuel, rfl⟩ : ∃ more, fuel = more + 1 := ⟨fuel - 1, by omega⟩
    simp only [spell_members blank, List.length_cons, List.length_append, List.cons_append,
      List.append_assoc] at long ⊢
    simp only [Tree.depthMembers] at deep
    have value := fun rest => readValue_print level fuel room (',' :: rest) (.cons rfl rest) x integral.1
      (by omega) (by omega)
    have deeper : Tree.depthMembers ((l, y) :: members) ≤ room := by
      simp only [Tree.depthMembers]
      omega
    have later := readMembers_print level fuel room closing all rest l y members integral.2 deeper (by omega)
    simp only [readMembers_member blank, value, Option.bind_eq_bind, Option.bind_some,
      skipBlanks_cons (c := ',') rfl, readMembers_blanks (blank.gap level), later]
    rfl
end

/-- The text of a literal without doubles spells out its tree. -/
theorem read_print {j : Json} (integral : j.Integral) (deep : j.depth ≤ maxDepth) :
    read (String.ofList (print layout 0 j)) = some (ofJson j) := by
  have value := readValue_print blank 0 (2 * (spell (print layout 0 j)).length + 2) maxDepth [] (.nil _) j integral
    deep (by omega)
  rw [List.append_nil] at value
  rw [read_eq, String.toList_ofList, readChars, value]
  rfl

end

mutual
/-- The tree of a literal stands for that literal. -/
theorem value?_ofJson : (j : Json) → j.Sorted → value? (ofJson j) = some j
  | .leaf _, _ => rfl
  | .array items, sorted => by
    rw [ofJson, value?, valueItems?_ofItems items sorted, Option.map_some]
  | .object members, ⟨ascending, sorted⟩ => by
    rw [ofJson, value?, valueMembers?_ofMembers members sorted, Option.map_some,
      Entries.ofList_of_ascending ascending]

theorem valueItems?_ofItems :
    (items : List Json) → SortedItems items → valueItems? (ofItems items) = some items
  | [], _ => rfl
  | x :: items, ⟨first, later⟩ => by
    rw [ofItems, valueItems?, value?_ofJson x first, valueItems?_ofItems items later]
    rfl

theorem valueMembers?_ofMembers : (members : List (String × Json)) → SortedMembers members →
    valueMembers? (ofMembers members) = some members
  | [], _ => rfl
  | (k, x) :: members, ⟨first, later⟩ => by
    rw [ofMembers, valueMembers?, value?_ofJson x first, valueMembers?_ofMembers members later]
    rfl
end

mutual
theorem value?_isSome : (j : Json) → ∃ v, value? (ofJson j) = some v
  | .leaf s => ⟨.leaf s, rfl⟩
  | .array items => by
    obtain ⟨vs, values⟩ := valueItems?_isSome items
    exact ⟨.array vs, by rw [ofJson, value?, values, Option.map_some]⟩
  | .object members => by
    obtain ⟨vs, values⟩ := valueMembers?_isSome members
    exact ⟨.object (Entries.ofList vs), by rw [ofJson, value?, values, Option.map_some]⟩

theorem valueItems?_isSome : (items : List Json) → ∃ vs, valueItems? (ofItems items) = some vs
  | [] => ⟨[], rfl⟩
  | x :: items => by
    obtain ⟨v, value⟩ := value?_isSome x
    obtain ⟨vs, values⟩ := valueItems?_isSome items
    exact ⟨v :: vs, by rw [ofItems, valueItems?, value, values]; rfl⟩

theorem valueMembers?_isSome : (members : List (String × Json)) →
    ∃ vs, valueMembers? (ofMembers members) = some vs
  | [] => ⟨[], rfl⟩
  | (k, x) :: members => by
    obtain ⟨v, value⟩ := value?_isSome x
    obtain ⟨vs, values⟩ := valueMembers?_isSome members
    exact ⟨(k, v) :: vs, by rw [ofMembers, valueMembers?, value, values]; rfl⟩
end

end Source
end Wiring
