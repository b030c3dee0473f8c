import Wiring.Proofs.Settings.Quoted

/-! # Settings files

A document of tables with bare names reads back as it was written, but for two things: a member that is nothing
leaves no line, and an integer must be a signed word of 64 bits, or else nothing reads back.
-/
namespace Wiring.Toml
variable {cs rest : List Char} {fuel depth : Nat}

theorem isWordChar_of_isDigit {c : Char} (digit : c.isDigit = true) : isWordChar c = true := by
  simp [isWordChar, Char.isAlphanum, digit]

theorem not_isBlank {c : Char} (wordly : isWordChar c = true) : isBlank c = false := by
  rw [isBlank, Bool.or_eq_false_iff, decide_eq_false_iff_not, decide_eq_false_iff_not]
  constructor <;> (rintro rfl; exact absurd wordly (by decide))

theorem word_append (all : ∀ c ∈ cs, isWordChar c = true) (rest : List Char) :
    word (cs ++ '\n' :: rest) = (cs, '\n' :: rest) := by
  have stops : Stops isWordChar ('\n' :: rest) := .cons (by decide) rest
  simp only [word, List.span_eq_takeWhile_dropWhile, stops.takeWhile_append all, stops.dropWhile_append all]
  rfl

theorem value_bare (nonempty : cs ≠ []) (all : ∀ c ∈ cs, isWordChar c = true) (rest : List Char) :
    value (fuel + 1) depth (cs ++ '\n' :: rest) = (bareValue cs).map fun x => (x, '\n' :: rest) := by
  have read := word_append all rest
  obtain ⟨c, cs, rfl⟩ := List.exists_cons_of_ne_nil nonempty
  have first := all c (.head _)
  have other (d : Char) (outside : isWordChar d = false) : c ≠ d := by
    rintro rfl
    rw [first] at outside
    cases outside
  rw [List.cons_append] at read ⊢
  rw [value.eq_def]
  simp only
  split
  case h_7 => rw [read]
  all_goals
    rename_i same
    obtain ⟨same, -⟩ := List.cons.inj same
    exact absurd same (other _ (by decide))

theorem plainDigits_eq {isDigit : Char → Bool} (nonempty : cs ≠ []) (all : ∀ c ∈ cs, isDigit c = true)
    (plain : isDigit '_' = false) : plainDigits isDigit cs = some cs := by
  induction cs with
  | nil => exact absurd rfl nonempty
  | cons c cs ih =>
    have first := all c (.head _)
    cases cs with
    | nil => rw [plainDigits, if_pos first]
    | cons d cs =>
      have noMark : d ≠ '_' := by
        rintro rfl
        rw [all '_' (.tail _ (.head _))] at plain
        cases plain
      have later := ih (List.cons_ne_nil d cs) fun c member => all c (.tail _ member)
      rw [plainDigits, if_pos first, later]
      · rfl
      · exact List.cons_ne_nil d cs
      · exact fun _ same => noMark (List.cons.inj same).1

theorem decimalDigits_toDigits (n : Nat) : decimalDigits (Nat.toDigits 10 n) = some (Nat.toDigits 10 n) := by
  have all : ∀ c ∈ Nat.toDigits 10 n, c.isDigit = true := fun c => Text.isDigit_toDigits
  have digits := plainDigits_eq Nat.toDigits_ne_nil all (by decide)
  have noZero : ¬((Nat.toDigits 10 n).head? = some '0' ∧ (Nat.toDigits 10 n).length ≠ 1) := by
    rintro ⟨first, long⟩
    obtain rfl := Text.eq_zero_of_head?_toDigits n first
    exact long rfl
  simp [decimalDigits, digits, noZero]

theorem valueOf_toDigits (n : Nat) : valueOf 10 (Nat.toDigits 10 n) = n :=
  Text.foldl_hexValue (by decide) (by decide) n

theorem unsigned_digits (all : ∀ c ∈ cs, c.isDigit = true) : unsigned cs = (false, cs) := by
  unfold unsigned
  split
  · exact absurd (all '-' (.head _)) (by decide)
  · exact absurd (all '+' (.head _)) (by decide)
  · rfl

/-- A sign or none, and then the decimal numeral of a natural. -/
structure Numeral (n : Int) (cs : List Char) : Prop where
  numeric : ∀ c ∈ cs, c = '-' ∨ c.isDigit = true
  split : unsigned cs = (decide (n < 0), Nat.toDigits 10 n.natAbs)

theorem numeral_toString (n : Int) : Numeral n (toString n).toList := by
  have digit {n : Nat} {c : Char} (member : c ∈ Nat.toDigits 10 n) : c.isDigit = true := Text.isDigit_toDigits member
  cases n with
  | ofNat n =>
    have written : (toString (Int.ofNat n)).toList = Nat.toDigits 10 n := by
      change (Nat.repr n).toList = _
      rw [Nat.repr, String.toList_ofList]
    rw [written]
    exact ⟨fun c member => .inr (digit member), unsigned_digits fun c => digit⟩
  | negSucc n =>
    have written : (toString (Int.negSucc n)).toList = '-' :: Nat.toDigits 10 (n + 1) := by
      change ("-" ++ Nat.repr (n + 1)).toList = _
      rw [String.toList_append, Nat.repr, String.toList_ofList, String.toList_ofList]
      rfl
    rw [written]
    refine ⟨List.forall_mem_cons.mpr ⟨.inl rfl, fun c member => .inr (digit member)⟩, ?_⟩
    rw [Int.natAbs_negSucc, decide_eq_true (Int.negSucc_lt_zero n), unsigned]

namespace Numeral
variable {n : Int} (numeral : Numeral n cs)
include numeral

theorem isWordChar : ∀ c ∈ cs, isWordChar c = true := by
  intro c member
  rcases numeral.numeric c member with rfl | digit
  · rfl
  · exact isWordChar_of_isDigit digit

theorem bareValue_eq : bareValue cs = ofRange n := by
  have numeric := numeral.numeric
  have signed : (if decide (n < 0) = true then -(n.natAbs : Int) else n.natAbs) = n := by
    split_ifs with sign
    · simp at sign
      omega
    · simp at sign
      omega
  unfold bareValue
  split
  case h_6 => simp only [numeral.split, decimalDigits_toDigits, valueOf_toDigits, signed]
  all_goals simp at numeric

theorem value_eq (rest : List Char) :
    value (fuel + 1) depth (cs ++ '\n' :: rest) = (ofRange n).map fun x => (x, '\n' :: rest) := by
  have nonempty : cs ≠ [] := by
    rintro rfl
    exact Nat.toDigits_ne_nil (Prod.ext_iff.mp numeral.split).2.symm
  rw [value_bare nonempty numeral.isWordChar, numeral.bareValue_eq]

end Numeral

/-- What a written value reads back as: an integer must be a signed word of 64 bits. -/
def regained? : Setting → Option Setting
  | .integer n => ofRange n
  | x => some x

theorem quoted_cons (s : String) : ∃ c cs, quoted s = c :: cs ∧ isBlank c = false := by
  unfold quoted
  simp only
  cases form s.toList with
  | basic => exact ⟨'"', _, rfl, rfl⟩
  | literal => exact ⟨'\'', _, rfl, rfl⟩
  | basicLines => exact ⟨'"', _, rfl, rfl⟩
  | literalLines => exact ⟨'\'', _, rfl, rfl⟩

section
variable {x : Setting} (written : valueChars x = some cs)
include written

theorem stops_valueChars (rest : List Char) : Stops isBlank (cs ++ '\n' :: rest) := by
  cases x with
  | flag b =>
    obtain rfl := Option.some.inj written
    cases b <;> exact .cons (by decide) _
  | integer n =>
    obtain rfl := Option.some.inj written
    cases same : (toString n).toList with
    | nil => exact .cons (by decide) rest
    | cons c cs => exact .cons (not_isBlank ((numeral_toString n).isWordChar c (same ▸ .head _))) _
  | text s =>
    obtain rfl := Option.some.inj written
    obtain ⟨c, cs, same, plain⟩ := quoted_cons s
    rw [same]
    exact .cons plain _
  | _ => cases written

theorem value_valueChars (rest : List Char) :
    value (fuel + 1) depth (cs ++ '\n' :: rest) = (regained? x).map fun x => (x, '\n' :: rest) := by
  cases x with
  | flag b =>
    obtain rfl := Option.some.inj written
    cases b
    · have wordly : ∀ c ∈ ['f', 'a', 'l', 's', 'e'], isWordChar c = true :=
        List.all_eq_true.mp (by decide)
      exact value_bare (List.cons_ne_nil _ _) wordly rest
    · have wordly : ∀ c ∈ ['t', 'r', 'u', 'e'], isWordChar c = true :=
        List.all_eq_true.mp (by decide)
      exact value_bare (List.cons_ne_nil _ _) wordly rest
  | integer n =>
    obtain rfl := Option.some.inj written
    exact (numeral_toString n).value_eq rest
  | text s =>
    obtain rfl := Option.some.inj written
    exact value_quoted s rest
  | _ => cases written

end

structure Bare (name : String) : Prop where
  nonempty : name.toList ≠ []
  plain : ∀ c ∈ name.toList, isBareKey c = true

instance (name : String) : Decidable (Bare name) :=
  decidable_of_iff (name.toList ≠ [] ∧ name.toList.all isBareKey = true)
    ⟨fun h => ⟨h.1, List.all_eq_true.mp h.2⟩, fun h => ⟨h.nonempty, List.all_eq_true.mpr h.plain⟩⟩

variable {name : String}

theorem isWordChar_of_isBareKey {c : Char} (plain : isBareKey c = true) : isWordChar c = true := by
  simp only [isBareKey, Bool.or_eq_true] at plain
  simp only [isWordChar, Bool.or_eq_true]
  tauto

namespace Bare
variable (bare : Bare name)
include bare

theorem stops {p : Char → Bool} (other : ∀ c, isBareKey c = true → p c = false) (rest : List Char) :
    Stops p (name.toList ++ rest) := by
  obtain ⟨c, cs, same⟩ := List.exists_cons_of_ne_nil bare.nonempty
  rw [same]
  exact .cons (other c (bare.plain c (same ▸ .head _))) _

theorem skipBlanks_append (rest : List Char) : skipBlanks (name.toList ++ rest) = name.toList ++ rest :=
  (bare.stops (fun _ plain => not_isBlank (isWordChar_of_isBareKey plain)) rest).dropWhile_eq

theorem head_ne {d : Char} (other : isBareKey d = false) (more : List Char) : name.toList ++ rest ≠ d :: more := by
  have stops := bare.stops (p := fun c => decide (c = d)) (fun c plain => decide_eq_false fun same => by
    rw [same, other] at plain
    cases plain) rest
  intro same
  rw [same] at stops
  simpa using stops d rfl

theorem simpleKey_append (stops : Stops isBareKey rest) : simpleKey (name.toList ++ rest) = some (name, rest) := by
  unfold simpleKey
  split
  case h_1 same => exact absurd same (bare.head_ne (by decide) _)
  case h_2 same => exact absurd same (bare.head_ne (by decide) _)
  case h_3 =>
    rw [List.span_eq_takeWhile_dropWhile, stops.takeWhile_append bare.plain, stops.dropWhile_append bare.plain]
    simp [bare.nonempty]

/-- A name is a key of one part. -/
theorem keyPath_append {d : Char} {more : List Char} (stops : Stops isBareKey rest)
    (next : skipBlanks rest = d :: more) (single : d ≠ '.') :
    keyPath (name.toList ++ rest) = some ([name], d :: more) := by
  have parts : keyParts ((name.toList ++ rest).length + 1) (name.toList ++ rest) = some ([name], d :: more) := by
    rw [keyParts, bare.skipBlanks_append, bare.simpleKey_append stops]
    simp [next, single]
  rw [keyPath, parts]
  rfl

theorem endLine_append (rest : List Char) : endLine (name.toList ++ rest) = none := by
  have noComment : skipComment (name.toList ++ rest) = name.toList ++ rest := by
    unfold skipComment
    split
    case h_1 same => exact absurd same (bare.head_ne (by decide) _)
    case h_2 => rfl
  rw [endLine, bare.skipBlanks_append, noComment]
  split
  case h_1 same => exact absurd (List.append_eq_nil_iff.mp same).1 bare.nonempty
  case h_2 =>
    unfold newline?
    split
    case h_1 same => exact absurd same (bare.head_ne (by decide) _)
    case h_2 same => exact absurd same (bare.head_ne (by decide) _)
    case h_3 => rfl

end Bare

theorem lookup_append_of_none {entries : Entries} (fresh : lookup name entries = none) (e : Entry) :
    lookup name (entries ++ [(name, e)]) = some e := by
  have absent : entries.find? (fun e => e.1 = name) = none := Option.map_eq_none_iff.mp fresh
  simp [lookup, List.find?_append, absent]

theorem replace_append_of_none {entries : Entries} (fresh : lookup name entries = none) (e e' : Entry) :
    replace name e' (entries ++ [(name, e)]) = entries ++ [(name, e')] := by
  have absent : entries.find? (fun e => e.1 = name) = none := Option.map_eq_none_iff.mp fresh
  have others : entries.map (fun e => if e.1 = name then (name, e') else e) = entries := by
    refine (List.map_congr_left fun e member => if_neg ?_).trans (List.map_id' entries)
    simpa using List.find?_eq_none.mp absent e member
  simp [replace, others]

/-- What the rest of a document comes to, after some progress. -/
def Reads (p : Progress) (cs : List Char) (found : Option Setting.Members) : Prop :=
  ∀ fuel, cs.length ≤ fuel → (lines fuel p cs).map (fun p => settings p.entries) = found

namespace Reads
variable {p : Progress} {found : Option Setting.Members}

theorem nil (p : Progress) : Reads p [] (some (settings p.entries)) := by
  intro fuel _
  cases fuel <;> rfl

theorem newline (later : Reads p rest found) : Reads p ('\n' :: rest) found := by
  intro fuel enough
  obtain ⟨fuel, rfl⟩ := Nat.exists_eq_add_one.mpr (Nat.zero_lt_of_lt enough)
  exact later fuel (Nat.le_of_succ_le_succ enough)

theorem header (bare : Bare name) (fresh : lookup name p.entries = none)
    (later : Reads ⟨p.entries ++ [(name, .table false false [])], [name]⟩ rest found) :
    Reads p ('[' :: name.toList ++ ']' :: '\n' :: rest) found := by
  intro fuel enough
  obtain ⟨fuel, rfl⟩ := Nat.exists_eq_add_one.mpr (Nat.zero_lt_of_lt enough)
  have opened : openTable [] name p.entries = some (p.entries ++ [(name, .table false false [])]) := by
    simp [openTable, update, fresh]
  have read : Toml.header p false (name.toList ++ ']' :: '\n' :: rest) =
      some (⟨p.entries ++ [(name, .table false false [])], [name]⟩, rest) := by
    rw [Toml.header, bare.keyPath_append (.cons (by decide) _) rfl (by decide)]
    simp [expect, endLine, skipBlanks, skipComment, isBlank, newline?, opened]
  have line : lines (fuel + 1) p ('[' :: (name.toList ++ ']' :: '\n' :: rest)) =
      lines fuel ⟨p.entries ++ [(name, .table false false [])], [name]⟩ rest := by
    have start : skipBlanks ('[' :: (name.toList ++ ']' :: '\n' :: rest)) =
        '[' :: (name.toList ++ ']' :: '\n' :: rest) := rfl
    rw [lines, start]
    split
    case h_1 same => cases same
    case h_2 same => exact absurd (List.cons.inj same).2 (bare.head_ne (by decide) _)
    case h_3 same =>
      obtain ⟨-, rfl⟩ := List.cons.inj same
      rw [read]
      rfl
    case h_4 other => exact absurd rfl (other _)
  rw [List.cons_append, line]
  refine later fuel ?_
  simp at enough
  omega

end Reads

def under (done : Entries) (table : String) (inner : Entries) : Progress :=
  ⟨done ++ [(table, .table false false inner)], [table]⟩

section
variable {done inner : Entries} {table : String} {x : Setting} {ws : List Char} (bare : Bare name)
  (outer : lookup table done = none) (fresh : lookup name inner = none) (written : valueChars x = some ws)
include bare outer fresh written

theorem keyValue_append (rest : List Char) :
    keyValue (under done table inner) (name.toList ++ ([' ', '=', ' '] ++ ws ++ '\n' :: rest)) =
      (regained? x).map fun y => (under done table (inner ++ [(name, .value y)]), rest) := by
  have start : skipBlanks (' ' :: (ws ++ '\n' :: rest)) = ws ++ '\n' :: rest :=
    (stops_valueChars written rest).dropWhile_eq
  have defined (y : Setting) : update false (define [] name y) [table] false (under done table inner).entries =
      some (under done table (inner ++ [(name, .value y)])).entries := by
    simp [under, update, define, lookup_append_of_none outer, replace_append_of_none outer, fresh]
  have ended : endLine ('\n' :: rest) = some rest := rfl
  simp only [List.cons_append, List.nil_append]
  rw [keyValue, bare.keyPath_append (.cons (by decide) _) rfl (by decide)]
  simp only [Option.bind_eq_bind, Option.bind_some, expect, if_true, start, value_valueChars written]
  cases regained? x with
  | none => rfl
  | some y =>
    have placed := defined y
    simp only [under] at placed ⊢
    simp [ended, placed]

theorem Reads.member {found : Option Setting.Members} (refused : regained? x = none → found = none)
    (later : ∀ y, regained? x = some y → Reads (under done table (inner ++ [(name, .value y)])) rest found) :
    Reads (under done table inner) (name.toList ++ [' ', '=', ' '] ++ ws ++ '\n' :: rest) found := by
  intro fuel enough
  obtain ⟨fuel, rfl⟩ := Nat.exists_eq_add_one.mpr (show 0 < fuel by simp at enough; omega)
  have line := keyValue_append bare outer fresh written rest
  simp only [List.append_assoc] at line ⊢
  rw [lines, bare.skipBlanks_append]
  split
  case h_1 same => exact absurd (List.append_eq_nil_iff.mp same).1 bare.nonempty
  case h_2 same => exact absurd same (bare.head_ne (by decide) _)
  case h_3 same => exact absurd same (bare.head_ne (by decide) _)
  case h_4 =>
    simp only [bare.endLine_append, line]
    cases read : regained? x with
    | none => exact (refused read).symm
    | some y =>
      refine later y read fuel ?_
      simp at enough
      omega

end

/-- What the members of a table read back as. Nothing leaves no line. -/
def regainMembers? : Setting.Members → Option Setting.Members
  | [] => some []
  | (_, .nothing) :: rest => regainMembers? rest
  | (name, x) :: rest => do some ((name, ← regained? x) :: (← regainMembers? rest))

def regainTables? : Setting.Members → Option Setting.Members
  | [] => some []
  | (name, .table members) :: rest => do
    some ((name, .table (← regainMembers? members)) :: (← regainTables? rest))
  | _ :: _ => none

structure Named (members : Setting.Members) : Prop where
  bare : ∀ m ∈ members, Bare m.1
  nodup : (members.map Prod.fst).Nodup

theorem Named.tail {m : String × Setting} {members : Setting.Members} (named : Named (m :: members)) :
    (∀ m' ∈ members, m.1 ≠ m'.1) ∧ Named members := by
  have nodup := named.nodup
  rw [List.map_cons, List.nodup_cons] at nodup
  refine ⟨fun m' member same => nodup.1 (same ▸ List.mem_map_of_mem member), ?_, nodup.2⟩
  exact fun m' member => named.bare m' (.tail _ member)

def values (members : Setting.Members) : Entries := members.map fun m => (m.1, .value m.2)

theorem settings_values (members : Setting.Members) : settings (values members) = members := by
  induction members with
  | nil => rfl
  | cons m members ih => rw [values, List.map_cons, settings, ← values, ih, Entry.setting]

theorem settings_append (a b : Entries) : settings (a ++ b) = settings a ++ settings b := by
  induction a with
  | nil => rfl
  | cons e a ih => rw [List.cons_append, settings, settings, ih, List.cons_append]

theorem lookup_concat_of_ne {other : String} (ne : other ≠ name) (entries : Entries) (e : Entry) :
    lookup name (entries ++ [(other, e)]) = lookup name entries := by
  simp [lookup, List.find?_append, ne]

section
variable {done inner : Entries} {table : String} {members : Setting.Members} {found : Option Setting.Members}

theorem regainMembers?_cons {name : String} {x : Setting} (present : x ≠ .nothing) (members : Setting.Members) :
    regainMembers? ((name, x) :: members) =
      (regained? x).bind fun y => (regainMembers? members).map ((name, y) :: ·) := by
  rw [regainMembers?]
  · cases regained? x with
    | none => rfl
    | some y => cases regainMembers? members <;> rfl
  · exact present

theorem lineChars_of_ne {name : String} {x : Setting} (present : x ≠ .nothing) {line : List Char}
    (written : lineChars (name, x) = some line) :
    ∃ ws, valueChars x = some ws ∧ line = name.toList ++ [' ', '=', ' '] ++ ws ++ ['\n'] := by
  rw [lineChars] at written
  · obtain ⟨ws, value, same⟩ := Option.bind_eq_some_iff.mp written
    exact ⟨ws, value, (Option.some.inj same).symm⟩
  · exact present

theorem exists_of_mapM_cons {α β : Type} {f : α → Option β} {a : α} {as : List α} {bs : List β}
    (written : (a :: as).mapM f = some bs) : ∃ b bs', f a = some b ∧ as.mapM f = some bs' ∧ bs = b :: bs' := by
  rw [List.mapM_cons] at written
  obtain ⟨b, first, written⟩ := Option.bind_eq_some_iff.mp written
  obtain ⟨bs', later, same⟩ := Option.bind_eq_some_iff.mp written
  exact ⟨b, bs', first, later, (Option.some.inj same).symm⟩

theorem exists_of_sectionChars {name : String} {x : Setting} {block : List Char}
    (written : sectionChars (name, x) = some block) :
    ∃ members ws, x = .table members ∧ members.mapM lineChars = some ws ∧
      block = '[' :: name.toList ++ ']' :: '\n' :: ws.flatten := by
  cases x with
  | table members =>
    obtain ⟨ws, lines, same⟩ := Option.bind_eq_some_iff.mp written
    refine ⟨members, ws, rfl, lines, (Option.some.inj same).symm.trans ?_⟩
    simp
  | _ => cases written

/-- The lines of a table, one for each member that is something. -/
theorem Reads.body {ws : List (List Char)} (outer : lookup table done = none) (named : Named members)
    (fresh : ∀ m ∈ members, lookup m.1 inner = none) (written : members.mapM lineChars = some ws)
    (refused : regainMembers? members = none → found = none)
    (later : ∀ xs, regainMembers? members = some xs → Reads (under done table (inner ++ values xs)) rest found) :
    Reads (under done table inner) (ws.flatten ++ rest) found := by
  induction members generalizing inner ws with
  | nil =>
    obtain rfl : ws = [] := by simpa using written.symm
    simpa [values] using later [] rfl
  | cons m members ih =>
    obtain ⟨name, x⟩ := m
    obtain ⟨others, namedTail⟩ := named.tail
    obtain ⟨line, ws, lineWritten, tailWritten, rfl⟩ := exists_of_mapM_cons written
    rw [List.flatten_cons, List.append_assoc]
    by_cases absent : x = .nothing
    · subst absent
      obtain rfl := Option.some.inj lineWritten
      exact ih namedTail (fun m member => fresh m (.tail _ member)) tailWritten refused later
    · obtain ⟨value, valueWritten, rfl⟩ := lineChars_of_ne absent lineWritten
      rw [regainMembers?_cons absent] at refused later
      rw [List.append_assoc, List.singleton_append]
      refine Reads.member (named.bare _ (.head _)) outer (fresh _ (.head _)) valueWritten ?_ ?_
      · exact fun none => refused (by rw [none]; rfl)
      · intro y read
        rw [read, Option.bind_some] at refused later
        refine ih namedTail ?_ tailWritten (fun none => refused (by rw [none]; rfl)) ?_
        · intro m member
          rw [lookup_concat_of_ne (others m member)]
          exact fresh m (.tail _ member)
        · intro xs more
          have reads := later ((name, y) :: xs) (by rw [more]; rfl)
          rwa [values, List.map_cons, ← values, List.append_cons] at reads

theorem regainTables?_cons {name : String} (members tables : Setting.Members) :
    regainTables? ((name, .table members) :: tables) =
      (regainMembers? members).bind fun xs => (regainTables? tables).map ((name, .table xs) :: ·) := by
  rw [regainTables?]
  cases regainMembers? members with
  | none => rfl
  | some xs => cases regainTables? tables <;> rfl

def apart (blocks : List (List Char)) : List Char :=
  if blocks = [] then [] else '\n' :: ['\n'].intercalate blocks

theorem intercalate_eq (block : List Char) (blocks : List (List Char)) :
    ['\n'].intercalate (block :: blocks) = block ++ apart blocks := by
  cases blocks with
  | nil => simp [apart]
  | cons next blocks => simp [apart, List.intercalate_cons_cons]

theorem Reads.tables {tables : Setting.Members} {ws : List (List Char)} (done : Entries) (current : List String)
    (named : Named tables) (inside : ∀ name members, (name, .table members) ∈ tables → Named members)
    (fresh : ∀ t ∈ tables, lookup t.1 done = none) (written : tables.mapM sectionChars = some ws) :
    Reads ⟨done, current⟩ (['\n'].intercalate ws) ((regainTables? tables).map (settings done ++ ·)) := by
  induction tables generalizing done current ws with
  | nil =>
    obtain rfl : ws = [] := by simpa using written.symm
    simpa [regainTables?] using Reads.nil ⟨done, current⟩
  | cons t tables ih =>
    obtain ⟨name, x⟩ := t
    obtain ⟨others, namedTail⟩ := named.tail
    obtain ⟨block, ws, blockWritten, tailWritten, rfl⟩ := exists_of_mapM_cons written
    obtain ⟨members, lines, rfl, linesWritten, rfl⟩ := exists_of_sectionChars blockWritten
    have split : ['\n'].intercalate (('[' :: name.toList ++ ']' :: '\n' :: lines.flatten) :: ws) =
        '[' :: name.toList ++ ']' :: '\n' :: (lines.flatten ++ apart ws) := by
      rw [intercalate_eq]
      simp
    have empty := fresh _ (.head _)
    rw [split, regainTables?_cons]
    refine Reads.header (named.bare _ (.head _)) empty ?_
    refine Reads.body empty (inside name members (.head _)) (fun _ _ => rfl) linesWritten ?_ ?_
    · exact fun none => by rw [none]; rfl
    · intro xs read
      have later := ih (done ++ [(name, .table false false (values xs))]) [name] namedTail
        (fun name members member => inside name members (.tail _ member))
        (fun t member => by rw [lookup_concat_of_ne (others t member), fresh t (.tail _ member)]) tailWritten
      have found : ((regainTables? tables).map ((name, .table xs) :: ·)).map (settings done ++ ·) =
          (regainTables? tables).map (settings (done ++ [(name, .table false false (values xs))]) ++ ·) := by
        simp [settings_append, settings, Entry.setting, settings_values]
        rfl
      rw [read, Option.bind_some, found]
      cases ws with
      | nil => exact later
      | cons => exact later.newline

end

theorem head_blocks {tables : Setting.Members} {blocks : List (List Char)}
    (written : tables.mapM sectionChars = some blocks) : ∀ c ∈ (['\n'].intercalate blocks).head?, c = '[' := by
  cases tables with
  | nil =>
    obtain rfl : blocks = [] := by simpa using written.symm
    exact nofun
  | cons t tables =>
    obtain ⟨name, x⟩ := t
    obtain ⟨block, blocks, blockWritten, -, rfl⟩ := exists_of_mapM_cons written
    obtain ⟨members, lines, -, -, rfl⟩ := exists_of_sectionChars blockWritten
    rw [intercalate_eq]
    exact fun c first => (Option.some.inj first).symm

/-- A document that is written reads back, as far as its values do. -/
theorem read_write {tables : Setting.Members} {document : String} (named : Named tables)
    (inside : ∀ name members, (name, .table members) ∈ tables → Named members)
    (written : write tables = some document) : read document = regainTables? tables := by
  obtain ⟨blocks, blocksWritten, same⟩ := Option.bind_eq_some_iff.mp written
  obtain rfl := Option.some.inj same
  have first := head_blocks blocksWritten
  have reads := Reads.tables [] [] named inside (fun _ _ => rfl) blocksWritten _ (Nat.le_refl _)
  rw [read, String.toList_ofList]
  split
  case h_1 same =>
    rw [same] at first
    exact absurd (first _ rfl) (by decide)
  case h_2 =>
    have whole : (regainTables? tables).map (settings [] ++ ·) = regainTables? tables := by
      simp [settings]
    rw [whole, Option.map_eq_bind] at reads
    exact reads

end Wiring.Toml
