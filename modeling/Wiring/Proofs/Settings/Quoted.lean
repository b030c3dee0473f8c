import Wiring.Proofs.Text.Digits
import Wiring.Proofs.Token
import Wiring.Settings.Toml

/-! # Texts in settings files

A text is written in one of four forms, and reads back from any of them, whatever follows. In several lines two
quotes may stand in a row, but not three: the relation `Spells` says what may stand between such quotes, and both
forms of several lines keep to it.
-/
namespace Wiring.Toml
variable {quote c : Char} {cs w e rest : List Char} {n k fuel : Nat}

def Stands (c : Char) : Prop := Text.isPrintable c = true ∨ c = '\n'

theorem Stands.ne_carriage (stands : Stands c) : c ≠ '\r' := by
  rintro rfl
  revert stands
  unfold Stands
  decide

theorem isControl_iff : isControl c = true ↔ (c.toNat < 32 ∧ c ≠ '\t' ∧ c ≠ '\n') ∨ c.toNat = 127 := by
  simp [isControl, and_assoc]

theorem isPrintable_iff : Text.isPrintable c = true ↔ c = '\t' ∨ (32 ≤ c.toNat ∧ c.toNat ≠ 127) := by
  simp [Text.isPrintable]

theorem stands_of_not_control (plain : ¬ isControl c = true) : Stands c := by
  rw [isControl_iff] at plain
  unfold Stands
  rw [isPrintable_iff]
  by_cases newline : c = '\n'
  · exact .inr newline
  · by_cases tab : c = '\t'
    · exact .inl (.inl tab)
    · simp only [newline, tab, ne_eq, not_false_eq_true, and_true] at plain
      omega

/-- What stands for a character after a backslash, whatever follows; it does not fold a line. -/
def EscapesTo (e : List Char) (c : Char) : Prop :=
  ∀ rest, Text.escape? (e ++ rest) = some (c, rest) ∧ foldedLine (e ++ rest) = none

theorem escapesTo_quote : EscapesTo ['"'] '"' := fun _ => ⟨rfl, rfl⟩

theorem escapesTo_codePoint (small : c.toNat < 256) :
    EscapesTo ['u', '0', '0', Text.upperHexDigit (c.toNat / 16), Text.upperHexDigit (c.toNat % 16)] c := by
  intro rest
  have zero : Text.hexValue? '0' = some 0 := rfl
  have high := Text.hexValue?_upperHexDigit (c.toNat / 16) (by omega)
  have low := Text.hexValue?_upperHexDigit (c.toNat % 16) (by omega)
  have whole : c.toNat / 16 * 16 + c.toNat % 16 = c.toNat := by omega
  have valid : c.toNat.isValidChar := c.valid
  refine ⟨?_, rfl⟩
  simp [Text.escape?, Text.codePoint?, zero, high, low, whole, valid]

theorem escaped_cases (multiline : Bool) (c : Char) :
    (escaped multiline c = [c] ∧ c ≠ '\\' ∧ (Text.isPrintable c = true ∨ multiline = true ∧ c = '\n')) ∨
      ∃ e, escaped multiline c = '\\' :: e ∧ EscapesTo e c := by
  unfold escaped
  split_ifs with slash back tab newline several feed carriage control
  · subst slash
    exact .inr ⟨['\\'], rfl, fun rest => ⟨rfl, rfl⟩⟩
  · exact .inr ⟨_, rfl, back ▸ fun rest => ⟨rfl, rfl⟩⟩
  · exact .inr ⟨_, rfl, tab ▸ fun rest => ⟨rfl, rfl⟩⟩
  · exact .inl ⟨rfl, slash, .inr ⟨several, newline⟩⟩
  · exact .inr ⟨_, rfl, newline ▸ fun rest => ⟨rfl, rfl⟩⟩
  · exact .inr ⟨_, rfl, feed ▸ fun rest => ⟨rfl, rfl⟩⟩
  · exact .inr ⟨_, rfl, carriage ▸ fun rest => ⟨rfl, rfl⟩⟩
  · rw [isControl_iff] at control
    exact .inr ⟨_, rfl, escapesTo_codePoint (by omega)⟩
  · exact .inl ⟨rfl, slash, .inl ((stands_of_not_control control).resolve_right newline)⟩

theorem basicString_escape (escape : EscapesTo e c) (inner : basicString fuel w = some (cs, rest)) :
    basicString (fuel + 1) ('\\' :: (e ++ w)) = some (c :: cs, rest) := by
  simp [basicString, (escape w).1, inner]

theorem basicString_plain (printable : Text.isPrintable c = true) (noQuote : c ≠ '"') (noSlash : c ≠ '\\')
    (inner : basicString fuel w = some (cs, rest)) : basicString (fuel + 1) (c :: w) = some (c :: cs, rest) := by
  simp [basicString, printable, inner]

theorem basicString_basicChars (cs rest : List Char) (enough : cs.length < fuel) :
    basicString fuel (basicChars false 0 cs ++ '"' :: rest) = some (cs, rest) := by
  induction cs generalizing fuel with
  | nil =>
    obtain ⟨fuel, rfl⟩ := Nat.exists_eq_add_one.mpr (Nat.zero_lt_of_lt enough)
    rfl
  | cons c cs ih =>
    obtain ⟨fuel, rfl⟩ := Nat.exists_eq_add_one.mpr (Nat.zero_lt_of_lt enough)
    have inner := ih (Nat.lt_of_succ_lt_succ enough)
    by_cases quote : c = '"'
    · subst quote
      exact basicString_escape (e := ['"']) escapesTo_quote inner
    · rw [basicChars, if_neg quote, List.append_assoc]
      rcases escaped_cases false c with ⟨plain, noSlash, printable | ⟨several, -⟩⟩ | ⟨e, written, escape⟩
      · rw [plain]
        exact basicString_plain printable quote noSlash inner
      · cases several
      · rw [written]
        exact basicString_escape escape inner

theorem length_le_basicChars (cs : List Char) : cs.length ≤ (basicChars false 0 cs).length := by
  induction cs with
  | nil => exact Nat.le_refl _
  | cons c cs ih =>
    by_cases quote : c = '"'
    · simp [basicChars, quote]
      omega
    · rcases escaped_cases false c with ⟨plain, -⟩ | ⟨e, written, -⟩
      · simp [basicChars, quote, plain, ih]
      · simp [basicChars, quote, written]
        omega

theorem literalString_append (printable : ∀ c ∈ cs, Text.isPrintable c = true) (noQuote : '\'' ∉ cs)
    (rest : List Char) : literalString (cs ++ '\'' :: rest) = some (cs, rest) := by
  have stops : Stops (fun c => Text.isPrintable c && decide (c ≠ '\'')) ('\'' :: rest) := .cons (by decide) rest
  have all : ∀ c ∈ cs, (Text.isPrintable c && decide (c ≠ '\'')) = true := by
    intro c member
    have other : c ≠ '\'' := fun same => noQuote (same ▸ member)
    simp [printable c member, other]
  simp only [literalString, List.span_eq_takeWhile_dropWhile, stops.takeWhile_append all,
    stops.dropWhile_append all]

/-- What may stand for a text between quotes of several lines; so many quotes stand right before it. -/
inductive Spells (quote : Char) : Nat → List Char → List Char → Prop
  | nil {n : Nat} : Spells quote n [] []
  | mark {n : Nat} {w cs : List Char} (few : n < 2) (more : Spells quote (n + 1) w cs) :
      Spells quote n (quote :: w) (quote :: cs)
  | plain {n : Nat} {c : Char} {w cs : List Char} (other : c ≠ quote)
      (stands : Stands c) (free : c = '\\' → quote = '\'')
      (more : Spells quote 0 w cs) : Spells quote n (c :: w) (c :: cs)
  | escape {n : Nat} {e : List Char} {c : Char} {w cs : List Char} (basic : quote = '"') (escape : EscapesTo e c)
      (more : Spells quote 0 w cs) : Spells quote n ('\\' :: (e ++ w)) (c :: cs)

/-- The quotes at the start are all there is, or too few to close. -/
theorem Spells.run (spells : Spells quote n w cs) (few : n ≤ 2) :
    (∃ k, n + k ≤ 2 ∧ w = List.replicate k quote ∧ cs = List.replicate k quote) ∨
      ∀ rest, n + ((w ++ rest).takeWhile (· = quote)).length < 3 := by
  induction spells with
  | nil => exact .inl ⟨0, few, rfl, rfl⟩
  | @mark n w cs fewer more ih =>
    rcases ih (by omega) with ⟨k, bound, rfl, rfl⟩ | short
    · exact .inl ⟨k + 1, by omega, rfl, rfl⟩
    · right
      intro rest
      have bound := short rest
      simp only [List.cons_append, List.takeWhile_cons, decide_true, if_true, List.length_cons]
      omega
  | plain other =>
    right
    intro rest
    simp [other]
    omega
  | escape basic =>
    right
    intro rest
    simp [basic]
    omega

theorem multilineString_close (few : k ≤ 2) (stops : Stops (fun c => decide (c = quote)) rest) :
    multilineString quote (fuel + 1) (List.replicate k quote ++ quote :: quote :: quote :: rest) =
      some (List.replicate k quote, rest) := by
  have all : ∀ c ∈ List.replicate (k + 3) quote, decide (c = quote) = true := by
    intro c member
    rw [decide_eq_true_eq]
    exact List.eq_of_mem_replicate member
  have whole : List.replicate k quote ++ quote :: quote :: quote :: rest = List.replicate (k + 3) quote ++ rest := by
    rw [← List.replicate_append_replicate, List.append_assoc]
    rfl
  rw [whole, multilineString.eq_def]
  simp only [stops.takeWhile_append all, List.length_replicate]
  rw [if_pos (by omega), if_pos (by omega), List.drop_replicate, List.drop_left' (by simp), Nat.add_sub_cancel]

section
variable (inner : multilineString quote fuel w = some (cs, rest))
include inner

theorem multilineString_plain (short : ((c :: w).takeWhile (· = quote)).length < 3)
    (stands : Stands c) (free : c = '\\' → quote = '\'') :
    multilineString quote (fuel + 1) (c :: w) = some (c :: cs, rest) := by
  have printable : (Text.isPrintable c || decide (c = '\n')) = true := by simpa [Stands] using stands
  rw [multilineString.eq_def]
  by_cases slash : c = '\\'
  · obtain rfl := free slash
    subst slash
    simp only
    rw [if_neg (by omega)]
    simp [inner]
  · simp only
    rw [if_neg (by omega)]
    simp [inner, printable, stands.ne_carriage]

theorem multilineString_escape (basic : quote = '"') (escape : EscapesTo e c) :
    multilineString quote (fuel + 1) ('\\' :: (e ++ w)) = some (c :: cs, rest) := by
  subst basic
  rw [multilineString.eq_def]
  simp [(escape w).1, (escape w).2, inner]

end

theorem Spells.read (spells : Spells quote n w cs) (proper : quote = '"' ∨ quote = '\'') (few : n ≤ 2)
    (stops : Stops (fun c => decide (c = quote)) rest) (enough : w.length < fuel) :
    multilineString quote fuel (w ++ quote :: quote :: quote :: rest) = some (cs, rest) := by
  induction spells generalizing fuel with
  | nil =>
    obtain ⟨fuel, rfl⟩ := Nat.exists_eq_add_one.mpr (Nat.zero_lt_of_lt enough)
    exact multilineString_close (k := 0) (by decide) stops
  | @mark n w cs fewer more ih =>
    obtain ⟨fuel, rfl⟩ := Nat.exists_eq_add_one.mpr (Nat.zero_lt_of_lt enough)
    rcases (Spells.mark fewer more).run few with ⟨k, bound, written, text⟩ | short
    · rw [written, text]
      exact multilineString_close (by omega) stops
    · specialize short (quote :: quote :: quote :: rest)
      refine multilineString_plain (ih (by omega) (Nat.lt_of_succ_lt_succ enough)) ?_ ?_ ?_
      · exact Nat.lt_of_le_of_lt (Nat.le_add_left _ n) short
      · rcases proper with rfl | rfl <;> exact .inl rfl
      · rcases proper with rfl | rfl <;> decide
  | @plain n c w cs other stands free more ih =>
    obtain ⟨fuel, rfl⟩ := Nat.exists_eq_add_one.mpr (Nat.zero_lt_of_lt enough)
    exact multilineString_plain (ih (by decide) (Nat.lt_of_succ_lt_succ enough)) (by simp [other]) stands free
  | @escape n e c w cs basic escape more ih =>
    obtain ⟨fuel, rfl⟩ := Nat.exists_eq_add_one.mpr (Nat.zero_lt_of_lt enough)
    rw [List.length_cons, List.length_append] at enough
    rw [List.cons_append, List.append_assoc]
    exact multilineString_escape (ih (by decide) (by omega)) basic escape

theorem spells_basicChars (cs : List Char) (few : n ≤ 2) : Spells '"' n (basicChars true n cs) cs := by
  induction cs generalizing n with
  | nil => exact .nil
  | cons c cs ih =>
    by_cases quote : c = '"'
    · subst quote
      simp only [basicChars, if_true]
      split_ifs with stands
      · exact .mark stands (ih stands)
      · exact .escape rfl escapesTo_quote (ih (by decide))
    · rw [basicChars, if_neg quote]
      rcases escaped_cases true c with ⟨plain, noSlash, stands⟩ | ⟨e, written, escape⟩
      · rw [plain]
        exact .plain quote (stands.imp_right And.right) (fun slash => absurd slash noSlash) (ih (by decide))
      · rw [written]
        exact .escape rfl escape (ih (by decide))

def runStep (c : Char) : Nat × Nat → Char → Nat × Nat :=
  fun (run, best) d => if c = d then (run + 1, max best (run + 1)) else (0, best)

theorem le_foldl_runStep (c : Char) (cs : List Char) (run best : Nat) :
    best ≤ (cs.foldl (runStep c) (run, best)).2 := by
  induction cs generalizing run best with
  | nil => exact Nat.le_refl _
  | cons d cs ih =>
    rw [List.foldl_cons, runStep]
    split_ifs
    · exact Nat.le_trans (Nat.le_max_left _ _) (ih _ _)
    · exact ih _ _

theorem not_mem_of_longestRun (none : longestRun c cs = 0) : c ∉ cs := by
  intro member
  obtain ⟨before, after, rfl⟩ := List.append_of_mem member
  change ((before ++ c :: after).foldl (runStep c) (0, 0)).2 = 0 at none
  have least := le_foldl_runStep c after ((before.foldl (runStep c) (0, 0)).1 + 1)
    (max (before.foldl (runStep c) (0, 0)).2 ((before.foldl (runStep c) (0, 0)).1 + 1))
  rw [List.foldl_append, List.foldl_cons, runStep, if_pos rfl] at none
  omega

theorem spells_of_foldl {run best : Nat} (stands : ∀ c ∈ cs, Stands c)
    (short : (cs.foldl (runStep '\'') (run, best)).2 < 3) : Spells '\'' run cs cs := by
  induction cs generalizing run best with
  | nil => exact .nil
  | cons c cs ih =>
    have later : ∀ c ∈ cs, Stands c := fun c member => stands c (.tail _ member)
    rw [List.foldl_cons, runStep] at short
    split_ifs at short with quote
    · subst quote
      have least := le_foldl_runStep '\'' cs (run + 1) (max best (run + 1))
      exact .mark (by omega) (ih later short)
    · exact .plain (Ne.symm quote) (stands c (.head _)) (fun _ => rfl) (ih later short)

theorem newline?_append_eq_none (spells : Spells quote n w cs) (proper : quote = '"' ∨ quote = '\'')
    (single : '\n' ∉ cs) (rest : List Char) : newline? (w ++ quote :: rest) = none := by
  cases spells with
  | nil => rcases proper with rfl | rfl <;> rfl
  | mark => rcases proper with rfl | rfl <;> rfl
  | @plain n c w cs other stands free more =>
    have noNewline : c ≠ '\n' := fun same => single (same ▸ .head _)
    rw [List.cons_append, newline?]
    · exact fun _ same => noNewline (List.cons.inj same).1
    · exact fun _ same => stands.ne_carriage (List.cons.inj same).1
  | escape => rfl

theorem multilineStart_append (spells : Spells quote 0 w cs) (proper : quote = '"' ∨ quote = '\'')
    (rest : List Char) :
    multilineStart ((if cs.any (· = '\n') then ['\n'] else []) ++ w ++ quote :: rest) = w ++ quote :: rest := by
  split_ifs with newlines
  · rfl
  · rw [List.nil_append, multilineStart, newline?_append_eq_none spells proper (by simpa using newlines) rest]
    rfl

variable {depth : Nat}

theorem value_basic (single : ¬ ['"', '"'] <+: w) :
    value (fuel + 1) depth ('"' :: w) = (basicString (w.length + 1) w).map text := by
  rw [value.eq_def]
  simp only
  split
  all_goals simp_all

theorem value_literal (single : ¬ ['\'', '\''] <+: w) :
    value (fuel + 1) depth ('\'' :: w) = (literalString w).map text := by
  rw [value.eq_def]
  simp only
  split
  all_goals simp_all

theorem value_lines (fuel depth : Nat) (proper : quote = '"' ∨ quote = '\'') (spells : Spells quote 0 w cs)
    (stops : Stops (fun c => decide (c = quote)) rest) :
    value (fuel + 1) depth (quote :: quote :: quote ::
      ((if cs.any (· = '\n') then ['\n'] else []) ++ w ++ quote :: quote :: quote :: rest)) =
      some (.text (String.ofList cs), rest) := by
  have start := multilineStart_append spells proper (quote :: quote :: rest)
  have inside (fuel : Nat) (enough : w.length < fuel) := spells.read proper (by decide) stops enough
  rcases proper with rfl | rfl
  · simp only [value, start]
    rw [inside _ (by simp; omega)]
    rfl
  · simp only [value, start]
    rw [inside _ (by simp; omega)]
    rfl

/-- What holds of a text in the form chosen for it. -/
def Form.Suits (cs : List Char) : Form → Prop
  | .basic => True
  | .literal => (∀ c ∈ cs, Text.isPrintable c = true) ∧ '\'' ∉ cs
  | .basicLines => True
  | .literalLines => (∀ c ∈ cs, Stands c) ∧ longestRun '\'' cs < 3

theorem suits_form (cs : List Char) : (form cs).Suits cs := by
  have stands (plain : cs.any isControl = false) : ∀ c ∈ cs, Stands c :=
    fun c member => stands_of_not_control (List.any_eq_false.mp plain c member)
  unfold form
  simp only
  split_ifs with basic literal basicLines literalLines
  · trivial
  · simp only [Bool.and_eq_true, Bool.not_eq_true', decide_eq_true_eq] at literal
    obtain ⟨⟨plain, none⟩, single⟩ := literal
    refine ⟨fun c member => (stands plain c member).resolve_right ?_, not_mem_of_longestRun none⟩
    rintro rfl
    exact absurd (List.any_eq_false.mp single _ member) (by decide)
  · trivial
  · simp only [Bool.and_eq_true, Bool.not_eq_true', decide_eq_true_eq] at literalLines
    exact ⟨stands literalLines.1, literalLines.2⟩
  · trivial
  · trivial

theorem basicChars_single (cs rest : List Char) :
    ¬ ['"', '"'] <+: basicChars false 0 cs ++ '"' :: '\n' :: rest := by
  cases cs with
  | nil => simp [basicChars]
  | cons c cs =>
    by_cases quote : c = '"'
    · simp [basicChars, quote]
    · rcases escaped_cases false c with ⟨plain, -⟩ | ⟨e, written, -⟩
      · simp [basicChars, quote, plain, Ne.symm quote]
      · simp [basicChars, quote, written]

theorem literal_single (noQuote : '\'' ∉ cs) (rest : List Char) :
    ¬ ['\'', '\''] <+: cs ++ '\'' :: '\n' :: rest := by
  cases cs with
  | nil => simp
  | cons c cs =>
    have other : '\'' ≠ c := fun same => noQuote (same ▸ .head _)
    simp [other]

/-- A written text reads back. -/
theorem value_quoted (s : String) (rest : List Char) :
    value (fuel + 1) depth (quoted s ++ '\n' :: rest) = some (.text s, '\n' :: rest) := by
  have suits := suits_form s.toList
  cases chosen : form s.toList with
  | basic =>
    simp only [quoted, chosen, List.cons_append, List.append_assoc, List.nil_append]
    rw [value_basic (basicChars_single s.toList rest), basicString_basicChars]
    · simp [text]
    · have longer := length_le_basicChars s.toList
      rw [List.length_append]
      omega
  | literal =>
    rw [chosen] at suits
    obtain ⟨printable, noQuote⟩ := suits
    simp only [quoted, chosen, List.cons_append, List.append_assoc, List.nil_append]
    rw [value_literal (literal_single noQuote rest), literalString_append printable noQuote]
    simp [text]
  | basicLines =>
    have newline : Stops (fun c => decide (c = '"')) ('\n' :: rest) := .cons (by decide) rest
    have read := value_lines fuel depth (.inl rfl) (spells_basicChars s.toList (Nat.zero_le 2)) newline
    simpa [quoted, chosen] using read
  | literalLines =>
    rw [chosen] at suits
    have newline : Stops (fun c => decide (c = '\'')) ('\n' :: rest) := .cons (by decide) rest
    have read := value_lines fuel depth (.inr rfl) (spells_of_foldl suits.1 suits.2) newline
    simpa [quoted, chosen] using read

end Wiring.Toml
