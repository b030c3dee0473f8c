import Wiring.Text.Quoted
import Wiring.Proofs.Text.Digits

/-! # Texts that show where they end

Some items can be read off the start of a text, whatever follows them there. So can lists of them, if a mark
closes a list or a separator stands between its items. Quoted texts are closed lists of characters.
-/
namespace Wiring.Text

variable {α : Type} {text : α → List Char}

/-- The texts of items show where they end: only the same item with the same rest behind it gives the same
text. -/
def SelfDelimiting (text : α → List Char) : Prop := ∀ ⦃x y r s⦄, text x ++ r = text y ++ s → x = y ∧ r = s

/-- The texts of the items of a kind show where they end in front of certain rests. -/
def Delimits (kind : α → Prop) (ends : List Char → Prop) (text : α → List Char) : Prop :=
  ∀ ⦃x y r s⦄, kind x → kind y → ends r → ends s → text x ++ r = text y ++ s → x = y ∧ r = s

theorem selfDelimiting_of_read {read : List Char → Option (α × List Char)}
    (found : ∀ x rest, read (text x ++ rest) = some (x, rest)) : SelfDelimiting text := by
  intro x y r s same
  have both : some (x, r) = some (y, s) := by rw [← found, ← found, same]
  exact Prod.ext_iff.mp (Option.some.inj both)

/-- Lists of items are told apart if a mark closes them with which no item begins. -/
theorem SelfDelimiting.closed {mark : Char} (delimits : SelfDelimiting text)
    (begins : ∀ x, ∃ c cs, text x = c :: cs ∧ c ≠ mark) :
    SelfDelimiting fun xs : List α => xs.flatMap text ++ [mark] := by
  have apart : ∀ x rest r, text x ++ rest ≠ mark :: r := by
    intro x rest r same
    obtain ⟨c, cs, first, other⟩ := begins x
    rw [first, List.cons_append] at same
    exact other (List.cons.inj same).1
  intro xs
  induction xs with
  | nil =>
    rintro (_ | ⟨y, ys⟩) r s same
    · exact ⟨rfl, (List.cons.inj same).2⟩
    · simp only [List.flatMap_cons, List.append_assoc] at same
      exact absurd same.symm (apart y _ r)
  | cons x xs ih =>
    rintro (_ | ⟨y, ys⟩) r s same
    · simp only [List.flatMap_cons, List.append_assoc] at same
      exact absurd same (apart x _ s)
    · simp only [List.flatMap_cons, List.append_assoc] at same
      obtain ⟨rfl, later⟩ := delimits same
      simp only [← List.append_assoc] at later
      obtain ⟨rfl, rest⟩ := ih later
      exact ⟨rfl, rest⟩

def unquoteChar? : List Char → Option (Char × List Char)
  | '\\' :: 'n' :: rest => some ('\n', rest)
  | '\\' :: 'r' :: rest => some ('\r', rest)
  | '\\' :: 't' :: rest => some ('\t', rest)
  | '\\' :: '0' :: rest => some ('\x00', rest)
  | '\\' :: 'u' :: '\x7b' :: rest =>
    let (digits, rest) := rest.span (· ≠ '\x7d')
    some (Char.ofNat (digits.foldl (fun n c => n * 16 + (hexValue? c).getD 0) 0), rest.drop 1)
  | '\\' :: c :: rest => some (c, rest)
  | c :: rest => some (c, rest)
  | [] => none

theorem span_hexDigits (n : Nat) (rest : List Char) :
    (hexDigits n ++ '\x7d' :: rest).span (· ≠ '\x7d') = (hexDigits n, '\x7d' :: rest) := by
  have stops : Stops (fun c => decide (c ≠ '\x7d')) ('\x7d' :: rest) := .cons (by decide) rest
  have all : ∀ c ∈ hexDigits n, decide (c ≠ '\x7d') = true := by
    intro c member
    obtain ⟨d, value⟩ := hexValue?_of_mem_toDigits (by decide) (by decide) member
    rw [decide_eq_true_eq]
    rintro rfl
    cases value
  rw [List.span_eq_takeWhile_dropWhile, stops.takeWhile_append all, stops.dropWhile_append all]

theorem unquoteChar?_quoteChar (c : Char) (rest : List Char) :
    unquoteChar? (quoteChar c ++ rest) = some (c, rest) := by
  by_cases short : c ∈ ['"', '\\', '\n', '\r', '\t', '\x00']
  · simp only [List.mem_cons, List.not_mem_nil, or_false] at short
    rcases short with rfl | rfl | rfl | rfl | rfl | rfl <;> rfl
  · simp only [List.mem_cons, List.not_mem_nil, or_false, not_or] at short
    obtain ⟨quote, slash, newline, carriage, tab, nul⟩ := short
    unfold quoteChar
    rw [if_neg quote, if_neg slash, if_neg newline, if_neg carriage, if_neg tab, if_neg nul]
    by_cases hidden : isHidden c = true
    · have value : (Nat.toDigits 16 c.toNat).foldl (fun sofar c => sofar * 16 + (hexValue? c).getD 0) 0 = c.toNat :=
        foldl_hexValue (by decide) (by decide) c.toNat
      rw [if_pos hidden]
      simp only [List.append_assoc, List.cons_append, List.nil_append, unquoteChar?, span_hexDigits, List.drop_one,
        List.tail_cons]
      rw [hexDigits, value, Char.ofNat_toNat]
    · rw [if_neg hidden, List.cons_append, List.nil_append, unquoteChar?]
      all_goals simp_all

theorem quoteChar_head (c : Char) : ∃ d ds, quoteChar c = d :: ds ∧ d ≠ '"' := by
  have read := unquoteChar?_quoteChar c []
  rcases same : quoteChar c with _ | ⟨d, ds⟩
  · rw [same] at read
    cases read
  · refine ⟨d, ds, rfl, ?_⟩
    rintro rfl
    rw [same] at read
    obtain rfl : '"' = c := (Prod.ext_iff.mp (Option.some.inj read)).1
    cases same

theorem selfDelimiting_quoted : SelfDelimiting quoted := by
  intro a b r s same
  have inside := (selfDelimiting_of_read unquoteChar?_quoteChar).closed quoteChar_head
  simp only [quoted, List.cons_append] at same
  obtain ⟨chars, rest⟩ := inside (List.cons.inj same).2
  exact ⟨String.toList_inj.mp chars, rest⟩

end Wiring.Text
