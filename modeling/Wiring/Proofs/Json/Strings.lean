import Wiring.Json.Printer
import Wiring.Json.Reader
import Wiring.Proofs.Text.Bytes

/-! # Reading strings that were printed

The reader has the bytes of a text before it, each as a character. Of ASCII that is the text itself; all
other bytes are read as they stand, and together they are the bytes of the string that was printed.
-/
namespace Wiring

theorem Text.hexValue?_lowerHexDigit : ∀ n < 16, hexValue? (lowerHexDigit n) = some n := by decide

theorem Text.lowerHexDigit_lt : ∀ n < 16, (lowerHexDigit n).toNat < 128 := by decide

namespace Source

theorem toNat_byteChar (b : UInt8) : (byteChar b).toNat = b.toNat := by
  have size := b.toNat_lt
  have valid : b.toNat.isValidChar := .inl (by omega)
  rw [byteChar, Char.ofNat, dif_pos valid]
  rfl

theorem toUInt8_byteChar (b : UInt8) : (byteChar b).toUInt8 = b := by
  have number : (byteChar b).toUInt8 = (byteChar b).toNat.toUInt8 := rfl
  rw [number, toNat_byteChar]
  exact UInt8.ofNat_toNat

theorem byteChar_toUInt8 {c : Char} (ascii : c.toNat < 128) : byteChar c.toUInt8 = c := by
  have size : c.toNat % 256 = c.toNat := Nat.mod_eq_of_lt (by omega)
  apply Char.toNat_inj.mp
  rw [toNat_byteChar]
  exact size

/-- What the reader has before it of a text: its bytes, each as a character. -/
def spell (cs : List Char) : List Char := (cs.flatMap String.utf8EncodeChar).map byteChar

theorem spell_nil : spell [] = [] := rfl

theorem spell_append (cs ds : List Char) : spell (cs ++ ds) = spell cs ++ spell ds := by
  rw [spell, List.flatMap_append, List.map_append]
  rfl

theorem spell_cons {c : Char} (ascii : c.toNat < 128) (cs : List Char) : spell (c :: cs) = c :: spell cs := by
  rw [spell, List.flatMap_cons, Text.utf8EncodeChar_of_lt ascii, List.map_append, List.map_singleton,
    byteChar_toUInt8 ascii]
  rfl

theorem spell_of_ascii {cs : List Char} (ascii : ∀ c ∈ cs, c.toNat < 128) : spell cs = cs := by
  induction cs with
  | nil => rfl
  | cons c cs ih =>
    obtain ⟨first, others⟩ := List.forall_mem_cons.mp ascii
    rw [spell_cons first, ih others]

theorem spell_inj {cs ds : List Char} (same : spell cs = spell ds) : cs = ds := by
  have bytes := (List.map_inj_right fun b c told => by rw [← toUInt8_byteChar b, told, toUInt8_byteChar]).mp same
  have read := Text.fromUTF8?_flatMap (String.ofList cs)
  rw [String.toList_ofList, bytes] at read
  have read' := Text.fromUTF8?_flatMap (String.ofList ds)
  rw [String.toList_ofList] at read'
  exact String.ofList_injective (Option.some.inj (read.symm.trans read'))

theorem read_eq (text : String) : read text = readChars (spell text.toList) := by
  have bytes : (text.toList.flatMap String.utf8EncodeChar).toByteArray = text.toUTF8 := String.utf8Encode_toList
  rw [read, readBytes, ← bytes, List.toList_data_toByteArray]
  rfl

def lettered : List Char := ['\n', '\r', '\t', '\x08', '\x0c']

/-- How a printed character is read: a control without a letter comes as a number. -/
def pieces (c : Char) : List Piece :=
  if c.toNat < 32 ∧ c ∉ lettered then [.code c.toNat] else (String.utf8EncodeChar c).map .byte

theorem readPieces_ordinary {c : Char} (quote : c ≠ '"') (slash : c ≠ '\\') (size : ¬ c.toNat < 32)
    (rest : List Char) :
    readPieces (c :: rest) = (readPieces rest).map fun (ps, rest) => (.byte c.toUInt8 :: ps, rest) := by
  rw [readPieces]
  · have plain : (decide (c.toNat < 32) || decide (c = '\\')) = false := by simp [size, slash]
    rw [if_neg (by simp [plain])]
    cases readPieces rest <;> rfl
  all_goals simp_all

/-- Bytes that are not ASCII are read as they stand. -/
theorem readPieces_bytes {bytes : List UInt8} (wide : ∀ b ∈ bytes, 128 ≤ b.toNat) (rest : List Char) :
    readPieces (bytes.map byteChar ++ rest) =
      (readPieces rest).map fun (ps, rest) => (bytes.map .byte ++ ps, rest) := by
  induction bytes with
  | nil => simp
  | cons b bytes ih =>
    obtain ⟨first, others⟩ := List.forall_mem_cons.mp wide
    have apart : ∀ c : Char, c.toNat < 128 → byteChar b ≠ c := by
      rintro c ascii rfl
      rw [toNat_byteChar] at ascii
      omega
    have size : ¬ (byteChar b).toNat < 32 := by
      rw [toNat_byteChar]
      omega
    rw [List.map_cons, List.cons_append,
      readPieces_ordinary (apart _ (by decide)) (apart _ (by decide)) size, ih others, toUInt8_byteChar]
    cases readPieces rest <;> rfl

theorem readPieces_plain {c : Char} (quote : c ≠ '"') (slash : c ≠ '\\') (size : ¬ c.toNat < 32)
    (rest : List Char) : readPieces (spell [c] ++ rest) =
      (readPieces rest).map fun (ps, rest) => ((String.utf8EncodeChar c).map .byte ++ ps, rest) := by
  by_cases ascii : c.toNat < 128
  · rw [spell_cons ascii, Text.utf8EncodeChar_of_lt ascii]
    exact readPieces_ordinary quote slash size rest
  · rw [spell, List.flatMap_singleton]
    exact readPieces_bytes (fun b => Text.le_of_mem_utf8EncodeChar (Nat.le_of_not_lt ascii)) rest

theorem readPieces_control {c : Char} (control : c.toNat < 32) (rest : List Char) :
    readPieces (spell ['\\', 'u', '0', '0', Text.lowerHexDigit (c.toNat / 16), Text.lowerHexDigit (c.toNat % 16)] ++
      rest) = (readPieces rest).map fun (ps, rest) => (.code c.toNat :: ps, rest) := by
  have ascii : ∀ d ∈ ['\\', 'u', '0', '0', Text.lowerHexDigit (c.toNat / 16),
      Text.lowerHexDigit (c.toNat % 16)], d.toNat < 128 := by
    simp only [List.forall_mem_cons]
    exact ⟨by decide, by decide, by decide, by decide, Text.lowerHexDigit_lt _ (by omega),
      Text.lowerHexDigit_lt _ (by omega), nofun⟩
  have zero : Text.hexValue? '0' = some 0 := rfl
  have high := Text.hexValue?_lowerHexDigit (c.toNat / 16) (by omega)
  have low := Text.hexValue?_lowerHexDigit (c.toNat % 16) (by omega)
  have whole : ((0 * 16 + 0) * 16 + c.toNat / 16) * 16 + c.toNat % 16 = c.toNat := by omega
  rw [spell_of_ascii ascii]
  simp only [List.cons_append, List.nil_append, readPieces, zero, high, low, whole, Option.bind_eq_bind,
    Option.bind_some]
  cases readPieces rest <;> rfl

theorem readPieces_escapeChar (c : Char) (rest : List Char) :
    readPieces (spell (Json.escapeChar c) ++ rest) =
      (readPieces rest).map fun (ps, rest) => (pieces c ++ ps, rest) := by
  by_cases short : c ∈ '"' :: '\\' :: lettered
  · have ascii : ('"' :: '\\' :: lettered).all fun c => (Json.escapeChar c).all (·.toNat < 128) := by decide
    simp only [List.all_eq_true, decide_eq_true_eq] at ascii
    rw [spell_of_ascii (ascii c short)]
    simp only [lettered, List.mem_cons, List.not_mem_nil, or_false] at short
    rcases short with rfl | rfl | rfl | rfl | rfl | rfl | rfl <;>
      simp [Json.escapeChar, readPieces, pieces, lettered, String.utf8EncodeChar] <;>
      cases readPieces rest <;> rfl
  · have apart := short
    simp only [lettered, List.mem_cons, List.not_mem_nil, or_false, not_or] at apart
    obtain ⟨quote, slash, newline, carriage, tab, back, form⟩ := apart
    unfold Json.escapeChar
    rw [if_neg quote, if_neg slash, if_neg newline, if_neg carriage, if_neg tab, if_neg back,
      if_neg form]
    have unlettered : c ∉ lettered := fun member => short (.tail _ (.tail _ member))
    by_cases control : c.toNat < 32
    · rw [if_pos control, pieces, if_pos ⟨control, unlettered⟩]
      exact readPieces_control control rest
    · rw [if_neg control, pieces, if_neg fun both => control both.1]
      exact readPieces_plain quote slash control rest

theorem joinPieces_bytes (bytes : List UInt8) (ps : List Piece) :
    joinPieces (bytes.map .byte ++ ps) = (joinPieces ps).map (bytes ++ ·) := by
  induction bytes with
  | nil => simp
  | cons b bytes ih =>
    rw [List.map_cons, List.cons_append, joinPieces, ih, Option.map_map]
    rfl

theorem joinPieces_pieces (c : Char) (ps : List Piece) :
    joinPieces (pieces c ++ ps) = (joinPieces ps).map (String.utf8EncodeChar c ++ ·) := by
  by_cases control : c.toNat < 32 ∧ c ∉ lettered
  · have low : ¬ (0xD800 ≤ c.toNat ∧ c.toNat < 0xE000) := by omega
    have high : ¬ (0xD800 ≤ c.toNat ∧ c.toNat < 0xDC00) := by omega
    have rest : ¬ (0xDC00 ≤ c.toNat ∧ c.toNat < 0xE000) := by omega
    rw [pieces, if_pos control, List.singleton_append]
    rcases ps with _ | ⟨d | n, ps⟩
    · simp only [joinPieces, if_neg low, Char.ofNat_toNat]
    · simp only [joinPieces, if_neg low, Char.ofNat_toNat]
    · simp only [joinPieces, if_neg high, if_neg rest, Char.ofNat_toNat]
  · rw [pieces, if_neg control]
    exact joinPieces_bytes _ ps

/-- Any bytes beyond ASCII make a string for the reader, which goes on behind it, also if they are no text. -/
theorem readString_bytes {bytes : List UInt8} (wide : ∀ b ∈ bytes, 128 ≤ b.toNat) (rest : List Char) :
    readString (bytes.map byteChar ++ '"' :: rest) = some (String.fromUTF8? bytes.toByteArray, rest) := by
  have pieces := readPieces_bytes wide ('"' :: rest)
  have joined := joinPieces_bytes bytes []
  simp only [List.append_nil, joinPieces, Option.map_some] at joined
  simp only [readPieces, Option.map_some, List.append_nil] at pieces
  simp only [readString, pieces, joined, Option.bind_eq_bind, Option.bind_some]

theorem readPieces_printed (cs rest : List Char) :
    readPieces (spell (cs.flatMap Json.escapeChar) ++ '"' :: rest) = some (cs.flatMap pieces, rest) := by
  induction cs with
  | nil => rfl
  | cons c cs ih =>
    rw [List.flatMap_cons, spell_append, List.append_assoc, readPieces_escapeChar, ih]
    rfl

theorem joinPieces_flatMap (cs : List Char) :
    joinPieces (cs.flatMap pieces) = some (cs.flatMap String.utf8EncodeChar) := by
  induction cs with
  | nil => rfl
  | cons c cs ih =>
    rw [List.flatMap_cons, joinPieces_pieces, ih]
    rfl

theorem readString_printed (s : String) (rest : List Char) :
    readString (spell (s.toList.flatMap Json.escapeChar) ++ '"' :: rest) = some (some s, rest) := by
  simp only [readString, readPieces_printed, joinPieces_flatMap, Option.bind_eq_bind, Option.bind_some,
    Text.fromUTF8?_flatMap]

end Source
end Wiring
