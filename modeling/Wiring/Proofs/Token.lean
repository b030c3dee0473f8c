import Wiring.Key
import Wiring.Proofs.Text.Bytes
import Mathlib.Data.List.TakeDrop
import Mathlib.Logic.Function.Defs

/-! # Decoding tokens

A token can be read back: a point is a double colon, an underscore stands before the two digits of a
byte, and the dash is where the qualifier begins. So different keys have different tokens.
-/
namespace Wiring

namespace Text

theorem hexValue?_upperHexDigit : ∀ n < 16, hexValue? (upperHexDigit n) = some n := by decide

theorem isAlphanum_upperHexDigit : ∀ n < 16, (upperHexDigit n).isAlphanum = true := by decide

end Text

namespace Key

def decodeBytes : List Char → Option (List UInt8)
  | [] => some []
  | '.' :: rest => (decodeBytes rest).map fun bytes => 58 :: 58 :: bytes
  | '_' :: high :: low :: rest => do
    let high ← Text.hexValue? high
    let low ← Text.hexValue? low
    (decodeBytes rest).map (UInt8.ofNat (high * 16 + low) :: ·)
  | c :: rest => (decodeBytes rest).map (c.toUInt8 :: ·)

def decode (part : List Char) : Option String :=
  (decodeBytes part).bind fun bytes => String.fromUTF8? bytes.toByteArray

/-- The key of a token, whose parts stand before and after the first dash. -/
def ofToken? (token : String) : Option Key :=
  match token.toList.span (· ≠ '-') with
  | (_, []) => none
  | (interface, _ :: name) => do some ⟨← decode interface, ← decode name⟩

theorem decodeBytes_escapeByte (b : UInt8) (rest : List Char) :
    decodeBytes (escapeByte b ++ rest) = (decodeBytes rest).map (b :: ·) := by
  have size := b.toNat_lt
  have high := Text.hexValue?_upperHexDigit (b.toNat / 16) (by omega)
  have low := Text.hexValue?_upperHexDigit (b.toNat % 16) (by omega)
  have whole : b.toNat / 16 * 16 + b.toNat % 16 = b.toNat := by omega
  simp only [escapeByte, List.cons_append, List.nil_append, decodeBytes, high, low,
    Option.bind_eq_bind, Option.bind_some, whole, UInt8.ofNat_toNat]

theorem decodeBytes_escapeBytes (bytes : List UInt8) (rest : List Char) :
    decodeBytes (bytes.flatMap escapeByte ++ rest) = (decodeBytes rest).map (bytes ++ ·) := by
  induction bytes with
  | nil => simp
  | cons b bytes ih =>
    rw [List.flatMap_cons, List.append_assoc, decodeBytes_escapeByte, ih, Option.map_map]
    rfl

theorem toNat_lt_of_isAlphanum {c : Char} (h : c.isAlphanum = true) : c.toNat < 128 := by
  have last : c.val ≤ 'Z'.val ∨ c.val ≤ 'z'.val ∨ c.val ≤ '9'.val := by
    rcases Bool.or_eq_true_iff.mp h with letter | digit
    · rcases Bool.or_eq_true_iff.mp letter with upper | lower
      · exact .inl (of_decide_eq_true upper).2
      · exact .inr (.inl (of_decide_eq_true (Bool.and_eq_true_iff.mp lower).2))
    · exact .inr (.inr (of_decide_eq_true (Bool.and_eq_true_iff.mp digit).2))
  have bound : c.toNat ≤ 90 ∨ c.toNat ≤ 122 ∨ c.toNat ≤ 57 := last
  omega

theorem decodeBytes_of_isAlphanum {c : Char} (h : c.isAlphanum = true) (rest : List Char) :
    decodeBytes (c :: rest) = (decodeBytes rest).map (String.utf8EncodeChar c ++ ·) := by
  have point : c ≠ '.' := by rintro rfl; revert h; decide
  have underscore : c ≠ '_' := by rintro rfl; revert h; decide
  rw [Text.utf8EncodeChar_of_lt (toNat_lt_of_isAlphanum h)]
  simp [decodeBytes, underscore]

theorem decodeBytes_encodeChar (c : Char) (rest : List Char) :
    decodeBytes (encodeChar c ++ rest) = (decodeBytes rest).map (String.utf8EncodeChar c ++ ·) := by
  unfold encodeChar
  by_cases h : c.isAlphanum = true
  · rw [if_pos h]
    exact decodeBytes_of_isAlphanum h rest
  · rw [if_neg h]
    exact decodeBytes_escapeBytes _ rest

theorem decodeBytes_encode (cs : List Char) :
    decodeBytes (encode cs) = some (cs.flatMap String.utf8EncodeChar) := by
  induction cs using encode.induct with
  | case1 => rfl
  | case2 rest ih =>
    simp [encode, decodeBytes, ih]
    rfl
  | case3 c rest single ih =>
    rw [encode, decodeBytes_encodeChar, ih]
    · rfl
    · exact single

/-- Encoding loses nothing. -/
theorem decode_encode (s : String) : decode (encode s.toList) = some s := by
  rw [decode, decodeBytes_encode, Option.bind_some, Text.fromUTF8?_flatMap]

def isPartChar (c : Char) : Bool := c.isAlphanum || c = '.' || c = '_'

theorem isPartChar_escapeByte (b : UInt8) : ∀ c ∈ escapeByte b, isPartChar c = true := by
  have size := b.toNat_lt
  have high := Text.isAlphanum_upperHexDigit (b.toNat / 16) (by omega)
  have low := Text.isAlphanum_upperHexDigit (b.toNat % 16) (by omega)
  simp [escapeByte, isPartChar, high, low]

theorem isPartChar_encodeChar (c : Char) : ∀ d ∈ encodeChar c, isPartChar d = true := by
  intro d member
  unfold encodeChar at member
  by_cases h : c.isAlphanum = true
  · rw [if_pos h, List.mem_singleton] at member
    simp [member, isPartChar, h]
  · rw [if_neg h] at member
    obtain ⟨b, -, member⟩ := List.mem_flatMap.mp member
    exact isPartChar_escapeByte b d member

theorem isPartChar_encode (cs : List Char) : ∀ d ∈ encode cs, isPartChar d = true := by
  induction cs using encode.induct with
  | case1 => simp [encode]
  | case2 rest ih =>
    rw [encode]
    exact List.forall_mem_cons.mpr ⟨by decide, ih⟩
  | case3 c rest single ih =>
    rw [encode]
    · intro d member
      rcases List.mem_append.mp member with member | member
      · exact isPartChar_encodeChar c d member
      · exact ih d member
    · exact single

theorem dash_not_mem_encode (cs : List Char) : '-' ∉ encode cs := by
  intro member
  have := isPartChar_encode cs '-' member
  revert this
  decide

theorem toList_token (k : Key) :
    k.token.toList = encode k.interface.toList ++ '-' :: encode k.name.toList := by
  rw [token, String.toList_ofList, tokenChars]

theorem ofToken?_token (k : Key) : ofToken? k.token = some k := by
  have split : k.token.toList.span (· ≠ '-') =
      (encode k.interface.toList, '-' :: encode k.name.toList) := by
    have before : ∀ c ∈ encode k.interface.toList, decide (c ≠ '-') = true := by
      intro c member
      rw [decide_eq_true_eq]
      rintro rfl
      exact dash_not_mem_encode _ member
    rw [toList_token, List.span_eq_takeWhile_dropWhile, List.takeWhile_append_of_pos before,
      List.dropWhile_append_of_pos before]
    simp
  simp only [ofToken?, split, decode_encode]
  rfl

theorem token_injective : Function.Injective token := by
  intro a b same
  have read := ofToken?_token a
  rw [same, ofToken?_token b] at read
  exact (Option.some.inj read).symm

theorem isPartChar_token (k : Key) : ∀ c ∈ k.token.toList, isPartChar c = true ∨ c = '-' := by
  intro c member
  rw [toList_token] at member
  rcases List.mem_append.mp member with inside | later
  · exact .inl (isPartChar_encode _ c inside)
  · rcases List.mem_cons.mp later with rfl | inside
    · exact .inr rfl
    · exact .inl (isPartChar_encode _ c inside)

theorem count_dash_token (k : Key) : k.token.toList.count '-' = 1 := by
  rw [toList_token, List.count_append, List.count_cons_self,
    List.count_eq_zero_of_not_mem (dash_not_mem_encode _),
    List.count_eq_zero_of_not_mem (dash_not_mem_encode _)]

/-- Every key can be read off its token, so that no two keys share one, and a token is made of ASCII
letters, digits, points, underscores and exactly one dash. -/
theorem tokens_decode :
    (∀ k : Key, ofToken? k.token = some k) ∧ Function.Injective token ∧
      ∀ k : Key, (∀ c ∈ k.token.toList, c.isAlphanum ∨ c = '.' ∨ c = '_' ∨ c = '-') ∧
        k.token.toList.count '-' = 1 := by
  refine ⟨ofToken?_token, token_injective, fun k => ⟨?_, count_dash_token k⟩⟩
  intro c member
  have allowed := isPartChar_token k c member
  simp only [isPartChar, Bool.or_eq_true, decide_eq_true_eq, or_assoc] at allowed
  exact allowed

end Key
end Wiring
