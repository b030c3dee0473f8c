import Wiring.Text.Hex
import Mathlib.Data.List.TakeDrop
import Mathlib.Tactic.Common

/-! # Numerals

Texts are read from the left, and a reader stops where a character is no longer of its kind. The decimal
numeral of a natural consists of digits only, has no leading zero and reads back as the natural.
-/
namespace Wiring

/-- A rest of a text at which a reader of such characters stops. -/
def Stops (p : Char → Bool) (rest : List Char) : Prop := ∀ c ∈ rest.head?, p c = false

namespace Stops
variable {p : Char → Bool} {cs rest : List Char}

theorem nil (p : Char → Bool) : Stops p [] := nofun

theorem cons {c : Char} (h : p c = false) (rest : List Char) : Stops p (c :: rest) := by
  intro d first
  obtain rfl : c = d := Option.some.inj first
  exact h

theorem dropWhile_eq (stops : Stops p rest) : rest.dropWhile p = rest := by
  cases rest with
  | nil => rfl
  | cons c rest => exact List.dropWhile_cons_of_neg (by simp [stops c rfl])

theorem takeWhile_eq (stops : Stops p rest) : rest.takeWhile p = [] := by
  cases rest with
  | nil => rfl
  | cons c rest => exact List.takeWhile_cons_of_neg (by simp [stops c rfl])

/-- The part of the right kind is taken whole, and nothing of the rest. -/
theorem takeWhile_append (stops : Stops p rest) (all : ∀ c ∈ cs, p c = true) :
    (cs ++ rest).takeWhile p = cs := by
  rw [List.takeWhile_append_of_pos all, stops.takeWhile_eq, List.append_nil]

theorem dropWhile_append (stops : Stops p rest) (all : ∀ c ∈ cs, p c = true) :
    (cs ++ rest).dropWhile p = rest := by
  rw [List.dropWhile_append_of_pos all, stops.dropWhile_eq]

end Stops

namespace Text

theorem isDigit_toDigits {n : Nat} {c : Char} (member : c ∈ Nat.toDigits 10 n) : c.isDigit = true :=
  Nat.isDigit_of_mem_toDigits (by decide) (by decide) member

theorem digitChar_eq_zero : ∀ n < 10, Nat.digitChar n = '0' → n = 0 := by decide

/-- Only the numeral of zero begins with a zero. -/
theorem eq_zero_of_head?_toDigits (n : Nat) (first : (Nat.toDigits 10 n).head? = some '0') : n = 0 := by
  induction n using Nat.strongRecOn with
  | ind n ih =>
    by_cases small : n < 10
    · rw [Nat.toDigits_of_lt_base small] at first
      exact digitChar_eq_zero n small (Option.some.inj first)
    · rw [Nat.toDigits_of_base_le (by decide) (by omega)] at first
      obtain ⟨c, cs, same⟩ := List.exists_cons_of_ne_nil (Nat.toDigits_ne_nil (n := n / 10) (b := 10))
      have none : n / 10 = 0 := by
        refine ih (n / 10) (by omega) ?_
        rw [same] at first ⊢
        exact first
      omega

theorem foldl_toDigits (n : Nat) :
    (Nat.toDigits 10 n).foldl (fun sofar c => sofar * 10 + (c.toNat - 48)) 0 = n := by
  have read := Nat.ofDigitChars_ten_toDigits (n := n)
  rw [Nat.ofDigitChars_eq_foldl] at read
  simp only [Nat.mul_comm 10] at read
  exact read

theorem hexValue?_digitChar : ∀ d < 16, hexValue? (Nat.digitChar d) = some d := by decide

section
variable {base : Nat} (proper : 1 < base) (small : base ≤ 16)
include proper small

theorem hexValue?_of_mem_toDigits {n : Nat} {c : Char} (member : c ∈ Nat.toDigits base n) :
    ∃ d, hexValue? c = some d := by
  induction n using Nat.strongRecOn with
  | ind n ih =>
    by_cases digit : n < base
    · rw [Nat.toDigits_of_lt_base digit, List.mem_singleton] at member
      exact ⟨n, member ▸ hexValue?_digitChar n (by omega)⟩
    · rw [Nat.toDigits_of_base_le proper (by omega), List.mem_append, List.mem_singleton] at member
      rcases member with earlier | rfl
      · exact ih (n / base) (Nat.div_lt_self (by omega) proper) earlier
      · exact ⟨_, hexValue?_digitChar _ (Nat.lt_of_lt_of_le (Nat.mod_lt n (by omega)) small)⟩

theorem foldl_hexValue (n : Nat) :
    (Nat.toDigits base n).foldl (fun sofar c => sofar * base + (hexValue? c).getD 0) 0 = n := by
  induction n using Nat.strongRecOn with
  | ind n ih =>
    by_cases digit : n < base
    · simp [Nat.toDigits_of_lt_base digit, hexValue?_digitChar n (by omega)]
    · have last := hexValue?_digitChar (n % base) (Nat.lt_of_lt_of_le (Nat.mod_lt n (by omega)) small)
      rw [Nat.toDigits_of_base_le proper (by omega), List.foldl_append,
        ih (n / base) (Nat.div_lt_self (by omega) proper), List.foldl_cons, List.foldl_nil, last, Option.getD_some]
      exact Nat.div_add_mod' n base

end

end Text
end Wiring
