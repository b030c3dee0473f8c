import Wiring.Proofs.Format.Plan
import Wiring.Proofs.Text.Delimited
import Wiring.Proofs.Token

/-! # Operands in a listing

The texts of operands stand between commas. A comma may also stand inside a literal or a quoted text, but every
text of an operand shows where it ends, so the operands can be read off their texts again.
-/
namespace Wiring
open Text Source

namespace Source

mutual
theorem ofJson_inj : (x y : Json) → ofJson x = ofJson y → x = y
  | .leaf a, .leaf b, same => by
    simpa [ofJson] using same
  | .array xs, .array ys, same => by
    rw [ofItems_inj xs ys (by simpa [ofJson] using same)]
  | .object xs, .object ys, same => by
    rw [ofMembers_inj xs ys (by simpa [ofJson] using same)]
  | .leaf _, .array _, same | .leaf _, .object _, same | .array _, .leaf _, same
  | .array _, .object _, same | .object _, .leaf _, same | .object _, .array _, same => by
    simp [ofJson] at same

theorem ofItems_inj : (xs ys : List Json) → ofItems xs = ofItems ys → xs = ys
  | [], [], _ => rfl
  | x :: xs, y :: ys, same => by
    simp only [ofItems, List.cons.injEq] at same
    rw [ofJson_inj x y same.1, ofItems_inj xs ys same.2]
  | [], _ :: _, same | _ :: _, [], same => by simp [ofItems] at same

theorem ofMembers_inj : (xs ys : List (String × Json)) → ofMembers xs = ofMembers ys → xs = ys
  | [], [], _ => rfl
  | (k, x) :: xs, (l, y) :: ys, same => by
    simp only [ofMembers, List.cons.injEq, Prod.mk.injEq] at same
    rw [same.1.1, ofJson_inj x y same.1.2, ofMembers_inj xs ys same.2]
  | [], _ :: _, same | _ :: _, [], same => by simp [ofMembers] at same
end

end Source

/-- What is read of a rest stops a numeral like the rest itself: no byte of a character beyond ASCII is part of
one. -/
theorem stops_spell {rest : List Char} (stops : Stops numeralChar rest) : Stops numeralChar (spell rest) := by
  cases rest with
  | nil => exact .nil _
  | cons c rest =>
    by_cases ascii : c.toNat < 128
    · rw [spell_cons ascii]
      exact .cons (stops c rfl) _
    · obtain ⟨b, bytes, same⟩ := List.exists_cons_of_ne_nil (String.utf8EncodeChar_ne_nil (c := c))
      have wide : 128 ≤ b.toNat := Text.le_of_mem_utf8EncodeChar (Nat.le_of_not_lt ascii) (by simp [same])
      rw [← toNat_byteChar] at wide
      rw [spell, List.flatMap_cons, same]
      refine .cons ?_ _
      rw [← Bool.not_eq_true]
      intro part
      exact absurd (lt_of_numeralChar part) (Nat.not_lt.mpr wide)

/-- A literal without doubles ends where no numeral goes on. The reader finds it, with fuel and room enough for
both texts. -/
theorem Json.delimits_print {layout : Json.Layout} (blank : layout.Blank) (level : Nat) :
    Delimits Json.Integral (Stops numeralChar) (print layout level) := by
  intro x y r s integral integral' stops stops' same
  have read := fun fuel => readValue_print blank level fuel (max x.depth y.depth) (spell r) (stops_spell stops) x
    integral (Nat.le_max_left _ _)
  have read' := fun fuel => readValue_print blank level fuel (max x.depth y.depth) (spell s) (stops_spell stops') y
    integral' (Nat.le_max_right _ _)
  have bytes : spell (print layout level x) ++ spell r = spell (print layout level y) ++ spell s := by
    rw [← spell_append, same, spell_append]
  let enough := 2 * ((spell (print layout level x)).length + (spell (print layout level y)).length)
  have both := (read enough (by omega)).symm.trans ((congrArg _ bytes).trans (read' enough (by omega)))
  obtain ⟨tree, rest⟩ := Prod.ext_iff.mp (Option.some.inj both)
  exact ⟨ofJson_inj x y tree, spell_inj rest⟩

theorem Json.print_ne_scope (scope : Scope) (layout : Json.Layout) (level : Nat) {x : Json} (integral : x.Integral)
    (r s : List Char) : print layout level x ++ r ≠ scope.text.toList ++ s := by
  obtain ⟨c, cs, begins, letter⟩ : ∃ c cs, scope.text.toList = c :: cs ∧ (c = 's' ∨ c = 'p') := by
    cases scope with
    | singleton => exact ⟨_, _, rfl, .inl rfl⟩
    | prototype => exact ⟨_, _, rfl, .inr rfl⟩
  intro same
  rw [begins, List.cons_append] at same
  match x with
  | .leaf .null | .leaf (.bool true) | .leaf (.bool false) | .leaf (.string _) | .array [] | .array (_ :: _)
  | .object [] | .object ((_, _) :: _) =>
    obtain rfl := (List.cons.inj same).1
    simp at letter
  | .leaf (.number (.integer n)) =>
    obtain ⟨d, ds, written, numeral⟩ := Integer.text_head n
    rw [print, printScalar, Number.text, written, List.cons_append] at same
    obtain rfl := (List.cons.inj same).1
    rcases letter with rfl | rfl <;> simp at numeral

theorem Scope.text_inj {scope scope' : Scope} {r s : List Char}
    (same : scope.text.toList ++ '(' :: r = scope'.text.toList ++ '(' :: s) : scope = scope' ∧ r = s := by
  cases scope with
  | singleton =>
    cases scope' with
    | singleton => exact ⟨rfl, (List.cons.inj (List.append_cancel_left same)).2⟩
    | prototype => simp [text] at same
  | prototype =>
    cases scope' with
    | singleton => simp [text] at same
    | prototype => exact ⟨rfl, (List.cons.inj (List.append_cancel_left same)).2⟩

def Point.chars (p : Point) : List Char := joined [',', ' '] [quoted p.owner, quoted p.method, quoted p.parameter]

theorem Point.selfDelimiting_chars : SelfDelimiting Point.chars := by
  rintro ⟨owner, method, parameter⟩ ⟨owner', method', parameter'⟩ r s same
  simp only [chars, joined, List.append_assoc] at same
  obtain ⟨first, later⟩ := selfDelimiting_quoted same
  obtain ⟨second, last⟩ := selfDelimiting_quoted (List.append_cancel_left later)
  obtain ⟨third, rest⟩ := selfDelimiting_quoted (List.append_cancel_left last)
  exact ⟨by rw [first, second, third], rest⟩

namespace Operand

/-- The call of a plan, or the one left to the injector if a point asks. -/
def callChars (c : Scope × Key × Option Point) : List Char :=
  c.1.text.toList ++ '(' :: (quoted c.2.1.token ++ match c.2.2 with
    | none => [')']
    | some point => ',' :: ' ' :: '[' :: (point.chars ++ [']', ')']))

theorem selfDelimiting_callChars : SelfDelimiting callChars := by
  rintro ⟨scope, key, point⟩ ⟨scope', key', point'⟩ r s same
  simp only [callChars, List.append_assoc, List.cons_append] at same
  obtain ⟨rfl, inside⟩ := Scope.text_inj same
  obtain ⟨token, rest⟩ := selfDelimiting_quoted inside
  obtain rfl := Key.token_injective token
  cases point with
  | none =>
    cases point' with
    | none => exact ⟨rfl, (List.cons.inj rest).2⟩
    | some point' => simp at rest
  | some point =>
    cases point' with
    | none => simp at rest
    | some point' =>
      simp only [List.cons_append, List.append_assoc, List.cons.injEq, true_and] at rest
      obtain ⟨rfl, closing⟩ := Point.selfDelimiting_chars rest
      exact ⟨rfl, (List.cons.inj (List.cons.inj closing).2).2⟩

theorem callChars_ne_nil (c : Scope × Key × Option Point) : callChars c ≠ [] := by simp [callChars]

theorem chars_eq (o : Operand) : o.chars = match o with
    | .reference scope key => callChars (scope, key, none)
    | .deferred scope key point => callChars (scope, key, some point)
    | .literal value => Json.print .compact 0 value := by
  cases o <;> simp [chars, callChars, Point.chars]

def Integral (o : Operand) : Prop := ∀ v ∈ o.literals, v.Integral

/-- An operand ends where no numeral goes on: it is a literal, or the call that its first letter announces. -/
theorem delimits_chars : Delimits Integral (Stops numeralChar) chars := by
  have apart : ∀ {value : Json} {c r s}, value.Integral → Json.print .compact 0 value ++ r ≠ callChars c ++ s := by
    intro value c r s integral same
    rw [callChars, List.append_assoc] at same
    exact Json.print_ne_scope c.1 .compact 0 integral r _ same
  intro x y r s integral integral' stops stops' same
  rw [chars_eq, chars_eq] at same
  cases x with
  | literal value =>
    have proper := integral value List.mem_cons_self
    cases y with
    | literal value' =>
      have proper' := integral' value' List.mem_cons_self
      obtain ⟨rfl, rest⟩ := Json.delimits_print Json.Layout.blank_compact 0 proper proper' stops stops' same
      exact ⟨rfl, rest⟩
    | reference | deferred => exact absurd same (apart proper)
  | reference scope key =>
    cases y with
    | literal value' => exact absurd same.symm (apart (integral' value' List.mem_cons_self))
    | deferred => cases (selfDelimiting_callChars same).1
    | reference =>
      obtain ⟨told, rest⟩ := selfDelimiting_callChars same
      cases told
      exact ⟨rfl, rest⟩
  | deferred scope key point =>
    cases y with
    | literal value' => exact absurd same.symm (apart (integral' value' List.mem_cons_self))
    | reference => cases (selfDelimiting_callChars same).1
    | deferred =>
      obtain ⟨told, rest⟩ := selfDelimiting_callChars same
      cases told
      exact ⟨rfl, rest⟩

theorem chars_ne_nil {o : Operand} (integral : o.Integral) : o.chars ≠ [] := by
  rw [chars_eq]
  cases o with
  | reference | deferred => exact callChars_ne_nil _
  | literal value =>
    obtain ⟨c, cs, same, -⟩ := print_head .compact 0 (integral value List.mem_cons_self)
    intro empty
    cases (congrArg spell empty).symm.trans same

end Operand

section
variable {α : Type} {separator : List Char} {text : α → List Char} {kind : α → Prop} {ends : List Char → Prop}

theorem joined_cons (first : List Char) (more : List (List Char)) :
    joined separator (first :: more) = first ++ if more = [] then [] else separator ++ joined separator more := by
  cases more <;> simp [joined]

theorem joined_inj (delimits : Delimits kind ends text) (written : ∀ x, kind x → text x ≠ [])
    (apart : separator ≠ []) (last : ends []) (more : ∀ rest, ends (separator ++ rest)) :
    (xs ys : List α) → (∀ x ∈ xs, kind x) → (∀ y ∈ ys, kind y) →
      joined separator (xs.map text) = joined separator (ys.map text) → xs = ys
  | [], [], _, _, _ => rfl
  | [], y :: ys, _, kinds, same => by
    rw [List.map_cons, joined_cons] at same
    exact absurd (List.append_eq_nil_iff.mp same.symm).1 (written y (kinds y List.mem_cons_self))
  | x :: xs, [], kinds, _, same => by
    rw [List.map_cons, joined_cons] at same
    exact absurd (List.append_eq_nil_iff.mp same).1 (written x (kinds x List.mem_cons_self))
  | x :: xs, y :: ys, kinds, kinds', same => by
    have ended : ∀ zs : List α,
        ends (if zs.map text = [] then [] else separator ++ joined separator (zs.map text)) := by
      intro zs
      split
      · exact last
      · exact more _
    simp only [List.map_cons, joined_cons] at same
    obtain ⟨rfl, rest⟩ := delimits (kinds x List.mem_cons_self) (kinds' y List.mem_cons_self) (ended xs) (ended ys) same
    have later := joined_inj delimits written apart last more xs ys (fun z member => kinds z (.tail _ member))
      fun z member => kinds' z (.tail _ member)
    cases xs with
    | nil =>
      cases ys with
      | nil => rfl
      | cons y ys => simp [apart] at rest
    | cons x' xs =>
      cases ys with
      | nil => simp [apart] at rest
      | cons y' ys =>
        rw [if_neg (by simp), if_neg (by simp)] at rest
        rw [later (List.append_cancel_left rest)]

end

/-- Lists of operands without doubles have the same text only if they are the same. -/
theorem argumentText_eq_iff {a b : List Operand} (integral : ∀ o ∈ a, o.Integral) (integral' : ∀ o ∈ b, o.Integral) :
    argumentText a = argumentText b ↔ a = b := by
  refine ⟨fun same => ?_, congrArg argumentText⟩
  have apart : [',', ' '] ≠ [] := by decide
  have more : ∀ rest, Stops numeralChar ([',', ' '] ++ rest) := fun rest => .cons rfl _
  exact joined_inj Operand.delimits_chars (fun _ => Operand.chars_ne_nil) apart (.nil _) more a b integral integral'
    (String.ofList_injective same)

/-- A call for a point with a comma and quotes in one of its parts, before a list of two numbers, and calls that
differ from it in where a part or the list begins. -/
def crowded (method parameter : String) (numbers : List Json) : List Operand :=
  [.deferred .singleton ⟨"app::Port", "x, y"⟩ ⟨"app::Shop", method, parameter⟩, .literal (.array numbers),
    .reference .prototype (.plain "app::Port")]

def one : Json := .number (.integer ⟨1, by decide⟩)

theorem crowded_texts_differ :
    .reference .prototype (.plain "app::Port") ∈ crowded "set\", \"a" "b" [one, one] ∧
    (∀ o ∈ crowded "set\", \"a" "b" [one, one], o.Integral) ∧ (∀ o ∈ crowded "set" "a\", \"b" [one, one], o.Integral) ∧
    argumentText (crowded "set\", \"a" "b" [one, one]) ≠ argumentText (crowded "set" "a\", \"b" [one, one]) := by
  have integral : ∀ method parameter, ∀ o ∈ crowded method parameter [one, one], o.Integral := by
    intro method parameter
    simp [crowded, Operand.Integral, Operand.literals, Json.Integral, Json.IntegralItems, one, Json.number]
  refine ⟨by decide, integral _ _, integral _ _, ?_⟩
  rw [Ne, argumentText_eq_iff (integral _ _) (integral _ _)]
  decide

end Wiring
