import Wiring.Interpreter
import Wiring.Proofs.Runtime
import Wiring.Proofs.SortedMap

/-! # The growing table

What the interpreter knows of a key is the binding in its table or else the class that a plain key
names. A look-up enters what is known into the table, and nothing else changes the table, so it only
grows, and what is known never changes.
-/
namespace Wiring.Interpreter
open Act Wiring.Runtime

variable (registry : Registry)

/-- The binding of a key, in the table or made from the class it names. -/
def known (table : Table) (key : Key) : Option Binding :=
  match table.get? key with
  | some binding => some binding
  | none => if key.isPlain then (registry.signature? key.interface).map discovered else none

def learn (table : Table) (key : Key) : Table :=
  match known registry table key with
  | some binding => table.insertIfNew key binding
  | none => table

/-- A later table has all of an earlier one, and else only what was known before. -/
structure Grows (before after : Table) : Prop where
  kept : ∀ {key binding}, before.get? key = some binding → after.get? key = some binding
  known : ∀ {key binding}, after.get? key = some binding → known registry before key = some binding

variable {registry}

theorem known_of_get? {table : Table} {key : Key} {binding : Binding}
    (h : table.get? key = some binding) : known registry table key = some binding := by
  simp only [known, h]

theorem known_insert (table : Table) (key : Key) (binding : Binding) :
    known registry (table.insert key binding) key = some binding :=
  known_of_get? ((SortedMap.get?_insert table key key binding).trans (if_pos rfl))

theorem Grows.known_eq {before after : Table} (h : Grows registry before after) (key : Key) :
    Interpreter.known registry after key = Interpreter.known registry before key := by
  cases found : after.get? key with
  | some binding => rw [known_of_get? found, h.known found]
  | none =>
    cases old : before.get? key with
    | some binding => rw [h.kept old] at found; cases found
    | none => simp only [Interpreter.known, found, old]

instance : IsPreorder Table (Grows registry) where
  refl _ := ⟨id, known_of_get?⟩
  trans _ _ _ first later :=
    ⟨fun h => later.kept (first.kept h), fun h => (first.known_eq _).symm.trans (later.known h)⟩

theorem get?_learn (table : Table) (key q : Key) :
    (learn registry table key).get? q =
      if q = key then known registry table key else table.get? q := by
  unfold learn
  cases found : table.get? key with
  | some binding =>
    simp only [known_of_get? found, SortedMap.insertIfNew_of_get? binding found]
    by_cases hq : q = key <;> simp [hq, found]
  | none =>
    cases bound : known registry table key with
    | none => by_cases hq : q = key <;> simp [hq, found]
    | some binding => simp [SortedMap.get?_insertIfNew, found]

theorem grows_learn (table : Table) (key : Key) : Grows registry table (learn registry table key) where
  kept {q binding} h := by
    rw [get?_learn]
    by_cases hq : q = key
    · rw [if_pos hq, ← hq, known_of_get? h]
    · rw [if_neg hq, h]
  known {q binding} h := by
    rw [get?_learn] at h
    by_cases hq : q = key
    · rw [if_pos hq] at h
      rw [hq, h]
    · rw [if_neg hq] at h
      exact known_of_get? h

theorem runOn_bindingFor (key : Key) (s : State) : (bindingFor registry key).runOn s =
    (.ok (known registry s.own key), { s with own := learn registry s.own key }) := by
  simp only [bindingFor, runOn_bind, runOn_get]
  cases found : s.own.get? key with
  | some binding =>
    simp only [known_of_get? found, learn, SortedMap.insertIfNew_of_get? binding found]
    rfl
  | none =>
    by_cases plain : key.isPlain = true
    · cases signed : registry.signature? key.interface with
      | none => simp [plain, known, learn, found, signed]
      | some signature =>
        simp only [plain, if_true, known, learn, found, signed, Option.map_some, runOn_bind,
          runOn_modify, runOn_get, runOn_pure, SortedMap.get?_insertIfNew, Option.getD_none]
    · simp [plain, known, learn, found]

theorem runOn_lookup (resolve : Resolve) (key : Key) (point : Option Point) (s : State) :
    (lookup registry resolve key point).runOn s = match known registry s.own key with
      | some binding => (resolve key binding point).runOn { s with own := learn registry s.own key }
      | none => (.error (.unbound key point), s) := by
  simp only [lookup, runOn_bind, runOn_bindingFor]
  cases found : known registry s.own key with
  | some binding => rfl
  | none =>
    have same : learn registry s.own key = s.own := by simp only [learn, found]
    simp only [same, runOn_throw]

theorem moves_bindingFor (key : Key) : (bindingFor registry key).Moves (OnOwn (Grows registry)) := by
  intro s
  rw [runOn_bindingFor]
  exact grows_learn s.own key

section
variable {resolve : Resolve}
  (hr : ∀ key binding point, (resolve key binding point).Moves (OnOwn (Grows registry)))
include hr

theorem moves_argument (p : Parameter) :
    (argument registry resolve p).Moves (OnOwn (Grows registry)) := by
  refine (moves_bindingFor p.key).bind fun found => ?_
  cases found with
  | some binding => exact hr p.key binding (some p.point)
  | none => cases p.default? <;> exact moves_of_keeps fun _ => rfl

theorem moves_lookup (key : Key) (point : Option Point) :
    (lookup registry resolve key point).Moves (OnOwn (Grows registry)) := by
  refine (moves_bindingFor key).bind fun found => ?_
  cases found with
  | some binding => exact hr key binding point
  | none => exact moves_of_keeps fun _ => rfl

theorem moves_realize (binding : Binding) (point : Option Point) :
    (realize registry resolve binding point).Moves (OnOwn (Grows registry)) := by
  have instantiates : ∀ signature,
      (instantiate registry resolve signature).Moves (OnOwn (Grows registry)) := fun signature =>
    moves_assemble (moves_argument hr) registry _ _ _ _
  cases binding with
  | literal value => exact moves_of_keeps fun _ => rfl
  | build recipe => exact (instantiates recipe.signature).bind fun _ => moves_of_keeps fun _ => rfl
  | provided recipe scope context =>
    exact (instantiates recipe.signature).bind fun made =>
      moves_provide (moves_lookup hr) made context point

end

theorem moves_resolve (depth : Nat) (key : Key) (binding : Binding) (point : Option Point) :
    (resolve registry depth key binding point).Moves (OnOwn (Grows registry)) := by
  induction depth generalizing key binding point with
  | zero => exact moves_deliver (moves_of_keeps fun _ => rfl) key binding.scope
  | succ depth ih => exact moves_deliver (moves_realize ih binding point) key binding.scope

/-- Whatever is asked of the interpreter, and however it ends, the table only grows. -/
theorem moves_request (key : Key) (point : Option Point) :
    (request registry key point).Moves (OnOwn (Grows registry)) :=
  fun s => moves_lookup (moves_resolve (bindable registry s)) key point s

end Wiring.Interpreter
