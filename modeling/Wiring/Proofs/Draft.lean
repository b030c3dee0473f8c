import Wiring.Class
import Wiring.Plan
import Mathlib.Data.Countable.Basic
import Mathlib.Logic.Equiv.List
import Mathlib.Logic.Relation
import Mathlib.Order.Filter.AtTopBot.Basic

/-! # Drafts

A draft is what a plan yields apart from any injector. Nothing is shared by keeping it: the objects of
a draft are named by the singleton they are made for and a number, so a singleton that is drafted
again is drafted with the same names. A draft exists if it exists at every depth from some depth on.
-/
namespace Wiring

theorem not_transGen_self {α : Type} {r : α → α → Prop} {a : α} (h : Acc r a) :
    ¬ Relation.TransGen r a a := by
  have all := h.transGen
  clear h
  induction all with
  | intro a _ ih => exact fun self => ih a self self

/-- Drafting counts the objects named so far and may fail. -/
abbrev Draft := StateT Nat Option

namespace Draft

/-- The names of objects made for a singleton, or for a request. -/
abbrev Naming := Option Key → Nat → Nat

instance : Countable Key := by
  have chars : Countable Char := Function.Injective.countable fun c d => Char.toNat_inj.mp
  have strings : Countable String := Function.Injective.countable fun s t => String.toList_inj.mp
  have parts : Function.Injective fun key : Key => (key.interface, key.name) := by
    rintro ⟨interface, name⟩ ⟨interface', name'⟩ same
    cases same
    rfl
  exact parts.countable

theorem exists_naming (old : Nat) : ∃ naming : Naming,
    (∀ {o n o' n'}, naming o n = naming o' n' → o = o' ∧ n = n') ∧ ∀ o n, old ≤ naming o n := by
  obtain ⟨f, injective⟩ := Countable.exists_injective_nat (Option Key × Nat)
  refine ⟨fun o n => old + f (o, n), fun same => ?_, fun o n => Nat.le_add_right old _⟩
  exact Prod.mk.inj (injective (Nat.add_left_cancel same))

variable (registry : Registry) (naming : Naming)

def begin (owner : Option Key) (className : String) (arguments : List Value) :
    Draft (Class × Object) := do
  let c ← liftM (registry.get? className)
  let object ← liftM (c.make (naming owner (← get)) arguments).toOption
  modify (· + 1)
  return (c, object)

def call (eval : Operand → Draft Value) (c : Class) (object : Object) (call : Call) : Draft Object := do
  let arguments ← call.operands.mapM eval
  liftM (c.invoke object call.method arguments).toOption

def assemble (eval : Operand → Draft Value) (owner : Option Key) (a : Assembly) :
    Draft (Class × Object) := do
  let (c, object) ← begin registry naming owner a.className (← a.operands.mapM eval)
  let object ← a.calls.foldlM (call eval c) object
  match a.hook with
  | none => return (c, object)
  | some method => return (c, ← liftM (c.invoke object method []).toOption)

def accept (owner : Option Key) : Offer → Draft Value
  | .existing value => return value
  | .fresh type className arguments => do
    let object : Object := ⟨naming owner (← get), type, className, [⟨constructorMethod, arguments, []⟩]⟩
    modify (· + 1)
    return object.value

/-- What an object provides; a hook that looks something up has no draft. -/
def provide (owner : Option Key) (made : Class × Object) (context : Option String) : Draft Value :=
  match made.1.hookOf made.2 context none with
  | .ok (.finish (.ok offer)) => accept naming owner offer
  | _ => failure

def evaluate (eval : Operand → Draft Value) (owner : Option Key) : Plan.Body → Draft Value
  | .construct a => do return (← assemble registry naming eval owner a).2.value
  | .literal value => return .literal value
  | .provide a context => do
    let made ← assemble registry naming eval owner a
    provide naming owner made context

def deliver (value : Option Key → Key → Draft Value) (owner : Option Key) (key : Key) :
    Scope → Draft Value
  | .prototype => value owner key
  | .singleton => fun n => ((value (some key) key).run 0).map fun drafted => (drafted.1, n)

def operand (value : Option Key → Key → Draft Value) (owner : Option Key) : Operand → Draft Value
  | .literal value => return .literal value
  | .reference scope key => deliver value owner key scope
  | .deferred scope key _ => deliver value owner key scope

/-- The draft of a key that is made for an owner, by plans nested no deeper than a depth. -/
def value (plans : Key → Option Plan) : Nat → Option Key → Key → Draft Value
  | 0, _, _ => failure
  | depth + 1, owner, key => do
    let plan ← liftM (plans key)
    evaluate registry naming (operand (value plans depth) owner) owner plan.body

variable {registry naming} {α β : Type}

theorem run_bind_eq_some {x : Draft α} {f : α → Draft β} {n : Nat} {r : β × Nat} :
    (x >>= f).run n = some r ↔ ∃ a m, x.run n = some (a, m) ∧ (f a).run m = some r := by
  rw [StateT.run_bind, Option.bind_eq_bind, Option.bind_eq_some_iff, Prod.exists]

theorem run_lift (x : Option α) (n : Nat) : (liftM x : Draft α).run n = x.map fun a => (a, n) := by
  cases x <;> rfl

theorem run_begin (owner : Option Key) (className : String) (arguments : List Value) (n : Nat) :
    (begin registry naming owner className arguments).run n =
      (registry.get? className).bind fun c =>
        (c.make (naming owner n) arguments).toOption.map fun object => ((c, object), n + 1) := by
  unfold begin
  rw [StateT.run_bind, run_lift]
  cases registry.get? className with
  | none => rfl
  | some c =>
    change ((liftM (c.make (naming owner n) arguments).toOption : Draft Object).run n >>= _) = _
    rw [run_lift, Option.bind_some]
    cases (c.make (naming owner n) arguments).toOption <;> rfl

theorem run_of_mapM {f : α → Draft β} {xs : List α} {n : Nat} {r : List β × Nat}
    (h : (xs.mapM f).run n = some r) : ∀ x ∈ xs, ∃ m r, (f x).run m = some r := by
  induction xs generalizing n r with
  | nil => simp
  | cons x xs ih =>
    rw [List.mapM_cons, run_bind_eq_some] at h
    obtain ⟨_, _, first, h⟩ := h
    obtain ⟨_, _, others, -⟩ := run_bind_eq_some.mp h
    exact List.forall_mem_cons.mpr ⟨⟨n, _, first⟩, ih others⟩

theorem run_of_foldlM {f : β → α → Draft β} {xs : List α} {b : β} {n : Nat} {r : β × Nat}
    (h : (xs.foldlM f b).run n = some r) : ∀ x ∈ xs, ∃ b m r, (f b x).run m = some r := by
  induction xs generalizing b n r with
  | nil => simp
  | cons x xs ih =>
    rw [List.foldlM_cons, run_bind_eq_some] at h
    obtain ⟨_, _, first, others⟩ := h
    exact List.forall_mem_cons.mpr ⟨⟨b, n, _, first⟩, ih others⟩

theorem run_of_assemble {eval : Operand → Draft Value} {owner : Option Key} {a : Assembly} {n : Nat}
    {r : (Class × Object) × Nat} (h : (assemble registry naming eval owner a).run n = some r) :
    ∀ o ∈ a.allOperands, ∃ m r, (eval o).run m = some r := by
  obtain ⟨_, _, first, h⟩ := run_bind_eq_some.mp h
  obtain ⟨_, _, -, h⟩ := run_bind_eq_some.mp h
  obtain ⟨_, _, calls, -⟩ := run_bind_eq_some.mp h
  intro o member
  rcases List.mem_append.mp member with member | member
  · exact run_of_mapM first o member
  · obtain ⟨c, made, member⟩ := List.mem_flatMap.mp member
    obtain ⟨_, _, _, called⟩ := run_of_foldlM calls c made
    obtain ⟨_, _, each, -⟩ := run_bind_eq_some.mp called
    exact run_of_mapM each o member

theorem run_of_evaluate {eval : Operand → Draft Value} {owner : Option Key} {p : Plan} {n : Nat}
    {r : Value × Nat} (h : (evaluate registry naming eval owner p.body).run n = some r) :
    ∀ o ∈ p.operands, ∃ m r, (eval o).run m = some r := by
  unfold Plan.operands Plan.assembly?
  cases body : p.body with
  | literal value => simp
  | construct a =>
    rw [body] at h
    obtain ⟨_, _, assembled, -⟩ := run_bind_eq_some.mp h
    exact run_of_assemble assembled
  | provide a context =>
    rw [body] at h
    obtain ⟨_, _, assembled, -⟩ := run_bind_eq_some.mp h
    exact run_of_assemble assembled

theorem run_of_operand {value : Option Key → Key → Draft Value} {owner : Option Key} {o : Operand}
    {key : Key} (asks : o.key? = some key) {n : Nat} {r : Value × Nat}
    (h : (operand value owner o).run n = some r) : ∃ owner m r, (value owner key).run m = some r := by
  have delivered : ∀ scope, (deliver value owner key scope).run n = some r →
      ∃ owner m r, (value owner key).run m = some r := by
    intro scope h
    cases scope with
    | prototype => exact ⟨owner, n, r, h⟩
    | singleton =>
      obtain ⟨drafted, h, -⟩ := Option.map_eq_some_iff.mp h
      exact ⟨some key, 0, drafted, h⟩
  cases o with
  | literal value => cases asks
  | reference scope key' | deferred scope key' point =>
    obtain rfl : key' = key := Option.some.inj asks
    exact delivered scope h

def Needs (plans : Key → Option Plan) (needed key : Key) : Prop :=
  ∃ plan, plans key = some plan ∧ ∃ o ∈ plan.operands, o.key? = some needed

/-- What can be drafted is well-founded in what it needs. -/
theorem acc_of_value {plans : Key → Option Plan} {depth : Nat} {owner : Option Key} {key : Key}
    {n : Nat} {r : Value × Nat} (h : (value registry naming plans depth owner key).run n = some r) :
    Acc (Needs plans) key := by
  induction depth generalizing owner key n r with
  | zero => cases h
  | succ depth ih =>
    obtain ⟨plan, m, found, evaluated⟩ := run_bind_eq_some.mp h
    constructor
    rintro needed ⟨plan', found', o, member, asks⟩
    rw [run_lift, found'] at found
    cases found
    obtain ⟨_, _, each⟩ := run_of_evaluate evaluated o member
    obtain ⟨_, _, _, inner⟩ := run_of_operand asks each
    exact ih inner

end Draft
end Wiring
