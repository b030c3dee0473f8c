import Wiring.Proofs.Purity
import Wiring.Proofs.Runtime

/-! # Injectors in step

Two injectors that resolve keys in the same way from alike states stay alike: they answer the same
up to identities, fail with the same errors, and take new identities side by side. What they keep
for themselves may differ as long as some relation between the two is respected.
-/
namespace Wiring.Runtime
open Act

variable {ρ ρ' α α' δ δ' : Type}

/-- States of two injectors that have made the same singletons and are resolving the same keys. -/
structure Paired (β : Matching) (own : ρ → ρ' → Prop) (active : List Key) (s : Runtime ρ)
    (t : Runtime ρ') : Prop where
  born : ∀ n, β (s.born + n) (t.born + n)
  singletons : ∀ key, Option.Rel (Value.Alike β) (s.singletons.get? key) (t.singletons.get? key)
  left : s.active = active
  right : t.active = active
  own : own s.own t.own

/-- Two actions that end alike from alike states, whether they succeed or fail. -/
def InStep (β : Matching) (own : ρ → ρ' → Prop) (active : List Key) (R : α → α' → Prop)
    (x : Act (Runtime ρ) α) (y : Act (Runtime ρ') α') : Prop :=
  ∀ s t, Paired β own active s t →
    Agree R (x.runOn s).1 (y.runOn t).1 ∧ Paired β own active (x.runOn s).2 (y.runOn t).2

variable {β : Matching} {own : ρ → ρ' → Prop} {active : List Key}

section
variable {R : α → α' → Prop} {S : δ → δ' → Prop}

theorem inStep_pure {a : α} {a' : α'} (h : R a a') :
    InStep β own active R (pure a : Act (Runtime ρ) α) (pure a' : Act (Runtime ρ') α') :=
  fun _ _ paired => ⟨.ok h, paired⟩

theorem inStep_throw (e : Error) :
    InStep β own active R (throw e : Act (Runtime ρ) α) (throw e : Act (Runtime ρ') α') :=
  fun _ _ paired => ⟨.error e, paired⟩

theorem inStep_lift {x : Except Error α} {y : Except Error α'} (h : Agree R x y) :
    InStep β own active R (liftM x : Act (Runtime ρ) α) (liftM y : Act (Runtime ρ') α') :=
  fun _ _ paired => ⟨h, paired⟩

theorem InStep.bind {x : Act (Runtime ρ) α} {y : Act (Runtime ρ') α'} {f : α → Act (Runtime ρ) δ}
    {g : α' → Act (Runtime ρ') δ'} (first : InStep β own active R x y)
    (later : ∀ {a a'}, R a a' → InStep β own active S (f a) (g a')) :
    InStep β own active S (x >>= f) (y >>= g) := by
  intro s t paired
  obtain ⟨agree, paired'⟩ := first s t paired
  rw [runOn_bind, runOn_bind]
  rcases hx : x.runOn s with ⟨r, s'⟩
  rcases hy : y.runOn t with ⟨r', t'⟩
  rw [hx, hy] at agree paired'
  cases agree with
  | ok related => exact later related s' t' paired'
  | error e => exact ⟨.error e, paired'⟩

theorem InStep.attempt {x : Act (Runtime ρ) α} {y : Act (Runtime ρ') α'}
    (h : InStep β own active R x y) : InStep β own active (Agree R) x.attempt y.attempt :=
  fun s t paired => ⟨.ok (h s t paired).1, (h s t paired).2⟩

theorem inStep_mapM {f : δ → Act (Runtime ρ) α} {g : δ → Act (Runtime ρ') α'} {xs : List δ}
    (each : ∀ x ∈ xs, InStep β own active R (f x) (g x)) :
    InStep β own active (List.Forall₂ R) (xs.mapM f) (xs.mapM g) := by
  induction xs with
  | nil => exact inStep_pure .nil
  | cons x xs ih =>
    obtain ⟨first, others⟩ := List.forall_mem_cons.mp each
    rw [List.mapM_cons, List.mapM_cons]
    exact first.bind fun h => (ih others).bind fun hs => inStep_pure (.cons h hs)

theorem inStep_foldlM {f : α → δ → Act (Runtime ρ) α} {g : α' → δ → Act (Runtime ρ') α'}
    {xs : List δ} (each : ∀ x ∈ xs, ∀ {a a'}, R a a' → InStep β own active R (f a x) (g a' x))
    {a : α} {a' : α'} (h : R a a') :
    InStep β own active R (xs.foldlM f a) (xs.foldlM g a') := by
  induction xs generalizing a a' with
  | nil => exact inStep_pure h
  | cons x xs ih =>
    obtain ⟨first, others⟩ := List.forall_mem_cons.mp each
    rw [List.foldlM_cons, List.foldlM_cons]
    exact (first h).bind fun h' => ih others h'

end

variable {old : Nat} (fixes : β.Fixes old) {registry : Registry} (purity : registry.Pure old)

section
include fixes purity

theorem inStep_begin (className : String) {vs ws : List Value}
    (arguments : List.Forall₂ (Value.Alike β) vs ws) :
    InStep β own active (MadeAlike registry β) (begin registry className vs)
      (begin registry className ws) := by
  intro s t paired
  rw [runOn_begin, runOn_begin]
  cases found : registry.get? className with
  | none => exact ⟨.error _, paired⟩
  | some c =>
    have made := (purity _ _ found).make fixes (paired.born 0) arguments
    simp only [Nat.add_zero] at made ⊢
    generalize c.make s.born vs = left at made ⊢
    generalize c.make t.born ws = right at made ⊢
    cases made with
    | error e => exact ⟨.error e, paired⟩
    | ok objects =>
      refine ⟨.ok ⟨rfl, ⟨className, found⟩, objects⟩, { paired with born := fun n => ?_ }⟩
      have next := paired.born (1 + n)
      rwa [← Nat.add_assoc, ← Nat.add_assoc] at next

theorem inStep_callSetter {f : δ → Act (Runtime ρ) Value} {g : δ → Act (Runtime ρ') Value} {c : Class}
    (known : ∃ name, registry.get? name = some c) {step : Step δ}
    (each : ∀ x ∈ step.arguments, InStep β own active (Value.Alike β) (f x) (g x)) {o p : Object}
    (objects : Object.Alike β o p) :
    InStep β own active (Object.Alike β) (callSetter f c o step) (callSetter g c p step) := by
  refine (inStep_mapM each).attempt.bind fun outcome => ?_
  obtain ⟨name, found⟩ := known
  cases outcome with
  | ok arguments => exact inStep_lift ((purity _ _ found).invoke fixes objects step.method arguments)
  | error e =>
    by_cases skip : (e.isUnbound && step.optional) = true
    · simp only [skip, if_true]
      exact inStep_pure objects
    · simp only [skip]
      exact inStep_throw e

theorem inStep_assemble {f : δ → Act (Runtime ρ) Value} {g : δ → Act (Runtime ρ') Value}
    (className : String) {arguments : List δ} {steps : List (Step δ)} (hook : Option String)
    (first : ∀ x ∈ arguments, InStep β own active (Value.Alike β) (f x) (g x))
    (later : ∀ step ∈ steps, ∀ x ∈ step.arguments, InStep β own active (Value.Alike β) (f x) (g x)) :
    InStep β own active (MadeAlike registry β) (assemble registry f className arguments steps hook)
      (assemble registry g className arguments steps hook) := by
  refine (inStep_mapM first).bind fun values => ?_
  refine (inStep_begin fixes purity className values).bind fun {made made'} begun => ?_
  obtain ⟨c, o⟩ := made
  obtain ⟨c', p⟩ := made'
  obtain ⟨rfl, known, objects⟩ := begun
  refine (inStep_foldlM (fun step member {_ _} alike =>
    inStep_callSetter fixes purity known (later step member) alike) objects).bind fun called => ?_
  cases hook with
  | none => exact inStep_pure ⟨rfl, known, called⟩
  | some method =>
    obtain ⟨name, found⟩ := known
    exact (inStep_lift ((purity _ _ found).invoke fixes called method .nil)).bind fun finished =>
      inStep_pure ⟨rfl, ⟨name, found⟩, finished⟩

end

theorem inStep_accept {offer offer' : Offer} (alike : Offer.Alike β offer offer') :
    InStep β own active (Value.Alike β) (accept offer : Act (Runtime ρ) Value)
      (accept offer' : Act (Runtime ρ') Value) := by
  intro s t paired
  cases offer with
  | existing v =>
    cases offer' with
    | existing w => exact ⟨.ok alike, paired⟩
    | fresh type className arguments => exact alike.elim
  | fresh type className arguments =>
    cases offer' with
    | existing w => exact alike.elim
    | fresh type' className' arguments' =>
      obtain ⟨rfl, rfl, arguments⟩ := alike
      refine ⟨.ok ⟨paired.born 0, rfl, rfl, rfl, valuesAlike_iff.mpr arguments, trivial, trivial⟩,
        { paired with born := fun n => ?_ }⟩
      have next := paired.born (1 + n)
      rwa [← Nat.add_assoc, ← Nat.add_assoc] at next

theorem inStep_runHook {allowed : Key → Prop} {answer : Key → Option Point → Act (Runtime ρ) Value}
    {answer' : Key → Option Point → Act (Runtime ρ') Value}
    (each : ∀ key point, allowed key →
      InStep β own active (Value.Alike β) (answer key point) (answer' key point))
    {hook hook' : Hook} (alike : Hook.Alike β hook hook') (asks : hook.AsksOnly allowed) :
    InStep β own active (Value.Alike β) (runHook answer hook) (runHook answer' hook') := by
  induction hook generalizing hook' with
  | finish outcome =>
    cases hook' with
    | lookup key point next => exact alike.elim
    | finish outcome' =>
      cases (alike : Agree (Offer.Alike β) outcome outcome') with
      | ok offers => exact inStep_accept offers
      | error e => exact inStep_throw e
  | lookup key point next ih =>
    cases hook' with
    | finish outcome => exact alike.elim
    | lookup key' point' next' =>
      obtain ⟨rfl, rfl, continues⟩ := alike
      exact (each key point asks.1).attempt.bind fun agree =>
        ih _ (continues _ _ agree) (asks.2 _)

include fixes purity in
theorem inStep_provide {allowed : Key → Prop}
    (asks : registry.AsksOnly allowed) {answer : Key → Option Point → Act (Runtime ρ) Value}
    {answer' : Key → Option Point → Act (Runtime ρ') Value}
    (each : ∀ key point, allowed key →
      InStep β own active (Value.Alike β) (answer key point) (answer' key point))
    {made made' : Class × Object} (alike : MadeAlike registry β made made')
    (context : Option String) (point : Option Point) :
    InStep β own active (Value.Alike β) (provide answer made context point)
      (provide answer' made' context point) := by
  obtain ⟨c, o⟩ := made
  obtain ⟨c', p⟩ := made'
  obtain ⟨rfl, ⟨name, found⟩, objects⟩ := alike
  refine InStep.bind (R := fun hook hook' => Hook.Alike β hook hook' ∧ hook.AsksOnly allowed) ?_
    fun hooks => inStep_runHook each hooks.1 hooks.2
  refine inStep_lift ?_
  have hooks := (purity _ _ found).hookOf fixes objects context point
  have asked : ∀ {hook}, c.hookOf o context point = .ok hook → hook.AsksOnly allowed := asks.hookOf found
  generalize c.hookOf o context point = left at hooks asked ⊢
  generalize c.hookOf p context point = right at hooks ⊢
  cases hooks with
  | ok hooks => exact .ok ⟨hooks, asked rfl⟩
  | error e => exact .error e

theorem inStep_within {R : α → α' → Prop} {key : Key} {x : Act (Runtime ρ) α}
    {y : Act (Runtime ρ') α'}
    (h : key ∉ active → InStep β own (key :: active) R x y) :
    InStep β own active R (within key x) (within key y) := by
  intro s t paired
  rw [runOn_within, runOn_within, paired.left, paired.right]
  by_cases member : key ∈ active
  · simp only [if_pos member]
    exact ⟨.error _, paired⟩
  · have inner : Paired β own (key :: active) { s with active := key :: active }
        { t with active := key :: active } :=
      { paired with left := rfl, right := rfl }
    obtain ⟨agree, paired'⟩ := h member _ _ inner
    simp only [if_neg member]
    refine ⟨agree, { paired' with left := ?_, right := ?_ }⟩
    · exact erase_innermost paired'.left
    · exact erase_innermost paired'.right

theorem inStep_settled (key : Key) (scope : Scope) :
    InStep β own active (Option.Rel (Value.Alike β)) (settled key scope : Act (Runtime ρ) _)
      (settled key scope : Act (Runtime ρ') _) := by
  intro s t paired
  cases scope with
  | prototype => exact ⟨.ok .none, paired⟩
  | singleton => exact ⟨.ok (paired.singletons key), paired⟩

theorem inStep_keep (key : Key) (scope : Scope) {v w : Value} (alike : Value.Alike β v w) :
    InStep β own active (Value.Alike β) (keep key scope v : Act (Runtime ρ) _)
      (keep key scope w : Act (Runtime ρ') _) := by
  intro s t paired
  cases scope with
  | prototype => exact ⟨.ok alike, paired⟩
  | singleton =>
    have first : Value.Alike β ((s.singletons.get? key).getD v) ((t.singletons.get? key).getD w) := by
      have found := paired.singletons key
      generalize s.singletons.get? key = left at found ⊢
      generalize t.singletons.get? key = right at found ⊢
      cases found with
      | some same => exact same
      | none => exact alike
    simp only [keep, runOn_bind, runOn_modify, runOn_get, runOn_pure, SortedMap.get?_insertIfNew, if_true,
      Option.getD_some]
    refine ⟨.ok first, { paired with singletons := fun q => ?_ }⟩
    simp only [SortedMap.get?_insertIfNew]
    by_cases hq : q = key
    · simp only [hq, if_true]
      exact .some first
    · simp only [hq, if_false]
      exact paired.singletons q

theorem inStep_deliver {key : Key} (scope : Scope) {make : Act (Runtime ρ) Value}
    {make' : Act (Runtime ρ') Value}
    (h : key ∉ active → InStep β own (key :: active) (Value.Alike β) make make') :
    InStep β own active (Value.Alike β) (deliver key scope make) (deliver key scope make') := by
  refine (inStep_settled key scope).bind fun {found found'} same => ?_
  cases same with
  | some alike => exact inStep_pure alike
  | none => exact (inStep_within h).bind fun alike => inStep_keep key scope alike

end Wiring.Runtime
