import Wiring.Class
import Wiring.Proofs.Shape
import Wiring.Proofs.SortedMap

/-! # Pure classes

A pure function tells apart what it is given only by shape: given values that a one-to-one matching
of identities turns into one another, it answers such values, or the same error. It may hold on to
objects made before it, whose identities the matching leaves alone.
-/
namespace Wiring

/-- Both fail with the same error, or both succeed and the results are related. -/
inductive Agree {α β : Type} (R : α → β → Prop) : Except Error α → Except Error β → Prop
  | ok {a : α} {b : β} : R a b → Agree R (.ok a) (.ok b)
  | error (e : Error) : Agree R (.error e) (.error e)

theorem Agree.bind {α β α' β' : Type} {R : α → β → Prop} {S : α' → β' → Prop}
    {x : Except Error α} {y : Except Error β} {f : α → Except Error α'} {g : β → Except Error β'}
    (first : Agree R x y) (later : ∀ {a b}, R a b → Agree S (f a) (g b)) :
    Agree S (x >>= f) (y >>= g) := by
  cases first with
  | ok related => exact later related
  | error e => exact .error e

theorem Agree.imp {α β : Type} {R S : α → β → Prop} {x : Except Error α} {y : Except Error β}
    (agree : Agree R x y) (weaker : ∀ {a b}, R a b → S a b) : Agree S x y := by
  cases agree with
  | ok related => exact .ok (weaker related)
  | error e => exact .error e

theorem Agree.map {α β α' β' : Type} {R : α → β → Prop} {S : α' → β' → Prop} {x : Except Error α}
    {y : Except Error β} {f : α → α'} {g : β → β'} (agree : Agree R x y)
    (related : ∀ {a b}, R a b → S (f a) (g b)) : Agree S (x.map f) (y.map g) := by
  cases agree with
  | ok same => exact .ok (related same)
  | error e => exact .error e

theorem Agree.mono {β γ : Matching} (le : ∀ i j, β i j → γ i j) {x y : Except Error Value}
    (agree : Agree (Value.Alike β) x y) : Agree (Value.Alike γ) x y :=
  agree.imp fun alike => alike.mono le

theorem Agree.trans {x y z : Except Error Value} (first : Agree SameShape x y)
    (later : Agree SameShape y z) : Agree SameShape x z := by
  cases first with
  | ok same =>
    cases later with
    | ok same' => exact .ok (same.trans same')
  | error e => exact later

theorem Agree.of_common {β γ : Matching} {x y z : Except Error Value} (hβ : β.OneToOne)
    (hγ : γ.OneToOne) (left : Agree (Value.Alike β) x y) (right : Agree (Value.Alike γ) x z) :
    Agree SameShape y z := by
  cases left with
  | ok alike =>
    cases right with
    | ok alike' => exact .ok (.of_common hβ hγ alike alike')
  | error e =>
    cases right
    exact .error e

theorem Agree.sameShape {β : Matching} {x y : Except Error Value} (agree : Agree (Value.Alike β) x y)
    (oneToOne : β.OneToOne) : Agree SameShape x y :=
  agree.imp fun alike => ⟨β, oneToOne, alike⟩

/-- A one-to-one matching that leaves the identities below `old` alone. -/
structure Matching.Fixes (β : Matching) (old : Nat) : Prop where
  oneToOne : β.OneToOne
  fixed : ∀ i < old, β i i

def Offer.Alike (β : Matching) : Offer → Offer → Prop
  | .existing v, .existing w => Value.Alike β v w
  | .fresh type className arguments, .fresh type' className' arguments' =>
    type = type' ∧ className = className' ∧ List.Forall₂ (Value.Alike β) arguments arguments'
  | _, _ => False

/-- Hooks that look up the same keys as long as the answers are alike, and end alike. -/
def Hook.Alike (β : Matching) : Hook → Hook → Prop
  | .finish outcome, .finish outcome' => Agree (Offer.Alike β) outcome outcome'
  | .lookup key point next, .lookup key' point' next' => key = key' ∧ point = point' ∧
    ∀ answer answer', Agree (Value.Alike β) answer answer' → Hook.Alike β (next answer) (next' answer')
  | _, _ => False

/-- A hook that looks up only such keys, however it is answered. -/
def Hook.AsksOnly (allowed : Key → Prop) : Hook → Prop
  | .finish _ => True
  | .lookup key _ next => allowed key ∧ ∀ answer, Hook.AsksOnly allowed (next answer)

def PureConstructor (old : Nat) (construct : Constructor) : Prop :=
  ∀ {β : Matching}, β.Fixes old → ∀ {vs ws}, List.Forall₂ (Value.Alike β) vs ws →
    Agree (List.Forall₂ (Value.Alike β)) (construct vs) (construct ws)

def PureMethod (old : Nat) (call : Method) : Prop :=
  ∀ {β : Matching}, β.Fixes old → ∀ {o p}, Object.Alike β o p →
    ∀ {vs ws}, List.Forall₂ (Value.Alike β) vs ws →
      Agree (List.Forall₂ (Value.Alike β)) (call o vs) (call p ws)

def PureProvide (old : Nat) (provide : Provide) : Prop :=
  ∀ {β : Matching}, β.Fixes old → ∀ {o p}, Object.Alike β o p →
    ∀ context point, Hook.Alike β (provide o context point) (provide p context point)

/-- A class whose functions are pure. -/
structure Class.Pure (old : Nat) (c : Class) : Prop where
  construct : PureConstructor old c.construct
  method : ∀ {name call}, c.methods.get? name = some call → PureMethod old call
  provide : ∀ {provide}, c.provide = some provide → PureProvide old provide

def Registry.Pure (old : Nat) (registry : Registry) : Prop :=
  ∀ name c, registry.get? name = some c → c.Pure old

/-- A class with objects of it that are alike. -/
structure MadeAlike (registry : Registry) (β : Matching) (made made' : Class × Object) : Prop where
  same : made.1 = made'.1
  known : ∃ name, registry.get? name = some made.1
  objects : Object.Alike β made.2 made'.2

def Registry.AsksOnly (allowed : Key → Prop) (registry : Registry) : Prop :=
  ∀ name c, registry.get? name = some c → ∀ provide, c.provide = some provide →
    ∀ object context point, (provide object context point).AsksOnly allowed

theorem Registry.AsksOnly.hookOf {allowed : Key → Prop} {registry : Registry}
    (asks : registry.AsksOnly allowed) {name : String} {c : Class} (found : registry.get? name = some c)
    {object : Object} {context : Option String} {point : Option Point} {hook : Hook}
    (h : c.hookOf object context point = .ok hook) : hook.AsksOnly allowed := by
  unfold Class.hookOf at h
  cases provides : c.provide with
  | none => simp [provides] at h
  | some provide =>
    simp only [provides] at h
    by_cases same : object.type = c.type
    · simp only [same, if_true, Except.ok.injEq] at h
      exact h ▸ asks name c found provide provides object context point
    · simp [same] at h

variable {old : Nat} {c : Class} {β : Matching}

theorem Class.Pure.make (pure : c.Pure old) (fixes : β.Fixes old) {i j : Nat} (ids : β i j)
    {vs ws : List Value} (arguments : List.Forall₂ (Value.Alike β) vs ws) :
    Agree (Object.Alike β) (c.make i vs) (c.make j ws) := by
  refine (pure.construct fixes arguments).bind fun kept => .ok ?_
  exact ⟨ids, rfl, rfl, rfl, valuesAlike_iff.mpr arguments, valuesAlike_iff.mpr kept, trivial⟩

theorem Class.Pure.invoke (pure : c.Pure old) (fixes : β.Fixes old) {o p : Object}
    (objects : Object.Alike β o p) (method : String) {vs ws : List Value}
    (arguments : List.Forall₂ (Value.Alike β) vs ws) :
    Agree (Object.Alike β) (c.invoke o method vs) (c.invoke p method ws) := by
  unfold Class.invoke
  cases found : c.methods.get? method with
  | none => exact .error _
  | some call =>
    rw [objects.type_eq]
    by_cases same : p.type = c.type
    · simp only [same, if_true]
      refine (pure.method found fixes objects arguments).bind fun kept => .ok ?_
      exact objects.record method arguments kept
    · simp only [same, if_false]
      exact .error _

theorem Class.Pure.hookOf (pure : c.Pure old) (fixes : β.Fixes old) {o p : Object}
    (objects : Object.Alike β o p) (context : Option String) (point : Option Point) :
    Agree (Hook.Alike β) (c.hookOf o context point) (c.hookOf p context point) := by
  unfold Class.hookOf
  cases found : c.provide with
  | none => exact .error _
  | some provide =>
    rw [objects.type_eq]
    by_cases same : p.type = c.type
    · simp only [same, if_true]
      exact .ok (pure.provide found fixes objects context point)
    · simp only [same, if_false]
      exact .error _

/-- A class whose functions never fail for want of a key, and whose provider looks nothing up and does
not care who asks. -/
structure Class.Quiet (c : Class) : Prop where
  construct : ∀ {vs e}, c.construct vs = .error e → e.isUnbound = false
  method : ∀ {name call}, c.methods.get? name = some call →
    ∀ {object vs e}, call object vs = .error e → e.isUnbound = false
  provide : ∀ {provide}, c.provide = some provide → ∃ offer : Object → Option String → Except Error Offer,
    (∀ object context point, provide object context point = .finish (offer object context)) ∧
      ∀ {object context e}, offer object context = .error e → e.isUnbound = false

def Registry.Quiet (registry : Registry) : Prop :=
  ∀ name c, registry.get? name = some c → c.Quiet

theorem Class.Quiet.make (quiet : c.Quiet) {id : Nat} {vs : List Value} {e : Error}
    (h : c.make id vs = .error e) : e.isUnbound = false := by
  unfold Class.make at h
  cases kept : c.construct vs with
  | error e' =>
    rw [kept] at h
    exact Except.error.inj h ▸ quiet.construct kept
  | ok values =>
    rw [kept] at h
    cases h

theorem Class.Quiet.invoke (quiet : c.Quiet) {object : Object} {method : String} {vs : List Value}
    {e : Error} (h : c.invoke object method vs = .error e) : e.isUnbound = false := by
  unfold Class.invoke at h
  cases found : c.methods.get? method with
  | none =>
    simp only [found, Except.error.injEq] at h
    exact h ▸ rfl
  | some call =>
    simp only [found] at h
    by_cases same : object.type = c.type
    · simp only [same, if_true] at h
      cases kept : call object vs with
      | error e' =>
        rw [kept] at h
        exact Except.error.inj h ▸ quiet.method found kept
      | ok values =>
        rw [kept] at h
        cases h
    · simp only [same, if_false, Except.error.injEq] at h
      exact h ▸ rfl

theorem Class.Quiet.hookOf (quiet : c.Quiet) (object : Object) (context : Option String) :
    (∃ e, e.isUnbound = false ∧ ∀ point, c.hookOf object context point = .error e) ∨
    (∃ e, e.isUnbound = false ∧ ∀ point, c.hookOf object context point = .ok (.finish (.error e))) ∨
      ∃ offer, ∀ point, c.hookOf object context point = .ok (.finish (.ok offer)) := by
  unfold Class.hookOf
  cases found : c.provide with
  | none => exact .inl ⟨_, rfl, fun _ => rfl⟩
  | some provide =>
    obtain ⟨offer, finishes, bound⟩ := quiet.provide found
    by_cases same : object.type = c.type
    · simp only [same, if_true, finishes]
      cases offered : offer object context with
      | error e => exact .inr (.inl ⟨e, bound offered, fun _ => rfl⟩)
      | ok made => exact .inr (.inr ⟨made, fun _ => rfl⟩)
    · simp only [same, if_false]
      exact .inl ⟨_, rfl, fun _ => rfl⟩

theorem Class.pure_define (name type : String) {construct : Constructor}
    (h : PureConstructor old construct) : (Class.define name type construct).Pure old :=
  ⟨h, nofun, nofun⟩

theorem Class.Pure.constructorParameter (pure : c.Pure old) (d : Class.Declared) :
    (c.constructorParameter d).Pure old :=
  ⟨pure.construct, pure.method, pure.provide⟩

theorem Class.Pure.setter (pure : c.Pure old) (optional : Bool) (method : String)
    (parameters : List Class.Declared) {call : Method} (h : PureMethod old call) :
    (c.setter optional method parameters call).Pure old where
  construct := pure.construct
  method {name call'} found := by
    simp only [Class.setter, SortedMap.get?_insert] at found
    by_cases same : name = method
    · simp only [same, if_true, Option.some.injEq] at found
      exact found ▸ h
    · simp only [same, if_false] at found
      exact pure.method found
  provide := pure.provide

theorem Class.Pure.provides (pure : c.Pure old) {provide : Provide} (h : PureProvide old provide) :
    (c.provides provide).Pure old where
  construct := pure.construct
  method := pure.method
  provide found := Option.some.inj found ▸ h

theorem Class.quiet_define (name type : String) {construct : Constructor}
    (h : ∀ {vs e}, construct vs = .error e → e.isUnbound = false) :
    (Class.define name type construct).Quiet :=
  ⟨h, nofun, nofun⟩

theorem Class.Quiet.constructorParameter (quiet : c.Quiet) (d : Class.Declared) :
    (c.constructorParameter d).Quiet :=
  ⟨quiet.construct, quiet.method, quiet.provide⟩

theorem Class.Quiet.setter (quiet : c.Quiet) (optional : Bool) (method : String)
    (parameters : List Class.Declared) {call : Method}
    (h : ∀ {object vs e}, call object vs = .error e → e.isUnbound = false) :
    (c.setter optional method parameters call).Quiet where
  construct := quiet.construct
  method {name call'} found := by
    simp only [Class.setter, SortedMap.get?_insert] at found
    by_cases same : name = method
    · simp only [same, if_true, Option.some.injEq] at found
      exact found ▸ h
    · simp only [same, if_false] at found
      exact quiet.method found
  provide := quiet.provide

theorem Registry.mem_of_ofClasses {classes : List Class} {name : String}
    (h : (Registry.ofClasses classes).get? name = some c) : c ∈ classes := by
  have step : ∀ (rest : List Class) (r : Registry), (rest.foldl Registry.register r).get? name = some c →
      c ∈ rest ∨ r.get? name = some c := by
    intro rest
    induction rest with
    | nil => exact fun r found => .inr found
    | cons d rest ih =>
      intro r found
      rcases ih (r.register d) found with member | earlier
      · exact .inl (List.mem_cons_of_mem _ member)
      · unfold Registry.register at earlier
        rw [SortedMap.get?_insert] at earlier
        by_cases same : name = d.name
        · rw [if_pos same] at earlier
          exact .inl (Option.some.inj earlier ▸ List.mem_cons_self)
        · rw [if_neg same] at earlier
          exact .inr earlier
  rcases step classes SortedMap.empty h with member | none
  · exact member
  · cases none

theorem Registry.pure_ofClasses {classes : List Class} (h : ∀ c ∈ classes, c.Pure old) :
    (Registry.ofClasses classes).Pure old :=
  fun _ c found => h c (Registry.mem_of_ofClasses found)

theorem Registry.quiet_ofClasses {classes : List Class} (h : ∀ c ∈ classes, c.Quiet) :
    (Registry.ofClasses classes).Quiet :=
  fun _ c found => h c (Registry.mem_of_ofClasses found)

end Wiring
