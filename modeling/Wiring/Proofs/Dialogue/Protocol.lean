import Wiring.Proofs.Dialogue
import Mathlib.Order.Basic

/-! # Protocols

A protocol says what may be relied on while an object is made: which values are given, which identities
were taken for it, and which errors come up. That depends on a world, which only grows. A dialogue obeys
the protocol if it keeps to it as long as those who answer do, and it does so if the functions of the
classes do.
-/
namespace Wiring

/-- What may be relied on in each world, closed under making objects and recording calls. -/
structure Protocol (W : Type) [Preorder W] where
  given : W → Value → Prop
  made : W → Nat → Prop
  fails : Error → Prop
  /-- The world once an identity has been taken. -/
  take : W → Nat → W
  le_take : ∀ w i, w ≤ take w i
  made_take : ∀ w i, made (take w i) i
  given_mono : ∀ {w w' v}, w ≤ w' → given w v → given w' v
  made_mono : ∀ {w w' i}, w ≤ w' → made w i → made w' i
  literal : ∀ w value, given w (.literal value)
  object : ∀ {w i arguments kept} type className method, made w i → (∀ v ∈ arguments, given w v) →
    (∀ v ∈ kept, given w v) → given w (.object i type className [⟨method, arguments, kept⟩])
  record : ∀ {w arguments kept} {o : Object} method, given w o.value → (∀ v ∈ arguments, given w v) →
    (∀ v ∈ kept, given w v) → given w (o.record ⟨method, arguments, kept⟩).value
  unknownClass : ∀ name, fails (.unknownClass name)
  instantiation : ∀ className details, fails (.instantiation className details)
  circular : ∀ path, fails (.circular path)

namespace Protocol
variable {W : Type} [Preorder W] (P : Protocol W) {α β : Type}

def Expects (V : W → α → Prop) (w : W) : Except Error α → Prop
  | .ok a => V w a
  | .error e => P.fails e

/-- The world after an attempt to make an object. -/
def taken (w : W) (i : Nat) : Except Error Object → W
  | .ok _ => P.take w i
  | .error _ => w

theorem le_taken (w : W) (i : Nat) (made : Except Error Object) : w ≤ P.taken w i made := by
  cases made with
  | ok o => exact P.le_take w i
  | error e => exact le_refl w

def AllGiven (w : W) (vs : List Value) : Prop := ∀ v ∈ vs, P.given w v

def Crafted (w : W) (o : Object) : Prop := P.given w o.value ∧ P.made w o.id

variable {P} {V : W → α → Prop} {V' : W → β → Prop} {w w' : W}

theorem allGiven_nil (w : W) : P.AllGiven w [] := fun _ member => nomatch member

theorem AllGiven.mono (le : w ≤ w') {vs : List Value} (all : P.AllGiven w vs) : P.AllGiven w' vs :=
  fun v member => P.given_mono le (all v member)

theorem Crafted.mono (le : w ≤ w') {o : Object} (crafted : P.Crafted w o) : P.Crafted w' o :=
  ⟨P.given_mono le crafted.1, P.made_mono le crafted.2⟩

theorem Expects.bind {x : Except Error α} {f : α → Except Error β} (first : P.Expects V w x)
    (later : ∀ a, V w a → P.Expects V' w (f a)) : P.Expects V' w (x >>= f) := by
  cases x with
  | ok a => exact later a first
  | error e => exact first

theorem Expects.map {x : Except Error α} {f : α → β} (first : P.Expects V w x)
    (later : ∀ a, V w a → V' w (f a)) : P.Expects V' w (x.map f) := by
  cases x with
  | ok a => exact later a first
  | error e => exact first

end Protocol

inductive OneWorld where
  | only

instance : Preorder OneWorld where
  le _ _ := True
  le_refl _ := trivial
  le_trans _ _ _ _ _ := trivial

/-- A protocol that relies on nothing but that no other errors come up. -/
def Protocol.ofErrors (fails : Error → Prop) (unknownClass : ∀ name, fails (.unknownClass name))
    (instantiation : ∀ className details, fails (.instantiation className details))
    (circular : ∀ path, fails (.circular path)) : Protocol OneWorld where
  given _ _ := True
  made _ _ := True
  fails := fails
  take w _ := w
  le_take w _ := le_refl w
  made_take _ _ := trivial
  given_mono _ _ := trivial
  made_mono _ _ := trivial
  literal _ _ := trivial
  object _ _ _ _ _ _ := trivial
  record _ _ _ _ := trivial
  unknownClass := unknownClass
  instantiation := instantiation
  circular := circular

section
variable {W : Type} [Preorder W] (P : Protocol W)

def Offer.Obeys (w : W) : Offer → Prop
  | .existing value => P.given w value
  | .fresh _ _ arguments => P.AllGiven w arguments

/-- A hook that keeps to the protocol and looks up only allowed keys, as long as those who answer keep to
it too. -/
def Hook.Obeys (allowed : Key → Prop) : Hook → W → Prop
  | .finish outcome, w => P.Expects (Offer.Obeys P) w outcome
  | .lookup key _ next, w => allowed key ∧
    ∀ w', w ≤ w' → ∀ answer, P.Expects P.given w' answer → (next answer).Obeys allowed w'

/-- A class whose functions keep to the protocol. -/
structure Class.Respects (allowed : Key → Prop) (c : Class) : Prop where
  construct : ∀ {w vs}, P.AllGiven w vs → P.Expects P.AllGiven w (c.construct vs)
  method : ∀ {name call}, c.methods.get? name = some call →
    ∀ {w} {o : Object} {vs}, P.given w o.value → P.AllGiven w vs → P.Expects P.AllGiven w (call o vs)
  provide : ∀ {provide}, c.provide = some provide →
    ∀ {w} {o : Object} context point, P.given w o.value → (provide o context point).Obeys P allowed w

def Registry.Respects (allowed : Key → Prop) (registry : Registry) : Prop :=
  ∀ name c, registry.get? name = some c → c.Respects P allowed

variable {P} {allowed : Key → Prop} {c : Class} {w : W} (respects : c.Respects P allowed)
include respects

theorem Class.Respects.make {i : Nat} {vs : List Value} (all : P.AllGiven w vs) :
    P.Expects P.Crafted (P.taken w i (c.make i vs)) (c.make i vs) := by
  have kept := respects.construct all
  unfold Class.make
  cases made : c.construct vs with
  | error e =>
    rw [made] at kept
    exact kept
  | ok keeps =>
    rw [made] at kept
    have le : w ≤ P.take w i := P.le_take w i
    exact ⟨P.object c.type c.name constructorMethod (P.made_take w i) (all.mono le)
      (Protocol.AllGiven.mono le kept), P.made_take w i⟩

theorem Class.Respects.invoke {o : Object} (crafted : P.Crafted w o) (method : String) {vs : List Value}
    (all : P.AllGiven w vs) : P.Expects P.Crafted w (c.invoke o method vs) := by
  unfold Class.invoke
  cases found : c.methods.get? method with
  | none => exact P.instantiation c.name _
  | some call =>
    by_cases same : o.type = c.type
    · simp only [same, if_true]
      exact (respects.method found crafted.1 all).bind fun kept keeps =>
        ⟨P.record method crafted.1 all keeps, crafted.2⟩
    · simp only [same, if_false]
      exact P.instantiation c.name _

theorem Class.Respects.hookOf {o : Object} (given : P.given w o.value) (context : Option String)
    (point : Option Point) :
    P.Expects (fun w hook => hook.Obeys P allowed w) w (c.hookOf o context point) := by
  unfold Class.hookOf
  cases provides : c.provide with
  | none => exact P.instantiation c.name _
  | some provide =>
    by_cases same : o.type = c.type
    · simp only [same, if_true]
      exact respects.provide provides context point given
    · simp only [same, if_false]
      exact P.instantiation c.name _

end

namespace Dialogue
variable {W ι α β : Type} [Preorder W]

section
variable (P : Protocol W) (asks : ι → Prop)

/-- A dialogue that asks only such questions and ends as it should, as long as the answers do. -/
def Obeys (V : W → α → Prop) : Dialogue ι α → W → Prop
  | finish outcome, w => P.Expects V w outcome
  | take make next, w => ∀ w', w ≤ w' → ∀ i, (next (make i)).Obeys V (P.taken w' i (make i))
  | ask question next, w => asks question ∧
    ∀ w', w ≤ w' → ∀ given, P.Expects P.given w' given → (next given).Obeys V w'

end

variable {P : Protocol W} {asks : ι → Prop} {V : W → α → Prop} {V' : W → β → Prop} {w : W}

theorem Obeys.andThen {d : Dialogue ι α} {rest : Except Error α → Dialogue ι β} (first : d.Obeys P asks V w)
    (later : ∀ w', w ≤ w' → ∀ outcome, P.Expects V w' outcome → (rest outcome).Obeys P asks V' w') :
    (d.andThen rest).Obeys P asks V' w := by
  induction d generalizing w with
  | finish outcome => exact later w (le_refl w) outcome first
  | take make next ih =>
    intro w' le i
    refine ih (make i) (first w' le i) fun w'' le' => later w'' ?_
    exact le.trans ((P.le_taken w' i (make i)).trans le')
  | ask question next ih =>
    refine ⟨first.1, fun w' le given expects => ?_⟩
    exact ih given (first.2 w' le given expects) fun w'' le' => later w'' (le.trans le')

theorem Obeys.bind {d : Dialogue ι α} {f : α → Dialogue ι β} (first : d.Obeys P asks V w)
    (later : ∀ w', w ≤ w' → ∀ a, V w' a → (f a).Obeys P asks V' w') : (d >>= f).Obeys P asks V' w := by
  refine first.andThen fun w' le outcome expects => ?_
  cases outcome with
  | ok a => exact later w' le a expects
  | error e => exact expects

theorem Obeys.imp {V' : W → α → Prop} {d : Dialogue ι α} (obeys : d.Obeys P asks V w)
    (weaker : ∀ w a, V w a → V' w a) : d.Obeys P asks V' w := by
  have ended : (d >>= pure).Obeys P asks V' w := obeys.bind fun w' _ a holds => weaker w' a holds
  rwa [bind_pure] at ended

theorem obeys_ask {question : ι} (allowed : asks question) (w : W) :
    (ask question finish).Obeys P asks P.given w :=
  ⟨allowed, fun _ _ _ expects => expects⟩

variable {eval : Bool → α → Dialogue ι Value}

theorem obeys_mapM {eval : α → Dialogue ι Value} {xs : List α}
    (each : ∀ x ∈ xs, ∀ w, (eval x).Obeys P asks P.given w) (w : W) :
    (xs.mapM eval).Obeys P asks P.AllGiven w := by
  induction xs generalizing w with
  | nil => exact Protocol.allGiven_nil w
  | cons x xs ih =>
    obtain ⟨first, others⟩ := List.forall_mem_cons.mp each
    rw [List.mapM_cons]
    refine (first w).bind fun w' _ v given => (ih others w').bind fun w'' le vs all => ?_
    exact List.forall_mem_cons.mpr ⟨P.given_mono le given, all⟩

theorem obeys_foldlM {f : β → α → Dialogue ι β} {xs : List α}
    (each : ∀ b, ∀ x ∈ xs, ∀ w, V' w b → (f b x).Obeys P asks V' w) {b : β} (start : V' w b) :
    (xs.foldlM f b).Obeys P asks V' w := by
  induction xs generalizing b w with
  | nil => exact start
  | cons x xs ih =>
    rw [List.foldlM_cons]
    refine (each b x List.mem_cons_self w start).bind fun w' _ b' next => ?_
    exact ih (fun b y member => each b y (List.mem_cons_of_mem x member)) next

section
variable {registry : Registry} {allowed : Key → Prop}

def MadeOf (P : Protocol W) (registry : Registry) (w : W) (made : Class × Object) : Prop :=
  (∃ name, registry.get? name = some made.1) ∧ P.Crafted w made.2

variable (respects : registry.Respects P allowed)
include respects

theorem obeys_begin (className : String) {arguments : List Value} (all : P.AllGiven w arguments) :
    (begin registry className arguments : Dialogue ι (Class × Object)).Obeys P asks
      (MadeOf P registry) w := by
  unfold begin
  cases found : registry.get? className with
  | none => exact P.unknownClass className
  | some c =>
    intro w' le i
    have crafted := (respects className c found).make (i := i) (all.mono le)
    exact crafted.map fun object crafted => ⟨⟨className, found⟩, crafted⟩

theorem obeys_callSetter {c : Class} {name : String} (found : registry.get? name = some c)
    {object : Object} (crafted : P.Crafted w object) {step : Runtime.Step α}
    (each : ∀ a ∈ step.arguments, ∀ w, (eval step.optional a).Obeys P asks P.given w) :
    (callSetter eval c object step).Obeys P asks P.Crafted w := by
  refine (obeys_mapM each w).andThen fun w' le outcome expects => ?_
  have later : P.Crafted w' object := crafted.mono le
  cases outcome with
  | ok arguments => exact (respects name c found).invoke later step.method expects
  | error e =>
    by_cases skip : (e.isUnbound && step.optional) = true
    · simp only [skip, if_true]
      exact later
    · simp only [skip]
      exact expects

theorem obeys_assemble (className : String) {arguments : List α} {steps : List (Runtime.Step α)}
    (hook : Option String) (first : ∀ a ∈ arguments, ∀ w, (eval false a).Obeys P asks P.given w)
    (later : ∀ step ∈ steps, ∀ a ∈ step.arguments, ∀ w, (eval step.optional a).Obeys P asks P.given w)
    (w : W) :
    (assemble registry eval className arguments steps hook).Obeys P asks (MadeOf P registry) w := by
  refine (obeys_mapM first w).bind fun w _ values all => ?_
  refine (obeys_begin respects className all).bind fun w _ made ⟨⟨name, found⟩, crafted⟩ => ?_
  have called : (steps.foldlM (callSetter eval made.1) made.2).Obeys P asks P.Crafted w :=
    obeys_foldlM (fun object step member w crafted =>
      obeys_callSetter respects found crafted (later step member)) crafted
  refine called.bind fun w _ object crafted => ?_
  cases hook with
  | none => exact ⟨⟨name, found⟩, crafted⟩
  | some method =>
    exact ((respects name made.1 found).invoke crafted method (Protocol.allGiven_nil w)).map fun object crafted =>
      ⟨⟨name, found⟩, crafted⟩

theorem obeys_provide {question : Key → Option Point → ι}
    (lookups : ∀ key point, allowed key → asks (question key point)) {made : Class × Object}
    (madeOf : MadeOf P registry w made) (context : Option String) (point : Option Point) :
    (provide question made context point).Obeys P asks P.given w := by
  have hooks : ∀ {hook : Hook} {w}, hook.Obeys P allowed w →
      (ofHook question hook).Obeys P asks P.given w := by
    intro hook
    induction hook with
    | finish outcome =>
      intro w obeys
      cases outcome with
      | error e => exact obeys
      | ok offer =>
        cases offer with
        | existing value => exact obeys
        | fresh type className arguments =>
          intro w' le i
          have all : P.AllGiven w' arguments := Protocol.AllGiven.mono le obeys
          exact P.object type className constructorMethod (P.made_take w' i) (all.mono (P.le_take w' i)) nofun
    | lookup key point next ih =>
      exact fun obeys => ⟨lookups key point obeys.1, fun w' le given expects =>
        ih given (obeys.2 w' le given expects)⟩
  obtain ⟨⟨name, found⟩, crafted⟩ := madeOf
  have start : (finish (made.1.hookOf made.2 context point) : Dialogue ι Hook).Obeys P asks
      (fun w hook => hook.Obeys P allowed w) w := (respects name made.1 found).hookOf crafted.1 context point
  refine start.andThen fun w' _ outcome expects => ?_
  cases outcome with
  | ok hook => exact hooks expects
  | error e => exact expects

end

end Dialogue
end Wiring
