import Wiring.Proofs.Runtime

/-! # Dialogues

Making an object is a dialogue: an injector asks for arguments and for what hooks look up, takes
identities for new objects, and ends with an outcome. How questions are answered is left open, so a
dialogue shows what a resolution asks for, and in which state of the injector it asks.
-/
namespace Wiring

/-- A computation that asks questions and takes identities for objects that can be made. -/
inductive Dialogue (ι α : Type) where
  | finish (outcome : Except Error α)
  | take (make : Nat → Except Error Object) (next : Except Error Object → Dialogue ι α)
  | ask (question : ι) (next : Except Error Value → Dialogue ι α)

namespace Dialogue

variable {ι α β γ δ ρ : Type}

/-- A dialogue that goes on with the outcome of another one, be it a failure. -/
def andThen : Dialogue ι α → (Except Error α → Dialogue ι β) → Dialogue ι β
  | finish outcome, rest => rest outcome
  | take make next, rest => take make fun made => (next made).andThen rest
  | ask question next, rest => ask question fun answer => (next answer).andThen rest

def unlessFailed (rest : α → Dialogue ι β) : Except Error α → Dialogue ι β
  | .ok a => rest a
  | .error e => finish (.error e)

instance : Monad (Dialogue ι) where
  pure a := finish (.ok a)
  bind d rest := d.andThen (unlessFailed rest)

theorem bind_eq (d : Dialogue ι α) (rest : α → Dialogue ι β) :
    d >>= rest = d.andThen (unlessFailed rest) := rfl

theorem andThen_finish (d : Dialogue ι α) : d.andThen finish = d := by
  induction d with
  | finish outcome => rfl
  | take make next ih => exact congrArg _ (funext ih)
  | ask question next ih => exact congrArg _ (funext ih)

theorem andThen_assoc (d : Dialogue ι α) (first : Except Error α → Dialogue ι β)
    (later : Except Error β → Dialogue ι γ) :
    (d.andThen first).andThen later = d.andThen fun outcome => (first outcome).andThen later := by
  induction d with
  | finish outcome => rfl
  | take make next ih => exact congrArg _ (funext ih)
  | ask question next ih => exact congrArg _ (funext ih)

instance : LawfulMonad (Dialogue ι) := LawfulMonad.mk' _
  (fun d => by
    refine Eq.trans (congrArg d.andThen (funext fun outcome => ?_)) (andThen_finish d)
    cases outcome <;> rfl)
  (fun _ _ => rfl)
  (fun d first later => by
    refine (andThen_assoc d _ _).trans (congrArg d.andThen (funext fun outcome => ?_))
    cases outcome <;> rfl)

section
variable (registry : Registry)

def begin (className : String) (arguments : List Value) : Dialogue ι (Class × Object) :=
  match registry.get? className with
  | none => finish (.error (.unknownClass className))
  | some c => take (fun id => c.make id arguments) fun made => finish (made.map fun object => (c, object))

/-- The questions for arguments may depend on whether these belong to an optional setter. -/
def callSetter (eval : Bool → α → Dialogue ι Value) (c : Class) (object : Object)
    (step : Runtime.Step α) : Dialogue ι Object :=
  (step.arguments.mapM (eval step.optional)).andThen fun
    | .ok arguments => finish (c.invoke object step.method arguments)
    | .error e => finish (if e.isUnbound && step.optional then .ok object else .error e)

def finished (made : Class × Object) : Option String → Except Error (Class × Object)
  | none => .ok made
  | some method => (made.1.invoke made.2 method []).map fun object => (made.1, object)

def assemble (eval : Bool → α → Dialogue ι Value) (className : String) (arguments : List α)
    (steps : List (Runtime.Step α)) (hook : Option String) : Dialogue ι (Class × Object) := do
  let made ← begin registry className (← arguments.mapM (eval false))
  let object ← steps.foldlM (callSetter eval made.1) made.2
  finish (finished (made.1, object) hook)

def equip (eval : Bool → α → Dialogue ι Value) (steps : List (Runtime.Step α)) (hook : Option String)
    (made : Class × Object) : Dialogue ι (Class × Object) := do
  let object ← steps.foldlM (callSetter eval made.1) made.2
  finish (finished (made.1, object) hook)

theorem equip_cons (eval : Bool → α → Dialogue ι Value) (step : Runtime.Step α)
    (steps : List (Runtime.Step α)) (hook : Option String) (made : Class × Object) :
    equip eval (step :: steps) hook made =
      callSetter eval made.1 made.2 step >>= fun object => equip eval steps hook (made.1, object) := by
  simp only [equip, List.foldlM_cons, bind_assoc]

theorem assemble_append (eval : Bool → α → Dialogue ι Value) (className : String) (arguments : List α)
    (steps later : List (Runtime.Step α)) (hook : Option String) :
    assemble registry eval className arguments (steps ++ later) hook =
      assemble registry eval className arguments steps none >>= equip eval later hook := by
  simp only [assemble, List.foldlM_append, bind_assoc]
  rfl

def accept : Offer → Dialogue ι Value
  | .existing value => finish (.ok value)
  | .fresh type className arguments =>
    take (fun id => .ok ⟨id, type, className, [⟨constructorMethod, arguments, []⟩]⟩) fun made =>
      finish (made.map Object.value)

def ofHook (question : Key → Option Point → ι) : Hook → Dialogue ι Value
  | .finish (.ok offer) => accept offer
  | .finish (.error e) => finish (.error e)
  | .lookup key point next => ask (question key point) fun answer => ofHook question (next answer)

def provide (question : Key → Option Point → ι) (made : Class × Object) (context : Option String)
    (point : Option Point) : Dialogue ι Value :=
  (finish (made.1.hookOf made.2 context point)).andThen (unlessFailed (ofHook question))

end

def taken (made : Except Error Object) (s : Runtime ρ) : Runtime ρ :=
  match made with
  | .ok _ => { s with born := s.born + 1 }
  | .error _ => s

theorem own_taken {R : ρ → ρ → Prop} [IsPreorder ρ R] (made : Except Error Object) (s : Runtime ρ) :
    Runtime.OnOwn R s (taken made s) := by
  cases made <;> exact refl_of R s.own

/-- Holds a dialogue with an injector that answers. -/
def runOn (answer : ι → Act (Runtime ρ) Value) :
    Dialogue ι α → Runtime ρ → Except Error α × Runtime ρ
  | finish outcome, s => (outcome, s)
  | take make next, s => (next (make s.born)).runOn answer (taken (make s.born) s)
  | ask question next, s =>
    (next ((answer question).runOn s).1).runOn answer ((answer question).runOn s).2

variable {answer : ι → Act (Runtime ρ) Value}

theorem runOn_andThen (d : Dialogue ι α) (rest : Except Error α → Dialogue ι β) (s : Runtime ρ) :
    (d.andThen rest).runOn answer s =
      (rest (d.runOn answer s).1).runOn answer (d.runOn answer s).2 := by
  induction d generalizing s with
  | finish outcome => rfl
  | take make next ih => exact ih _ _
  | ask question next ih => exact ih _ _

/-- An action that does what a dialogue does. -/
def Performed (answer : ι → Act (Runtime ρ) Value) (d : Dialogue ι α) (x : Act (Runtime ρ) α) : Prop :=
  ∀ s, x.runOn s = d.runOn answer s

theorem performed_finish (outcome : Except Error α) :
    (finish outcome).Performed answer (liftM outcome) := fun _ => rfl

theorem performed_ask (question : ι) : (ask question finish).Performed answer (answer question) :=
  fun _ => rfl

theorem Performed.bind {d : Dialogue ι α} {x : Act (Runtime ρ) α} {f : α → Dialogue ι β}
    {g : α → Act (Runtime ρ) β} (first : d.Performed answer x)
    (later : ∀ a, (f a).Performed answer (g a)) : (d >>= f).Performed answer (x >>= g) := by
  intro s
  rw [Act.runOn_bind, first s, bind_eq, runOn_andThen]
  rcases d.runOn answer s with ⟨e | a, t⟩
  · rfl
  · exact later a t

theorem performed_mapM {eval : α → Dialogue ι β} {act : α → Act (Runtime ρ) β}
    (each : ∀ a, (eval a).Performed answer (act a)) (xs : List α) :
    (xs.mapM eval).Performed answer (xs.mapM act) := by
  induction xs with
  | nil => exact fun _ => rfl
  | cons x xs ih =>
    rw [List.mapM_cons, List.mapM_cons]
    exact (each x).bind fun _ => ih.bind fun _ _ => rfl

theorem performed_foldlM {f : β → α → Dialogue ι β} {g : β → α → Act (Runtime ρ) β}
    (each : ∀ b a, (f b a).Performed answer (g b a)) (xs : List α) (b : β) :
    (xs.foldlM f b).Performed answer (xs.foldlM g b) := by
  induction xs generalizing b with
  | nil => exact fun _ => rfl
  | cons x xs ih =>
    rw [List.foldlM_cons, List.foldlM_cons]
    exact (each b x).bind ih

theorem performed_begin (registry : Registry) (className : String) (arguments : List Value) :
    (begin registry className arguments).Performed answer
      (Runtime.begin registry className arguments) := by
  intro s
  rw [Runtime.runOn_begin, begin]
  cases registry.get? className with
  | none => rfl
  | some c =>
    simp only [runOn]
    cases c.make s.born arguments <;> rfl

section
variable {eval : Bool → α → Dialogue ι Value} {act : α → Act (Runtime ρ) Value}
  (each : ∀ optional a, (eval optional a).Performed answer (act a))
include each

theorem performed_callSetter (c : Class) (object : Object) (step : Runtime.Step α) :
    (callSetter eval c object step).Performed answer (Runtime.callSetter act c object step) := by
  intro s
  rw [Runtime.runOn_callSetter, performed_mapM (each step.optional) step.arguments s, callSetter,
    runOn_andThen]
  rcases (step.arguments.mapM (eval step.optional)).runOn answer s with ⟨e | arguments, t⟩ <;> rfl

theorem performed_assemble (registry : Registry) (className : String) (arguments : List α)
    (steps : List (Runtime.Step α)) (hook : Option String) :
    (assemble registry eval className arguments steps hook).Performed answer
      (Runtime.assemble registry act className arguments steps hook) := by
  refine (performed_mapM (each false) arguments).bind fun values => ?_
  refine (performed_begin registry className values).bind fun made => ?_
  refine (performed_foldlM (fun object step =>
    performed_callSetter each made.1 object step) steps made.2).bind fun object s => ?_
  cases hook with
  | none => rfl
  | some method =>
    simp only [Act.runOn_bind, Act.runOn_liftExcept, finished, runOn]
    cases made.1.invoke object method [] <;> rfl

end

theorem performed_accept (offer : Offer) :
    (accept offer).Performed answer (Runtime.accept offer) := by
  intro s
  cases offer <;> rfl

theorem performed_ofHook {question : Key → Option Point → ι}
    {lookup : Key → Option Point → Act (Runtime ρ) Value}
    (each : ∀ key point, (ask (question key point) finish).Performed answer (lookup key point))
    (hook : Hook) : (ofHook question hook).Performed answer (Runtime.runHook lookup hook) := by
  induction hook with
  | finish outcome =>
    cases outcome with
    | ok offer => exact performed_accept offer
    | error e => exact fun _ => rfl
  | lookup key point next ih =>
    intro s
    have asked := each key point s
    simp only [runOn] at asked
    simp only [Runtime.runHook, Act.runOn_bind, Act.runOn_attempt, ofHook, runOn, asked]
    exact ih _ _

theorem performed_provide {question : Key → Option Point → ι}
    {lookup : Key → Option Point → Act (Runtime ρ) Value}
    (each : ∀ key point, (ask (question key point) finish).Performed answer (lookup key point))
    (made : Class × Object) (context : Option String) (point : Option Point) :
    (provide question made context point).Performed answer
      (Runtime.provide lookup made context point) :=
  (performed_finish (made.1.hookOf made.2 context point)).bind (performed_ofHook each)

/-- A dialogue held from one state asks a question when the injector is in another state. -/
inductive Asks (answer : ι → Act (Runtime ρ) Value) (q : ι) (u : Runtime ρ) :
    Dialogue ι α → Runtime ρ → Prop
  | now {next : Except Error Value → Dialogue ι α} : Asks answer q u (ask q next) u
  | later {question : ι} {next : Except Error Value → Dialogue ι α} {s : Runtime ρ} :
    Asks answer q u (next ((answer question).runOn s).1) ((answer question).runOn s).2 →
      Asks answer q u (ask question next) s
  | taken {make : Nat → Except Error Object} {next : Except Error Object → Dialogue ι α}
    {s : Runtime ρ} :
    Asks answer q u (next (make s.born)) (taken (make s.born) s) → Asks answer q u (take make next) s

section
variable {R : Runtime ρ → Runtime ρ → Prop} [IsPreorder (Runtime ρ) R]
  (takes : ∀ made s, R s (Dialogue.taken made s)) (answers : ∀ q, (answer q).Moves R)
include takes answers

theorem moves_runOn (d : Dialogue ι α) (s : Runtime ρ) : R s (d.runOn answer s).2 := by
  induction d generalizing s with
  | finish outcome => exact refl_of R s
  | take make next ih => exact trans_of R (takes _ s) (ih _ _)
  | ask question next ih => exact trans_of R (answers question s) (ih _ _)

variable {q : ι} {u : Runtime ρ} {d : Dialogue ι α} {s : Runtime ρ}

theorem Asks.moves (asks : Asks answer q u d s) : R s u := by
  induction asks with
  | now => exact refl_of R u
  | later _ ih => exact trans_of R (answers _ _) ih
  | taken _ ih => exact trans_of R (takes _ _) ih

theorem Asks.moves_end (asks : Asks answer q u d s) : R ((answer q).runOn u).2 (d.runOn answer s).2 := by
  induction asks with
  | now => exact moves_runOn takes answers _ _
  | later _ ih => exact ih
  | taken _ ih => exact ih

end

theorem exists_asks {P : Runtime ρ → Prop} (takes : ∀ made s, P (Dialogue.taken made s) → P s)
    {d : Dialogue ι α} {s : Runtime ρ} (before : ¬ P s) (after : P (d.runOn answer s).2) :
    ∃ q u, Asks answer q u d s ∧ ¬ P u ∧ P ((answer q).runOn u).2 := by
  induction d generalizing s with
  | finish outcome => exact absurd after before
  | take make next ih =>
    obtain ⟨q, u, asks, came⟩ := ih _ (fun h => before (takes _ _ h)) after
    exact ⟨q, u, .taken asks, came⟩
  | ask question next ih =>
    by_cases now : P ((answer question).runOn s).2
    · exact ⟨question, s, .now, before, now⟩
    · obtain ⟨q, u, asks, came⟩ := ih _ now after
      exact ⟨q, u, .later asks, came⟩

/-- A dialogue all of whose questions have a property, however they are answered. -/
def AsksOnly (P : ι → Prop) : Dialogue ι α → Prop
  | finish _ => True
  | take _ next => ∀ made, (next made).AsksOnly P
  | ask question next => P question ∧ ∀ given, (next given).AsksOnly P

theorem Asks.of_asksOnly {P : ι → Prop} {q : ι} {u : Runtime ρ} {d : Dialogue ι α} {s : Runtime ρ}
    (asks : Asks answer q u d s) (only : d.AsksOnly P) : P q := by
  induction asks with
  | now => exact only.1
  | later _ ih => exact ih (only.2 _)
  | taken _ ih => exact ih (only _)

section
variable {P : ι → Prop}

theorem AsksOnly.andThen {d : Dialogue ι α} {rest : Except Error α → Dialogue ι β}
    (first : d.AsksOnly P) (later : ∀ outcome, (rest outcome).AsksOnly P) :
    (d.andThen rest).AsksOnly P := by
  induction d with
  | finish outcome => exact later outcome
  | take make next ih => exact fun made => ih made (first made)
  | ask question next ih => exact ⟨first.1, fun given => ih given (first.2 given)⟩

theorem AsksOnly.bind {d : Dialogue ι α} {f : α → Dialogue ι β} (first : d.AsksOnly P)
    (later : ∀ a, (f a).AsksOnly P) : (d >>= f).AsksOnly P := by
  refine first.andThen fun outcome => ?_
  cases outcome with
  | ok a => exact later a
  | error e => trivial

theorem asksOnly_mapM {eval : α → Dialogue ι β} {xs : List α}
    (each : ∀ x ∈ xs, (eval x).AsksOnly P) : (xs.mapM eval).AsksOnly P := by
  induction xs with
  | nil => trivial
  | cons x xs ih =>
    obtain ⟨first, others⟩ := List.forall_mem_cons.mp each
    rw [List.mapM_cons]
    exact first.bind fun _ => (ih others).bind fun _ => trivial

theorem asksOnly_foldlM {f : β → α → Dialogue ι β} {xs : List α}
    (each : ∀ b, ∀ x ∈ xs, (f b x).AsksOnly P) (b : β) : (xs.foldlM f b).AsksOnly P := by
  induction xs generalizing b with
  | nil => trivial
  | cons x xs ih =>
    rw [List.foldlM_cons]
    exact (each b x List.mem_cons_self).bind (ih fun b y member =>
      each b y (List.mem_cons_of_mem x member))

theorem asksOnly_assemble (registry : Registry) {eval : Bool → α → Dialogue ι Value}
    (className : String) {arguments : List α} {steps : List (Runtime.Step α)} (hook : Option String)
    (first : ∀ a ∈ arguments, (eval false a).AsksOnly P)
    (later : ∀ step ∈ steps, ∀ a ∈ step.arguments, (eval step.optional a).AsksOnly P) :
    (assemble registry eval className arguments steps hook).AsksOnly P := by
  refine (asksOnly_mapM first).bind fun values => AsksOnly.bind ?_ fun made =>
    (asksOnly_foldlM (fun object step member => ?_) made.2).bind fun _ => trivial
  · unfold begin
    cases registry.get? className with
    | none => trivial
    | some c => exact fun _ => trivial
  · refine (asksOnly_mapM (later step member)).andThen fun outcome => ?_
    cases outcome <;> trivial

theorem asksOnly_provide {question : Key → Option Point → ι} (each : ∀ key point, P (question key point))
    (made : Class × Object) (context : Option String) (point : Option Point) :
    (provide question made context point).AsksOnly P := by
  have hooks : ∀ hook, (ofHook question hook).AsksOnly P := by
    intro hook
    induction hook with
    | finish outcome =>
      cases outcome with
      | error e => trivial
      | ok offer =>
        cases offer with
        | existing value => trivial
        | fresh type className arguments => exact fun _ => trivial
    | lookup key point next ih => exact ⟨each key point, ih⟩
  refine AsksOnly.andThen (d := finish _) trivial fun outcome => ?_
  cases outcome with
  | ok hook => exact hooks hook
  | error e => trivial

end

/-- A dialogue that ends with the error of any answer that is said to end it. -/
def Candid (ends : ι → Error → Prop) : Dialogue ι α → Prop
  | finish _ => True
  | take _ next => ∀ made, (next made).Candid ends
  | ask question next => (∀ e, ends question e → next (.error e) = finish (.error e)) ∧
    ∀ given, (next given).Candid ends

variable {ends : ι → Error → Prop}

def Yields (P : α → Prop) : Dialogue ι α → Prop
  | finish outcome => ∀ a, outcome = .ok a → P a
  | take _ next => ∀ made, (next made).Yields P
  | ask _ next => ∀ given, (next given).Yields P

theorem Yields.bind {P : α → Prop} {Q : β → Prop} {d : Dialogue ι α} {f : α → Dialogue ι β}
    (first : d.Yields P) (later : ∀ a, P a → (f a).Yields Q) : (d >>= f).Yields Q := by
  rw [bind_eq]
  induction d with
  | finish outcome =>
    cases outcome with
    | ok a => exact later a (first a rfl)
    | error e => exact nofun
  | take make next ih => exact fun made => ih made (first made)
  | ask question next ih => exact fun given => ih given (first given)

theorem yields_any (d : Dialogue ι α) : d.Yields fun _ => True := by
  induction d with
  | finish outcome => exact fun _ _ => trivial
  | take make next ih => exact ih
  | ask question next ih => exact ih

theorem Candid.bind {P : α → Prop} {d : Dialogue ι α} {f : α → Dialogue ι β} (first : d.Candid ends)
    (yields : d.Yields P) (later : ∀ a, P a → (f a).Candid ends) : (d >>= f).Candid ends := by
  rw [bind_eq]
  induction d with
  | finish outcome =>
    cases outcome with
    | ok a => exact later a (yields a rfl)
    | error e => trivial
  | take make next ih => exact fun made => ih made (first made) (yields made)
  | ask question next ih =>
    refine ⟨fun e h => ?_, fun given => ih given (first.2 given) (yields given)⟩
    simp only [first.1 e h]
    rfl

theorem Asks.runOn_eq_error {q : ι} {u : Runtime ρ} {d : Dialogue ι α} {s : Runtime ρ}
    (asks : Asks answer q u d s) (candid : d.Candid ends) {e : Error}
    (failed : ((answer q).runOn u).1 = .error e) (ending : ends q e) :
    (d.runOn answer s).1 = .error e := by
  induction asks with
  | now =>
    simp only [runOn, failed, candid.1 e ending]
  | later _ ih => exact ih (candid.2 _)
  | taken _ ih => exact ih (candid _)

theorem candid_foldlM {f : β → α → Dialogue ι β} (each : ∀ b a, (f b a).Candid ends) (xs : List α)
    (b : β) : (xs.foldlM f b).Candid ends := by
  induction xs generalizing b with
  | nil => trivial
  | cons x xs ih =>
    rw [List.foldlM_cons]
    exact (each b x).bind (yields_any _) fun b _ => ih b

theorem candid_mapM {question : α → ι} {rest : Except Error (List Value) → Dialogue ι β} {xs : List α}
    (passes : ∀ x ∈ xs, ∀ e, ends (question x) e → rest (.error e) = finish (.error e))
    (later : ∀ outcome, (rest outcome).Candid ends) :
    ((xs.mapM fun x => ask (question x) finish).andThen rest).Candid ends := by
  induction xs generalizing rest with
  | nil => exact later (.ok [])
  | cons x xs ih =>
    obtain ⟨first, others⟩ := List.forall_mem_cons.mp passes
    rw [List.mapM_cons]
    refine ⟨first, fun given => ?_⟩
    cases given with
    | error e => exact later (.error e)
    | ok v =>
      change (((xs.mapM fun x => ask (question x) finish) >>= fun vs => pure (v :: vs)).andThen
        rest).Candid ends
      rw [bind_eq, andThen_assoc]
      refine ih (fun x member e h => others x member e h) fun outcome => ?_
      cases outcome with
      | ok vs => exact later (.ok (v :: vs))
      | error e => exact later (.error e)

section
variable {question : Bool → α → ι}
  (ending : ∀ optional a e, ends (question optional a) e → (e.isUnbound && optional) = false)
include ending

theorem candid_callSetter (c : Class) (object : Object) (step : Runtime.Step α) :
    (callSetter (fun optional a => ask (question optional a) finish) c object step).Candid ends := by
  refine candid_mapM (fun a _ e h => ?_) fun outcome => ?_
  · simp only [ending _ a e h, Bool.false_eq_true, if_false]
  · cases outcome <;> trivial

theorem candid_assemble (registry : Registry) (className : String) (arguments : List α)
    (steps : List (Runtime.Step α)) (hook : Option String) :
    (assemble registry (fun optional a => ask (question optional a) finish) className arguments steps
      hook).Candid ends := by
  refine candid_mapM (fun _ _ _ _ => rfl) fun outcome => ?_
  cases outcome with
  | error e => trivial
  | ok values =>
    refine Candid.bind ?_ (yields_any _) fun made _ =>
      (candid_foldlM (fun object step => candid_callSetter ending made.1 object step) steps made.2).bind
        (yields_any _) fun _ _ => trivial
    unfold begin
    cases registry.get? className with
    | none => trivial
    | some c => exact fun _ => trivial

end

theorem yields_assemble (registry : Registry) (eval : Bool → α → Dialogue ι Value) (className : String)
    (arguments : List α) (steps : List (Runtime.Step α)) (hook : Option String) :
    (assemble registry eval className arguments steps hook).Yields fun made =>
      ∃ name, registry.get? name = some made.1 := by
  refine (yields_any _).bind fun values _ => Yields.bind
    (P := fun made => ∃ name, registry.get? name = some made.1) ?_ fun made known =>
      (yields_any _).bind fun object _ => ?_
  · unfold begin
    cases found : registry.get? className with
    | none => exact nofun
    | some c =>
      intro made started h
      obtain ⟨object, -, rfl⟩ := map_eq_ok_iff.mp h
      exact ⟨className, found⟩
  · intro done h
    cases hook with
    | none =>
      cases h
      exact known
    | some method =>
      obtain ⟨_, -, rfl⟩ := map_eq_ok_iff.mp h
      exact known

end Dialogue

/-- A hook that ends with the error of any look-up that is said to end it. -/
def Hook.Passes (passes : Error → Prop) : Hook → Prop
  | .finish _ => True
  | .lookup _ _ next => (∀ e, passes e → next (.error e) = .finish (.error e)) ∧
    ∀ answer, (next answer).Passes passes

theorem Hook.passes_none (hook : Hook) : hook.Passes fun _ => False := by
  induction hook with
  | finish outcome => trivial
  | lookup key point next ih => exact ⟨nofun, ih⟩

/-- Providers of such a registry pass on such errors of their look-ups. -/
def Registry.Passes (passes : Error → Prop) (registry : Registry) : Prop :=
  ∀ name c, registry.get? name = some c → ∀ provide, c.provide = some provide →
    ∀ object context point, (provide object context point).Passes passes

namespace Dialogue

variable {ι : Type} {ends : ι → Error → Prop} {passes : Error → Prop} {question : Key → Option Point → ι}
  (ending : ∀ key point e, ends (question key point) e → passes e)
include ending

theorem candid_ofHook {hook : Hook} (h : hook.Passes passes) : (ofHook question hook).Candid ends := by
  induction hook with
  | finish outcome =>
    cases outcome with
    | error e => trivial
    | ok offer =>
      cases offer with
      | existing value => trivial
      | fresh type className arguments => exact fun _ => trivial
  | lookup key point next ih =>
    refine ⟨fun e he => ?_, fun given => ih given (h.2 given)⟩
    simp only [h.1 e (ending key point e he), ofHook]

theorem candid_provide {registry : Registry} (all : registry.Passes passes) {made : Class × Object}
    {name : String} (found : registry.get? name = some made.1) (context : Option String)
    (point : Option Point) : (provide question made context point).Candid ends := by
  unfold provide Class.hookOf
  cases provides : made.1.provide with
  | none => trivial
  | some hook =>
    simp only
    by_cases same : made.2.type = made.1.type
    · simp only [same, if_true]
      exact candid_ofHook ending (all name made.1 found hook provides made.2 context point)
    · simp only [same, if_false]
      trivial

end Dialogue
end Wiring
