import Wiring.Proofs.Class
import Wiring.Proofs.Dialogue

/-! # Blueprints

A blueprint says how one object is made: what its constructor is given, which setters are called with what,
and which hook is called at the end. An object made from a blueprint has been through these calls, in this
order, and through no others.
-/
namespace Wiring

variable {ι ρ α β : Type}

/-- What happens while a dialogue is held: an object takes an identity, or a question is answered in some
state of the injector. -/
inductive Turn (ι ρ : Type) where
  | took (id : Nat) (object : Object)
  | asked (question : ι) (state : Runtime ρ) (outcome : Except Error Value)

namespace Turn

def identity? : Turn ι ρ → Option Nat
  | took id _ => some id
  | asked _ _ _ => none

def given? : Turn ι ρ → Option (ι × Except Error Value)
  | took _ _ => none
  | asked question _ outcome => some (question, outcome)

def identities (turns : List (Turn ι ρ)) : List Nat := turns.filterMap identity?

/-- The questions with their answers, in order. -/
def given (turns : List (Turn ι ρ)) : List (ι × Except Error Value) := turns.filterMap given?

@[simp] theorem identities_append (xs ys : List (Turn ι ρ)) :
    identities (xs ++ ys) = identities xs ++ identities ys := List.filterMap_append

@[simp] theorem given_append (xs ys : List (Turn ι ρ)) : given (xs ++ ys) = given xs ++ given ys :=
  List.filterMap_append

def ofMade (id : Nat) : Except Error Object → List (Turn ι ρ)
  | .ok object => [took id object]
  | .error _ => []

end Turn

namespace Dialogue
variable (answer : ι → Act (Runtime ρ) Value)

/-- The turns of a dialogue held with an injector. -/
def turns : Dialogue ι α → Runtime ρ → List (Turn ι ρ)
  | finish _, _ => []
  | take make next, s =>
    Turn.ofMade s.born (make s.born) ++ (next (make s.born)).turns (taken (make s.born) s)
  | ask question next, s => .asked question s ((answer question).runOn s).1 ::
    (next ((answer question).runOn s).1).turns ((answer question).runOn s).2

theorem turns_andThen (d : Dialogue ι α) (rest : Except Error α → Dialogue ι β) (s : Runtime ρ) :
    (d.andThen rest).turns answer s =
      d.turns answer s ++ (rest (d.runOn answer s).1).turns answer (d.runOn answer s).2 := by
  induction d generalizing s with
  | finish outcome => rfl
  | take make next ih =>
    rw [andThen, turns, turns, List.append_assoc, ih]
    rfl
  | ask question next ih =>
    rw [andThen, turns, turns, List.cons_append, ih]
    rfl

theorem turns_map (d : Dialogue ι α) (f : α → β) (s : Runtime ρ) :
    (d >>= fun a => pure (f a)).turns answer s = d.turns answer s := by
  rw [bind_eq, turns_andThen]
  rcases (d.runOn answer s).1 with e | a <;> exact List.append_nil _

theorem runOn_map (d : Dialogue ι α) (f : α → β) (s : Runtime ρ) :
    (d >>= fun a => pure (f a)).runOn answer s = ((d.runOn answer s).1.map f, (d.runOn answer s).2) := by
  rw [bind_eq, Dialogue.runOn_andThen]
  rcases d.runOn answer s with ⟨e | a, t⟩ <;> rfl

end Dialogue

/-- Where an argument comes from. -/
inductive Need (ι : Type) where
  | literal (value : Json)
  | question (q : ι)

def Need.dialogue : Need ι → Dialogue ι Value
  | .literal value => .finish (.ok (.literal value))
  | .question q => .ask q .finish

structure Blueprint (ι : Type) where
  className : String
  arguments : List (Need ι)
  steps : List (Runtime.Step (Need ι)) := []
  hook : Option String := none

namespace Blueprint

def finale (b : Blueprint ι) : List (String × List Value) := b.hook.toList.map fun method => (method, [])

def dialogue (registry : Registry) (b : Blueprint ι) : Dialogue ι (Class × Object) :=
  .assemble registry (fun _ => Need.dialogue) b.className b.arguments b.steps b.hook

def ofAssembly (need : Bool → α → Need ι) (className : String) (arguments : List α)
    (steps : List (Runtime.Step α)) (hook : Option String) : Blueprint ι where
  className := className
  arguments := arguments.map (need false)
  steps := steps.map fun step => ⟨step.method, step.arguments.map (need step.optional), step.optional⟩
  hook := hook

theorem dialogue_ofAssembly (registry : Registry) (need : Bool → α → Need ι) (className : String)
    (arguments : List α) (steps : List (Runtime.Step α)) (hook : Option String) :
    (ofAssembly need className arguments steps hook).dialogue registry =
      .assemble registry (fun optional a => (need optional a).dialogue) className arguments steps hook := by
  simp only [dialogue, ofAssembly, Dialogue.assemble, List.mapM_map, List.foldlM_map, Dialogue.callSetter]
  rfl

end Blueprint

/-- The values of some needs by the answers given in order, or the error of the last answer. -/
inductive Met : List (Need ι) → List (ι × Except Error Value) → Except Error (List Value) → Prop
  | nil : Met [] [] (.ok [])
  | literal {needs given outcome} (value : Json) : Met needs given outcome →
    Met (.literal value :: needs) given (outcome.map (.literal value :: ·))
  | answered {needs given outcome} (q : ι) (value : Value) : Met needs given outcome →
    Met (.question q :: needs) ((q, .ok value) :: given) (outcome.map (value :: ·))
  | failed {needs} (q : ι) (e : Error) : Met (.question q :: needs) [(q, .error e)] (.error e)

/-- The setter calls to make by the answers given in order. A setter is left out only if it is optional and
one of its arguments is unbound. -/
inductive Called : List (Runtime.Step (Need ι)) → List (ι × Except Error Value) →
    List (String × List Value) → Prop
  | nil : Called [] [] []
  | made {step steps given later arguments calls} : Met step.arguments given (.ok arguments) →
    Called steps later calls → Called (step :: steps) (given ++ later) ((step.method, arguments) :: calls)
  | dropped {step steps given later e calls} : step.optional = true → Met step.arguments given (.error e) →
    e.isUnbound = true → Called steps later calls → Called (step :: steps) (given ++ later) calls

def Invocation.call (i : Invocation α) : String × List α := (i.method, i.arguments)

namespace Class

def invokeAll (c : Class) (o : Object) (calls : List (String × List Value)) : Except Error Object :=
  calls.foldlM (fun o call => c.invoke o call.1 call.2) o

def perform (c : Class) (id : Nat) (arguments : List Value) (calls : List (String × List Value)) :
    Except Error Object :=
  c.make id arguments >>= fun o => c.invokeAll o calls

variable {c : Class} {o done : Object}

theorem invokeAll_cons (c : Class) (o : Object) (call : String × List Value)
    (calls : List (String × List Value)) :
    c.invokeAll o (call :: calls) = c.invoke o call.1 call.2 >>= fun o => c.invokeAll o calls :=
  List.foldlM_cons

theorem invokeAll_append (c : Class) (o : Object) (calls more : List (String × List Value)) :
    c.invokeAll o (calls ++ more) = c.invokeAll o calls >>= fun o => c.invokeAll o more :=
  List.foldlM_append

theorem invokeAll_cons_eq_ok {call : String × List Value} {calls : List (String × List Value)}
    (h : c.invokeAll o (call :: calls) = .ok done) :
    ∃ method kept, c.methods.get? call.1 = some method ∧ method o call.2 = .ok kept ∧
      c.invokeAll (o.record ⟨call.1, call.2, kept⟩) calls = .ok done := by
  rw [invokeAll_cons] at h
  cases invoked : c.invoke o call.1 call.2 with
  | error e =>
    rw [invoked] at h
    cases h
  | ok next =>
    rw [invoked] at h
    obtain ⟨method, kept, found, called, rfl⟩ := invoke_eq_ok invoked
    exact ⟨method, kept, found, called, h⟩

theorem invokeAll_eq_ok {calls : List (String × List Value)} (h : c.invokeAll o calls = .ok done) :
    done.id = o.id ∧ done.history.map Invocation.call = o.history.map Invocation.call ++ calls := by
  induction calls generalizing o with
  | nil =>
    cases h
    exact ⟨rfl, (List.append_nil _).symm⟩
  | cons call calls ih =>
    obtain ⟨method, kept, -, -, rest⟩ := invokeAll_cons_eq_ok h
    obtain ⟨same, recorded⟩ := ih rest
    refine ⟨same, ?_⟩
    rw [recorded]
    simp [Object.record, Invocation.call]

theorem type_of_invokeAll {calls : List (String × List Value)} (h : c.invokeAll o calls = .ok done) :
    done.type = o.type := by
  induction calls generalizing o with
  | nil =>
    cases h
    rfl
  | cons call calls ih =>
    obtain ⟨method, kept, -, -, rest⟩ := invokeAll_cons_eq_ok h
    have typed := ih rest
    exact typed

theorem perform_eq_ok {id : Nat} {arguments : List Value} {calls : List (String × List Value)}
    (h : c.perform id arguments calls = .ok done) :
    done.id = id ∧ done.history.map Invocation.call = (constructorMethod, arguments) :: calls := by
  unfold perform at h
  cases made : c.make id arguments with
  | error e =>
    rw [made] at h
    cases h
  | ok o =>
    rw [made] at h
    obtain ⟨kept, -, rfl⟩ := make_eq_ok made
    exact invokeAll_eq_ok h

theorem type_of_perform {id : Nat} {arguments : List Value} {calls : List (String × List Value)}
    (h : c.perform id arguments calls = .ok done) : done.type = c.type := by
  obtain ⟨o, made, called⟩ := bind_eq_ok_iff.mp h
  exact (type_of_invokeAll called).trans (type_of_make made)

end Class

/-- An object of a class that has been built from a blueprint by the answers given in order: constructed
once, with its arguments in order, through each setter call that is not left out and through the hook, and
through nothing else. -/
inductive Built (registry : Registry) (b : Blueprint ι) (c : Class) :
    List (ι × Except Error Value) → Object → Prop
  | mk {early late : List (ι × Except Error Value)} {arguments : List Value}
    {calls : List (String × List Value)} {o : Object} :
    registry.get? b.className = some c → Met b.arguments early (.ok arguments) →
    Called b.steps late calls → c.perform o.id arguments (calls ++ b.finale) = .ok o →
    Built registry b c (early ++ late) o

theorem Built.known {registry : Registry} {b : Blueprint ι} {c : Class}
    {given : List (ι × Except Error Value)} {o : Object} (built : Built registry b c given o) :
    registry.get? b.className = some c := by
  cases built with
  | mk found met called performed => exact found

theorem Built.typed {registry : Registry} {b : Blueprint ι} {c : Class}
    {given : List (ι × Except Error Value)} {o : Object} (built : Built registry b c given o) :
    o.type = c.type := by
  cases built with
  | mk found met called performed => exact Class.type_of_perform performed

theorem Built.history {registry : Registry} {b : Blueprint ι} {c : Class}
    {given : List (ι × Except Error Value)} {o : Object} (built : Built registry b c given o) :
    ∃ early late arguments calls, given = early ++ late ∧ Met b.arguments early (.ok arguments) ∧
      Called b.steps late calls ∧
      o.history.map Invocation.call = (constructorMethod, arguments) :: (calls ++ b.finale) := by
  cases built with
  | mk found met called performed =>
    exact ⟨_, _, _, _, rfl, met, called, (Class.perform_eq_ok performed).2⟩

namespace Blueprint
open Dialogue
variable {answer : ι → Act (Runtime ρ) Value}

variable (answer) in
theorem met_mapM (needs : List (Need ι)) (s : Runtime ρ) :
    Met needs (Turn.given ((needs.mapM Need.dialogue).turns answer s))
        ((needs.mapM Need.dialogue).runOn answer s).1 ∧
      Turn.identities ((needs.mapM Need.dialogue).turns answer s) = [] := by
  induction needs generalizing s with
  | nil => exact ⟨.nil, rfl⟩
  | cons need needs ih =>
    rw [List.mapM_cons, bind_eq, turns_andThen, Dialogue.runOn_andThen]
    cases need with
    | literal value =>
      obtain ⟨met, none⟩ := ih s
      change Met _ (Turn.given ([] ++ _)) _ ∧ Turn.identities ([] ++ _) = []
      rw [List.nil_append]
      simp only [unlessFailed, Need.dialogue, Dialogue.runOn, turns_map, runOn_map]
      exact ⟨.literal value met, none⟩
    | question q =>
      simp only [Need.dialogue, Dialogue.runOn, turns]
      rcases (answer q).runOn s with ⟨e | value, t⟩
      · exact ⟨.failed q e, rfl⟩
      · obtain ⟨met, none⟩ := ih t
        simp only [unlessFailed, turns_map, runOn_map]
        exact ⟨.answered q value met, none⟩

variable {c : Class} {object : Object}

theorem identities_callSetter (c : Class) (object : Object) (step : Runtime.Step (Need ι)) (s : Runtime ρ) :
    Turn.identities ((callSetter (fun _ => Need.dialogue) c object step).turns answer s) = [] := by
  rw [callSetter, turns_andThen, Turn.identities_append, (met_mapM answer step.arguments s).2]
  rcases ((step.arguments.mapM Need.dialogue).runOn answer s).1 with e | arguments <;> rfl

theorem identities_steps (c : Class) (object : Object) (steps : List (Runtime.Step (Need ι)))
    (s : Runtime ρ) : Turn.identities
      ((steps.foldlM (callSetter (fun _ => Need.dialogue) c) object).turns answer s) = [] := by
  induction steps generalizing object s with
  | nil => rfl
  | cons step steps ih =>
    rw [List.foldlM_cons, bind_eq, turns_andThen, Turn.identities_append, identities_callSetter]
    rcases (callSetter (fun _ => Need.dialogue) c object step).runOn answer s with ⟨e | next, t⟩
    · rfl
    · exact ih next t

theorem callSetter_eq_ok {step : Runtime.Step (Need ι)} {s t : Runtime ρ} {next : Object}
    (ran : (callSetter (fun _ => Need.dialogue) c object step).runOn answer s = (.ok next, t)) :
    (∃ arguments, Met step.arguments
        (Turn.given ((callSetter (fun _ => Need.dialogue) c object step).turns answer s)) (.ok arguments) ∧
      c.invoke object step.method arguments = .ok next) ∨
    ∃ e, step.optional = true ∧ e.isUnbound = true ∧ next = object ∧ Met step.arguments
      (Turn.given ((callSetter (fun _ => Need.dialogue) c object step).turns answer s)) (.error e) := by
  have met := (met_mapM answer step.arguments s).1
  rw [callSetter, Dialogue.runOn_andThen] at ran
  rw [callSetter, turns_andThen, Turn.given_append]
  generalize (step.arguments.mapM Need.dialogue).turns answer s = earlier at met ⊢
  generalize (step.arguments.mapM Need.dialogue).runOn answer s = evaluated at met ran ⊢
  obtain ⟨e | arguments, u⟩ := evaluated
  · by_cases skipped : (e.isUnbound && step.optional) = true
    · obtain ⟨unbound, optional⟩ := Bool.and_eq_true_iff.mp skipped
      simp only [skipped, if_true] at ran
      cases ran
      exact .inr ⟨e, optional, unbound, rfl, (List.append_nil _).symm ▸ met⟩
    · simp only [skipped] at ran
      cases ran
  · exact .inl ⟨arguments, (List.append_nil _).symm ▸ met, congrArg Prod.fst ran⟩

theorem steps_eq_ok {steps : List (Runtime.Step (Need ι))} {s t : Runtime ρ} {done : Object}
    (ran : (steps.foldlM (callSetter (fun _ => Need.dialogue) c) object).runOn answer s = (.ok done, t)) :
    ∃ calls, Called steps (Turn.given
        ((steps.foldlM (callSetter (fun _ => Need.dialogue) c) object).turns answer s)) calls ∧
      c.invokeAll object calls = .ok done := by
  induction steps generalizing object s with
  | nil =>
    cases ran
    exact ⟨[], .nil, rfl⟩
  | cons step steps ih =>
    rw [List.foldlM_cons, bind_eq, Dialogue.runOn_andThen] at ran
    rw [List.foldlM_cons, bind_eq, turns_andThen, Turn.given_append]
    cases first : (callSetter (fun _ => Need.dialogue) c object step).runOn answer s with
    | mk outcome u =>
      rw [first] at ran
      cases outcome with
      | error e => cases ran
      | ok next =>
        obtain ⟨calls, called, done⟩ := ih ran
        rcases callSetter_eq_ok first with ⟨arguments, met, invoked⟩ | ⟨e, optional, unbound, rfl, met⟩
        · refine ⟨_, .made met called, ?_⟩
          rw [Class.invokeAll_cons, invoked]
          exact done
        · exact ⟨calls, .dropped optional met unbound called, done⟩

theorem finished_eq_ok {made done : Class × Object} {b : Blueprint ι} (h : finished made b.hook = .ok done) :
    done.1 = made.1 ∧ made.1.invokeAll made.2 b.finale = .ok done.2 := by
  unfold finale
  cases hook : b.hook with
  | none =>
    rw [hook] at h
    cases h
    exact ⟨rfl, rfl⟩
  | some method =>
    rw [hook] at h
    obtain ⟨object, invoked, rfl⟩ := map_eq_ok_iff.mp h
    refine ⟨rfl, ?_⟩
    change made.1.invokeAll made.2 [(method, [])] = .ok object
    rw [Class.invokeAll_cons, invoked]
    rfl

theorem calls_eq_ok {b : Blueprint ι} {s t : Runtime ρ} {made : Class × Object}
    (ran : (b.steps.foldlM (callSetter (fun _ => Need.dialogue) c) object >>= fun object =>
      finish (finished (c, object) b.hook)).runOn answer s = (.ok made, t)) :
    made.1 = c ∧ ∃ calls, Called b.steps (Turn.given ((b.steps.foldlM
      (callSetter (fun _ => Need.dialogue) c) object >>= fun object =>
        finish (finished (c, object) b.hook)).turns answer s)) calls ∧
      c.invokeAll object (calls ++ b.finale) = .ok made.2 := by
  rw [bind_eq, Dialogue.runOn_andThen] at ran
  rw [bind_eq, turns_andThen, Turn.given_append]
  cases first : (b.steps.foldlM (callSetter (fun _ => Need.dialogue) c) object).runOn answer s with
  | mk outcome u =>
    rw [first] at ran
    cases outcome with
    | error e => cases ran
    | ok called =>
      obtain ⟨calls, set, invoked⟩ := steps_eq_ok first
      obtain ⟨same, done⟩ := finished_eq_ok (congrArg Prod.fst ran)
      refine ⟨same, calls, (List.append_nil _).symm ▸ set, ?_⟩
      rw [Class.invokeAll_append, invoked]
      exact done

theorem identities_calls (c : Class) (object : Object) (b : Blueprint ι) (s : Runtime ρ) :
    Turn.identities ((b.steps.foldlM (callSetter (fun _ => Need.dialogue) c) object >>= fun object =>
      finish (finished (c, object) b.hook)).turns answer s) = [] := by
  rw [bind_eq, turns_andThen, Turn.identities_append, identities_steps]
  rcases ((b.steps.foldlM (callSetter (fun _ => Need.dialogue) c) object).runOn answer s).1 with e | o <;> rfl

/-- What comes of a blueprint has been built from it, and no other object has been begun for it. -/
theorem built_of_dialogue {registry : Registry} {b : Blueprint ι} {s t : Runtime ρ} {made : Class × Object}
    (ran : (b.dialogue registry).runOn answer s = (.ok made, t)) :
    Built registry b made.1 (Turn.given ((b.dialogue registry).turns answer s)) made.2 ∧
      Turn.identities ((b.dialogue registry).turns answer s) = [made.2.id] := by
  unfold dialogue assemble at ran ⊢
  rw [bind_eq, Dialogue.runOn_andThen] at ran
  rw [bind_eq, turns_andThen, Turn.given_append, Turn.identities_append]
  obtain ⟨met, none⟩ := met_mapM answer b.arguments s
  generalize (b.arguments.mapM Need.dialogue).turns answer s = early at met none ⊢
  generalize (b.arguments.mapM Need.dialogue).runOn answer s = evaluated at met ran ⊢
  obtain ⟨e | arguments, u⟩ := evaluated
  · cases ran
  rw [unlessFailed, bind_eq, Dialogue.runOn_andThen] at ran
  rw [unlessFailed, bind_eq, turns_andThen, Turn.given_append, Turn.identities_append, none]
  unfold begin at ran ⊢
  cases found : registry.get? b.className with
  | none =>
    rw [found] at ran
    cases ran
  | some c =>
    simp only [found, Dialogue.runOn, turns, List.append_nil, List.nil_append] at ran ⊢
    cases constructed : c.make u.born arguments with
    | error e =>
      rw [constructed] at ran
      cases ran
    | ok object =>
      rw [constructed] at ran
      obtain ⟨rfl, calls, called, invoked⟩ := calls_eq_ok ran
      have id : made.2.id = u.born := by
        obtain ⟨kept, -, rfl⟩ := Class.make_eq_ok constructed
        exact (Class.invokeAll_eq_ok invoked).1
      refine ⟨.mk found met called ?_, ?_⟩
      · unfold Class.perform
        rw [id, constructed]
        exact invoked
      · rw [id]
        exact congrArg (u.born :: ·) (identities_calls made.1 object b _)

end Blueprint
end Wiring
