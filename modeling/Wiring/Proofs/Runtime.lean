import Wiring.Runtime
import Wiring.Proofs.Act
import Wiring.Proofs.SortedMap

/-! # What injectors share, step by step

Assembling an object, delivering a value and asking a provider touch what an injector keeps for
itself only through the evaluation of arguments and the answers to look-ups. So whatever relation
these respect, a whole resolution respects.
-/
namespace Wiring.Runtime
open Act

variable {ρ α β : Type} {R : ρ → ρ → Prop}

theorem runOn_begin (registry : Registry) (className : String) (arguments : List Value) (s : Runtime ρ) :
    (begin registry className arguments).runOn s = match registry.get? className with
      | none => (.error (.unknownClass className), s)
      | some c => match c.make s.born arguments with
        | .error e => (.error e, s)
        | .ok object => (.ok (c, object), { s with born := s.born + 1 }) := by
  unfold begin
  cases registry.get? className with
  | none => rfl
  | some c =>
    simp only [runOn_bind, runOn_get]
    cases c.make s.born arguments <;> rfl

theorem runOn_callSetter (eval : α → Act (Runtime ρ) Value) (c : Class) (object : Object)
    (step : Step α) (s : Runtime ρ) :
    (callSetter eval c object step).runOn s = match (step.arguments.mapM eval).runOn s with
      | (.ok arguments, t) => (c.invoke object step.method arguments, t)
      | (.error e, t) => (if e.isUnbound && step.optional then .ok object else .error e, t) := by
  simp only [callSetter, runOn_bind, runOn_attempt]
  rcases (step.arguments.mapM eval).runOn s with ⟨e | arguments, t⟩
  · cases h : e.isUnbound && step.optional <;> simp [h]
  · rfl

theorem runOn_within (key : Key) (x : Act (Runtime ρ) α) (s : Runtime ρ) :
    (within key x).runOn s = if key ∈ s.active then (.error (.circular (s.active.reverse ++ [key])), s)
      else ((x.runOn { s with active := key :: s.active }).1,
        { (x.runOn { s with active := key :: s.active }).2 with
          active := (x.runOn { s with active := key :: s.active }).2.active.erase key }) := by
  simp only [within, runOn_bind, runOn_get, path]
  by_cases member : key ∈ s.active <;>
    simp only [List.contains_iff_mem, member, if_true, if_false, runOn_bind, runOn_get, runOn_pure,
      runOn_throw]
  rfl

theorem runOn_deliver (key : Key) (scope : Scope) (make : Act (Runtime ρ) Value) (s : Runtime ρ) :
    (deliver key scope make).runOn s = match scope with
      | .prototype => (within key make).runOn s
      | .singleton => match s.singletons.get? key with
        | some value => (.ok value, s)
        | none => match (within key make).runOn s with
          | (.ok value, t) => (.ok ((t.singletons.get? key).getD value),
            { t with singletons := t.singletons.insertIfNew key value })
          | (.error e, t) => (.error e, t) := by
  simp only [deliver, runOn_bind]
  cases scope with
  | prototype =>
    simp only [settled, runOn_pure, runOn_bind]
    rcases (within key make).runOn s with ⟨e | value, t⟩ <;> rfl
  | singleton =>
    simp only [settled, runOn_bind, runOn_get, runOn_pure]
    cases s.singletons.get? key with
    | some value => rfl
    | none =>
      simp only [runOn_bind]
      rcases (within key make).runOn s with ⟨e | value, t⟩
      · rfl
      · simp only [keep, runOn_bind, runOn_modify, runOn_get, runOn_pure, SortedMap.get?_insertIfNew,
          if_true, Option.getD_some]

/-- A key for which no value is kept in a scope. -/
def Open (key : Key) (scope : Scope) (s : Runtime ρ) : Prop :=
  scope = .singleton → s.singletons.get? key = none

def entered (key : Key) (s : Runtime ρ) : Runtime ρ := { s with active := key :: s.active }

def exited (key : Key) (s : Runtime ρ) : Runtime ρ := { s with active := s.active.erase key }

theorem erase_innermost {key : Key} {stack active : List Key} (h : stack = key :: active) :
    stack.erase key = active := by
  rw [h, List.erase_cons_head]

theorem exited_entered (key : Key) (s : Runtime ρ) : exited key (entered key s) = s :=
  congrArg (fun active => { s with active := active }) (erase_innermost rfl)

theorem runOn_keep (key : Key) (scope : Scope) (value : Value) (s : Runtime ρ) :
    (keep key scope value).runOn s = match scope with
      | .prototype => (.ok value, s)
      | .singleton => (.ok ((s.singletons.get? key).getD value),
        { s with singletons := s.singletons.insertIfNew key value }) := by
  cases scope with
  | prototype => rfl
  | singleton =>
    simp only [keep, runOn_bind, runOn_modify, runOn_get, runOn_pure, SortedMap.get?_insertIfNew,
      if_true, Option.getD_some]

/-- A key is delivered as it was kept, is found to need itself, fails to be made, or is made. -/
inductive Delivery (key : Key) (scope : Scope) (make : Act (Runtime ρ) Value) (s : Runtime ρ) :
    Except Error Value × Runtime ρ → Prop
  | kept {value : Value} : scope = .singleton → s.singletons.get? key = some value →
    Delivery key scope make s (.ok value, s)
  | circular : Open key scope s → key ∈ s.active →
    Delivery key scope make s (.error (.circular (s.active.reverse ++ [key])), s)
  | failed {e : Error} {u : Runtime ρ} : Open key scope s → key ∉ s.active →
    make.runOn (entered key s) = (.error e, u) → Delivery key scope make s (.error e, exited key u)
  | made {value : Value} {u : Runtime ρ} : Open key scope s → key ∉ s.active →
    make.runOn (entered key s) = (.ok value, u) →
    Delivery key scope make s ((keep key scope value).runOn (exited key u))

theorem runOn_deliver_of_open {key : Key} {scope : Scope} {s : Runtime ρ} (vacant : Open key scope s)
    (make : Act (Runtime ρ) Value) :
    (deliver key scope make).runOn s = (within key make >>= keep key scope).runOn s := by
  simp only [deliver, runOn_bind]
  cases scope with
  | prototype => simp only [settled, runOn_pure, runOn_bind]
  | singleton => simp only [settled, runOn_bind, runOn_get, runOn_pure, vacant rfl]

theorem delivery_of_open {key : Key} {scope : Scope} {s : Runtime ρ} (vacant : Open key scope s)
    (make : Act (Runtime ρ) Value) :
    Delivery key scope make s ((within key make >>= keep key scope).runOn s) := by
  rw [runOn_bind, runOn_within]
  by_cases member : key ∈ s.active
  · simp only [if_pos member]
    exact .circular vacant member
  · simp only [if_neg member]
    cases ran : make.runOn { s with active := key :: s.active } with
    | mk r u =>
      cases r with
      | error e => exact .failed vacant member ran
      | ok value => exact .made vacant member ran

theorem delivery_deliver (key : Key) (scope : Scope) (make : Act (Runtime ρ) Value) (s : Runtime ρ) :
    Delivery key scope make s ((deliver key scope make).runOn s) := by
  by_cases vacant : Open key scope s
  · rw [runOn_deliver_of_open vacant make]
    exact delivery_of_open vacant make
  · obtain ⟨rfl, held⟩ := Classical.not_imp.mp vacant
    obtain ⟨value, found⟩ := Option.ne_none_iff_exists'.mp held
    have ran : (deliver key .singleton make).runOn s = (.ok value, s) := by
      simp only [deliver, settled, runOn_bind, runOn_get, runOn_pure, found]
    rw [ran]
    exact .kept rfl found

/-- What an injector keeps for itself is as it was, or as making the value left it. -/
theorem own_deliver (key : Key) (scope : Scope) (make : Act (Runtime ρ) Value) (s : Runtime ρ) :
    ((deliver key scope make).runOn s).2.own = s.own ∨ Open key scope s ∧ key ∉ s.active ∧
      ((deliver key scope make).runOn s).2.own = (make.runOn (entered key s)).2.own := by
  have delivery := delivery_deliver key scope make s
  generalize (deliver key scope make).runOn s = ran at delivery ⊢
  cases delivery with
  | kept _ _ | circular _ _ => exact .inl rfl
  | failed isOpen fresh ran => exact .inr ⟨isOpen, fresh, by rw [ran]; rfl⟩
  | made isOpen fresh ran =>
    refine .inr ⟨isOpen, fresh, ?_⟩
    rw [ran, runOn_keep]
    cases scope <;> rfl

/-- While no value is kept and the key is not being resolved, delivering it is making it. -/
theorem deliver_of_open {key : Key} {scope : Scope} {s : Runtime ρ} (isOpen : Open key scope s)
    (fresh : key ∉ s.active) (make : Act (Runtime ρ) Value) :
    (∃ e u, make.runOn (entered key s) = (.error e, u) ∧
      (deliver key scope make).runOn s = (.error e, exited key u)) ∨
    ∃ v u, make.runOn (entered key s) = (.ok v, u) ∧
      (deliver key scope make).runOn s = (keep key scope v).runOn (exited key u) := by
  have delivery := delivery_deliver key scope make s
  generalize (deliver key scope make).runOn s = ran at delivery ⊢
  cases delivery with
  | kept single found => exact absurd (found.symm.trans (isOpen single)) nofun
  | circular _ member => exact absurd member fresh
  | failed _ _ ran => exact .inl ⟨_, _, ran, rfl⟩
  | made _ _ ran => exact .inr ⟨_, _, ran, rfl⟩

theorem own_deliver_of_open {key : Key} {scope : Scope} {s : Runtime ρ} (isOpen : Open key scope s)
    (fresh : key ∉ s.active) (make : Act (Runtime ρ) Value) :
    ((deliver key scope make).runOn s).2.own = (make.runOn (entered key s)).2.own := by
  rcases deliver_of_open isOpen fresh make with ⟨e, u, made, ran⟩ | ⟨v, u, made, ran⟩
  · rw [ran, made]
    rfl
  · rw [ran, made, runOn_keep]
    cases scope <;> rfl

abbrev OnOwn (R : ρ → ρ → Prop) : Runtime ρ → Runtime ρ → Prop := InvImage R Runtime.own

instance [IsPreorder ρ R] : IsPreorder (Runtime ρ) (OnOwn R) where
  refl s := refl_of R s.own
  trans _ _ _ := trans_of R

section
variable [IsPreorder ρ R]

theorem moves_of_own {x : Act (Runtime ρ) α} (h : ∀ s, (x.runOn s).2.own = s.own) :
    x.Moves (OnOwn R) := fun s => by
  change R s.own (x.runOn s).2.own
  rw [h s]
  exact refl_of R s.own

theorem own_begin (registry : Registry) (className : String) (arguments : List Value)
    (s : Runtime ρ) : ((begin registry className arguments).runOn s).2.own = s.own := by
  rw [runOn_begin]
  cases registry.get? className with
  | none => rfl
  | some c =>
    simp only
    cases c.make s.born arguments <;> rfl

theorem own_accept (offer : Offer) (s : Runtime ρ) : ((accept offer).runOn s).2.own = s.own := by
  cases offer <;> rfl

theorem own_settled (key : Key) (scope : Scope) (s : Runtime ρ) :
    ((settled key scope).runOn s).2.own = s.own := by
  cases scope <;> rfl

theorem own_keep (key : Key) (scope : Scope) (value : Value) (s : Runtime ρ) :
    ((keep key scope value).runOn s).2.own = s.own := by
  cases scope <;> rfl

theorem moves_within {x : Act (Runtime ρ) α} (hx : x.Moves (OnOwn R)) (key : Key) :
    (within key x).Moves (OnOwn R) := by
  intro s
  rw [runOn_within]
  by_cases member : key ∈ s.active
  · rw [if_pos member]
    exact refl_of R s.own
  · rw [if_neg member]
    exact hx { s with active := key :: s.active }

theorem moves_deliver {make : Act (Runtime ρ) Value} (hm : make.Moves (OnOwn R)) (key : Key)
    (scope : Scope) : (deliver key scope make).Moves (OnOwn R) := by
  refine (moves_of_own (own_settled key scope)).bind fun found => ?_
  cases found with
  | some value => exact moves_of_keeps fun _ => rfl
  | none => exact (moves_within hm key).bind fun value => moves_of_own (own_keep key scope value)

theorem moves_callSetter {eval : α → Act (Runtime ρ) Value} (he : ∀ a, (eval a).Moves (OnOwn R))
    (c : Class) (object : Object) (step : Step α) : (callSetter eval c object step).Moves (OnOwn R) := by
  intro s
  have evaluated := Moves.mapM he step.arguments s
  rw [runOn_callSetter]
  generalize (step.arguments.mapM eval).runOn s = ran at evaluated ⊢
  obtain ⟨e | arguments, t⟩ := ran <;> exact evaluated

theorem moves_finish (made : Class × Object) (hook : Option String) :
    (match hook with
      | none => return made
      | some method => return (made.1, ← made.1.invoke made.2 method []) :
        Act (Runtime ρ) (Class × Object)).Moves (OnOwn R) := by
  cases hook with
  | none => exact moves_of_keeps fun _ => rfl
  | some method =>
    refine moves_of_keeps fun s => ?_
    simp only [runOn_bind, runOn_liftExcept]
    cases made.1.invoke made.2 method [] <;> rfl

section
variable {eval : α → Act (Runtime ρ) Value} (he : ∀ a, (eval a).Moves (OnOwn R))
include he

theorem moves_calls (made : Class × Object) (steps : List (Step α)) (hook : Option String) :
    (do
      let object ← steps.foldlM (callSetter eval made.1) made.2
      match hook with
      | none => return (made.1, object)
      | some method => return (made.1, ← made.1.invoke object method []) :
        Act (Runtime ρ) (Class × Object)).Moves (OnOwn R) :=
  (Moves.foldlM (moves_callSetter he made.1) steps made.2).bind fun object =>
    moves_finish (made.1, object) hook

theorem moves_assemble (registry : Registry) (className : String) (arguments : List α)
    (steps : List (Step α)) (hook : Option String) :
    (assemble registry eval className arguments steps hook).Moves (OnOwn R) :=
  (Moves.mapM he arguments).bind fun values =>
    (moves_of_own (own_begin registry className values)).bind fun made => moves_calls he made steps hook

end

section
variable {P : α → ρ → Prop} (stable : ∀ a u t, R u t → P a u → P a t)
  {eval : α → Act (Runtime ρ) Value} (he : ∀ a, (eval a).Moves (OnOwn R))
  (gets : ∀ a s v t, (eval a).runOn s = (.ok v, t) → P a t.own)
include stable he gets

theorem gets_mapM {xs : List α} {s t : Runtime ρ} {values : List Value}
    (ran : (xs.mapM eval).runOn s = (.ok values, t)) : ∀ a ∈ xs, P a t.own := by
  induction xs generalizing s values with
  | nil => simp
  | cons x xs ih =>
    rw [List.mapM_cons] at ran
    obtain ⟨v, u, first, ran⟩ := runOn_bind_eq_ok.mp ran
    obtain ⟨vs, w, others, ran⟩ := runOn_bind_eq_ok.mp ran
    cases ran
    have later : OnOwn R u ((xs.mapM eval).runOn u).2 := Moves.mapM he xs u
    rw [others] at later
    exact List.forall_mem_cons.mpr ⟨stable x u.own t.own later (gets x s v u first), ih others⟩

/-- A setter is called with all its arguments, unless it is optional. -/
theorem gets_callSetter {c : Class} {object done : Object} {step : Step α} {s t : Runtime ρ}
    (ran : (callSetter eval c object step).runOn s = (.ok done, t)) :
    step.optional = true ∨ ∀ a ∈ step.arguments, P a t.own := by
  rw [runOn_callSetter] at ran
  cases evaluated : (step.arguments.mapM eval).runOn s with
  | mk outcome u =>
    rw [evaluated] at ran
    cases outcome with
    | ok arguments =>
      obtain rfl : u = t := congrArg Prod.snd ran
      exact .inr (gets_mapM stable he gets evaluated)
    | error e =>
      by_cases skip : (e.isUnbound && step.optional) = true
      · exact .inl (Bool.and_eq_true_iff.mp skip).2
      · simp [skip] at ran

theorem gets_assemble {registry : Registry} {className : String} {arguments : List α}
    {steps : List (Step α)} {hook : Option String} {made : Class × Object} {s t : Runtime ρ}
    (ran : (assemble registry eval className arguments steps hook).runOn s = (.ok made, t)) :
    (∀ a ∈ arguments, P a t.own) ∧
      ∀ step ∈ steps, step.optional = true ∨ ∀ a ∈ step.arguments, P a t.own := by
  have calls : ∀ {steps : List (Step α)} {c : Class} {object done : Object} {s t : Runtime ρ},
      (steps.foldlM (callSetter eval c) object).runOn s = (.ok done, t) →
      ∀ step ∈ steps, step.optional = true ∨ ∀ a ∈ step.arguments, P a t.own := by
    intro steps c
    induction steps with
    | nil => simp
    | cons step rest ih =>
      intro object done s t ran
      rw [List.foldlM_cons] at ran
      obtain ⟨object', u, first, others⟩ := runOn_bind_eq_ok.mp ran
      have later : OnOwn R u ((rest.foldlM (callSetter eval c) object').runOn u).2 :=
        Moves.foldlM (moves_callSetter he c) rest object' u
      rw [others] at later
      exact List.forall_mem_cons.mpr ⟨(gets_callSetter stable he gets first).imp_right fun all a member =>
        stable a u.own t.own later (all a member), ih others⟩
  obtain ⟨values, u, first, ran⟩ := runOn_bind_eq_ok.mp ran
  have later : OnOwn R u t := Eq.mp (congrArg (OnOwn R u) (congrArg Prod.snd ran))
    ((moves_of_own (own_begin registry className values)).bind
      (fun made => moves_calls he made steps hook) u)
  obtain ⟨begun, w, -, ran⟩ := runOn_bind_eq_ok.mp ran
  obtain ⟨done, x, called, ran⟩ := runOn_bind_eq_ok.mp ran
  have finished : OnOwn R x t := Eq.mp (congrArg (OnOwn R x) (congrArg Prod.snd ran))
    (moves_finish (begun.1, done) hook x)
  exact ⟨fun a member => stable a u.own t.own later (gets_mapM stable he gets first a member),
    fun step member => (calls called step member).imp_right fun all a member' =>
      stable a x.own t.own finished (all a member')⟩

end

theorem moves_runHook {answer : Key → Option Point → Act (Runtime ρ) Value}
    (ha : ∀ key point, (answer key point).Moves (OnOwn R)) (hook : Hook) :
    (runHook answer hook).Moves (OnOwn R) := by
  induction hook with
  | finish outcome =>
    cases outcome with
    | ok offer => exact moves_of_own (own_accept offer)
    | error e => exact moves_of_keeps fun _ => rfl
  | lookup key point next ih => exact (ha key point).attempt.bind ih

theorem moves_provide {answer : Key → Option Point → Act (Runtime ρ) Value}
    (ha : ∀ key point, (answer key point).Moves (OnOwn R)) (made : Class × Object)
    (context : Option String) (point : Option Point) :
    (provide answer made context point).Moves (OnOwn R) :=
  Moves.bind (moves_of_keeps fun _ => rfl) fun hook => moves_runHook ha hook

end

end Wiring.Runtime
