import Wiring.Proofs.Dialogue
import Wiring.Proofs.Finding
import Mathlib.Data.Finset.Card
import Mathlib.Logic.Relation

/-! # Resolving without a bound

A machine holds the dialogues of nested resolutions on a stack and makes one step at a time. Nothing
bounds its stack, so it may or may not come to an end. If the keys that can be resolved are finitely many
it does, since different keys are being resolved at every moment, and injectors that bound their nesting by
the number of these keys have the same outcome.
-/
namespace Wiring
open Act Wiring.Runtime Relation

variable {ι ρ : Type}

/-- How a question is taken up: it is answered at once, or a key is to be delivered in a scope, its value
being made in a dialogue. -/
inductive Opening (ι : Type) where
  | answered (outcome : Except Error Value)
  | delivers (key : Key) (scope : Scope) (body : Dialogue ι Value)

abbrev Opens (ι ρ : Type) := ι → Runtime ρ → Opening ι × Runtime ρ

namespace Runtime

/-- The value kept for a key in a scope. -/
def held (key : Key) (scope : Scope) (s : Runtime ρ) : Option Value :=
  match scope with
  | .singleton => s.singletons.get? key
  | .prototype => none

def arrive (key : Key) (scope : Scope) (s : Runtime ρ) : Option (Except Error Value) :=
  match held key scope s with
  | some value => some (.ok value)
  | none => if key ∈ s.active then some (.error (.circular (s.active.reverse ++ [key]))) else none

def leave (key : Key) (scope : Scope) (made : Except Error Value × Runtime ρ) :
    Except Error Value × Runtime ρ :=
  match made.1 with
  | .ok value => (keep key scope value).runOn (exited key made.2)
  | .error e => (.error e, exited key made.2)

theorem runOn_deliver_eq (key : Key) (scope : Scope) (make : Act (Runtime ρ) Value) (s : Runtime ρ) :
    (deliver key scope make).runOn s = match arrive key scope s with
      | some outcome => (outcome, s)
      | none => leave key scope (make.runOn (entered key s)) := by
  have delivery := delivery_deliver key scope make s
  generalize (deliver key scope make).runOn s = ran at delivery
  have vacant : Open key scope s → held key scope s = none := by
    intro isOpen
    cases scope with
    | prototype => rfl
    | singleton => exact isOpen rfl
  unfold arrive
  cases delivery with
  | kept single found =>
    subst single
    simp only [held, found]
  | circular isOpen member => simp only [vacant isOpen, if_pos member]
  | failed isOpen absent ran => simp only [vacant isOpen, if_neg absent, leave, ran]
  | made isOpen absent ran => simp only [vacant isOpen, if_neg absent, leave, ran]

theorem not_mem_of_arrive {key : Key} {scope : Scope} {s : Runtime ρ} (h : arrive key scope s = none) :
    key ∉ s.active := by
  intro member
  unfold arrive at h
  cases kept : held key scope s with
  | some value => simp [kept] at h
  | none => simp [kept, member] at h

theorem active_leave (key : Key) (scope : Scope) (made : Except Error Value × Runtime ρ) :
    (leave key scope made).2.active = made.2.active.erase key := by
  obtain ⟨e | value, s⟩ := made
  · rfl
  · cases scope <;> rfl

theorem leave_tooDeep (key : Key) (scope : Scope) (s : Runtime ρ) :
    leave key scope (tooDeep.runOn (entered key s)) = (.error (.circular (s.active.reverse ++ [key])), s) := by
  have ended : tooDeep.runOn (entered key s) = (.error (.circular (key :: s.active).reverse), entered key s) := rfl
  simp only [ended, leave, exited_entered, List.reverse_cons]

theorem own_leave (key : Key) (scope : Scope) (made : Except Error Value × Runtime ρ) :
    (leave key scope made).2.own = made.2.own := by
  obtain ⟨e | value, s⟩ := made
  · rfl
  · cases scope <;> rfl

end Runtime

/-- A resolution that waits for its value to be made, and the dialogue that goes on with the value. -/
structure Frame (ι : Type) where
  key : Key
  scope : Scope
  next : Except Error Value → Dialogue ι Value

/-- The innermost dialogue, the resolutions that wait, innermost first, and the state of the injector. -/
structure Machine (ι ρ : Type) where
  current : Dialogue ι Value
  frames : List (Frame ι)
  state : Runtime ρ

namespace Machine

def start (q : ι) (s : Runtime ρ) : Machine ι ρ := ⟨.ask q .finish, [], s⟩

def stop (ended : Except Error Value × Runtime ρ) : Machine ι ρ := ⟨.finish ended.1, [], ended.2⟩

variable (opens : Opens ι ρ)

def next : Machine ι ρ → Option (Machine ι ρ)
  | ⟨.finish _, [], _⟩ => none
  | ⟨.finish outcome, frame :: frames, s⟩ =>
    let (outcome, s) := leave frame.key frame.scope (outcome, s)
    some ⟨frame.next outcome, frames, s⟩
  | ⟨.take make next, frames, s⟩ =>
    some ⟨next (make s.born), frames, Dialogue.taken (make s.born) s⟩
  | ⟨.ask question next, frames, s⟩ =>
    match opens question s with
    | (.answered outcome, s) => some ⟨next outcome, frames, s⟩
    | (.delivers key scope body, s) =>
      match arrive key scope s with
      | some outcome => some ⟨next outcome, frames, s⟩
      | none => some ⟨body, ⟨key, scope, next⟩ :: frames, entered key s⟩

def Reaches : Machine ι ρ → Machine ι ρ → Prop := ReflTransGen fun m m' => next opens m = some m'

/-- From a question a machine comes to its end, with an outcome, and at every moment on the way different
keys of a finite set are being resolved, one for each resolution that waits. -/
structure Finishes (q : ι) (s : Runtime ρ) (ended : Except Error Value × Runtime ρ)
    (keys : Finset Key) : Prop where
  ends : Reaches opens (start q s) (stop ended)
  nested : ∀ m, Reaches opens (start q s) m → m.state.active = m.frames.map Frame.key
  distinct : ∀ m, Reaches opens (start q s) m → m.state.active.Nodup
  resolvable : ∀ m, Reaches opens (start q s) m → ∀ key ∈ m.state.active, key ∈ keys
  bounded : ∀ m, Reaches opens (start q s) m → m.frames.length ≤ keys.card

/-- Taking up a question keeps an invariant of what the injector keeps for itself, and changes nothing
else; only certain keys are ever delivered. -/
structure Confined (I : ρ → Prop) (keys : Finset Key) : Prop where
  keeps : ∀ {q s}, I s.own → I (opens q s).2.own
  ownOnly : ∀ q s, Runner.OwnOnly s (opens q s).2
  delivers : ∀ {q s key scope body}, I s.own → (opens q s).1 = .delivers key scope body → key ∈ keys

/-- Different keys are being resolved, one for each frame. -/
structure Upright (I : ρ → Prop) (keys : Finset Key) (m : Machine ι ρ) : Prop where
  nested : m.state.active = m.frames.map Frame.key
  distinct : m.state.active.Nodup
  resolvable : ∀ key ∈ m.state.active, key ∈ keys
  own : I m.state.own

variable {opens} {I : ρ → Prop} {keys : Finset Key}

theorem length_le_card {active : List Key} (distinct : active.Nodup) (inside : ∀ key ∈ active, key ∈ keys) :
    active.length ≤ keys.card := by
  have subset : active.toFinset ⊆ keys := fun key member => inside key (List.mem_toFinset.mp member)
  have count := Finset.card_le_card subset
  rwa [List.toFinset_card_of_nodup distinct] at count

theorem Upright.length_le {m : Machine ι ρ} (upright : Upright I keys m) :
    m.frames.length ≤ keys.card := by
  have count := length_le_card upright.distinct upright.resolvable
  rwa [upright.nested, List.length_map] at count

theorem Upright.of_active {m : Machine ι ρ} (upright : Upright I keys m) (d : Dialogue ι Value)
    {s : Runtime ρ} (active : s.active = m.state.active) (own : I s.own) :
    Upright I keys ⟨d, m.frames, s⟩ := by
  refine ⟨active.trans upright.nested, ?_, ?_, own⟩
  · rw [active]
    exact upright.distinct
  · rw [active]
    exact upright.resolvable

theorem Upright.push {d : Dialogue ι Value} {frames : List (Frame ι)} {s : Runtime ρ}
    (upright : Upright I keys ⟨d, frames, s⟩) {key : Key} (member : key ∈ keys) (fresh : key ∉ s.active)
    (body : Dialogue ι Value) (scope : Scope) (next : Except Error Value → Dialogue ι Value) :
    Upright I keys ⟨body, ⟨key, scope, next⟩ :: frames, entered key s⟩ := by
  refine ⟨congrArg (key :: ·) upright.nested, List.nodup_cons.mpr ⟨fresh, upright.distinct⟩, ?_,
    upright.own⟩
  exact List.forall_mem_cons.mpr ⟨member, upright.resolvable⟩

theorem Upright.pop {frame : Frame ι} {frames : List (Frame ι)} {s : Runtime ρ}
    {outcome : Except Error Value} (upright : Upright I keys ⟨.finish outcome, frame :: frames, s⟩)
    (d : Dialogue ι Value) :
    Upright I keys ⟨d, frames, (leave frame.key frame.scope (outcome, s)).2⟩ := by
  have nested : s.active = frame.key :: frames.map Frame.key := upright.nested
  have after : (leave frame.key frame.scope (outcome, s)).2.active = frames.map Frame.key := by
    rw [active_leave, erase_innermost nested]
  have distinct : s.active.Nodup := upright.distinct
  have resolvable : ∀ key ∈ s.active, key ∈ keys := upright.resolvable
  rw [nested] at distinct resolvable
  refine ⟨after, ?_, ?_, ?_⟩
  · rw [after]
    exact (List.nodup_cons.mp distinct).2
  · rw [after]
    exact (List.forall_mem_cons.mp resolvable).2
  · rw [own_leave]
    exact upright.own

theorem Upright.opened (confined : Confined opens I keys) {m : Machine ι ρ} (upright : Upright I keys m)
    (q : ι) (d : Dialogue ι Value) : Upright I keys ⟨d, m.frames, (opens q m.state).2⟩ := by
  have active : (opens q m.state).2.active = m.state.active := by
    rw [confined.ownOnly q m.state]
  exact upright.of_active d active (confined.keeps upright.own)

theorem upright_next (confined : Confined opens I keys) {m m' : Machine ι ρ} (upright : Upright I keys m)
    (step : next opens m = some m') : Upright I keys m' := by
  obtain ⟨current, frames, s⟩ := m
  cases current with
  | finish outcome =>
    cases frames with
    | nil => cases step
    | cons frame frames =>
      cases step
      exact upright.pop _
  | take make next =>
    cases step
    cases taken : make s.born <;> exact upright.of_active _ rfl upright.own
  | ask question next =>
    have opened := upright.opened confined question
    have delivers := fun key scope body =>
      @Confined.delivers _ _ opens I keys confined question s key scope body upright.own
    simp only [Machine.next] at step
    generalize opens question s = o at step opened delivers
    obtain ⟨outcome | ⟨key, scope, body⟩, t⟩ := o
    · cases step
      exact opened _
    · simp only at step
      cases arrived : arrive key scope t with
      | some outcome =>
        rw [arrived] at step
        cases step
        exact opened _
      | none =>
        rw [arrived] at step
        cases step
        exact (opened (.finish (.ok default))).push (delivers key scope body rfl)
          (not_mem_of_arrive arrived) body scope next

theorem upright_reaches (confined : Confined opens I keys) {m m' : Machine ι ρ}
    (upright : Upright I keys m) (reaches : Reaches opens m m') : Upright I keys m' := by
  induction reaches with
  | refl => exact upright
  | tail _ step ih => exact upright_next confined ih step

def making (answer : Nat → ι → Act (Runtime ρ) Value) : Nat → Dialogue ι Value → Act (Runtime ρ) Value
  | 0, _ => tooDeep
  | depth + 1, body => body.runOn (answer depth)

/-- Answers that nest only so deep, each level making what the machine makes. -/
def Bounded (opens : Opens ι ρ) (answer : Nat → ι → Act (Runtime ρ) Value) : Prop :=
  ∀ depth q s, (answer depth q).runOn s = match opens q s with
    | (.answered outcome, t) => (outcome, t)
    | (.delivers key scope body, t) => (deliver key scope (making answer depth body)).runOn t

theorem reaches_runOn {answer : ι → Act (Runtime ρ) Value} {frames : List (Frame ι)}
    (confined : Confined opens I keys)
    (answers : ∀ q next s, Upright I keys ⟨.ask q next, frames, s⟩ → Reaches opens ⟨.ask q next, frames, s⟩
      ⟨next ((answer q).runOn s).1, frames, ((answer q).runOn s).2⟩)
    (d : Dialogue ι Value) {s : Runtime ρ} (upright : Upright I keys ⟨d, frames, s⟩) :
    Reaches opens ⟨d, frames, s⟩ ⟨.finish (d.runOn answer s).1, frames, (d.runOn answer s).2⟩ := by
  induction d generalizing s with
  | finish outcome => exact .refl
  | take make next ih =>
    have step : Reaches opens ⟨.take make next, frames, s⟩
        ⟨next (make s.born), frames, Dialogue.taken (make s.born) s⟩ := .single rfl
    exact step.trans (ih _ (upright_reaches confined upright step))
  | ask question next ih =>
    have answered := answers question next s upright
    exact answered.trans (ih _ (upright_reaches confined upright answered))

/-- With levels of nesting left for all keys that are not being resolved, a bounded answer is what the
machine comes to. -/
theorem reaches_answer (confined : Confined opens I keys) {answer : Nat → ι → Act (Runtime ρ) Value}
    (bounded : Bounded opens answer) (depth : Nat) (q : ι) (next : Except Error Value → Dialogue ι Value)
    {frames : List (Frame ι)} {s : Runtime ρ} (upright : Upright I keys ⟨.ask q next, frames, s⟩)
    (room : keys.card ≤ depth + frames.length) :
    Reaches opens ⟨.ask q next, frames, s⟩
      ⟨next ((answer depth q).runOn s).1, frames, ((answer depth q).runOn s).2⟩ := by
  induction depth using Nat.strongRecOn generalizing q next frames s with
  | ind depth ih =>
    have step : Machine.next opens ⟨.ask q next, frames, s⟩ = match opens q s with
      | (.answered outcome, s) => some ⟨next outcome, frames, s⟩
      | (.delivers key scope body, s) =>
        match arrive key scope s with
        | some outcome => some ⟨next outcome, frames, s⟩
        | none => some ⟨body, ⟨key, scope, next⟩ :: frames, entered key s⟩ := rfl
    have opened := upright.opened confined q
    have delivers := fun key scope body =>
      @Confined.delivers _ _ opens I keys confined q s key scope body upright.own
    rw [bounded depth q s]
    generalize opens q s = o at step opened delivers
    obtain ⟨outcome | ⟨key, scope, body⟩, t⟩ := o
    · exact .single step
    · simp only [runOn_deliver_eq]
      simp only at step
      cases arrived : arrive key scope t with
      | some outcome =>
        rw [arrived] at step
        exact .single step
      | none =>
        rw [arrived] at step
        have member : key ∈ keys := delivers key scope body rfl
        have pushed : Upright I keys ⟨body, ⟨key, scope, next⟩ :: frames, entered key t⟩ :=
          (opened (.finish (.ok default))).push member (not_mem_of_arrive arrived) body scope next
        have enters : Reaches opens ⟨.ask q next, frames, s⟩
          ⟨body, ⟨key, scope, next⟩ :: frames, entered key t⟩ := .single step
        -- The key pushed is one more of the set, so there is a level left to make its value.
        have deeper : frames.length + 1 ≤ keys.card := pushed.length_le
        obtain ⟨left, rfl⟩ : ∃ left, depth = left + 1 := ⟨depth - 1, by omega⟩
        have room' : keys.card ≤ left + (⟨key, scope, next⟩ :: frames).length := by
          rw [List.length_cons]
          omega
        have held := reaches_runOn confined (fun q next s upright =>
          ih left (Nat.lt_succ_self left) q next upright room') body pushed
        exact enters.trans (held.trans (.single rfl))

theorem finishes (confined : Confined opens I keys) {answer : Nat → ι → Act (Runtime ρ) Value}
    (bounded : Bounded opens answer) {depth : Nat} (room : keys.card ≤ depth) (q : ι) {s : Runtime ρ}
    (idle : s.active = []) (own : I s.own) :
    Finishes opens q s ((answer depth q).runOn s) keys := by
  have upright : Upright I keys (start q s) := by
    refine ⟨idle, ?_, ?_, own⟩
    · exact idle.symm ▸ List.nodup_nil
    · exact idle.symm ▸ nofun
  have ends : Reaches opens (start q s) (stop ((answer depth q).runOn s)) :=
    reaches_answer confined bounded depth q .finish upright room
  have later : ∀ m, Reaches opens (start q s) m → Upright I keys m := fun m =>
    upright_reaches confined upright
  exact ⟨ends, fun m reaches => (later m reaches).nested, fun m reaches => (later m reaches).distinct,
    fun m reaches => (later m reaches).resolvable, fun m reaches => (later m reaches).length_le⟩

end Machine
end Wiring
