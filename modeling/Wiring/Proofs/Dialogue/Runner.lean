import Wiring.Proofs.Dialogue
import Wiring.Runner
import Mathlib.Logic.Relation

/-! # The dialogues of the runner

The runner runs the body of a plan in a dialogue whose questions are operands that name a key and
look-ups of hooks. Each question leads to another resolution, so the resolutions of one request form a
tree, each of them with the state in which it starts.
-/
namespace Wiring.Runner
open Act Wiring.Runtime Relation

variable {σ : Type} [Store σ] (registry : Registry)

/-- A key in the scope of a call, or a look-up of a hook. -/
inductive Question where
  | operand (scope : Scope) (key : Key) (point : Option Point)
  | lookup (key : Key) (point : Option Point)

namespace Question

def key : Question → Key
  | operand _ key _ => key
  | lookup key _ => key

def scope : Question → Option Scope
  | operand scope _ _ => some scope
  | lookup _ _ => none

def point : Question → Option Point
  | operand _ _ point => point
  | lookup _ point => point

end Question

def answer (obtain : Obtain σ) (q : Question) : Run σ Value := obtain q.key q.scope q.point

def Operand.dialogue : Operand → Dialogue Question Value
  | .reference scope key => .ask (.operand scope key none) .finish
  | .deferred scope key point => .ask (.operand scope key (some point)) .finish
  | .literal value => .finish (.ok (.literal value))

def construction (a : Assembly) : Dialogue Question (Class × Object) :=
  Dialogue.assemble registry (fun _ => Operand.dialogue) a.className a.operands (a.calls.map step)
    a.hook

def dialogue (body : Plan.Body) (point : Option Point) : Dialogue Question Value :=
  match body with
  | .construct assembly => construction registry assembly >>= fun made => pure made.2.value
  | .literal value => pure (.literal value)
  | .provide assembly context => construction registry assembly >>= fun made =>
    Dialogue.provide Question.lookup made context point

omit [Store σ] in
theorem performed_evaluate (obtain : Obtain σ) (plan : Plan) (point : Option Point) :
    (dialogue registry plan.body point).Performed (answer obtain)
      (evaluate registry obtain plan point) := by
  have operands : ∀ o, (Operand.dialogue o).Performed (answer obtain) (operand obtain o) := by
    intro o
    cases o with
    | literal value => exact fun _ => rfl
    | reference scope key => exact Dialogue.performed_ask (Question.operand scope key none)
    | deferred scope key point => exact Dialogue.performed_ask (Question.operand scope key (some point))
  have constructed : ∀ a, (construction registry a).Performed (answer obtain)
      (construct registry obtain a) := fun a =>
    Dialogue.performed_assemble (fun _ => operands) registry _ _ _ _
  unfold evaluate dialogue
  cases plan.body with
  | literal value => exact fun _ => rfl
  | construct a => exact (constructed a).bind fun _ _ => rfl
  | provide a context =>
    exact (constructed a).bind fun made => Dialogue.performed_provide (fun key point =>
      Dialogue.performed_ask (Question.lookup key point)) made context point

def Question.Of (operands : List Operand) : Question → Prop
  | .operand scope key none => .reference scope key ∈ operands
  | .operand scope key (some point) => .deferred scope key point ∈ operands
  | .lookup _ _ => True

theorem asksOnly_dialogue (plan : Plan) (point : Option Point) :
    (dialogue registry plan.body point).AsksOnly (Question.Of plan.operands) := by
  have operands : ∀ {all : List Operand}, ∀ o ∈ all,
      (Operand.dialogue o).AsksOnly (Question.Of all) := by
    intro all o member
    cases o with
    | literal value => trivial
    | reference scope key | deferred scope key point => exact ⟨member, fun _ => trivial⟩
  have constructed : ∀ a : Assembly, (construction registry a).AsksOnly (Question.Of a.allOperands) := by
    intro a
    refine Dialogue.asksOnly_assemble registry a.className a.hook
      (fun o member => operands o (List.mem_append_left _ member)) fun call member o inside => ?_
    obtain ⟨made, called, rfl⟩ := List.mem_map.mp member
    exact operands o (List.mem_append_right _ (List.mem_flatMap.mpr ⟨made, called, inside⟩))
  unfold dialogue Plan.operands Plan.assembly?
  cases plan.body with
  | literal value => trivial
  | construct a => exact (constructed a).bind fun _ => trivial
  | provide a context =>
    exact (constructed a).bind fun made =>
      Dialogue.asksOnly_provide (fun _ _ => trivial) made context point

section
variable {registry} {R : Memory σ → Memory σ → Prop} [IsPreorder (Memory σ) R]
  (plans : ∀ key point, (planFor registry key point).Moves (OnOwn R))

include plans

theorem moves_obtain (depth : Nat) (key : Key) (scope : Option Scope) (point : Option Point) :
    (obtain registry depth key scope point).Moves (OnOwn R) := by
  induction depth generalizing key scope point with
  | zero =>
    exact (plans key point).bind fun plan => moves_deliver (moves_of_keeps fun _ => rfl) key _
  | succ depth ih =>
    refine (plans key point).bind fun plan => moves_deliver (fun s => ?_) key _
    rw [performed_evaluate registry (obtain registry depth) plan point s]
    exact Dialogue.moves_runOn Dialogue.own_taken (fun q : Question => ih q.key q.scope q.point) _ s

end

/-- The resolution of a key in a scope, or that of its plan, with so many levels of nesting left. The
point is what it is told of its call site. -/
structure Visit (σ : Type) where
  depth : Nat
  key : Key
  scope : Option Scope
  point : Option Point
  state : State σ

namespace Visit

def ran (v : Visit σ) : Except Error Value × State σ :=
  (obtain registry v.depth v.key v.scope v.point).runOn v.state

/-- The plan that a resolution runs. -/
def Runs (v : Visit σ) (plan : Plan) : Prop :=
  ((planFor registry v.key v.point).runOn v.state).1 = .ok plan

/-- A resolution that runs its plan asks a question and thereby starts another resolution. -/
inductive Makes : Visit σ → Question → Visit σ → Prop
  | mk {depth : Nat} {key : Key} {scope : Option Scope} {point : Option Point} {s t u : State σ}
    {plan : Plan} {q : Question} :
      (planFor registry key point).runOn s = (.ok plan, t) → Open key (scope.getD plan.scope) t →
      key ∉ t.active →
      Dialogue.Asks (answer (obtain registry depth)) q u (dialogue registry plan.body point)
        (entered key t) →
      Makes ⟨depth + 1, key, scope, point, s⟩ q ⟨depth, q.key, q.scope, q.point, u⟩

def Leads : Visit σ → Visit σ → Prop := ReflTransGen fun v w => ∃ q, Makes registry v q w

section
variable {registry} {R : Memory σ → Memory σ → Prop} [IsPreorder (Memory σ) R]
  (plans : ∀ key point, (planFor registry key point).Moves (OnOwn R))
include plans

theorem Makes.own {v w : Visit σ} {q : Question} (makes : Makes registry v q w) :
    R v.state.own w.state.own := by
  cases makes with
  | @mk depth key scope point s t u plan q found _ _ asks =>
    have first : R s.own ((planFor registry key point).runOn s).2.own := plans key point s
    rw [found] at first
    have later : OnOwn R (entered key t) u :=
      asks.moves Dialogue.own_taken fun q : Question => moves_obtain plans depth q.key q.scope q.point
    exact trans_of R first later

theorem Leads.own {v w : Visit σ} (leads : Leads registry v w) : R v.state.own w.state.own := by
  induction leads with
  | refl => exact refl_of R _
  | tail _ makes ih =>
    obtain ⟨q, makes⟩ := makes
    exact trans_of R ih (makes.own plans)

end

end Visit

def Visited (key : Key) (point : Option Point) (s : State σ) : Visit σ → Prop :=
  Visit.Leads registry ⟨runnable registry s, key, none, point, s⟩

end Wiring.Runner
