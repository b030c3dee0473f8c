import Wiring.Proofs.Dialogue
import Wiring.Proofs.Interpreter
import Mathlib.Logic.Relation

/-! # The dialogues of the interpreter

The interpreter makes what a binding stands for in a dialogue whose questions are parameters and
look-ups of hooks. A question about a key that something can bind leads to another resolution, so the
resolutions of one request form a tree, each of them with the state in which it starts.
-/
namespace Wiring.Interpreter
open Wiring.Runtime Relation

variable (registry : Registry)

/-- A parameter, maybe of an optional setter, or a look-up of a hook. -/
inductive Question where
  | argument (optional : Bool) (parameter : Parameter)
  | lookup (key : Key) (point : Option Point)

namespace Question

def key : Question → Key
  | argument _ p => p.key
  | lookup key _ => key

def point : Question → Option Point
  | argument _ p => some p.point
  | lookup _ point => point

def fallback : Question → Except Error Value
  | argument _ p => match p.default? with
    | some value => .ok (.literal value)
    | none => .error (.unbound p.key (some p.point))
  | lookup key point => .error (.unbound key point)

end Question

def answer (resolve : Resolve) : Question → Run Value
  | .argument _ p => argument registry resolve p
  | .lookup key point => lookup registry resolve key point

theorem runOn_answer (resolve : Resolve) (q : Question) (s : State) :
    (answer registry resolve q).runOn s = match known registry s.own q.key with
      | some binding =>
        (resolve q.key binding q.point).runOn { s with own := learn registry s.own q.key }
      | none => (q.fallback, s) := by
  cases q with
  | lookup key point => exact runOn_lookup resolve key point s
  | argument optional p =>
    simp only [answer, argument, Act.runOn_bind, runOn_bindingFor]
    cases found : known registry s.own p.key with
    | some binding => simp only [Question.key, Question.point, found]
    | none =>
      have same : learn registry s.own p.key = s.own := by simp only [learn, found]
      simp only [same, Question.key, Question.fallback, found]
      cases p.default? <;> rfl

variable {registry} in
theorem grows_answer {resolve : Resolve}
    (resolves : ∀ key binding point, (resolve key binding point).Moves (OnOwn (Grows registry)))
    (q : Question) : (answer registry resolve q).Moves (OnOwn (Grows registry)) := by
  cases q with
  | argument optional p => exact moves_argument resolves p
  | lookup key point => exact moves_lookup resolves key point

def instantiation (signature : Signature) : Dialogue Question (Class × Object) :=
  Dialogue.assemble registry (fun optional p => .ask (.argument optional p) .finish)
    signature.className signature.constructor (signature.setters.map step) signature.hook

def dialogue (binding : Binding) (point : Option Point) : Dialogue Question Value :=
  match binding with
  | .build recipe => instantiation registry recipe.signature >>= fun made => pure made.2.value
  | .literal value => pure (.literal value)
  | .provided recipe _ context => instantiation registry recipe.signature >>= fun made =>
    Dialogue.provide Question.lookup made context point

theorem performed_realize (resolve : Resolve) (binding : Binding) (point : Option Point) :
    (dialogue registry binding point).Performed (answer registry resolve)
      (realize registry resolve binding point) := by
  have argued : ∀ optional p, (Dialogue.ask (Question.argument optional p) .finish).Performed
      (answer registry resolve) (argument registry resolve p) := fun optional p =>
    Dialogue.performed_ask (Question.argument optional p)
  have instantiated : ∀ signature, (instantiation registry signature).Performed
      (answer registry resolve) (instantiate registry resolve signature) := fun signature =>
    Dialogue.performed_assemble argued registry _ _ _ _
  cases binding with
  | literal value => exact fun _ => rfl
  | build recipe => exact (instantiated recipe.signature).bind fun _ _ => rfl
  | provided recipe scope context =>
    exact (instantiated recipe.signature).bind fun made =>
      Dialogue.performed_provide (fun key point => Dialogue.performed_ask
        (Question.lookup key point)) made context point

/-- The errors of answers with which a resolution ends: all but those of arguments that an optional
setter can do without, and of look-ups only those that every hook passes on. -/
def Ends (passes : Error → Prop) : Question → Error → Prop
  | .argument optional _, e => (e.isUnbound && optional) = false
  | .lookup _ _, e => passes e

theorem candid_dialogue {passes : Error → Prop} (all : registry.Passes passes) (binding : Binding)
    (point : Option Point) : (dialogue registry binding point).Candid (Ends passes) := by
  have candid : ∀ signature, (instantiation registry signature).Candid (Ends passes) := fun _ =>
    Dialogue.candid_assemble (fun _ _ _ h => h) registry _ _ _ _
  cases binding with
  | literal value => trivial
  | build recipe => exact (candid recipe.signature).bind (Dialogue.yields_any _) fun _ _ => trivial
  | provided recipe scope context =>
    refine (candid recipe.signature).bind (Dialogue.yields_assemble registry _ _ _ _ _) ?_
    rintro made ⟨name, found⟩
    have ending : ∀ key point e, Ends passes (Question.lookup key point) e → passes e := fun _ _ _ h => h
    exact Dialogue.candid_provide ending all found context point

/-- The resolution of a bound key on behalf of a point, with so many levels of nesting left. -/
structure Visit where
  depth : Nat
  key : Key
  binding : Binding
  point : Option Point
  state : State

namespace Visit

def ran (v : Visit) : Except Error Value × State :=
  (resolve registry v.depth v.key v.binding v.point).runOn v.state

/-- A resolution that makes its value asks a question and thereby starts another resolution. -/
inductive Makes : Visit → Question → Visit → Prop
  | mk {depth : Nat} {key : Key} {binding : Binding} {point : Option Point} {s : State}
    {q : Question} {u : State} {found : Binding} : Open key binding.scope s → key ∉ s.active →
      Dialogue.Asks (answer registry (resolve registry depth)) q u (dialogue registry binding point)
        (entered key s) →
      known registry u.own q.key = some found →
      Makes ⟨depth + 1, key, binding, point, s⟩ q
        ⟨depth, q.key, found, q.point, { u with own := learn registry u.own q.key }⟩

def Leads : Visit → Visit → Prop := ReflTransGen fun v w => ∃ q, Makes registry v q w

variable {registry}

theorem Makes.ran_eq {v w : Visit} {q : Question} (makes : Makes registry v q w) :
    ∃ depth u, v.depth = depth + 1 ∧ Open v.key v.binding.scope v.state ∧ v.key ∉ v.state.active ∧
      Dialogue.Asks (answer registry (resolve registry depth)) q u
        (dialogue registry v.binding v.point) (entered v.key v.state) ∧
      w.state = { u with own := learn registry u.own q.key } ∧ w.key = q.key ∧
      known registry u.own q.key = some w.binding ∧
      (answer registry (resolve registry depth) q).runOn u = w.ran registry := by
  cases makes with
  | mk isOpen fresh asks known =>
    refine ⟨_, _, rfl, isOpen, fresh, asks, rfl, rfl, known, ?_⟩
    rw [runOn_answer, known]
    rfl

end Visit

def outermost (key : Key) (binding : Binding) (point : Option Point) (s : State) : Visit :=
  ⟨bindable registry s, key, binding, point, { s with own := learn registry s.own key }⟩

def Visited (key : Key) (point : Option Point) (s : State) (w : Visit) : Prop :=
  ∃ binding, known registry s.own key = some binding ∧
    Visit.Leads registry (outermost registry key binding point s) w

variable {registry}

theorem runOn_request (key : Key) (point : Option Point) (s : State) :
    (request registry key point).runOn s = match known registry s.own key with
      | some binding => (outermost registry key binding point s).ran registry
      | none => (.error (.unbound key point), s) :=
  runOn_lookup (resolve registry (bindable registry s)) key point s

end Wiring.Interpreter
