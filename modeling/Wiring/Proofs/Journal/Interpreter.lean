import Wiring.Proofs.Journal.Nesting
import Wiring.Proofs.Termination

/-! # The journal of the interpreter

What an interpreter does for a key is what the binding of the key says: the binding that is known from the
start, in the table or by the class that a plain key names.
-/
namespace Wiring.Interpreter
open Wiring.Runtime

variable (registry : Registry)

/-- The answer if nothing can bind the key. -/
def Question.default : Question → Except Error Json
  | argument _ p => match p.default? with
    | some value => .ok value
    | none => .error (.unbound p.key (some p.point))
  | lookup key point => .error (.unbound key point)

theorem Question.fallback_eq (q : Question) : q.fallback = q.default.map .literal := by
  cases q with
  | argument optional p =>
    simp only [fallback, Question.default]
    cases p.default? <;> rfl
  | lookup key point => rfl

def blueprint (signature : Signature) : Blueprint Question :=
  .ofAssembly (fun optional p => .question (.argument optional p)) signature.className signature.constructor
    (signature.setters.map step) signature.hook

def job : Binding → Job Question
  | .build recipe => .build (blueprint recipe.signature)
  | .literal value => .literal value
  | .provided recipe _ context => .provide (blueprint recipe.signature) context

def finder : Finder Question Table where
  registry := registry
  lookup := .lookup
  key := Question.key
  point := Question.point
  find q s := match known registry s.own q.key with
    | some binding => (.does binding.scope (job binding), { s with own := learn registry s.own q.key })
    | none => (.answered q.default, s)

theorem dialogue_finder (binding : Binding) (point : Option Point) :
    (finder registry).dialogue (job binding) point = dialogue registry binding point := by
  cases binding with
  | literal value => rfl
  | build recipe | provided recipe scope context =>
    simp only [Finder.dialogue, job, blueprint, Blueprint.dialogue_ofAssembly]
    rfl

theorem opens_finder : (finder registry).opens = opens registry := by
  funext q s
  simp only [Finder.opens, finder, opens]
  cases known registry s.own q.key with
  | none => simp only [Question.fallback_eq]
  | some binding =>
    exact congrArg (fun body => (Opening.delivers _ _ body, _)) (dialogue_finder registry binding _)

def injector : Injector Question Table where
  __ := finder registry
  answer depth := answer registry (resolve registry depth)
  bound := bindable registry
  bounded := by
    rw [opens_finder]
    exact bounded_answer

/-- What is done for a key is what its binding says. -/
def Law (table : Table) (key : Key) (scope : Scope) (work : Job Question) : Prop :=
  ∃ binding, known registry table key = some binding ∧ scope = binding.scope ∧ work = job binding

theorem lawful_injector :
    (injector registry).Lawful (fun _ => True) (Grows registry) (Law registry) where
  keeps _ := trivial
  moves q s := by
    simp only [injector, finder]
    cases known registry s.own q.key with
    | none => exact refl_of (Grows registry) s.own
    | some binding => exact grows_learn s.own q.key
  ownOnly q s := by
    simp only [injector, finder]
    cases known registry s.own q.key <;> rfl
  stable grows law := by
    obtain ⟨binding, found, same⟩ := law
    exact ⟨binding, (grows.known_eq _).trans found, same⟩
  sole law law' := by
    obtain ⟨binding, found, -, rfl⟩ := law
    obtain ⟨binding', found', -, rfl⟩ := law'
    cases found.symm.trans found'
    rfl
  found {q s scope work t} _ found := by
    simp only [injector, finder] at found
    cases bound : known registry s.own q.key with
    | none =>
      rw [bound] at found
      cases found
    | some binding =>
      rw [bound] at found
      cases found
      exact ⟨binding, ((grows_learn s.own q.key).known_eq q.key).trans bound, rfl, rfl⟩
  certain {q s scope work outcome t} law found := by
    obtain ⟨binding, bound, -⟩ := law
    simp only [injector, finder] at bound found
    rw [bound] at found
    cases found

def errand (asked : Key × Option Point) : Errand Question Table := ⟨id, .lookup asked.1 asked.2⟩

theorem serve_errand (asked : Key × Option Point) (s : State) :
    (injector registry).serve (errand asked) s = (request registry asked.1 asked.2).runOn s := rfl

theorem harmless_errands (requests : List (Key × Option Point)) :
    ∀ e ∈ requests.map errand, e.Harmless (fun _ => True) (Grows registry) := by
  rw [List.forall_mem_map]
  exact fun _ _ table _ => ⟨trivial, refl_of (Grows registry) table⟩

theorem room_injector (s : State) : ∃ (opened : Table → Prop) (keys : Finset Key),
    Machine.Confined (injector registry).opens opened keys ∧ opened s.own ∧
      keys.card ≤ (injector registry).bound s := by
  refine ⟨Grows registry s.own, resolvable registry s.own, ?_, refl_of (Grows registry) s.own,
    card_resolvable_le s⟩
  change Machine.Confined (finder registry).opens _ _
  rw [opens_finder]
  exact confined_opens s.own

end Wiring.Interpreter
