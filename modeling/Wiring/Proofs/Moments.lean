import Wiring.Proofs.Journal
import Mathlib.Data.List.Chain

/-! # The moments of a run

At a moment of a run a question is asked. If a value is to be made for its key, what is asked meanwhile is
asked at later moments, each with one level of nesting less, and so on inwards. So what taking up questions
keeps is there at every moment.
-/
namespace Wiring
open Act Wiring.Runtime

variable {ι ρ : Type}

/-- A question that is asked, with so many levels of nesting left, in a state of the injector. -/
structure Moment (ι ρ : Type) where
  depth : Nat
  question : ι
  state : Runtime ρ

namespace Injector
variable (I : Injector ι ρ)

def keyAt (m : Moment ι ρ) : Key := I.key m.question

def outcome (m : Moment ι ρ) : Except Error Value := ((I.answer m.depth m.question).runOn m.state).1

structure Due (m : Moment ι ρ) (scope : Scope) (job : Job ι) (t : Runtime ρ) : Prop where
  found : I.find m.question m.state = (.does scope job, t)
  vacant : held (I.keyAt m) scope t = none

/-- A value is made for the key, by a job that starts in a state in which the key is being resolved. -/
structure Makes (m : Moment ι ρ) (depth : Nat) (job : Job ι) (started : Runtime ρ) : Prop where
  deeper : m.depth = depth + 1
  due : ∃ scope t, I.Due m scope job t ∧ I.keyAt m ∉ t.active ∧ started = entered (I.keyAt m) t

/-- While a value is made at one moment, the question of another one is asked directly. -/
def Nests (m m' : Moment ι ρ) : Prop :=
  ∃ job started, I.Makes m m'.depth job started ∧
    Dialogue.Asks (I.answer m'.depth) m'.question m'.state (I.dialogue job (I.point m.question)) started

/-- The moment at which a request is made. -/
def first (errand : Errand ι ρ) (s : Runtime ρ) : Moment ι ρ :=
  let t := { s with own := errand.meanwhile s.own }
  ⟨I.bound t, errand.question, t⟩

/-- The moments of a run, each with those at which the values are made that it is for, outermost first. -/
inductive Way (errands : List (Errand ι ρ)) (s : Runtime ρ) : List (Moment ι ρ) → Moment ι ρ → Prop
  | request {earlier errand rest} : errands = earlier ++ errand :: rest →
    Way errands s [] (I.first errand (I.after earlier s))
  | nests {users m m'} : Way errands s users m → I.Nests m m' → Way errands s (users ++ [m]) m'

variable {I}

theorem Way.head (errand : Errand ι ρ) (rest : List (Errand ι ρ)) (s : Runtime ρ) :
    I.Way (errand :: rest) s [] (I.first errand s) := .request (List.nil_append _).symm

section
variable {errands : List (Errand ι ρ)} {s : Runtime ρ} {users : List (Moment ι ρ)} {m : Moment ι ρ}
  (way : I.Way errands s users m)
include way

theorem Way.nest {depth : Nat} {scope : Scope} {job : Job ι} {t : Runtime ρ} (deeper : m.depth = depth + 1)
    (due : I.Due m scope job t) (absent : I.keyAt m ∉ t.active) {q : ι} {u : Runtime ρ}
    (asks : Dialogue.Asks (I.answer depth) q u (I.dialogue job (I.point m.question)) (entered (I.keyAt m) t)) :
    I.Way errands s (users ++ [m]) ⟨depth, q, u⟩ :=
  .nests way ⟨job, _, ⟨deeper, scope, t, due, absent, rfl⟩, asks⟩

theorem Way.isChain : (users ++ [m]).IsChain I.Nests := by
  induction way with
  | request _ => exact .singleton _
  | @nests users m m' _ nests ih =>
    rw [List.append_assoc, List.singleton_append, List.isChain_split]
    exact ⟨ih, List.isChain_pair.mpr nests⟩

end

theorem moves_answer {R : ρ → ρ → Prop} [IsPreorder ρ R] (finds : ∀ q s, R s.own (I.find q s).2.own)
    (depth : Nat) (q : ι) : (I.answer depth q).Moves (OnOwn R) := by
  have takenUp : ∀ depth, (∀ body, (Machine.making I.answer depth body).Moves (OnOwn R)) →
      ∀ q, (I.answer depth q).Moves (OnOwn R) := by
    intro depth makes q s
    have moved : OnOwn R s (I.find q s).2 := finds q s
    rw [I.bounded depth q s, Finder.opens]
    generalize I.find q s = found at moved
    obtain ⟨outcome | ⟨scope, job⟩, t⟩ := found
    · exact moved
    · exact trans_of (OnOwn R) moved (moves_deliver (makes _) (I.key q) scope t)
  induction depth generalizing q with
  | zero => exact takenUp 0 (fun _ => moves_of_own fun _ => rfl) q
  | succ depth ih => exact takenUp (depth + 1) (Dialogue.moves_runOn Dialogue.own_taken ih) q

section
variable {P : ρ → Prop} (finds : ∀ q s, P s.own → P (I.find q s).2.own)
include finds

theorem kept_answer (depth : Nat) (q : ι) {s : Runtime ρ} (start : P s.own) :
    P ((I.answer depth q).runOn s).2.own :=
  moves_answer (R := Preserves P) finds depth q s start

theorem kept_after {errands : List (Errand ι ρ)} (meanwhile : ∀ errand ∈ errands, ∀ own, P own →
    P (errand.meanwhile own)) {s : Runtime ρ} (start : P s.own) : P (I.after errands s).own := by
  induction errands generalizing s with
  | nil => exact start
  | cons errand rest ih =>
    obtain ⟨first, later⟩ := List.forall_mem_cons.mp meanwhile
    exact ih later (kept_answer finds _ _ (first s.own start))

omit finds in
theorem kept_first {errand : Errand ι ρ} (meanwhile : ∀ own, P own → P (errand.meanwhile own))
    {s : Runtime ρ} (start : P s.own) : P (I.first errand s).state.own := meanwhile s.own start

theorem Makes.kept {m : Moment ι ρ} {depth : Nat} {job : Job ι} {started : Runtime ρ}
    (makes : I.Makes m depth job started) (here : P m.state.own) : P started.own := by
  obtain ⟨scope, t, due, -, rfl⟩ := makes.due
  have kept := finds m.question m.state here
  rw [due.found] at kept
  exact kept

theorem Nests.kept {m m' : Moment ι ρ} (nests : I.Nests m m') (here : P m.state.own) :
    P m'.state.own := by
  obtain ⟨job, started, makes, asks⟩ := nests
  have moved : OnOwn (Preserves P) started m'.state :=
    asks.moves Dialogue.own_taken (moves_answer finds m'.depth)
  exact moved (makes.kept finds here)

theorem Way.kept {errands : List (Errand ι ρ)} (meanwhile : ∀ errand ∈ errands, ∀ own, P own →
    P (errand.meanwhile own)) {s : Runtime ρ} (start : P s.own) {users : List (Moment ι ρ)}
    {m : Moment ι ρ} (way : I.Way errands s users m) : P m.state.own := by
  induction way with
  | @request earlier errand rest same =>
    subst same
    obtain ⟨before, others⟩ := List.forall_mem_append.mp meanwhile
    exact kept_first (others errand List.mem_cons_self) (kept_after finds before start)
  | nests _ nests ih => exact nests.kept finds ih

end

end Injector
end Wiring
