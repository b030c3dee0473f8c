import Wiring.Proofs.Dialogue.Alike
import Wiring.Proofs.Draft
import Mathlib.Logic.Function.Basic
import Mathlib.Logic.Relation

/-! # What keys settle on

Whatever an interpreter has done before, a key settles on one outcome, up to identities. It is found by
holding the dialogue of its binding with every question answered by what its own key settles on; nothing
is kept, and a singleton that comes up again is made again with the same names. A key that needs itself
settles on nothing, and the path by which it needs itself is always found in the same way.
-/
namespace Wiring

def Error.Circular (e : Error) : Prop := ∃ path, e = .circular path

namespace Interpreter
open Relation

/-- Classes with pure functions, whose providers do not care who asks and pass on that a key needs
itself; a configured table; and names for the objects made. -/
structure Grounds where
  registry : Registry
  table : Table
  naming : Draft.Naming
  old : Nat
  /-- Names do not repeat. -/
  injective : ∀ {o n o' n'}, naming o n = naming o' n' → o = o' ∧ n = n'
  /-- Names are none of the old identities. -/
  above : ∀ o n, old ≤ naming o n
  purity : registry.Pure old
  blind : registry.Blind
  passes : registry.Passes Error.Circular

namespace Grounds
variable (g : Grounds)

def known (key : Key) : Option Binding := Interpreter.known g.registry g.table key

def dialogue (binding : Binding) : Dialogue Question Value :=
  Interpreter.dialogue g.registry binding none

/-- The name of an object that is made for the key in question. -/
def passing (n : Nat) : Nat := g.naming none n

/-- The name of an object that is made for a singleton. -/
def lasting (key : Key) (n : Nat) : Nat := g.naming (some key) n

/-- How the objects of a delivered key are called by its user, who has named so many. -/
def delivered (scope : Scope) (key : Key) (n m : Nat) : Nat :=
  match scope with
  | .prototype => g.passing (n + m)
  | .singleton => g.lasting key m

noncomputable def carry (scope : Scope) (key : Key) (n : Nat) : Nat → Nat :=
  Function.extend g.passing (g.delivered scope key n) id

noncomputable def carried (scope : Scope) (key : Key) (n : Nat) (outcome : Except Error Value) :
    Except Error Value :=
  outcome.map (Value.rename (g.carry scope key n))

theorem passing_injective : Function.Injective g.passing := fun _ _ same => (g.injective same).2

theorem lasting_ne_passing (key : Key) (n m : Nat) : g.lasting key n ≠ g.passing m := fun same =>
  nomatch (g.injective same).1

theorem carry_passing (scope : Scope) (key : Key) (n m : Nat) :
    g.carry scope key n (g.passing m) = g.delivered scope key n m :=
  g.passing_injective.extend_apply _ _ m

theorem carry_of_settled {i : Nat} (settled : ∀ m, i ≠ g.passing m) (scope : Scope) (key : Key)
    (n : Nat) : g.carry scope key n i = i :=
  Function.extend_apply' _ _ _ fun ⟨m, same⟩ => settled m same.symm

/-- A dialogue in which so many objects have been named settles on an outcome, with so many named. -/
inductive Settles : Dialogue Question Value → Nat → Except Error Value → Nat → Prop
  | finish {outcome : Except Error Value} {n : Nat} : Settles (.finish outcome) n outcome n
  | take {make : Nat → Except Error Object} {next : Except Error Object → Dialogue Question Value}
    {n : Nat} {outcome : Except Error Value} {m : Nat} :
      Settles (next (make (g.passing n))) (n + 1) outcome m → Settles (.take make next) n outcome m
  | unknown {q : Question} {next : Except Error Value → Dialogue Question Value} {n : Nat}
    {outcome : Except Error Value} {m : Nat} : g.known q.key = none →
      Settles (next q.fallback) n outcome m → Settles (.ask q next) n outcome m
  | known {q : Question} {next : Except Error Value → Dialogue Question Value} {n : Nat}
    {binding : Binding} {found : Except Error Value} {k : Nat} {outcome : Except Error Value} {m : Nat} :
      g.known q.key = some binding → Settles (g.dialogue binding) 0 found k →
      Settles (next (g.carried binding.scope q.key n found)) (n + k) outcome m →
      Settles (.ask q next) n outcome m

inductive Step : Dialogue Question Value → Nat → Dialogue Question Value → Nat → Prop
  | take {make : Nat → Except Error Object} {next : Except Error Object → Dialogue Question Value}
    {n : Nat} : Step (.take make next) n (next (make (g.passing n))) (n + 1)
  | unknown {q : Question} {next : Except Error Value → Dialogue Question Value} {n : Nat} :
      g.known q.key = none → Step (.ask q next) n (next q.fallback) n
  | known {q : Question} {next : Except Error Value → Dialogue Question Value} {n : Nat}
    {binding : Binding} {found : Except Error Value} {k : Nat} : g.known q.key = some binding →
      g.Settles (g.dialogue binding) 0 found k →
      Step (.ask q next) n (next (g.carried binding.scope q.key n found)) (n + k)

/-- A key settles on an outcome, with so many objects of its own. -/
def SettlesOn (key : Key) (outcome : Except Error Value) (m : Nat) : Prop :=
  ∃ binding, g.known key = some binding ∧ g.Settles (g.dialogue binding) 0 outcome m

inductive Meets (key : Key) : Dialogue Question Value → Nat → Prop
  | here {q : Question} {next : Except Error Value → Dialogue Question Value} {n : Nat}
    {binding : Binding} : g.known q.key = some binding → q.key = key → Meets key (.ask q next) n
  | step {d d' : Dialogue Question Value} {n n' : Nat} :
      g.Step d n d' n' → Meets key d' n' → Meets key d n

/-- Settling a dialogue comes to a halt at a key that can be bound but settles on nothing. -/
inductive Halts (key : Key) : Dialogue Question Value → Nat → Prop
  | here {q : Question} {next : Except Error Value → Dialogue Question Value} {n : Nat}
    {binding : Binding} : g.known q.key = some binding → q.key = key →
      (¬ ∃ outcome m, g.SettlesOn key outcome m) → Halts key (.ask q next) n
  | step {d d' : Dialogue Question Value} {n n' : Nat} :
      g.Step d n d' n' → Halts key d' n' → Halts key d n

variable {g} {d d' : Dialogue Question Value} {n n' m m' k : Nat} {outcome outcome' : Except Error Value}
  {key key' : Key}

theorem Settles.step (step : g.Step d n d' n') (h : g.Settles d' n' outcome m) :
    g.Settles d n outcome m := by
  cases step with
  | take => exact .take h
  | unknown absent => exact .unknown absent h
  | known bound settles => exact .known bound settles h

theorem Settles.unique (h : g.Settles d n outcome m) (h' : g.Settles d n outcome' m') :
    outcome = outcome' ∧ m = m' := by
  induction h generalizing outcome' m' with
  | finish =>
    cases h'
    exact ⟨rfl, rfl⟩
  | take _ ih =>
    cases h' with
    | take h' => exact ih h'
  | unknown absent _ ih =>
    cases h' with
    | unknown _ h' => exact ih h'
    | known bound _ _ => exact absurd (bound.symm.trans absent) nofun
  | known bound _ _ ihFound ih =>
    cases h' with
    | unknown absent _ => exact absurd (bound.symm.trans absent) nofun
    | known bound' settles' h' =>
      obtain rfl := Option.some.inj (bound.symm.trans bound')
      obtain ⟨rfl, rfl⟩ := ihFound settles'
      exact ih h'

theorem SettlesOn.unique (h : g.SettlesOn key outcome m) (h' : g.SettlesOn key outcome' m') :
    outcome = outcome' ∧ m = m' := by
  obtain ⟨binding, bound, settles⟩ := h
  obtain ⟨binding', bound', settles'⟩ := h'
  obtain rfl := Option.some.inj (bound.symm.trans bound')
  exact settles.unique settles'

theorem Step.unique {d'' : Dialogue Question Value} {n'' : Nat} (h : g.Step d n d' n')
    (h' : g.Step d n d'' n'') : d' = d'' ∧ n' = n'' := by
  cases h with
  | take =>
    cases h'
    exact ⟨rfl, rfl⟩
  | unknown absent =>
    cases h' with
    | unknown _ => exact ⟨rfl, rfl⟩
    | known bound _ => exact absurd (bound.symm.trans absent) nofun
  | known bound settles =>
    cases h' with
    | unknown absent => exact absurd (bound.symm.trans absent) nofun
    | known bound' settles' =>
      obtain rfl := Option.some.inj (bound.symm.trans bound')
      obtain ⟨rfl, rfl⟩ := settles.unique settles'
      exact ⟨rfl, rfl⟩

theorem Settles.of_step (h : g.Settles d n outcome m) (taken : g.Step d n d' n') :
    g.Settles d' n' outcome m := by
  cases h with
  | finish => cases taken
  | take rest =>
    obtain ⟨rfl, rfl⟩ := taken.unique .take
    exact rest
  | unknown absent rest =>
    obtain ⟨rfl, rfl⟩ := taken.unique (.unknown absent)
    exact rest
  | known bound settles rest =>
    obtain ⟨rfl, rfl⟩ := taken.unique (.known bound settles)
    exact rest

theorem Step.settlesOn {q : Question} {next : Except Error Value → Dialogue Question Value}
    {binding : Binding} (h : g.Step (.ask q next) n d' n') (bound : g.known q.key = some binding) :
    ∃ found k, g.SettlesOn q.key found k := by
  cases h with
  | unknown absent => exact absurd (bound.symm.trans absent) nofun
  | known bound settles => exact ⟨_, _, _, bound, settles⟩

theorem Halts.unique (h : g.Halts key d n) (h' : g.Halts key' d n) : key = key' := by
  induction h with
  | here bound named unsettled =>
    cases h' with
    | here _ named' _ => exact named.symm.trans named'
    | step taken _ =>
      subst named
      exact absurd (taken.settlesOn bound) unsettled
  | step taken _ ih =>
    cases h' with
    | here bound named unsettled =>
      subst named
      exact absurd (taken.settlesOn bound) unsettled
    | step taken' h' =>
      obtain ⟨rfl, rfl⟩ := taken.unique taken'
      exact ih h'

theorem Halts.not_settles (h : g.Halts key d n) : ¬ g.Settles d n outcome m := by
  induction h generalizing outcome m with
  | here bound named unsettled =>
    intro settles
    subst named
    cases settles with
    | unknown absent _ => exact absurd (bound.symm.trans absent) nofun
    | known bound settles _ => exact unsettled ⟨_, _, _, bound, settles⟩
  | step taken _ ih => exact fun settles => ih (settles.of_step taken)

theorem Halts.meets (h : g.Halts key d n) : g.Meets key d n := by
  induction h with
  | here bound named _ => exact .here bound named
  | step taken _ ih => exact .step taken ih

variable (g) in
/-- A key needs the keys that its binding asks for on the way to its outcome, or as far as it gets. -/
def Needs (needed user : Key) : Prop :=
  ∃ binding, g.known user = some binding ∧ g.Meets needed (g.dialogue binding) 0

theorem acc_of_meets (h : g.Settles d n outcome m) (meets : g.Meets key d n) : Acc g.Needs key := by
  -- On how it settles, since a key is accessible by how the keys that it needs settle in turn.
  induction h generalizing key with
  | finish =>
    cases meets with
    | step taken _ => cases taken
  | take _ ih =>
    cases meets with
    | step taken meets =>
      obtain ⟨rfl, rfl⟩ := taken.unique .take
      exact ih meets
  | unknown absent _ ih =>
    cases meets with
    | here bound _ => exact absurd (bound.symm.trans absent) nofun
    | step taken meets =>
      obtain ⟨rfl, rfl⟩ := taken.unique (.unknown absent)
      exact ih meets
  | known bound settles _ ihFound ih =>
    cases meets with
    | here _ named =>
      subst named
      refine .intro _ fun needed ⟨binding', bound', meets'⟩ => ?_
      obtain rfl := Option.some.inj (bound.symm.trans bound')
      exact ihFound meets'
    | step taken meets =>
      obtain ⟨rfl, rfl⟩ := taken.unique (.known bound settles)
      exact ih meets

theorem SettlesOn.not_needs_self (h : g.SettlesOn key outcome m) : ¬ TransGen g.Needs key key := by
  obtain ⟨binding, bound, settles⟩ := h
  refine not_transGen_self (.intro _ fun needed ⟨binding', bound', meets⟩ => ?_)
  obtain rfl := Option.some.inj (bound.symm.trans bound')
  exact acc_of_meets settles meets

variable (g) in
/-- From a key that settles on nothing, while some keys are being resolved, the first unsettled
questions lead to a key on the way. -/
inductive Circle : List Key → Key → List Key → Prop
  | closes {active : List Key} {key : Key} : key ∈ active → Circle active key (active.reverse ++ [key])
  | enters {active : List Key} {key needed : Key} {binding : Binding} {path : List Key} :
      key ∉ active → g.known key = some binding → g.Halts needed (g.dialogue binding) 0 →
      Circle (key :: active) needed path → Circle active key path

theorem Circle.unique {active path path' : List Key} (h : g.Circle active key path)
    (h' : g.Circle active key path') : path = path' := by
  induction h with
  | closes member =>
    cases h' with
    | closes _ => rfl
    | enters fresh _ _ _ => exact absurd member fresh
  | enters fresh bound halts _ ih =>
    cases h' with
    | closes member => exact absurd member fresh
    | enters _ bound' halts' rest =>
      obtain rfl := Option.some.inj (bound.symm.trans bound')
      obtain rfl := halts.unique halts'
      exact ih rest

end Grounds
end Interpreter
end Wiring
