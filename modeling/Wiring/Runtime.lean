import Wiring.Act
import Wiring.Class

/-! # What injectors share

An injector resolves keys to values. This module holds what does not depend on how a key is looked
up: the objects made so far, the singletons, the stack of keys being resolved, and the assembly of
an object from a constructor call, setter calls and a hook.
-/
namespace Wiring

/-- The state of an injector: the next identity, the singletons, the keys being resolved, innermost
first, and what the injector itself keeps. -/
structure Runtime (ρ : Type) where
  born : Nat
  singletons : SortedMap Key Value
  active : List Key
  own : ρ

namespace Runtime
variable {ρ α : Type}

/-- An injector that has not resolved anything. -/
def start (born : Nat) (own : ρ) : Runtime ρ := ⟨born, SortedMap.empty, [], own⟩

/-- The keys being resolved, outermost first. -/
def path : Act (Runtime ρ) (List Key) := do return (← get).active.reverse

/-- Runs an action while a key counts as being resolved; a key that does already is a cycle. Afterwards the
key is looked for from the innermost one outwards, and where it is found first it is taken out. -/
def within (key : Key) (x : Act (Runtime ρ) α) : Act (Runtime ρ) α := do
  if (← get).active.contains key then throw (.circular ((← path) ++ [key]))
  modify fun s => { s with active := key :: s.active }
  let outcome ← x.attempt
  modify fun s => { s with active := s.active.erase key }
  outcome

def settled (key : Key) (scope : Scope) : Act (Runtime ρ) (Option Value) := do
  match scope with
  | .singleton => return (← get).singletons.get? key
  | .prototype => return none

/-- Keeps the value of a singleton; the first value kept is the one that counts. -/
def keep (key : Key) (scope : Scope) (value : Value) : Act (Runtime ρ) Value := do
  match scope with
  | .prototype => return value
  | .singleton =>
    modify fun s => { s with singletons := s.singletons.insertIfNew key value }
    return ((← get).singletons.get? key).getD value

def deliver (key : Key) (scope : Scope) (make : Act (Runtime ρ) Value) : Act (Runtime ρ) Value := do
  match ← settled key scope with
  | some value => return value
  | none => keep key scope (← within key make)

/-- The end of nesting. It is out of reach, since the stack would hold every key there is to resolve. -/
def tooDeep : Act (Runtime ρ) Value := do throw (.circular (← path))

def begin (registry : Registry) (className : String) (arguments : List Value) :
    Act (Runtime ρ) (Class × Object) := do
  match registry.get? className with
  | none => throw (.unknownClass className)
  | some c =>
    match c.make (← get).born arguments with
    | .error e => throw e
    | .ok object =>
      modify fun s => { s with born := s.born + 1 }
      return (c, object)

structure Step (α : Type) where
  method : String
  arguments : List α
  optional : Bool

def callSetter (eval : α → Act (Runtime ρ) Value) (c : Class) (object : Object) (step : Step α) :
    Act (Runtime ρ) Object := do
  match ← Act.attempt (step.arguments.mapM eval) with
  | .ok arguments => c.invoke object step.method arguments
  | .error e => if e.isUnbound && step.optional then return object else throw e

def assemble (registry : Registry) (eval : α → Act (Runtime ρ) Value) (className : String)
    (arguments : List α) (steps : List (Step α)) (hook : Option String) :
    Act (Runtime ρ) (Class × Object) := do
  let (c, object) ← begin registry className (← arguments.mapM eval)
  let object ← steps.foldlM (callSetter eval c) object
  match hook with
  | none => return (c, object)
  | some method => return (c, ← c.invoke object method [])

def accept : Offer → Act (Runtime ρ) Value
  | .existing value => return value
  | .fresh type className arguments => do
    let object : Object := ⟨(← get).born, type, className, [⟨constructorMethod, arguments, []⟩]⟩
    modify fun s => { s with born := s.born + 1 }
    return object.value

/-- Runs a hook, answering its look-ups; failed look-ups are answers too. -/
def runHook (answer : Key → Option Point → Act (Runtime ρ) Value) : Hook → Act (Runtime ρ) Value
  | .finish (.ok offer) => accept offer
  | .finish (.error e) => throw e
  | .lookup key point next => do
    let outcome ← Act.attempt (answer key point)
    runHook answer (next outcome)

def provide (answer : Key → Option Point → Act (Runtime ρ) Value) (made : Class × Object)
    (context : Option String) (point : Option Point) : Act (Runtime ρ) Value := do
  runHook answer (← made.1.hookOf made.2 context point)

end Runtime
end Wiring
