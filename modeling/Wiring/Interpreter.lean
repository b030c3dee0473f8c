import Wiring.Runtime
import Wiring.Binding

/-! # The interpreter

The interpreter resolves a key by walking its binding. A plain key that no binding covers but that
names a registered class is bound to that class as it is asked for, so the table grows while it runs.
-/
namespace Wiring.Interpreter

abbrev State := Runtime Table

abbrev Run := Act State

variable (registry : Registry)

/-- What a registered class is bound to when its name is asked for. -/
def discovered (signature : Signature) : Binding := .build ⟨signature, .prototype⟩

def bindingFor (key : Key) : Run (Option Binding) := do
  match (← get).own.get? key with
  | some binding => return some binding
  | none =>
    if key.isPlain then
      match registry.signature? key.interface with
      | none => return none
      | some signature =>
        modify fun s => { s with own := s.own.insertIfNew key (discovered signature) }
        return (← get).own.get? key
    else return none

abbrev Resolve := Key → Binding → Option Point → Run Value

/-- The value of a parameter: that of its key, or else its default. -/
def argument (resolve : Resolve) (p : Parameter) : Run Value := do
  match ← bindingFor registry p.key with
  | some binding => resolve p.key binding (some p.point)
  | none =>
    match p.default? with
    | some value => return .literal value
    | none => throw (.unbound p.key (some p.point))

def lookup (resolve : Resolve) (key : Key) (point : Option Point) : Run Value := do
  match ← bindingFor registry key with
  | some binding => resolve key binding point
  | none => throw (.unbound key point)

def step (setter : Setter) : Runtime.Step Parameter :=
  ⟨setter.method, setter.parameters, setter.optional⟩

def instantiate (resolve : Resolve) (signature : Signature) : Run (Class × Object) :=
  Runtime.assemble registry (argument registry resolve) signature.className signature.constructor
    (signature.setters.map step) signature.hook

def realize (resolve : Resolve) (binding : Binding) (point : Option Point) : Run Value := do
  match binding with
  | .build recipe => return (← instantiate registry resolve recipe.signature).2.value
  | .literal value => return .literal value
  | .provided recipe _ context =>
    let made ← instantiate registry resolve recipe.signature
    Runtime.provide (lookup registry resolve) made context point

/-- Resolves a bound key with so many levels of nesting left. -/
def resolve : Nat → Resolve
  | 0, key, binding, _ => Runtime.deliver key binding.scope Runtime.tooDeep
  | depth + 1, key, binding, point =>
    Runtime.deliver key binding.scope (realize registry (resolve depth) binding point)

/-- The number of keys that can ever be bound, which bounds the nesting. -/
def bindable (s : State) : Nat := s.own.size + registry.size

def request (key : Key) (point : Option Point) : Run Value := do
  lookup registry (resolve registry (bindable registry (← get))) key point

end Wiring.Interpreter
