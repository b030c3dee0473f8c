import Wiring.Act
import Wiring.Plan

/-! # Compiling a binding

An argument whose key the table binds becomes a reference in the scope of that binding. Any other
argument is left to the running injector if that knows a scope for the key, and is else its default;
without a default it is unbound. A setter is compiled with all its arguments or not at all.
-/
namespace Wiring.Compile

/-- What the compiler may ask of the injector it works for: nothing, or the scope of a key that the
injector has a plan for. -/
inductive Capability (σ : Type) where
  | interpreted
  | compiling (scopeOf : Key → StateM σ (Option Scope))

variable {σ : Type} (capability : Capability σ)

namespace Capability

def scopeOf (key : Key) : Capability σ → StateM σ (Option Scope)
  | .interpreted => return none
  | .compiling query => query key

def text : Capability σ → String
  | .interpreted => "Interpreted"
  | .compiling _ => "Compiling(..)"

end Capability

/-- The operand of an argument that the table does not bind. -/
def fallback (p : Parameter) : Act σ Operand := do
  match ← liftM (capability.scopeOf p.key) with
  | some scope => return .deferred scope p.key p.point
  | none =>
    match p.default? with
    | some value => return .literal value
    | none => throw (.unbound p.key (some p.point))

variable (table : Table)

def operand (p : Parameter) : Act σ Operand := do
  match table.get? p.key with
  | some binding => return .reference binding.scope p.key
  | none => fallback capability p

def operands (parameters : List Parameter) : Act σ (List Operand) :=
  parameters.mapM (operand capability table)

/-- The call of a setter; an optional setter with an unbound argument has none. -/
def call? (setter : Setter) : Act σ (Option Call) := do
  match ← Act.attempt (operands capability table setter.parameters) with
  | .ok found => return some ⟨setter.method, found⟩
  | .error e => if e.isUnbound && setter.optional then return none else throw e

def calls : List Setter → Act σ (List Call)
  | [] => return []
  | setter :: rest => do
    let call ← call? capability table setter
    return call.toList ++ (← calls rest)

def assembly (signature : Signature) : Act σ Assembly := do
  let arguments ← operands capability table signature.constructor
  let calls ← calls capability table signature.setters
  return ⟨signature.className, arguments, calls, signature.hook⟩

def body (binding : Binding) : Act σ Plan.Body := do
  match binding with
  | .build recipe => return .construct (← assembly capability table recipe.signature)
  | .literal value => return .literal value
  | .provided recipe _ context =>
    return .provide (← assembly capability table recipe.signature) context

def plan (key : Key) (binding : Binding) : Act σ Plan := do
  return Plan.current key binding.scope (← body capability table binding)

end Wiring.Compile
