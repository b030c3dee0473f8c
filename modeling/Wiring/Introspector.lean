import Wiring.Binding
import Wiring.Class

/-! # Introspectors

The compiler reads a recipe through an introspector. Every part that an introspector does not answer for
itself is the one that the recipe carries. One that knows classes can tell their signatures as well.
-/
namespace Wiring

structure Introspector where
  signature? : String → Option Signature
  constructorOf : Recipe → List Parameter := fun recipe => recipe.signature.constructor
  settersOf : Recipe → List Setter := fun recipe => recipe.signature.setters
  parametersOf : Setter → List Parameter := Setter.parameters
  isOptional : Setter → Bool := Setter.optional
  hookOf : Recipe → Option String := fun recipe => recipe.signature.hook

/-- Knows the registered classes. -/
def Registry.introspector (registry : Registry) : Introspector := { signature? := registry.signature? }

namespace Introspector

/-- Knows nothing but what recipes carry. -/
def descriptors : Introspector := { signature? := fun _ => none }

variable (introspector : Introspector)

def setter (m : Setter) : Setter := ⟨m.method, introspector.parametersOf m, introspector.isOptional m⟩

def recipe (r : Recipe) : Recipe :=
  { r with signature := ⟨r.signature.className, introspector.constructorOf r,
      (introspector.settersOf r).map introspector.setter, introspector.hookOf r⟩ }

def binding : Binding → Binding
  | .build r => .build (introspector.recipe r)
  | .literal value => .literal value
  | .provided r scope context => .provided (introspector.recipe r) scope context

/-- The bindings of a table as they are read. -/
def entries (table : Table) : List (Key × Binding) :=
  table.entries.map fun e => (e.1, introspector.binding e.2)

end Introspector
end Wiring
