import Wiring.Recipe
import Wiring.Json.Printer

/-! # Bindings and tables

A binding says what a key stands for: an object built by a recipe, a literal, or what an object
built by a recipe provides. A table maps keys to bindings in key order.
-/
namespace Wiring

inductive Binding where
  | build (recipe : Recipe)
  | literal (value : Json)
  | provided (recipe : Recipe) (scope : Scope) (context : Option String)
  deriving DecidableEq, Inhabited

namespace Binding

/-- A literal is one value for all requests. -/
def scope : Binding → Scope
  | .build recipe => recipe.scope
  | .literal _ => .singleton
  | .provided _ scope _ => scope

def describe : Binding → String
  | .build recipe => "class " ++ recipe.signature.className
  | .literal value => "instance " ++ value.compact
  | .provided recipe _ _ => "provider " ++ recipe.signature.className

end Binding

abbrev Table := SortedMap Key Binding

def Parameter.unsignZeros (p : Parameter) : Parameter :=
  { p with defaultValue := p.defaultValue.unsignZeros }

def Signature.unsignZeros (s : Signature) : Signature :=
  { s with
    constructor := s.constructor.map Parameter.unsignZeros
    setters := s.setters.map fun m => { m with parameters := m.parameters.map Parameter.unsignZeros } }

def Recipe.unsignZeros (r : Recipe) : Recipe := { r with signature := r.signature.unsignZeros }

def Binding.unsignZeros : Binding → Binding
  | .build recipe => .build recipe.unsignZeros
  | .literal value => .literal value.unsignZeros
  | .provided recipe scope context => .provided recipe.unsignZeros scope context

/-- Whether two tables agree, numbers being compared by value. -/
def Table.same (a b : Table) : Bool :=
  a.entries.map (fun e => (e.1, e.2.unsignZeros)) == b.entries.map fun e => (e.1, e.2.unsignZeros)

end Wiring
