import Wiring.Key
import Wiring.Json.Tree

/-! # Recipes

A signature says how objects of a class are made: constructor parameters, setters in order and a
hook to call at the end. A recipe is a signature in a scope.
-/
namespace Wiring

/-- How many instances a binding yields: one for all requests, or a new one each time. -/
inductive Scope where
  | singleton
  | prototype
  deriving DecidableEq, Repr, Inhabited

def Scope.text : Scope → String
  | .singleton => "singleton"
  | .prototype => "prototype"

/-- Where a value is injected. -/
structure Point where
  owner : String
  method : String
  parameter : String
  deriving DecidableEq, Repr, Inhabited

def Point.display (p : Point) : String :=
  p.owner ++ "::" ++ p.method ++ "(" ++ p.parameter ++ ")"

/-- A formal parameter: the key that satisfies it and, maybe, a default. -/
structure Parameter where
  key : Key
  hasDefault : Bool := false
  defaultValue : Json := Json.null
  point : Point
  deriving DecidableEq, Inhabited

/-- The default counts only when it is declared. -/
def Parameter.default? (p : Parameter) : Option Json :=
  if p.hasDefault then some p.defaultValue else none

structure Setter where
  method : String
  parameters : List Parameter
  optional : Bool := false
  deriving DecidableEq, Inhabited

structure Signature where
  className : String
  constructor : List Parameter := []
  setters : List Setter := []
  hook : Option String := none
  deriving DecidableEq, Inhabited

structure Recipe where
  signature : Signature
  scope : Scope
  deriving DecidableEq, Inhabited

end Wiring
