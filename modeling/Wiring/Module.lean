import Wiring.Act
import Wiring.Binding

/-! # Modules

A module is a list of clauses: each binds a key to a target or installs another module. Clauses
take effect in order, and a later binding of a key replaces an earlier one. A clause that names an
unknown class fails and binds nothing; the clauses before it have taken effect.
-/
namespace Wiring

inductive Target where
  /-- The class that the interface names. -/
  | itself
  | ofClass (className : String)
  | literal (value : Json)
  | provider (className : String) (context : Option String)
  deriving Inhabited

structure Statement where
  key : Key
  scope : Scope := .prototype
  target : Target
  deriving Inhabited

inductive Clause where
  | bind (statement : Statement)
  | install (clauses : List Clause)
  deriving Inhabited

namespace Module

variable (signature? : String → Option Signature)

def recipe (className : String) (scope : Scope) : Except Error Recipe :=
  match signature? className with
  | none => .error (.unknownClass className)
  | some signature => .ok ⟨signature, scope⟩

/-- What a statement binds its key to. A provider itself is made anew whenever it is asked. -/
def binding (s : Statement) : Except Error Binding :=
  match s.target with
  | .itself => (recipe signature? s.key.interface s.scope).map .build
  | .ofClass className => (recipe signature? className s.scope).map .build
  | .literal value => .ok (.literal value)
  | .provider className context =>
    (recipe signature? className .prototype).map fun recipe => .provided recipe s.scope context

def bind (s : Statement) : Act Table Unit := do
  let binding ← binding signature? s
  modify fun table => table.insert s.key binding

mutual
def apply : Clause → Act Table Unit
  | .bind statement => bind signature? statement
  | .install clauses => applyAll clauses

def applyAll : List Clause → Act Table Unit
  | [] => return ()
  | clause :: rest => do
    apply clause
    applyAll rest
end

def table (clauses : List Clause) : Except Error Table :=
  match (applyAll signature? clauses).runOn SortedMap.empty with
  | (.ok (), table) => .ok table
  | (.error e, _) => .error e

end Module
end Wiring
