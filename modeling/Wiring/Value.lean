import Wiring.Error
import Wiring.Text.Quoted
import Wiring.Json.Printer

/-! # Values

What an injector hands out is a literal or an object. An object has an identity, the name of its
type, the class that made it, and the calls made on it so far, the constructor first. A call keeps
the values that its method chose to hold on to, so an object's state is a function of its history.
-/
namespace Wiring

/-- A finished call: the method, its arguments and what it kept of them. -/
structure Invocation (α : Type) where
  method : String
  arguments : List α
  kept : List α

inductive Value where
  | literal (value : Json)
  | object (id : Nat) (type className : String) (history : List (Invocation Value))

instance : Inhabited Value := ⟨.literal Json.null⟩

structure Object where
  id : Nat
  type : String
  className : String
  history : List (Invocation Value)

namespace Object

def value (o : Object) : Value := .object o.id o.type o.className o.history

def record (o : Object) (call : Invocation Value) : Object :=
  { o with history := o.history ++ [call] }

end Object

namespace Json

mutual
/-- A literal with the kind of each part spelled out. -/
def debugText : Json → String
  | .leaf .null => "Null"
  | .leaf (.bool b) => "Bool(" ++ toString b ++ ")"
  | .leaf (.number n) => "Number(" ++ String.ofList n.text ++ ")"
  | .leaf (.string s) => "String(" ++ Text.quote s ++ ")"
  | .array items => "Array [" ++ String.intercalate ", " (debugItems items) ++ "]"
  | .object members => "Object \x7b" ++ String.intercalate ", " (debugMembers members) ++ "\x7d"

def debugItems : List Json → List String
  | [] => []
  | x :: rest => debugText x :: debugItems rest

def debugMembers : List (String × Json) → List String
  | [] => []
  | (k, x) :: rest => (Text.quote k ++ ": " ++ debugText x) :: debugMembers rest
end

end Json

namespace Value

def literal? : Value → Option Json
  | .literal value => some value
  | .object _ _ _ _ => none

def object? : Value → Option Object
  | .literal _ => none
  | .object id type className history => some ⟨id, type, className, history⟩

/-- Literals have no identity. -/
def sameObject : Value → Value → Bool
  | .object a _ _ _, .object b _ _ _ => a = b
  | _, _ => false

def debugText : Value → String
  | .literal value => "Literal(" ++ value.debugText ++ ")"
  | .object _ _ _ _ => "Object(..)"

end Value

namespace Arguments

def invalid {α : Type} (details : String) : Except Error α := .error (.invalidArgument details)

def get (arguments : List Value) (i : Nat) : Except Error Value :=
  match arguments[i]? with
  | some value => .ok value
  | none =>
    invalid ("missing argument #" ++ toString i ++ " (" ++ toString arguments.length ++ " provided)")

def object (arguments : List Value) (type : String) (i : Nat) : Except Error Object := do
  let value ← get arguments i
  match value.object? with
  | some o => if o.type = type then .ok o else wrong
  | none => wrong
where
  wrong : Except Error Object :=
    invalid ("argument #" ++ toString i ++ " is not an object of type " ++ type)

def literal (arguments : List Value) (i : Nat) : Except Error Json := do
  match (← get arguments i).literal? with
  | some value => .ok value
  | none => invalid ("argument #" ++ toString i ++ " is not a literal")

def string (arguments : List Value) (i : Nat) : Except Error String := do
  match ← literal arguments i with
  | .leaf (.string s) => .ok s
  | _ => invalid ("argument #" ++ toString i ++ " is not a string")

/-- Integers beyond the signed 64-bit range and doubles do not count. -/
def integer (arguments : List Value) (i : Nat) : Except Error Int := do
  let wrong : Except Error Int := invalid ("argument #" ++ toString i ++ " is not an integer")
  match ← literal arguments i with
  | .leaf (.number (.integer n)) =>
    match n.signed? with
    | some n => .ok n
    | none => wrong
  | _ => wrong

def bool (arguments : List Value) (i : Nat) : Except Error Bool := do
  match ← literal arguments i with
  | .leaf (.bool b) => .ok b
  | _ => invalid ("argument #" ++ toString i ++ " is not a boolean")

end Arguments
end Wiring
