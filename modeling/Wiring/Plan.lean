import Wiring.Binding
import Wiring.Text.Quoted

/-! # Plans

A plan is the straight-line program that yields the value of one key: construct an object, call
its setters, call its hook, and return it or what it provides. An operand is a call of another
plan, a call left to the running injector, or a literal.
-/
namespace Wiring

inductive Operand where
  | reference (scope : Scope) (key : Key)
  | deferred (scope : Scope) (key : Key) (point : Point)
  | literal (value : Json)
  deriving DecidableEq, Inhabited

def Operand.key? : Operand → Option Key
  | .reference _ key => some key
  | .deferred _ key _ => some key
  | .literal _ => none

structure Call where
  method : String
  operands : List Operand
  deriving DecidableEq, Inhabited

structure Assembly where
  className : String
  operands : List Operand
  calls : List Call := []
  hook : Option String := none
  deriving DecidableEq, Inhabited

/-- The call of a setter, if the assembly makes it. -/
def Assembly.call? (a : Assembly) (method : String) : Option Call :=
  a.calls.find? fun call => call.method = method

def Assembly.allOperands (a : Assembly) : List Operand := a.operands ++ a.calls.flatMap Call.operands

inductive Plan.Body where
  | construct (assembly : Assembly)
  | literal (value : Json)
  | provide (assembly : Assembly) (context : Option String)
  deriving DecidableEq, Inhabited

structure Plan where
  version : UInt32
  key : Key
  scope : Scope
  body : Plan.Body
  deriving DecidableEq, Inhabited

namespace Plan

/-- The version of plans that this library writes and runs. -/
def currentVersion : UInt32 := 1

def current (key : Key) (scope : Scope) (body : Body) : Plan := ⟨currentVersion, key, scope, body⟩

def assembly? (p : Plan) : Option Assembly :=
  match p.body with
  | .construct assembly => some assembly
  | .literal _ => none
  | .provide assembly _ => some assembly

/-- The operands of a plan in the order in which they are evaluated. -/
def operands (p : Plan) : List Operand := (p.assembly?.map Assembly.allOperands).getD []

end Plan

/-- Texts with `separator` between each two. -/
def joined (separator : List Char) : List (List Char) → List Char
  | [] => []
  | [text] => text
  | text :: rest => text ++ separator ++ joined separator rest

namespace Operand

def chars : Operand → List Char
  | .reference scope key => scope.text.toList ++ '(' :: Text.quoted key.token ++ [')']
  | .deferred scope key point =>
    scope.text.toList ++ '(' :: Text.quoted key.token ++ [',', ' ', '['] ++
      joined [',', ' '] [Text.quoted point.owner, Text.quoted point.method, Text.quoted point.parameter] ++
      [']', ')']
  | .literal value => Json.print .compact 0 value

def text (o : Operand) : String := String.ofList o.chars

end Operand

def argumentChars (operands : List Operand) : List Char :=
  joined [',', ' '] (operands.map Operand.chars)

def argumentText (operands : List Operand) : String := String.ofList (argumentChars operands)

def Assembly.listing (variableName : String) (a : Assembly) : String :=
  let start := "let " ++ variableName ++ " = new " ++ a.className ++ "(" ++ argumentText a.operands ++ ");\n"
  let calls := a.calls.map fun call =>
    variableName ++ "." ++ call.method ++ "(" ++ argumentText call.operands ++ ");\n"
  let finish := match a.hook with
    | none => ""
    | some hook => variableName ++ "." ++ hook ++ "();\n"
  start ++ String.join calls ++ finish

def Plan.listing (p : Plan) : String :=
  let title := "// " ++ p.key.display ++ " (" ++ p.scope.text ++ ")\n"
  title ++ match p.body with
    | .construct assembly => assembly.listing "instance" ++ "return instance;\n"
    | .literal value => "return " ++ value.compact ++ ";\n"
    | .provide assembly context =>
      let argument := match context with
        | none => ""
        | some context => Text.quote context
      assembly.listing "provider" ++ "return provider.get(" ++ argument ++ ");\n"

end Wiring
