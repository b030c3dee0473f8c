import Wiring.Plan
import Wiring.Format.Binding

/-! # Plans as data

Operands and bodies are tagged, the tag first; calls and a hook that are missing are none.
-/
namespace Wiring

namespace Operand

def toJson : Operand → Json
  | .reference scope key =>
    .object [("expr", Json.string "reference"), ("scope", scope.toJson), ("key", key.toJson)]
  | .deferred scope key point =>
    .object [("expr", Json.string "on_demand"), ("scope", scope.toJson), ("key", key.toJson),
      ("injection_point", point.toJson)]
  | .literal value => .object [("expr", Json.string "literal"), ("value", value)]

def cases : List String := ["reference", "on_demand", "literal"]

def ofSource? (reading : Reading) (s : Source) : Option Operand := do
  match ← s.tagged? reading "expr" cases with
  | (0, rest) =>
    match ← rest.fields? ["scope", "key"] with
    | [scope, key] =>
      some (.reference (← Source.required (Scope.ofSource? .buffered) scope)
        (← Source.required Key.ofSource? key))
    | _ => none
  | (1, rest) =>
    match ← rest.fields? ["scope", "key", "injection_point"] with
    | [scope, key, point] =>
      some (.deferred (← Source.required (Scope.ofSource? .buffered) scope)
        (← Source.required Key.ofSource? key) (← Source.required Point.ofSource? point))
    | _ => none
  | (_, rest) =>
    match ← rest.fields? ["value"] with
    | [value] => (Source.required Source.value? value).map .literal
    | _ => none

end Operand

namespace Call

def toJson (c : Call) : Json :=
  .object [("method", Json.string c.method), ("arguments", Json.list Operand.toJson c.operands)]

def ofSource? (reading : Reading) (s : Source) : Option Call := do
  match ← s.fields? ["method", "arguments"] with
  | [method, operands] =>
    some ⟨← Source.required Source.string? method,
      ← Source.required (Source.list? (Operand.ofSource? reading)) operands⟩
  | _ => none

end Call

namespace Assembly

def toJson (a : Assembly) : Json :=
  .object ([("class", Json.string a.className), ("arguments", Json.list Operand.toJson a.operands),
    ("setters", Json.list Call.toJson a.calls)] ++
    Json.optionalMember "post_construct" Json.string a.hook)

def ofSource? (reading : Reading) (s : Source) : Option Assembly := do
  match ← s.fields? ["class", "arguments", "setters", "post_construct"] with
  | [className, operands, calls, hook] =>
    some ⟨← Source.required Source.string? className,
      ← Source.required (Source.list? (Operand.ofSource? reading)) operands,
      ← Source.optional [] (Source.list? (Call.ofSource? reading)) calls,
      ← Source.optional none (Source.nullable Source.string?) hook⟩
  | _ => none

end Assembly

namespace Plan

namespace Body

def toJson : Body → Json
  | .construct assembly =>
    .object [("body", Json.string "construct"), ("instantiation", assembly.toJson)]
  | .literal value => .object [("body", Json.string "instance"), ("value", value)]
  | .provide assembly context =>
    .object ([("body", Json.string "provide"), ("provider", assembly.toJson)] ++
      Json.optionalMember "context" Json.string context)

def cases : List String := ["construct", "instance", "provide"]

def ofSource? (reading : Reading) (s : Source) : Option Body := do
  match ← s.tagged? reading "body" cases with
  | (0, rest) =>
    match ← rest.fields? ["instantiation"] with
    | [assembly] => (Source.required (Assembly.ofSource? .buffered) assembly).map .construct
    | _ => none
  | (1, rest) =>
    match ← rest.fields? ["value"] with
    | [value] => (Source.required Source.value? value).map .literal
    | _ => none
  | (_, rest) =>
    match ← rest.fields? ["provider", "context"] with
    | [assembly, context] =>
      some (.provide (← Source.required (Assembly.ofSource? .buffered) assembly)
        (← Source.optional none (Source.nullable Source.string?) context))
    | _ => none

end Body

def toJson (p : Plan) : Json :=
  .object [("format_version", Json.ofWord32 p.version), ("key", p.key.toJson),
    ("scope", p.scope.toJson), ("body", p.body.toJson)]

def ofSource? (s : Source) : Option Plan := do
  match ← s.fields? ["format_version", "key", "scope", "body"] with
  | [version, key, scope, body] =>
    some ⟨← Source.required Source.word32? version, ← Source.required Key.ofSource? key,
      ← Source.required (Scope.ofSource? .direct) scope,
      ← Source.required (Body.ofSource? .direct) body⟩
  | _ => none

/-- Reads a plan from the contents of a file. -/
def ofBytes? (contents : ByteArray) : Option Plan := do ofSource? (← Source.readBytes contents)

def ofText? (text : String) : Option Plan := ofBytes? text.toUTF8

end Plan
end Wiring
