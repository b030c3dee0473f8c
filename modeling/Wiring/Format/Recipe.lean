import Wiring.Recipe
import Wiring.Json.Record

/-! # Recipes as data

For each type of a recipe, its tree with members in declaration order and the reader of such a
tree. Missing lists are empty, a missing name is the empty one, and an absent hook is left out.
-/
namespace Wiring

namespace Json

def list {α : Type} (item : α → Json) (items : List α) : Json := .array (items.map item)

/-- A member that is left out when there is nothing to say. -/
def optionalMember {α : Type} (name : String) (item : α → Json) : Option α → List (String × Json)
  | none => []
  | some x => [(name, item x)]

end Json

namespace Key

def toJson (k : Key) : Json :=
  .object [("interface", Json.string k.interface), ("name", Json.string k.name)]

def ofSource? (s : Source) : Option Key := do
  match ← s.fields? ["interface", "name"] with
  | [interface, name] =>
    some ⟨← Source.required Source.string? interface, ← Source.optional "" Source.string? name⟩
  | _ => none

end Key

namespace Scope

def toJson (scope : Scope) : Json := Json.string scope.text

def ofText? (text : String) : Option Scope :=
  if text = Scope.singleton.text then some .singleton
  else if text = Scope.prototype.text then some .prototype
  else none

/-- A scope is its name, or an object with the name as its one member, whose value is null or, in a
buffered part, an empty object. -/
def ofSource? (reading : Reading) : Source → Option Scope
  | .leaf (some (.string s)) => ofText? s
  | .object [(name, .leaf (some .null))] => ofText? name
  | .object [(name, .object [])] => if reading = .buffered then ofText? name else none
  | _ => none

end Scope

namespace Point

def toJson (p : Point) : Json :=
  .object [("declaring_type", Json.string p.owner), ("method", Json.string p.method),
    ("parameter", Json.string p.parameter)]

def ofSource? (s : Source) : Option Point := do
  match ← s.fields? ["declaring_type", "method", "parameter"] with
  | [owner, method, parameter] =>
    some ⟨← Source.required Source.string? owner, ← Source.required Source.string? method,
      ← Source.required Source.string? parameter⟩
  | _ => none

end Point

namespace Parameter

def toJson (p : Parameter) : Json :=
  .object [("key", p.key.toJson), ("has_default", Json.bool p.hasDefault),
    ("default_value", p.defaultValue), ("injection_point", p.point.toJson)]

def ofSource? (s : Source) : Option Parameter := do
  match ← s.fields? ["key", "has_default", "default_value", "injection_point"] with
  | [key, hasDefault, defaultValue, point] =>
    some ⟨← Source.required Key.ofSource? key, ← Source.optional false Source.bool? hasDefault,
      ← Source.optional Json.null Source.value? defaultValue,
      ← Source.required Point.ofSource? point⟩
  | _ => none

end Parameter

namespace Setter

def toJson (m : Setter) : Json :=
  .object [("method", Json.string m.method), ("arguments", Json.list Parameter.toJson m.parameters),
    ("optional", Json.bool m.optional)]

def ofSource? (s : Source) : Option Setter := do
  match ← s.fields? ["method", "arguments", "optional"] with
  | [method, parameters, optional] =>
    some ⟨← Source.required Source.string? method,
      ← Source.required (Source.list? Parameter.ofSource?) parameters,
      ← Source.optional false Source.bool? optional⟩
  | _ => none

end Setter

namespace Signature

def bodyMembers (s : Signature) : List (String × Json) :=
  [("constructor", Json.list Parameter.toJson s.constructor),
    ("setters", Json.list Setter.toJson s.setters)] ++
    Json.optionalMember "post_construct" Json.string s.hook

def toJson (s : Signature) : Json := .object (("class", Json.string s.className) :: s.bodyMembers)

def ofFields? (className constructor setters hook : Option Source) : Option Signature := do
  some ⟨← Source.required Source.string? className,
    ← Source.optional [] (Source.list? Parameter.ofSource?) constructor,
    ← Source.optional [] (Source.list? Setter.ofSource?) setters,
    ← Source.optional none (Source.nullable Source.string?) hook⟩

def ofSource? (s : Source) : Option Signature := do
  match ← s.fields? ["class", "constructor", "setters", "post_construct"] with
  | [className, constructor, setters, hook] => ofFields? className constructor setters hook
  | _ => none

end Signature

namespace Recipe

def members (r : Recipe) : List (String × Json) :=
  ("class", Json.string r.signature.className) :: ("scope", r.scope.toJson) :: r.signature.bodyMembers

def toJson (r : Recipe) : Json := .object r.members

def ofSource? (reading : Reading) (s : Source) : Option Recipe := do
  match ← s.fields? ["class", "scope", "constructor", "setters", "post_construct"] with
  | [className, scope, constructor, setters, hook] =>
    some ⟨← Signature.ofFields? className constructor setters hook,
      ← Source.required (Scope.ofSource? reading) scope⟩
  | _ => none

end Recipe
end Wiring
