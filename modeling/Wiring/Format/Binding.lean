import Wiring.Snapshot
import Wiring.Format.Recipe

/-! # Bindings and snapshots as data

A binding is tagged by its kind, the tag first. A snapshot writes its time as text.
-/
namespace Wiring

namespace Binding

def toJson : Binding → Json
  | .build recipe => .object (("kind", Json.string "dependency") :: recipe.members)
  | .literal value => .object [("kind", Json.string "instance"), ("value", value)]
  | .provided recipe scope context =>
    .object ([("kind", Json.string "provider"), ("provider", recipe.toJson), ("scope", scope.toJson)] ++
      Json.optionalMember "context" Json.string context)

def kinds : List String := ["dependency", "instance", "provider"]

def ofSource? (reading : Reading) (s : Source) : Option Binding := do
  match ← s.tagged? reading "kind" kinds with
  | (0, rest) => (Recipe.ofSource? .buffered rest).map .build
  | (1, rest) =>
    match ← rest.fields? ["value"] with
    | [value] => (Source.required Source.value? value).map .literal
    | _ => none
  | (_, rest) =>
    match ← rest.fields? ["provider", "scope", "context"] with
    | [recipe, scope, context] =>
      some (.provided (← Source.required (Recipe.ofSource? .buffered) recipe)
        (← Source.required (Scope.ofSource? .buffered) scope)
        (← Source.optional none (Source.nullable Source.string?) context))
    | _ => none

end Binding

namespace Instant

def toJson (t : Instant) : Json := Json.string t.text

def ofSource? (s : Source) : Option Instant := do ofText? (← s.string?)

end Instant

def Json.ofWord32 (n : UInt32) : Json :=
  Json.number (.integer ⟨n.toNat, by
    have := n.toNat_lt
    omega⟩)

namespace Snapshot

def entryJson (entry : Key × Binding) : Json :=
  .object [("key", entry.1.toJson), ("binding", entry.2.toJson)]

def entryOfSource? (s : Source) : Option (Key × Binding) := do
  match ← s.fields? ["key", "binding"] with
  | [key, binding] =>
    some (← Source.required Key.ofSource? key,
      ← Source.required (Binding.ofSource? .direct) binding)
  | _ => none

def toJson (s : Snapshot) : Json :=
  .object [("format_version", Json.ofWord32 s.version), ("generated_at", s.time.toJson),
    ("bindings", Json.list entryJson s.entries)]

def ofSource? (s : Source) : Option Snapshot := do
  match ← s.fields? ["format_version", "generated_at", "bindings"] with
  | [version, time, entries] =>
    some ⟨← Source.required Source.word32? version, ← Source.required Instant.ofSource? time,
      ← Source.required (Source.list? entryOfSource?) entries⟩
  | _ => none

/-- Reads a snapshot from the contents of a file. -/
def ofBytes? (contents : ByteArray) : Option Snapshot := do ofSource? (← Source.readBytes contents)

def ofText? (text : String) : Option Snapshot := ofBytes? text.toUTF8

end Snapshot
end Wiring
