import Wiring.Proofs.Format.Plan
import Wiring.Proofs.Instant

/-! # Snapshots survive as text

A snapshot whose literals have no doubles is read back from its text, indented or compact, as the very same
snapshot.
-/
namespace Wiring
open Source

def Binding.literals : Binding → List Json
  | .build recipe => recipe.signature.literals
  | .literal value => [value]
  | .provided recipe _ _ => recipe.signature.literals

def Snapshot.literals (s : Snapshot) : List Json := s.entries.flatMap fun e => e.2.literals

theorem Source.string?_string (text : String) : string? (ofJson (Json.string text)) = some text := rfl

theorem Recipe.kind_not_member (r : Recipe) : "kind" ∉ r.members.map Prod.fst := by
  obtain ⟨⟨className, constructor, setters, hook⟩, scope⟩ := r
  cases hook <;> simp [members, Signature.bodyMembers, Json.optionalMember]

theorem Binding.ofSource?_toJson (reading : Reading) {b : Binding} (sorted : ∀ v ∈ b.literals, v.Sorted) :
    Binding.ofSource? reading (ofJson b.toJson) = some b := by
  cases b with
  | build recipe =>
    have told := tagged?_ofJson reading "kind" "dependency" recipe.members
      (show kinds.idxOf? "dependency" = some 0 from rfl) recipe.kind_not_member
    simp only [Binding.ofSource?, Binding.toJson, told, Option.bind_eq_bind, Option.bind_some,
      Recipe.ofSource?_members .buffered sorted, Option.map_some]
  | literal value =>
    have told := tagged?_ofJson reading "kind" "instance" [("value", value)]
      (show kinds.idxOf? "instance" = some 1 from rfl) (by simp)
    have fields : fields? ["value"] (.object (ofMembers [("value", value)])) = some [some (ofJson value)] :=
      rfl
    have literal := value?_ofJson value (sorted value List.mem_cons_self)
    simp only [Binding.ofSource?, Binding.toJson, told, fields, Option.bind_eq_bind, Option.bind_some,
      required_some, literal, Option.map_some]
  | provided recipe scope context =>
    have apart : "kind" ∉ (("provider", recipe.toJson) :: ("scope", scope.toJson) ::
        Json.optionalMember "context" Json.string context).map Prod.fst := by
      cases context <;> simp [Json.optionalMember]
    have told := tagged?_ofJson reading "kind" "provider" _
      (show kinds.idxOf? "provider" = some 2 from rfl) apart
    have fields : fields? ["provider", "scope", "context"] (.object (ofMembers
        (("provider", recipe.toJson) :: ("scope", scope.toJson) ::
          Json.optionalMember "context" Json.string context))) =
        some [some (ofJson recipe.toJson), some (ofJson scope.toJson),
          context.map fun s => ofJson (Json.string s)] := by
      cases context <;> rfl
    have provider : Recipe.ofSource? .buffered (ofJson recipe.toJson) = some recipe :=
      Recipe.ofSource?_members .buffered sorted
    simp only [Binding.ofSource?, Binding.toJson, List.cons_append, List.nil_append, told, fields,
      Option.bind_eq_bind, Option.bind_some, required_some, provider, Scope.ofSource?_toJson,
      optional_string]

namespace Snapshot

theorem entryOfSource?_entryJson {entry : Key × Binding} (sorted : ∀ v ∈ entry.2.literals, v.Sorted) :
    entryOfSource? (ofJson (entryJson entry)) = some entry := by
  have fields : (ofJson (entryJson entry)).fields? ["key", "binding"] =
    some [some (ofJson entry.1.toJson), some (ofJson entry.2.toJson)] := rfl
  simp only [entryOfSource?, fields, Option.bind_eq_bind, Option.bind_some, required_some,
    Key.ofSource?_toJson, Binding.ofSource?_toJson .direct sorted]

/-- A snapshot from its parts. As with plans, these are left open here. -/
theorem ofSource?_of_parts {version time entries : Source} {s : Snapshot}
    (versioned : version.word32? = some s.version) (timed : Instant.ofSource? time = some s.time)
    (listed : list? entryOfSource? entries = some s.entries) :
    Snapshot.ofSource? (.object
      [("format_version", version), ("generated_at", time), ("bindings", entries)]) = some s := by
  have fields : fields? ["format_version", "generated_at", "bindings"] (.object
    [("format_version", version), ("generated_at", time), ("bindings", entries)]) =
      some [some version, some time, some entries] := rfl
  simp only [Snapshot.ofSource?, fields, Option.bind_eq_bind, Option.bind_some, required_some, versioned,
    timed, listed]

theorem ofSource?_toJson {s : Snapshot} (sorted : ∀ v ∈ s.literals, v.Sorted) (time : s.time.Valid) :
    Snapshot.ofSource? (ofJson s.toJson) = some s := by
  have timed : Instant.ofSource? (ofJson s.time.toJson) = some s.time := by
    rw [Instant.ofSource?, Instant.toJson, string?_string, Option.bind_eq_bind, Option.bind_some,
      Instant.ofText?_text time]
  have listed : list? entryOfSource? (ofJson (Json.list entryJson s.entries)) = some s.entries :=
    list?_ofJson fun e member => entryOfSource?_entryJson fun v inside =>
      sorted v (List.mem_flatMap.mpr ⟨e, member, inside⟩)
  exact ofSource?_of_parts (word32?_ofWord32 s.version) timed listed

end Snapshot

theorem Binding.integral_toJson {b : Binding} (integral : ∀ v ∈ b.literals, v.Integral) :
    b.toJson.Integral := by
  cases b with
  | build recipe => exact ⟨trivial, Recipe.integral_members integral⟩
  | literal value => exact ⟨trivial, integral value List.mem_cons_self, trivial⟩
  | provided recipe scope context =>
    exact ⟨trivial, Recipe.integral_members integral, trivial, Json.integralMembers_optional _ _⟩

namespace Snapshot

theorem integral_toJson {s : Snapshot} (integral : ∀ v ∈ s.literals, v.Integral) : s.toJson.Integral := by
  refine ⟨trivial, trivial, Json.integral_list fun e member => ?_, trivial⟩
  have bound : e.2.toJson.Integral := Binding.integral_toJson fun v inside =>
    integral v (List.mem_flatMap.mpr ⟨e, member, inside⟩)
  exact ⟨e.1.integral_toJson, bound, trivial⟩

/-- A snapshot whose text can be read back: it was made at an instant of the calendar, its literals are
well-formed and have no doubles, and the whole is not nested too deep. -/
structure Textual (s : Snapshot) : Prop where
  time : s.time.Valid
  sorted : ∀ v ∈ s.literals, v.Sorted
  integral : ∀ v ∈ s.literals, v.Integral
  shallow : s.toJson.depth ≤ Source.maxDepth

theorem ofText?_print {layout : Json.Layout} (blank : layout.Blank) {s : Snapshot} (textual : s.Textual) :
    Snapshot.ofText? (String.ofList (Json.print layout 0 s.toJson)) = some s := by
  have read : Source.readBytes (String.ofList (Json.print layout 0 s.toJson)).toUTF8 = some (ofJson s.toJson) :=
    read_print blank (integral_toJson textual.integral) textual.shallow
  rw [ofText?, ofBytes?, read, Option.bind_eq_bind, Option.bind_some, ofSource?_toJson textual.sorted textual.time]

end Snapshot
end Wiring
