import Wiring.Format.Recipe
import Wiring.Proofs.Json.Reader

/-! # Recipes survive as data

What each type of a recipe is written as reads back as the same thing. Literals must be sorted, since a
literal keeps its members in key order.
-/
namespace Wiring
open Source

namespace Source

@[simp] theorem required_some {α : Type} (item : Source → Option α) (s : Source) :
    required item (some s) = item s := rfl

@[simp] theorem optional_some {α : Type} (missing : α) (item : Source → Option α) (s : Source) :
    Source.optional missing item (some s) = item s := rfl

theorem ofItems_eq_map (items : List Json) : ofItems items = items.map ofJson := by
  induction items with
  | nil => rfl
  | cons x items ih => rw [ofItems, ih, List.map_cons]

theorem ofMembers_eq_map (members : List (String × Json)) :
    ofMembers members = members.map fun m => (m.1, ofJson m.2) := by
  induction members with
  | nil => rfl
  | cons m members ih => rw [ofMembers, ih, List.map_cons]

theorem list?_ofJson {α : Type} {item : Source → Option α} {write : α → Json} {xs : List α}
    (each : ∀ x ∈ xs, item (ofJson (write x)) = some x) :
    list? item (ofJson (Json.list write xs)) = some xs := by
  simp only [Json.list, ofJson, list?, ofItems_eq_map]
  induction xs with
  | nil => rfl
  | cons x xs ih =>
    obtain ⟨first, later⟩ := List.forall_mem_cons.mp each
    simp only [List.map_cons, List.mapM_cons, first, ih later]
    rfl

/-- A variant whose tag is written first is told by its tag, and the rest of its members follows. -/
theorem tagged?_ofJson (reading : Reading) (tag case : String) (rest : List (String × Json))
    {names : List String} {n : Nat} (named : names.idxOf? case = some n)
    (apart : tag ∉ rest.map Prod.fst) :
    tagged? reading tag names (ofJson (.object ((tag, Json.string case) :: rest))) =
      some (n, .object (ofMembers rest)) := by
  obtain ⟨v, value⟩ := value?_isSome (.object ((tag, Json.string case) :: rest))
  have others : ∀ m ∈ ofMembers rest, m.1 ≠ tag := by
    rw [ofMembers_eq_map]
    intro m member same
    obtain ⟨m', inside, rfl⟩ := List.mem_map.mp member
    exact apart (List.mem_map.mpr ⟨m', inside, same⟩)
  have none : (ofMembers rest).filter (fun m => decide (m.1 = tag)) = [] :=
    List.filter_eq_nil_iff.mpr fun m member => by simp [others m member]
  have all : (ofMembers rest).filter (fun m => decide (m.1 ≠ tag)) = ofMembers rest :=
    List.filter_eq_self.mpr fun m member => by simp [others m member]
  have found : member? tag ((tag, ofJson (Json.string case)) :: ofMembers rest) =
      some (some (ofJson (Json.string case))) := by
    rw [member?, List.filter_cons_of_pos (by simp), none]
  have told : case? reading names (ofJson (Json.string case)) = some n := named
  simp only [tagged?, value, Option.bind_eq_bind, Option.bind_some]
  simp only [ofJson, ofMembers] at found told ⊢
  simp only [found, told, Option.bind_some]
  rw [List.filter_cons_of_neg (by simp), all]

end Source

theorem Key.ofSource?_toJson (k : Key) : Key.ofSource? (ofJson k.toJson) = some k := rfl

theorem Point.ofSource?_toJson (p : Point) : Point.ofSource? (ofJson p.toJson) = some p := rfl

theorem Scope.ofSource?_toJson (reading : Reading) (scope : Scope) :
    Scope.ofSource? reading (ofJson scope.toJson) = some scope := by
  cases scope <;> rfl

theorem Parameter.ofSource?_toJson {p : Parameter} (sorted : p.defaultValue.Sorted) :
    Parameter.ofSource? (ofJson p.toJson) = some p := by
  have fields : (ofJson p.toJson).fields? ["key", "has_default", "default_value", "injection_point"] =
    some [some (ofJson p.key.toJson), some (ofJson (Json.bool p.hasDefault)), some (ofJson p.defaultValue),
      some (ofJson p.point.toJson)] := rfl
  have value := value?_ofJson p.defaultValue sorted
  simp only [Parameter.ofSource?, fields, Option.bind_eq_bind, Option.bind_some, required_some,
    optional_some, Key.ofSource?_toJson, Point.ofSource?_toJson, value]
  rfl

def Setter.literals (m : Setter) : List Json := m.parameters.map Parameter.defaultValue

def Signature.literals (s : Signature) : List Json :=
  s.constructor.map Parameter.defaultValue ++ s.setters.flatMap Setter.literals

theorem Setter.ofSource?_toJson {m : Setter} (sorted : ∀ v ∈ m.literals, v.Sorted) :
    Setter.ofSource? (ofJson m.toJson) = some m := by
  have fields : (ofJson m.toJson).fields? ["method", "arguments", "optional"] =
    some [some (ofJson (Json.string m.method)), some (ofJson (Json.list Parameter.toJson m.parameters)),
      some (ofJson (Json.bool m.optional))] := rfl
  have parameters : list? Parameter.ofSource? (ofJson (Json.list Parameter.toJson m.parameters)) =
      some m.parameters :=
    list?_ofJson fun p member => Parameter.ofSource?_toJson (sorted _ (List.mem_map_of_mem member))
  simp only [Setter.ofSource?, fields, Option.bind_eq_bind, Option.bind_some, required_some, optional_some,
    parameters]
  rfl

namespace Signature
variable {s : Signature} (sorted : ∀ v ∈ s.literals, v.Sorted)
include sorted

theorem ofFields?_members (hook : Option Source)
    (hooked : Source.optional none (nullable string?) hook = some s.hook) :
    ofFields? (some (ofJson (Json.string s.className)))
      (some (ofJson (Json.list Parameter.toJson s.constructor)))
      (some (ofJson (Json.list Setter.toJson s.setters))) hook = some s := by
  have constructor : list? Parameter.ofSource? (ofJson (Json.list Parameter.toJson s.constructor)) =
      some s.constructor := list?_ofJson fun p member =>
    Parameter.ofSource?_toJson (sorted _ (List.mem_append_left _ (List.mem_map_of_mem member)))
  have setters : list? Setter.ofSource? (ofJson (Json.list Setter.toJson s.setters)) = some s.setters :=
    list?_ofJson fun m member => Setter.ofSource?_toJson fun v inside =>
      sorted v (List.mem_append_right _ (List.mem_flatMap.mpr ⟨m, member, inside⟩))
  simp only [ofFields?, required_some, optional_some, constructor, setters, hooked, Option.bind_eq_bind,
    Option.bind_some]
  rfl

end Signature

theorem Recipe.ofSource?_members (reading : Reading) {r : Recipe}
    (sorted : ∀ v ∈ r.signature.literals, v.Sorted) :
    Recipe.ofSource? reading (.object (ofMembers r.members)) = some r := by
  have scope := Scope.ofSource?_toJson reading r.scope
  obtain ⟨hook, fields, hooked⟩ : ∃ hook, fields?
      ["class", "scope", "constructor", "setters", "post_construct"] (.object (ofMembers r.members)) =
        some [some (ofJson (Json.string r.signature.className)), some (ofJson r.scope.toJson),
          some (ofJson (Json.list Parameter.toJson r.signature.constructor)),
          some (ofJson (Json.list Setter.toJson r.signature.setters)), hook] ∧
      Source.optional none (nullable string?) hook = some r.signature.hook := by
    obtain ⟨⟨className, constructor, setters, hook⟩, scope⟩ := r
    cases hook with
    | none => exact ⟨none, rfl, rfl⟩
    | some method => exact ⟨some (ofJson (Json.string method)), rfl, rfl⟩
  simp only [Recipe.ofSource?, fields, Option.bind_eq_bind, Option.bind_some, required_some,
    Signature.ofFields?_members sorted hook hooked, scope]

theorem Json.integral_list {α : Type} {write : α → Json} {xs : List α}
    (each : ∀ x ∈ xs, (write x).Integral) : (Json.list write xs).Integral := by
  change Json.IntegralItems (xs.map write)
  induction xs with
  | nil => trivial
  | cons x xs ih =>
    obtain ⟨first, later⟩ := List.forall_mem_cons.mp each
    exact ⟨first, ih later⟩

theorem Key.integral_toJson (k : Key) : k.toJson.Integral := ⟨trivial, trivial, trivial⟩

theorem Point.integral_toJson (p : Point) : p.toJson.Integral := ⟨trivial, trivial, trivial, trivial⟩

theorem Parameter.integral_toJson {p : Parameter} (integral : p.defaultValue.Integral) :
    p.toJson.Integral :=
  ⟨p.key.integral_toJson, trivial, integral, p.point.integral_toJson, trivial⟩

theorem Setter.integral_toJson {m : Setter} (integral : ∀ v ∈ m.literals, v.Integral) :
    m.toJson.Integral := by
  refine ⟨trivial, Json.integral_list fun p member => ?_, trivial, trivial⟩
  exact Parameter.integral_toJson (integral _ (List.mem_map_of_mem member))

theorem Json.integralMembers_optional (name : String) (text : Option String) :
    Json.IntegralMembers (Json.optionalMember name Json.string text) := by
  cases text with
  | none => trivial
  | some s => exact ⟨trivial, trivial⟩

theorem Recipe.integral_members {r : Recipe} (integral : ∀ v ∈ r.signature.literals, v.Integral) :
    Json.IntegralMembers r.members := by
  refine ⟨trivial, trivial, Json.integral_list fun p member => ?_, Json.integral_list fun m member => ?_,
    Json.integralMembers_optional _ _⟩
  · exact Parameter.integral_toJson (integral _ (List.mem_append_left _ (List.mem_map_of_mem member)))
  · exact Setter.integral_toJson fun v inside =>
      integral v (List.mem_append_right _ (List.mem_flatMap.mpr ⟨m, member, inside⟩))

end Wiring
