import Wiring.Class
import Wiring.Proofs.Act
import Wiring.Proofs.SortedMap

/-! # What classes make and declare

An object that a class makes or changes is of the type of the class. A class made by the builders has a method
for everything that its signature names, however often the names repeat, and registered classes are found by
their own names.
-/
namespace Wiring

namespace Class
variable {c : Class} {o done : Object}

theorem make_eq_ok {id : Nat} {arguments : List Value} (h : c.make id arguments = .ok o) :
    ∃ kept, c.construct arguments = .ok kept ∧
      o = ⟨id, c.type, c.name, [⟨constructorMethod, arguments, kept⟩]⟩ := by
  unfold make at h
  cases constructed : c.construct arguments with
  | error e =>
    rw [constructed] at h
    cases h
  | ok kept =>
    rw [constructed] at h
    cases h
    exact ⟨kept, rfl, rfl⟩

theorem invoke_eq_ok {method : String} {arguments : List Value}
    (h : c.invoke o method arguments = .ok done) :
    ∃ call kept, c.methods.get? method = some call ∧ call o arguments = .ok kept ∧
      done = o.record ⟨method, arguments, kept⟩ := by
  unfold invoke at h
  cases found : c.methods.get? method with
  | none =>
    rw [found] at h
    cases h
  | some call =>
    simp only [found] at h
    by_cases same : o.type = c.type
    · rw [if_pos same] at h
      cases called : call o arguments with
      | error e =>
        rw [called] at h
        cases h
      | ok kept =>
        rw [called] at h
        cases h
        exact ⟨call, kept, rfl, called, rfl⟩
    · rw [if_neg same] at h
      cases h

theorem hookOf_eq_ok {context : Option String} {point : Option Point} {hook : Hook}
    (h : c.hookOf o context point = .ok hook) :
    ∃ provide, c.provide = some provide ∧ hook = provide o context point := by
  unfold hookOf at h
  cases provides : c.provide with
  | none =>
    rw [provides] at h
    cases h
  | some provide =>
    simp only [provides] at h
    by_cases same : o.type = c.type
    · rw [if_pos same] at h
      cases h
      exact ⟨provide, rfl, rfl⟩
    · rw [if_neg same] at h
      cases h

theorem type_of_make {id : Nat} {arguments : List Value} (h : c.make id arguments = .ok o) :
    o.type = c.type := by
  obtain ⟨kept, -, rfl⟩ := make_eq_ok h
  rfl

/-- The classes that the builders make, with any names of methods. -/
inductive Defined : Class → Prop
  | define (name type : String) (construct : Constructor) : Defined (define name type construct)
  | constructorParameter {c : Class} (d : Declared) : Defined c → Defined (c.constructorParameter d)
  | setter {c : Class} (optional : Bool) (method : String) (parameters : List Declared) (call : Method) :
    Defined c → Defined (c.setter optional method parameters call)
  | postConstruct {c : Class} (method : String) (call : Object → Except Error (List Value)) :
    Defined c → Defined (c.postConstruct method call)
  | provides {c : Class} (provide : Provide) : Defined c → Defined (c.provides provide)

def Has (c : Class) (method : String) : Prop := ∃ call, c.methods.get? method = some call

/-- A class that has a method for each setter and for the hook of its signature. -/
structure Complete (c : Class) : Prop where
  setters : ∀ setter ∈ c.signature.setters, c.Has setter.method
  hook : ∀ method, c.signature.hook = some method → c.Has method

theorem has_insert {methods : SortedMap String Method} {name method : String} {call : Method}
    (h : method = name ∨ ∃ call, methods.get? method = some call) :
    ∃ call', (methods.insert name call).get? method = some call' := by
  rw [SortedMap.get?_insert]
  by_cases same : method = name
  · exact ⟨call, if_pos same⟩
  · rw [if_neg same]
    exact h.resolve_left same

/-- A method may be put in the place of another one, but none is ever taken away. -/
theorem Defined.complete (defined : c.Defined) : c.Complete := by
  induction defined with
  | define name type construct => exact ⟨nofun, nofun⟩
  | constructorParameter _ _ ih | provides _ _ ih => exact ⟨ih.setters, ih.hook⟩
  | setter optional method parameters call _ ih =>
    refine ⟨fun setter member => ?_, fun hook named => has_insert (.inr (ih.hook hook named))⟩
    rcases List.mem_append.mp member with old | new
    · exact has_insert (.inr (ih.setters setter old))
    · obtain rfl := List.mem_singleton.mp new
      exact has_insert (.inl rfl)
  | postConstruct method call _ ih =>
    refine ⟨fun setter member => has_insert (.inr (ih.setters setter member)), fun hook named => ?_⟩
    exact has_insert (.inl (Option.some.inj named).symm)

end Class

namespace Registry

def Complete (registry : Registry) : Prop :=
  ∀ name c, registry.get? name = some c → c.name = name ∧ c.Complete

theorem Complete.register {registry : Registry} (complete : registry.Complete) {c : Class}
    (own : c.Complete) : (registry.register c).Complete := by
  intro name d found
  unfold Registry.register at found
  rw [SortedMap.get?_insert] at found
  by_cases same : name = c.name
  · rw [if_pos same] at found
    cases found
    exact ⟨same.symm, own⟩
  · rw [if_neg same] at found
    exact complete name d found

theorem complete_ofClasses {classes : List Class} (defined : ∀ c ∈ classes, c.Defined) :
    (Registry.ofClasses classes).Complete := by
  have step : ∀ (rest : List Class), (∀ c ∈ rest, c.Defined) → ∀ r : Registry, r.Complete →
      (rest.foldl Registry.register r).Complete := by
    intro rest
    induction rest with
    | nil => exact fun _ _ complete => complete
    | cons c rest ih =>
      intro each r complete
      obtain ⟨first, others⟩ := List.forall_mem_cons.mp each
      exact ih others _ (complete.register first.complete)
  refine step classes defined SortedMap.empty fun name c found => ?_
  rw [SortedMap.get?_empty] at found
  cases found

end Registry
end Wiring
