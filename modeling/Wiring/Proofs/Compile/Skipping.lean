import Wiring.Proofs.Compile.Exact
import Wiring.Proofs.SortedMap

/-! # Setters that plans leave out

An optional setter with a parameter that is not satisfiable makes no demands on a plan and gets no call in
it, so a recipe compiles as it would without the setter.
-/
namespace Wiring

/-- The class with one more setter, after so many of its own. -/
def Signature.adding (i : Nat) (setter : Setter) (signature : Signature) : Signature :=
  { signature with setters := signature.setters.take i ++ setter :: signature.setters.drop i }

def Binding.adding (i : Nat) (setter : Setter) : Binding → Binding
  | .build recipe => .build { recipe with signature := recipe.signature.adding i setter }
  | .literal value => .literal value
  | .provided recipe scope context =>
    .provided { recipe with signature := recipe.signature.adding i setter } scope context

theorem Binding.scope_adding (i : Nat) (setter : Setter) (binding : Binding) :
    (binding.adding i setter).scope = binding.scope := by
  cases binding <;> rfl

namespace Compile

/-- Two tables bind the same keys in the same scopes. -/
def SameScopes (table table' : Table) : Prop :=
  ∀ key, (table'.get? key).map Binding.scope = (table.get? key).map Binding.scope

theorem sameScopes_insert {table : Table} {key : Key} {binding binding' : Binding}
    (bound : table.get? key = some binding) (scope : binding'.scope = binding.scope) :
    SameScopes table (table.insert key binding') := by
  intro q
  rw [SortedMap.get?_insert]
  split
  · next same => rw [same, bound, Option.map_some, Option.map_some, scope]
  · rfl

section
variable {table table' : Table} (same : SameScopes table table')
include same

theorem SameScopes.get?_eq_none {key : Key} : table'.get? key = none ↔ table.get? key = none := by
  rw [← Option.map_eq_none_iff (f := Binding.scope), same key, Option.map_eq_none_iff]

theorem Capability.Steady.of_sameScopes {σ : Type} {capability : Capability σ}
    {scopes : Key → Option Scope} {I : σ → Prop} (steady : capability.Steady scopes table I) :
    capability.Steady scopes table' I :=
  fun key absent => steady key (same.get?_eq_none.mp absent)

theorem operandFor_congr (scopes : Key → Option Scope) :
    operandFor scopes table' = operandFor scopes table := by
  funext p
  have scope := same p.key
  unfold operandFor
  cases bound : table.get? p.key with
  | none => rw [same.get?_eq_none.mpr bound]
  | some binding =>
    rw [bound] at scope
    obtain ⟨binding', bound', scope⟩ := Option.map_eq_some_iff.mp scope
    simp only [bound', scope]

theorem callsFor_congr (scopes : Key → Option Scope) (setters : List Setter) :
    callsFor scopes table' setters = callsFor scopes table setters := by
  induction setters with
  | nil => rfl
  | cons setter rest ih =>
    simp only [callsFor, callFor?, operandsFor, operandFor_congr same, ih]

theorem planFor_congr (scopes : Key → Option Scope) (key : Key) (binding : Binding) :
    planFor scopes table' key binding = planFor scopes table key binding := by
  cases binding <;>
    simp only [planFor, bodyFor, assemblyFor, operandsFor, operandFor_congr same, callsFor_congr same]

end

section
variable {scopes : Key → Option Scope} {table : Table} {setter : Setter} {dead : Parameter}
  (optional : setter.optional = true) (declared : dead ∈ setter.parameters)
  (missing : ¬ Satisfiable scopes table dead)
include optional declared missing

theorem assemblyFor_adding (i : Nat) (signature : Signature) :
    assemblyFor scopes table (signature.adding i setter) = assemblyFor scopes table signature := by
  have uncallable : ¬ Callable scopes table setter := fun all => missing (all dead declared)
  have demands : essential (signature.adding i setter) = essential signature := by
    rw [essential, essential, Signature.adding, List.filter_append,
      List.filter_cons_of_neg (by simp [optional]), ← List.filter_append, List.take_append_drop]
  have made : assembled scopes table (signature.adding i setter) = assembled scopes table signature := by
    rw [assembled, assembled, Signature.adding, List.filter_append,
      List.filter_cons_of_neg (by simpa using uncallable), ← List.filter_append, List.take_append_drop]
  rw [assemblyFor_eq, assemblyFor_eq, demands, made]

theorem planFor_adding (i : Nat) (key : Key) (binding : Binding) :
    planFor scopes table key (binding.adding i setter) = planFor scopes table key binding := by
  cases binding with
  | literal value => rfl
  | build recipe | provided recipe scope context =>
    simp only [planFor, bodyFor, Binding.adding, assemblyFor_adding optional declared missing]
    rfl

/-- The plan, or the error, of a binding is the same with the setter, over a table that has it too. -/
theorem plan_adding {σ : Type} {capability : Capability σ} {I : σ → Prop}
    (steady : capability.Steady scopes table I) {s : σ} (inv : I s) {key : Key} {binding : Binding}
    (bound : table.get? key = some binding) (i : Nat) :
    ((plan capability (table.insert key (binding.adding i setter)) key
      (binding.adding i setter)).runOn s).1 = ((plan capability table key binding).runOn s).1 := by
  have same : SameScopes table (table.insert key (binding.adding i setter)) :=
    sameScopes_insert bound (binding.scope_adding i setter)
  rw [(computes_plan (steady.of_sameScopes same) _ _ s inv).2, (computes_plan steady _ _ s inv).2,
    planFor_congr same, planFor_adding optional declared missing]

end

end Compile
end Wiring
