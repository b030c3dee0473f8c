import Wiring.Module
import Wiring.Proofs.Demands
import Wiring.Proofs.Journal.Interpreter

/-! # Recipes of registered classes

A binder takes signatures from a registry, and so does an injector that discovers classes. So the recipes of
a table are those of registered classes, and an interpreter of the table can carry them out.
-/
namespace Wiring
open Act Wiring.Runtime

variable {ι ρ : Type} {registry : Registry}

/-- The signature is that of the class registered by its name. -/
def Registry.Knows (registry : Registry) (signature : Signature) : Prop :=
  registry.signature? signature.className = some signature

theorem Registry.Complete.knows (complete : registry.Complete) {name : String} {signature : Signature}
    (found : registry.signature? name = some signature) : registry.Knows signature := by
  obtain ⟨c, registered, rfl⟩ := Option.map_eq_some_iff.mp found
  obtain rfl : c.signature.className = name := (complete name c registered).1
  exact found

theorem Blueprint.backed_of_knows {α : Type} (complete : registry.Complete) {signature : Signature}
    (knows : registry.Knows signature) {need : Bool → α → Need ι} {arguments : List α} {steps : List (Step α)}
    (named : ∀ step ∈ steps, ∃ setter ∈ signature.setters, setter.method = step.method) :
    ∃ c, (Blueprint.ofAssembly need signature.className arguments steps signature.hook).Backed registry c := by
  obtain ⟨c, registered, same⟩ := Option.map_eq_some_iff.mp knows
  have own : c.Complete := (complete _ c registered).2
  refine ⟨c, registered, fun step member => ?_, fun method hook => own.hook method (same ▸ hook)⟩
  obtain ⟨step, listed, rfl⟩ := List.mem_map.mp member
  obtain ⟨setter, declared, method⟩ := named step listed
  exact method ▸ own.setters setter (same ▸ declared)

/-- A binding with the recipe of a registered class, if it has any. -/
def Binding.Known (registry : Registry) : Binding → Prop
  | .build recipe | .provided recipe _ _ => registry.Knows recipe.signature
  | .literal _ => True

def Table.Known (registry : Registry) (table : Table) : Prop :=
  ∀ {key binding}, table.get? key = some binding → binding.Known registry

/-- The tables that come of a registry: a binder binds keys in a table, whether or not it comes to the end of
a module, and an injector looks up the binding of a key. -/
inductive Registry.Produces (registry : Registry) : Table → Prop
  | empty : registry.Produces SortedMap.empty
  | bound {table : Table} (clauses : List Clause) : registry.Produces table →
    registry.Produces ((Module.applyAll registry.signature? clauses).runOn table).2
  | discovered {s : Interpreter.State} (key : Key) : registry.Produces s.own →
    registry.Produces ((Interpreter.bindingFor registry key).runOn s).2.own

theorem Table.known_empty (registry : Registry) : Table.Known registry SortedMap.empty := by
  intro key binding found
  rw [SortedMap.get?_empty] at found
  cases found

theorem Table.Known.insert {table : Table} (known : table.Known registry) {binding : Binding}
    (own : binding.Known registry) (key : Key) : Table.Known registry (table.insert key binding) := by
  intro q other found
  rw [SortedMap.get?_insert] at found
  by_cases same : q = key
  · rw [if_pos same] at found
    cases found
    exact own
  · rw [if_neg same] at found
    exact known found

section
variable (complete : registry.Complete)
include complete

theorem Registry.Complete.knows_of_recipe {name : String} {scope : Scope} {recipe : Recipe}
    (made : Module.recipe registry.signature? name scope = .ok recipe) : registry.Knows recipe.signature := by
  unfold Module.recipe at made
  cases found : registry.signature? name with
  | none =>
    rw [found] at made
    cases made
  | some signature =>
    rw [found] at made
    cases made
    exact complete.knows found

theorem Registry.Complete.known_of_binding {s : Statement} {binding : Binding}
    (made : Module.binding registry.signature? s = .ok binding) : binding.Known registry := by
  unfold Module.binding at made
  cases target : s.target with
  | literal value =>
    rw [target] at made
    cases made
    trivial
  | itself | ofClass className | provider className context =>
    simp only [target] at made
    obtain ⟨recipe, named, rfl⟩ := map_eq_ok_iff.mp made
    exact complete.knows_of_recipe named

theorem moves_bind (s : Statement) :
    (Module.bind registry.signature? s).Moves (Preserves (Table.Known registry)) := by
  intro table known
  unfold Module.bind
  simp only [runOn_bind, runOn_liftExcept]
  cases made : Module.binding registry.signature? s with
  | error e => exact known
  | ok binding => exact known.insert (complete.known_of_binding made) s.key

end

mutual

theorem moves_apply (complete : registry.Complete) (clause : Clause) :
    (Module.apply registry.signature? clause).Moves (Preserves (Table.Known registry)) := by
  cases clause with
  | bind s => exact moves_bind complete s
  | install clauses => exact moves_applyAll complete clauses

theorem moves_applyAll (complete : registry.Complete) (clauses : List Clause) :
    (Module.applyAll registry.signature? clauses).Moves (Preserves (Table.Known registry)) := by
  cases clauses with
  | nil => exact moves_of_keeps fun _ => rfl
  | cons clause rest => exact (moves_apply complete clause).bind fun _ => moves_applyAll complete rest

end

section
variable (complete : registry.Complete)
include complete

/-- What is known of a key is the recipe of a registered class, by the table or by the name. -/
theorem Table.Known.of_known {table : Table} (known : table.Known registry) {key : Key} {binding : Binding}
    (found : Interpreter.known registry table key = some binding) : binding.Known registry := by
  unfold Interpreter.known at found
  cases bound : table.get? key with
  | some given =>
    rw [bound] at found
    cases found
    exact known bound
  | none =>
    simp only [bound] at found
    by_cases plain : key.isPlain = true
    · rw [if_pos plain] at found
      obtain ⟨signature, signed, rfl⟩ := Option.map_eq_some_iff.mp found
      exact complete.knows signed
    · rw [if_neg plain] at found
      cases found

theorem Table.Known.learn {table : Table} (known : table.Known registry) (key : Key) :
    Table.Known registry (Interpreter.learn registry table key) := by
  intro q binding found
  rw [Interpreter.get?_learn] at found
  by_cases same : q = key
  · rw [if_pos same] at found
    exact known.of_known complete found
  · rw [if_neg same] at found
    exact known found

theorem Registry.Produces.known {table : Table} (produced : registry.Produces table) :
    Table.Known registry table := by
  induction produced with
  | empty => exact Table.known_empty registry
  | bound clauses _ ih => exact moves_applyAll complete clauses _ ih
  | discovered key _ ih =>
    rw [Interpreter.runOn_bindingFor]
    exact ih.learn complete key

theorem Interpreter.backed_job {binding : Binding} (known : binding.Known registry) {b : Blueprint Question}
    (made : (job binding).blueprint? = some b) : ∃ c, b.Backed registry c := by
  cases binding with
  | literal value => cases made
  | build recipe | provided recipe scope context =>
    cases made
    refine Blueprint.backed_of_knows complete known fun step member => ?_
    obtain ⟨setter, declared, rfl⟩ := List.mem_map.mp member
    exact ⟨setter, declared, rfl⟩

theorem Interpreter.carriesOut {table : Table} (known : table.Known registry) (born : Nat)
    (requests : List (Key × Option Point)) :
    (injector registry).CarriesOut (requests.map errand) (.start born table) := by
  refine Injector.carriesOut_of_backed (P := Table.Known registry) (fun q s here => ?_)
    (fun {q s scope work t} here found b made => ?_) (List.forall_mem_map.mpr fun _ _ _ => id) known
  · simp only [injector, finder]
    cases Interpreter.known registry s.own q.key with
    | none => exact here
    | some binding => exact Table.Known.learn complete here q.key
  · simp only [injector, finder] at found
    cases bound : Interpreter.known registry s.own q.key with
    | none =>
      rw [bound] at found
      cases found
    | some binding =>
      rw [bound] at found
      cases found
      exact backed_job complete (Table.Known.of_known complete here bound) made

end
end Wiring
