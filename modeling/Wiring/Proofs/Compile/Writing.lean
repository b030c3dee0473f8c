import Wiring.Compile.Pass
import Wiring.Proofs.Compile.Plan
import Wiring.Proofs.SortedMap
import Wiring.Proofs.Store

/-! # What a pass writes

Whichever writes fail, a pass changes the slot of a key only when there was no plan, and then to the
plan that its table gives.
-/
namespace Wiring.Compile
open Store

variable {σ : Type} [Store σ]

/-- Slots of a later store are the old ones or, where there was no plan, new plans from a table. -/
def Writes (scopes : Key → Option Scope) (table : Table) (s t : σ) : Prop :=
  ∀ key, slot t key = slot s key ∨ hasPlan s key = false ∧
    ∃ binding p, table.get? key = some binding ∧ planFor scopes table key binding = .ok p ∧
      slot t key = (true, .ok (some p))

instance {scopes : Key → Option Scope} {table : Table} :
    IsPreorder σ (Writes (σ := σ) scopes table) where
  refl _ _ := .inl rfl
  trans a b c first later key := by
    rcases later key with same | ⟨absent, b', p, found, ok, there⟩
    · rcases first key with same' | new
      · exact .inl (same.trans same')
      · exact .inr (by rwa [same])
    · rcases first key with same' | ⟨-, _, _, -, -, there'⟩
      · exact .inr ⟨(hasPlan_of_slot same').symm.trans absent, b', p, found, ok, there⟩
      · exact absurd ((congrArg Prod.fst there').symm.trans absent) nofun

theorem slots_of_writes {table : Table} {s t : σ} (empty : Empty s) (writes : Writes noScopes table s t)
    (key : Key) : slot t key = (false, .ok none) ∨
      ∃ p, Planned table key p ∧ slot t key = (true, .ok (some p)) := by
  rcases writes key with same | ⟨-, binding, p, bound, compiled, there⟩
  · exact .inl (same.trans (empty key))
  · exact .inr ⟨p, ⟨binding, bound, compiled⟩, there⟩

/-- How a pass gets from one state to the next with a binding, and what becomes of the binding. -/
inductive EntryRun (scopes : Key → Option Scope) (table : Table) (key : Key) (binding : Binding) (s : σ) :
    Fate → σ → Prop
  | skipped : hasPlan s key = true → EntryRun scopes table key binding s .skipped s
  | invalid {e : Error} : hasPlan s key = false → planFor scopes table key binding = .error e →
      EntryRun scopes table key binding s (.failed e) s
  | refused {p : Plan} {e : Error} {t : σ} : hasPlan s key = false →
      planFor scopes table key binding = .ok p → (writePlan p).runOn s = (.error e, t) →
      EntryRun scopes table key binding s (.failed e) t
  | compiled {p : Plan} {t : σ} : hasPlan s key = false →
      planFor scopes table key binding = .ok p → (writePlan p).runOn s = (.ok (), t) →
      EntryRun scopes table key binding s .compiled t

theorem runOn_entry {capability : Capability σ} {scopes : Key → Option Scope}
    (fixed : capability.Fixed scopes) (table : Table) (key : Key) (binding : Binding) (s : σ) :
    ∃ fate t, (entry capability table key binding).runOn s = (.ok fate, t) ∧
      EntryRun scopes table key binding s fate t := by
  simp only [entry, Act.runOn_bind, Act.runOn_get]
  cases present : hasPlan s key with
  | true => exact ⟨_, s, rfl, .skipped present⟩
  | false =>
    simp only [Bool.false_eq_true, if_false, Act.runOn_bind, Act.runOn_attempt, runOn_plan fixed]
    cases compiled : planFor scopes table key binding with
    | error e => exact ⟨_, s, rfl, .invalid present compiled⟩
    | ok p =>
      simp only
      rcases wrote : (writePlan p).runOn s with ⟨e | _, t⟩
      · exact ⟨_, t, rfl, .refused present compiled wrote⟩
      · exact ⟨_, t, rfl, .compiled present compiled wrote⟩

section
variable [LawfulStore σ] {capability : Capability σ} {scopes : Key → Option Scope}
  (fixed : capability.Fixed scopes) {table : Table}

theorem EntryRun.writes {key : Key} {binding : Binding} {s t : σ} {fate : Fate}
    (run : EntryRun scopes table key binding s fate t) (found : table.get? key = some binding) :
    Writes scopes table s t := by
  cases run with
  | skipped _ => exact refl_of _ s
  | invalid _ _ => exact refl_of _ s
  | refused _ _ wrote => exact fun q => .inl (LawfulStore.slot_of_refused wrote q)
  | compiled absent compiled wrote =>
    intro q
    rw [LawfulStore.slot_writePlan wrote q, planFor_key compiled]
    by_cases hq : q = key
    · subst hq
      exact .inr ⟨absent, binding, _, found, compiled, if_pos rfl⟩
    · exact .inl (if_neg hq)

theorem EntryRun.present_of_worked {key : Key} {binding : Binding} {s t : σ} {fate : Fate}
    (run : EntryRun scopes table key binding s fate t) (worked : fate.error? = none) :
    hasPlan t key = true := by
  cases run with
  | skipped present => exact present
  | invalid _ _ => cases worked
  | refused _ _ _ => cases worked
  | compiled _ compiled wrote =>
    have slots := LawfulStore.slot_writePlan wrote key
    rw [if_pos (planFor_key compiled).symm] at slots
    exact congrArg Prod.fst slots

include fixed

theorem writes_entry {key : Key} {binding : Binding} (found : table.get? key = some binding) :
    (entry capability table key binding).Moves (Writes scopes table) := by
  intro s
  obtain ⟨fate, t, ran, run⟩ := runOn_entry fixed table key binding s
  rw [ran]
  exact run.writes found

theorem writes_entries {rest : List (Key × Binding)}
    (found : ∀ e ∈ rest, table.get? e.1 = some e.2) :
    (entries capability table rest).Moves (Writes scopes table) := by
  induction rest with
  | nil => exact Act.moves_of_keeps fun _ => rfl
  | cons e rest ih =>
    obtain ⟨first, others⟩ := List.forall_mem_cons.mp found
    exact (writes_entry fixed first).bind fun _ =>
      (ih others).bind fun _ => Act.moves_of_keeps fun _ => rfl

theorem writes_pass (time : Instant) : (pass capability table time).Moves (Writes scopes table) := by
  refine (writes_entries fixed fun e he => SortedMap.mem_entries_iff.mp he).bind fun fates => ?_
  refine Act.Moves.bind (fun s => ?_) fun _ => ?_
  · cases wrote : (writeSnapshot (Snapshot.ofTable time table)).runOn s with
    | mk r t => exact fun key => .inl (LawfulStore.slot_writeSnapshot wrote key)
  · cases failures fates <;> exact Act.moves_of_keeps fun _ => rfl

theorem hasPlan_of_entries {rest : List (Key × Binding)}
    (found : ∀ e ∈ rest, table.get? e.1 = some e.2) {s t : σ} {fates : List (Key × Fate)}
    (ran : (entries capability table rest).runOn s = (.ok fates, t)) (worked : failures fates = []) :
    ∀ e ∈ rest, hasPlan t e.1 = true := by
  induction rest generalizing s fates with
  | nil => simp
  | cons e rest ih =>
    obtain ⟨key, binding⟩ := e
    obtain ⟨-, others⟩ := List.forall_mem_cons.mp found
    unfold entries at ran
    obtain ⟨fate, u, first, ran⟩ := Act.runOn_bind_eq_ok.mp ran
    obtain ⟨fates', v, later, ran⟩ := Act.runOn_bind_eq_ok.mp ran
    cases ran
    obtain ⟨ok, oks⟩ : fate.error? = none ∧ failures fates' = [] := by
      cases fate with
      | failed e => simp [failures, Fate.error?] at worked
      | skipped | compiled => exact ⟨rfl, worked⟩
    refine List.forall_mem_cons.mpr ⟨?_, ih others later oks⟩
    obtain ⟨_, _, ran, run⟩ := runOn_entry fixed table key binding s
    rw [first] at ran
    cases ran
    have held := run.present_of_worked ok
    have writes := writes_entries fixed others u
    rw [later] at writes
    rcases writes key with same | ⟨absent, -⟩
    · exact (hasPlan_of_slot same).trans held
    · rw [held] at absent
      cases absent

/-- A pass that succeeds leaves a plan for every key of the table, and the snapshot of the table. -/
theorem hasPlan_of_pass {time : Instant} {s t : σ} {r : Report}
    (ran : (pass capability table time).runOn s = (.ok r, t)) :
    (∀ {key binding}, table.get? key = some binding → hasPlan t key = true) ∧
      readSnapshot t = .ok (some (Snapshot.ofTable time table)) := by
  have found : ∀ e ∈ table.entries, table.get? e.1 = some e.2 := fun e => SortedMap.mem_entries_iff.mp
  unfold pass passOver at ran
  obtain ⟨fates, u, first, ran⟩ := Act.runOn_bind_eq_ok.mp ran
  obtain ⟨_, w, wrote, ran⟩ := Act.runOn_bind_eq_ok.mp ran
  cases failed : failures fates with
  | cons e es =>
    rw [failed] at ran
    cases ran
  | nil =>
    rw [failed] at ran
    cases ran
    refine ⟨fun {key binding} bound => ?_, LawfulStore.snapshot_writeSnapshot wrote⟩
    have held := hasPlan_of_entries fixed found first failed _ (SortedMap.mem_entries_iff.mpr bound)
    exact (hasPlan_of_slot (LawfulStore.slot_writeSnapshot wrote key)).trans held

end

end Wiring.Compile
