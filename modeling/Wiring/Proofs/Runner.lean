import Wiring.Proofs.Compile.Plan
import Wiring.Proofs.SortedMap
import Wiring.Proofs.Store
import Wiring.Runner
import Mathlib.Data.List.Perm.Subperm

/-! # The plans of a runner

A runner serves a table if its store holds the snapshot of the table and no plans but those that the
table gives. Which plan such a runner runs for a key is then a function of the table, whether it has
the plan in memory, reads it from the store or compiles it now.
-/
namespace Wiring.Runner
open Act Store Compile

variable {σ : Type} [Store σ]

/-- A memory that knows a table and no plans but those of the table. -/
structure Serves (table : Table) (m : Memory σ) : Prop where
  slots : ∀ key, slot m.store key = (false, .ok none) ∨
    ∃ p, Planned table key p ∧ slot m.store key = (true, .ok (some p))
  snapshot : ∃ time, readSnapshot m.store = .ok (some (Snapshot.ofTable time table))
  plans : ∀ {key p}, m.plans.get? key = some p → Planned table key p
  table : m.table = none ∨ m.table = some table

theorem Serves.planned {table : Table} {m : Memory σ} (serves : Serves table m) {key : Key} {p : Plan}
    (found : readPlan m.store key = .ok (some p)) : Planned table key p := by
  rcases serves.slots key with absent | ⟨q, planned, there⟩
  · cases (congrArg Prod.snd absent).symm.trans found
  · cases (congrArg Prod.snd there).symm.trans found
    exact planned

structure Holds (table : Table) (m : Memory σ) : Prop where
  serves : Serves table m
  held : ∀ {key p}, Planned table key p → slot m.store key = (true, .ok (some p))

/-- A key that a table does not bind and that names no class to bind. -/
def Unbindable (registry : Registry) (table : Table) (key : Key) : Prop :=
  table.get? key = none ∧ (key.isPlain = false ∨ registry.signature? key.interface = none)

/-- A key whose requests the table decides: it binds the key, or nothing can. -/
def Answerable (registry : Registry) (table : Table) (key : Key) : Prop :=
  (∃ binding, table.get? key = some binding) ∨ Unbindable registry table key

/-- The plan that a runner of a table runs for a key that a point asks for. -/
def planOutcome (table : Table) (key : Key) (point : Option Point) : Except Error Plan :=
  match table.get? key with
  | some binding => Compile.planFor noScopes table key binding
  | none => .error (.unbound key point)

theorem planOutcome_eq {table : Table} {key : Key} {p : Plan} (h : Planned table key p)
    (point : Option Point) : planOutcome table key point = .ok p := by
  obtain ⟨binding, bound, compiled⟩ := h
  simp only [planOutcome, bound, compiled]

variable {table : Table} {s : State σ} (serves : Serves table s.own)

theorem checkVersion_planned {key : Key} {p : Plan} (h : Planned table key p) :
    checkVersion p = .ok () := by
  obtain ⟨binding, -, compiled⟩ := h
  exact if_pos (planFor_version compiled)

include serves

theorem serves_remember {key : Key} {p : Plan} (h : Planned table key p) :
    Serves table ({ s with own.plans := s.own.plans.insertIfNew p.key p } : State σ).own where
  __ := serves
  plans {q r} found := by
    rcases SortedMap.get?_of_insertIfNew found with old | ⟨rfl, rfl⟩
    · exact serves.plans old
    · exact h.key_eq.symm ▸ h

theorem runOn_remember {key : Key} {p : Plan} (h : Planned table key p) :
    (remember p).runOn s =
      (.ok p, { s with own.plans := s.own.plans.insertIfNew p.key p }) := by
  simp only [remember, runOn_bind, runOn_modify, runOn_get, runOn_pure, SortedMap.get?_insertIfNew,
    if_true, Option.getD_some, Prod.mk.injEq, Except.ok.injEq, and_true]
  cases old : s.own.plans.get? p.key with
  | none => rfl
  | some p' =>
    rw [h.key_eq] at old
    exact (serves.plans old).unique h

theorem runOn_load_some {key : Key} {p : Plan} (h : Planned table key p)
    (there : slot s.own.store key = (true, .ok (some p))) :
    ∃ m, Serves table m ∧ m.store = s.own.store ∧
      (load key).runOn s = (.ok (some p), { s with own := m }) := by
  simp only [load, runOn_bind, runOn_get]
  cases held : s.own.plans.get? key with
  | some q =>
    obtain rfl := (serves.plans held).unique h
    exact ⟨s.own, serves, rfl, rfl⟩
  | none =>
    have read : readPlan s.own.store key = .ok (some p) := congrArg Prod.snd there
    refine ⟨_, serves_remember serves h, rfl, ?_⟩
    simp only [runOn_bind, runOn_get, runOn_liftExcept, read, checkVersion_planned h,
      runOn_remember serves h, runOn_pure]

omit serves in
theorem runOn_load_none {key : Key} (absent : slot s.own.store key = (false, .ok none)) :
    (load key).runOn s = (.ok (s.own.plans.get? key), s) := by
  simp only [load, runOn_bind, runOn_get]
  cases s.own.plans.get? key with
  | some q => rfl
  | none =>
    have read : readPlan s.own.store key = .ok none := congrArg Prod.snd absent
    simp only [runOn_bind, runOn_get, runOn_liftExcept, read, runOn_pure]

theorem absent_of_unbound {key : Key} (unbound : table.get? key = none) :
    slot s.own.store key = (false, .ok none) ∧ s.own.plans.get? key = none := by
  have unplanned : ∀ p, ¬ Planned table key p := fun p ⟨b, bound, _⟩ => by
    rw [unbound] at bound
    cases bound
  constructor
  · rcases serves.slots key with absent | ⟨p, planned, -⟩
    · exact absent
    · exact absurd planned (unplanned p)
  · cases held : s.own.plans.get? key with
    | none => rfl
    | some p => exact absurd (serves.plans held) (unplanned p)

theorem fixedAt_scopeOf : (Capability.compiling (scopeOf (σ := σ))).FixedAt noScopes table s := by
  intro key unbound
  obtain ⟨absent, none⟩ := absent_of_unbound serves unbound
  have loaded : load key s = (.ok Option.none, s) := by
    rw [← none]
    exact runOn_load_none absent
  change scopeOf key s = _
  unfold scopeOf
  simp only [bind, StateT.bind, ExceptT.run, loaded]
  rfl

theorem serves_snapshotTable :
    Serves table ({ s with own.table := some table } : State σ).own where
  __ := serves
  table := .inr rfl

theorem runOn_snapshotTable :
    snapshotTable.runOn s = (.ok table, { s with own.table := some table }) := by
  simp only [snapshotTable, runOn_bind, runOn_get]
  rcases serves.table with none | held
  · obtain ⟨time, read⟩ := serves.snapshot
    simp only [none, runOn_get, read, runOn_bind, runOn_liftExcept, Snapshot.ofTable, Snapshot.toTable,
      if_true, SortedMap.ofList_entries, runOn_modify, runOn_pure]
  · simp only [held, runOn_pure]
    rw [← held]

omit serves in
theorem withClass_eq {registry : Registry} {key : Key}
    (h : Answerable registry table key) :
    withClass registry key table = table := by
  unfold withClass
  cases plain : key.isPlain with
  | false => rfl
  | true =>
    rcases h with ⟨binding, bound⟩ | ⟨-, named | unknown⟩
    · cases registry.signature? key.interface with
      | none => rfl
      | some signature => exact SortedMap.insertIfNew_of_get? _ bound
    · rw [plain] at named
      cases named
    · simp only [unknown, if_true]

variable [LawfulStore σ] (refuses : Refuses σ .none)

include refuses in
theorem runOn_writePlan {key : Key} {p : Plan} (h : Planned table key p) :
    ∃ m, Serves table m ∧ (onStore (writePlan p)).runOn s = (.ok (), { s with own := m }) := by
  have worked := refuses.plan p s.own.store
  simp only [onStore, runOn_onPart]
  cases wrote : (writePlan p).runOn s.own.store with
  | mk r t =>
    rw [wrote] at worked
    obtain rfl : r = .ok () := worked
    have slots := LawfulStore.slot_writePlan wrote
    obtain ⟨time, read⟩ := serves.snapshot
    refine ⟨⟨t, s.own.plans, s.own.table⟩, ⟨fun q => ?_,
      ⟨time, (LawfulStore.snapshot_writePlan wrote).trans read⟩, serves.plans, serves.table⟩, rfl⟩
    rw [slots q, h.key_eq]
    by_cases hq : q = key
    · rw [if_pos hq, hq]
      exact .inr ⟨p, h, rfl⟩
    · rw [if_neg hq]
      exact serves.slots q

include refuses in
theorem runOn_compile {registry : Registry} {key : Key}
    (answerable : Answerable registry table key) :
    ∃ m, Serves table m ∧ (compile registry key).runOn s =
      (match table.get? key with
        | some binding => (Compile.planFor noScopes table key binding).map some
        | none => .ok none, { s with own := m }) := by
  have serves' := serves_snapshotTable serves
  simp only [compile, runOn_bind, runOn_snapshotTable serves, withClass_eq answerable]
  cases bound : table.get? key with
  | none => exact ⟨_, serves', rfl⟩
  | some binding =>
    simp only [runOn_bind, runOn_plan_of_fixedAt (fixedAt_scopeOf serves')]
    cases compiled : Compile.planFor noScopes table key binding with
    | error e => exact ⟨_, serves', rfl⟩
    | ok p =>
      have planned : Planned table key p := ⟨binding, bound, compiled⟩
      obtain ⟨m, serving, wrote⟩ := runOn_writePlan serves' refuses planned
      have remembered := runOn_remember (s := ⟨s.born, s.singletons, s.active, m⟩) serving planned
      simp only [wrote, remembered]
      exact ⟨_, serves_remember (s := ⟨s.born, s.singletons, s.active, m⟩) serving planned, rfl⟩

include refuses in
/-- The plan that is run, or why there is none, depends on the table alone. -/
theorem runOn_planFor {registry : Registry} {key : Key} (point : Option Point)
    (answerable : Answerable registry table key) :
    ∃ m, Serves table m ∧ (planFor registry key point).runOn s =
      (planOutcome table key point, { s with own := m }) := by
  simp only [planFor, runOn_bind]
  rcases serves.slots key with absent | ⟨p, planned, there⟩
  · rw [runOn_load_none absent]
    cases held : s.own.plans.get? key with
    | some p =>
      rw [planOutcome_eq (serves.plans held)]
      exact ⟨s.own, serves, rfl⟩
    | none =>
      obtain ⟨m, serving, ran⟩ := runOn_compile serves refuses answerable
      refine ⟨m, serving, ?_⟩
      simp only [runOn_bind, ran, planOutcome]
      cases table.get? key with
      | none => rfl
      | some binding =>
        simp only
        cases Compile.planFor noScopes table key binding <;> rfl
  · obtain ⟨m, serving, -, loaded⟩ := runOn_load_some serves planned there
    rw [loaded, planOutcome_eq planned]
    exact ⟨m, serving, rfl⟩

omit [LawfulStore σ] in
theorem size_le_runnable (registry : Registry) : table.size ≤ runnable registry s := by
  have size : tableSize s = table.size := by
    unfold tableSize
    rcases serves.table with none | held
    · obtain ⟨time, read⟩ := serves.snapshot
      simp only [none, read, Snapshot.ofTable]
      rfl
    · simp only [held]
  simp only [runnable, size]
  omega

omit serves [Store σ] [LawfulStore σ]

/-- The keys being resolved are different keys of the table, and the nesting that is left suffices for
all others. -/
structure Room (table : Table) (depth : Nat) (active : List Key) : Prop where
  nodup : active.Nodup
  bound : ∀ key ∈ active, ∃ binding, table.get? key = some binding
  enough : table.size ≤ depth + active.length

theorem Room.push {depth : Nat} {active : List Key} (room : Room table depth active) {key : Key}
    (bound : ∃ binding, table.get? key = some binding) (fresh : key ∉ active) :
    ∃ left, depth = left + 1 ∧ Room table left (key :: active) := by
  have nodup : (key :: active).Nodup := List.nodup_cons.mpr ⟨fresh, room.nodup⟩
  have all : ∀ k ∈ key :: active, ∃ binding, table.get? k = some binding :=
    List.forall_mem_cons.mpr ⟨bound, room.bound⟩
  have fits : (key :: active).length ≤ table.keys.length :=
    (nodup.subperm fun k member => SortedMap.mem_keys_iff.mpr (all k member)).length_le
  have size : table.keys.length = table.size := List.length_map _
  have enough := room.enough
  rw [List.length_cons] at fits
  obtain ⟨left, rfl⟩ : ∃ left, depth = left + 1 := ⟨depth - 1, by omega⟩
  exact ⟨left, rfl, nodup, all, by rw [List.length_cons]; omega⟩

end Wiring.Runner
