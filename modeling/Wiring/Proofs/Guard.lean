import Wiring.Proofs.Interpreter
import Wiring.Proofs.Journal.Runner
import Wiring.Proofs.Moments

/-! # What holds of all that a runner has

Plans come into the memory of a runner from its store or from its compiler, and its table comes from the
snapshot in the store. So what holds of what the store gives, and of what is compiled from that, holds of
everything in memory, and of each plan that is found.
-/
namespace Wiring.Runner
open Act Store

/-- A runner binds a class to compile it just as an interpreter does to resolve it. -/
theorem withClass_eq_learn (registry : Registry) (key : Key) (table : Table) :
    withClass registry key table = Interpreter.learn registry table key := by
  unfold withClass Interpreter.learn Interpreter.known
  cases found : table.get? key with
  | some binding =>
    simp only [SortedMap.insertIfNew_of_get? _ found]
    cases registry.signature? key.interface <;> simp
  | none =>
    by_cases plain : key.isPlain = true
    · simp only [plain, if_true]
      cases registry.signature? key.interface <;> rfl
    · simp only [plain]
      rfl

/-- What is to hold of stores, of the plans of keys, and of tables. -/
structure Guard (σ : Type) where
  store : σ → Prop
  plan : Key → Plan → Prop
  table : Table → Prop

variable {σ : Type}

namespace Guard
variable (g : Guard σ)

structure Holds (m : Memory σ) : Prop where
  store : g.store m.store
  plans : ∀ {key p}, m.plans.get? key = some p → g.plan key p
  table : ∀ {table}, m.table = some table → g.table table

def On (s : State σ) : Prop := g.Holds s.own

variable [Store σ]

/-- Whatever a runner reads, compiles or writes, a guard goes on to hold. -/
structure Lasts (registry : Registry) : Prop where
  named : ∀ {key p}, g.plan key p → p.key = key
  read : ∀ {s key p}, g.store s → readPlan s key = .ok (some p) → checkVersion p = .ok () → g.plan key p
  nothing : ∀ {s}, g.store s → readSnapshot s = .ok none → g.table SortedMap.empty
  snapshot : ∀ {s snapshot table}, g.store s → readSnapshot s = .ok (some snapshot) →
    snapshot.toTable = .ok table → g.table table
  learns : ∀ {table} key, g.table table → g.table (withClass registry key table)
  compiles : ∀ {s table key binding}, g.store s → readPlan s key = .ok none → g.table table →
    table.get? key = some binding →
    (∀ key, (liftM (scopeOf key : StateM (State σ) (Option Scope)) : Run σ (Option Scope)).Ensures g.On
      fun found => ∀ scope, found = some scope → ∃ p, g.plan key p ∧ p.scope = scope) →
    (Compile.plan (.compiling scopeOf) table key binding : Run σ Plan).Ensures g.On (g.plan key)
  writes : ∀ {s t table p r}, g.store s → g.table table → g.plan p.key p →
    (writePlan p).runOn s = (r, t) → g.store t

variable {g}

omit [Store σ] in
theorem Holds.remember {m : Memory σ} (holds : g.Holds m) {p : Plan} (good : g.plan p.key p) :
    g.Holds { m with plans := m.plans.insertIfNew p.key p } where
  __ := holds
  plans {key q} found := by
    rcases SortedMap.get?_of_insertIfNew found with old | ⟨rfl, rfl⟩
    · exact holds.plans old
    · exact good

omit [Store σ] in
theorem Holds.kept {m : Memory σ} (holds : g.Holds m) {p : Plan} (good : g.plan p.key p) :
    g.plan p.key ((m.plans.get? p.key).getD p) := by
  cases held : m.plans.get? p.key with
  | none => exact good
  | some q => exact holds.plans held

omit [Store σ] in
theorem ensures_remember {p : Plan} (good : g.plan p.key p) :
    (remember p : Run σ Plan).Ensures g.On (g.plan p.key) := by
  intro s holds
  rw [runOn_remember_eq]
  refine ⟨Holds.remember holds good, fun q same => ?_⟩
  cases same
  exact Holds.kept holds good

section
variable {registry : Registry} (lasts : g.Lasts registry)
include lasts

/-- A plan that is loaded is good; if none is loaded, there was none in the store. -/
theorem ensures_load (key : Key) : (load key : Run σ (Option Plan)).Ensures g.On fun found =>
    (∀ p, found = some p → g.plan key p) ∧
      (found = none → ∃ s, g.store s ∧ readPlan s key = .ok none) := by
  intro s holds
  have loading := loading_load key s
  generalize (load key).runOn s = ran at loading
  cases loading with
  | known held =>
    refine ⟨holds, fun found same => ?_⟩
    cases same
    refine ⟨fun p some => ?_, nofun⟩
    cases some
    exact holds.plans held
  | unread _ _ | outdated _ _ _ => exact ⟨holds, nofun⟩
  | absent _ missing =>
    refine ⟨holds, fun found same => ?_⟩
    cases same
    exact ⟨nofun, fun _ => ⟨_, holds.store, missing⟩⟩
  | @read p _ found version =>
    have good : g.plan key p := lasts.read holds.store found version
    obtain rfl := lasts.named good
    refine ⟨Holds.remember holds good, fun found same => ?_⟩
    cases same
    refine ⟨fun q some => ?_, nofun⟩
    cases some
    exact Holds.kept holds good

theorem ensures_scopeOf (key : Key) :
    (liftM (scopeOf key : StateM (State σ) (Option Scope)) : Run σ (Option Scope)).Ensures g.On
      fun found => ∀ scope, found = some scope → ∃ p, g.plan key p ∧ p.scope = scope := by
  intro s holds
  have loaded := ensures_load lasts key s holds
  rw [runOn_liftState, scopeOf_eq]
  generalize (load (σ := σ) key).runOn s = ran at loaded ⊢
  obtain ⟨e | found, t⟩ := ran
  · refine ⟨loaded.1, fun scope? same scope some => ?_⟩
    cases same
    cases some
  · refine ⟨loaded.1, fun scope? same scope some => ?_⟩
    cases same
    obtain ⟨p, rfl, rfl⟩ := Option.map_eq_some_iff.mp some
    exact ⟨p, (loaded.2 _ rfl).1 p rfl, rfl⟩

theorem ensures_snapshotTable : (snapshotTable : Run σ Table).Ensures g.On g.table := by
  intro s holds
  simp only [snapshotTable, runOn_bind, runOn_get]
  cases held : s.own.table with
  | some table =>
    refine ⟨holds, fun found same => ?_⟩
    cases same
    exact holds.table held
  | none =>
    have keeps : ∀ {table}, g.table table → g.On { s with own.table := some table } := by
      refine fun {table} good => ⟨holds.store, holds.plans, fun same => ?_⟩
      cases same
      exact good
    simp only [runOn_bind, runOn_get, runOn_liftExcept]
    rcases read : readSnapshot s.own.store with e | _ | snapshot
    · refine ⟨holds, fun found same => ?_⟩
      cases same
    · have good := lasts.nothing holds.store read
      refine ⟨keeps good, fun found same => ?_⟩
      cases same
      exact good
    · simp only
      cases built : snapshot.toTable with
      | error e =>
        refine ⟨holds, fun found same => ?_⟩
        cases same
      | ok table =>
        have good := lasts.snapshot holds.store read built
        refine ⟨keeps good, fun found same => ?_⟩
        cases same
        exact good

theorem ensures_compile {key : Key} {s : σ} (there : g.store s) (missing : readPlan s key = .ok none) :
    (compile registry key : Run σ (Option Plan)).Ensures g.On fun found => ∀ p, found = some p → g.plan key p := by
  refine (ensures_snapshotTable lasts).bind fun table good => ?_
  have learned := lasts.learns key good
  cases bound : (withClass registry key table).get? key with
  | none =>
    simp only [bound]
    exact ensures_pure nofun
  | some binding =>
    simp only [bound]
    refine (lasts.compiles there missing learned bound (ensures_scopeOf lasts)).bind fun p good => ?_
    obtain rfl := lasts.named good
    have writes : (onStore (writePlan p) : Run σ Unit).Ensures g.On fun _ => True := fun s holds =>
      ⟨⟨lasts.writes holds.store learned good rfl, holds.plans, holds.table⟩, fun _ _ => trivial⟩
    refine writes.bind fun _ _ => (ensures_remember good).bind fun q good => ensures_pure fun r same => ?_
    cases same
    exact good

theorem ensures_planFor (key : Key) (point : Option Point) :
    (planFor registry key point : Run σ Plan).Ensures g.On (g.plan key) := by
  refine (ensures_load lasts key).bind fun found loaded => ?_
  cases found with
  | some p => exact ensures_pure (loaded.1 p rfl)
  | none =>
    obtain ⟨s, there, missing⟩ := loaded.2 rfl
    refine (ensures_compile lasts there missing).bind fun found compiled => ?_
    cases found with
    | some p => exact ensures_pure (compiled p rfl)
    | none => exact ensures_throw _

end

theorem ensures_of_yields {table : Table} {key : Key} {binding : Binding} {P : Plan → Prop}
    (asks : ∀ key, (liftM (scopeOf key : StateM (State σ) (Option Scope)) : Run σ (Option Scope)).Moves
      (Preserves g.On))
    (yields : (Compile.plan (.compiling scopeOf) table key binding : Run σ Plan).Yields P) :
    (Compile.plan (.compiling scopeOf) table key binding : Run σ Plan).Ensures g.On P :=
  have keeps : (Compile.plan (.compiling scopeOf) table key binding : Run σ Plan).Moves (Preserves g.On) :=
    Compile.moves_plan asks table key binding
  fun s holds => ⟨keeps s holds,
    fun p made => yields s p _ (Prod.ext made rfl)⟩

omit [Store σ] in
theorem holds_start {s : σ} (there : g.store s) (born : Nat) : g.Holds (start born s).own where
  store := there
  plans found := by
    cases (SortedMap.get?_empty _).symm.trans found
  table := nofun

section
variable {registry : Registry} (lasts : g.Lasts registry)
include lasts

theorem Lasts.finds (q : Question) (s : State σ) (holds : g.Holds s.own) :
    g.Holds ((injector registry).find q s).2.own := by
  have ensured := ensures_planFor lasts q.key q.point s holds
  simp only [injector, finder]
  generalize (planFor registry q.key q.point).runOn s = ran at ensured
  obtain ⟨e | plan, t⟩ := ran <;> exact ensured.1

/-- Whatever is done for a question is what a plan says of which the guard holds. -/
theorem Lasts.found {q : Question} {s t : State σ} {scope : Scope} {work : Job Question}
    (holds : g.Holds s.own) (does : (injector registry).find q s = (.does scope work, t)) :
    ∃ p, (planFor registry q.key q.point).runOn s = (.ok p, t) ∧ g.plan q.key p ∧ work = job p.body := by
  have ensured := ensures_planFor lasts q.key q.point s holds
  simp only [injector, finder] at does
  cases ran : (planFor registry q.key q.point).runOn s with
  | mk outcome u =>
    rw [ran] at does ensured
    cases outcome with
    | error e => cases does
    | ok p =>
      cases does
      exact ⟨p, rfl, ensured.2 p rfl, rfl⟩

variable {s : σ} (there : g.store s) (born : Nat) (requests : List (Key × Option Point))
include there

theorem Lasts.holds_way {users : List (Moment Question (Memory σ))} {m : Moment Question (Memory σ)}
    (way : (injector registry).Way (requests.map fun asked => errand (id, asked)) (start born s) users m) :
    g.Holds m.state.own :=
  way.kept lasts.finds (List.forall_mem_map.mpr fun _ _ _ => id) (holds_start there born)

theorem Lasts.holds_after : g.Holds
    ((injector registry).after (requests.map fun asked => errand (id, asked)) (start born s)).own :=
  Injector.kept_after lasts.finds (List.forall_mem_map.mpr fun _ _ _ => id) (holds_start there born)

end

end Guard
end Wiring.Runner
