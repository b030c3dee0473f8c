import Wiring.Proofs.Account.Runner
import Wiring.Proofs.Agreement
import Wiring.Proofs.Precompilation

/-! # Closed stores

A pass that succeeds on an empty store leaves a plan for every key of its table, and these plans refer to
nothing else. A runner over the store then loads each plan that it comes to: it never has to compile, so
it writes nothing and reads no snapshot.
-/
namespace Wiring
open Act Store

/-- An error of those who look for a plan. -/
def Error.Missing : Error → Prop
  | .unbound _ _ | .storage _ _ | .formatVersion _ _ _ => True
  | _ => False

def Protocol.nothingMissing : Protocol OneWorld :=
  .ofErrors (fun e => ¬ e.Missing) (fun _ => not_false) (fun _ _ => not_false) fun _ => not_false

def Table.Binds (table : Table) (key : Key) : Prop := ∃ binding, table.get? key = some binding

namespace Runner
open Compile
variable {σ : Type} [Store σ] {registry : Registry} {table : Table} {stored : σ} {key : Key} {p : Plan}

/-- A memory over a store that holds the plans of a table and has stayed the same, without a snapshot. -/
structure Closed (table : Table) (stored : σ) (m : Memory σ) : Prop where
  holds : Holds table m
  store : m.store = stored
  table : m.table = none

theorem table_load (key : Key) (s : State σ) : ((load key).runOn s).2.own.table = s.own.table := by
  have loading := loading_load key s
  generalize (load key).runOn s = ran at loading ⊢
  cases loading <;> rfl

theorem runOn_load_closed {s : State σ} (closed : Closed table stored s.own)
    (planned : Planned table key p) :
    ∃ m, Closed table stored m ∧ (load key).runOn s = (.ok (some p), { s with own := m }) := by
  have there : slot s.own.store key = (true, .ok (some p)) := closed.holds.held planned
  obtain ⟨m, serves, store, loaded⟩ := runOn_load_some closed.holds.serves planned there
  -- Loading does not touch the table, so the snapshot is still unread.
  have unread : m.table = s.own.table := by
    have same := table_load key s
    rwa [loaded] at same
  have holds : Holds table m := ⟨serves, fun planned => store ▸ closed.holds.held planned⟩
  exact ⟨m, ⟨holds, store.trans closed.store, unread.trans closed.table⟩, loaded⟩

theorem runOn_planFor_of_load {s t : State σ} (loaded : (load key).runOn s = (.ok (some p), t))
    (point : Option Point) : (planFor registry key point).runOn s = (.ok p, t) := by
  simp only [planFor, runOn_bind, loaded, runOn_pure]

theorem runnable_planned (planned : Planned table key p) : Runnable table table.Binds key p := by
  obtain ⟨binding, bound, compiled⟩ := planned
  exact ⟨fits_of_planFor (.refl table) bound compiled, bound_of_planFor compiled⟩

theorem finds_closed (complete : Complete table) :
    Finds registry .nothingMissing table table.Binds (Closed table stored) := by
  intro key point s bound closed
  obtain ⟨binding, bound⟩ := bound
  obtain ⟨p, compiled⟩ := complete bound
  have planned : Planned table key p := ⟨binding, bound, compiled⟩
  obtain ⟨m, later, loaded⟩ := runOn_load_closed closed planned
  exact ⟨.ok p, m, runOn_planFor_of_load loaded point, later, fun _ => runnable_planned planned⟩

def Untouched (stored : σ) (m : Memory σ) : Prop := m.store = stored ∧ m.table = none

/-- A resolution that loads its plan, misses nothing, and leaves the store alone and its snapshot unread. -/
structure Visit.Serene (registry : Registry) (stored : σ) (v : Visit σ) : Prop where
  before : Untouched stored v.state.own
  loads : ∃ p t, (load v.key).runOn v.state = (.ok (some p), t)
  misses : ∀ e, (v.ran registry).1 = .error e → ¬ e.Missing
  after : Untouched stored (v.ran registry).2.own

section
variable (complete : Complete table) (respects : registry.Respects .nothingMissing table.Binds)
  {A : Account .nothingMissing table.scopeOf (Interpreter.Fresh registry table)}
include complete respects

theorem serene_of_stands {v : Visit σ} (stands : v.Stands table.Binds A (Closed table stored)) :
    v.Serene registry stored := by
  obtain ⟨w, state⟩ := stands.state
  obtain ⟨binding, bound⟩ := stands.may
  obtain ⟨p, compiled⟩ := complete bound
  obtain ⟨m, -, loaded⟩ := runOn_load_closed state.own ⟨binding, bound, compiled⟩
  obtain ⟨_, -, later, expects, -⟩ := goes_obtain A (finds_closed complete) respects v.depth v.scope v.point
    stands.may stands.sited state
  refine ⟨⟨state.own.store, state.own.table⟩, ⟨p, _, loaded⟩, fun e failed => ?_,
    later.own.store, later.own.table⟩
  have ran : ((obtain registry v.depth v.key v.scope v.point).runOn v.state).1 = .error e := failed
  rw [ran] at expects
  exact expects

theorem serene_of_visited {s : State σ} (stands : A.Stands (Closed table stored) .only s)
    {requests : List (Key × Option Point)} (may : ∀ asked ∈ requests, table.Binds asked.1)
    (bound : table.Binds key) {point : Option Point} {v : Visit σ}
    (visited : Visited registry key point (TwoPhase.served registry requests s) v) :
    v.Serene registry stored := by
  have finds : Finds registry .nothingMissing table table.Binds (Closed table stored) :=
    finds_closed complete
  obtain ⟨w, later, -⟩ := goes_delivered A finds respects may stands
  have first : Visit.Stands table.Binds A (Closed table stored)
      ⟨runnable registry (TwoPhase.served registry requests s), key, none, point, _⟩ :=
    ⟨bound, nofun, w, later⟩
  exact serene_of_stands complete respects (Visit.Leads.stands A finds respects visited first)

end

end Runner

namespace Store
open Compile
variable {σ : Type} [Store σ] {table : Table} {stored : σ}

/-- A store in which each reference of a plan is to a key of a table that has a plan, in the scope of that
plan. -/
def Closed (table : Table) (stored : σ) : Prop :=
  ∀ key p, readPlan stored key = .ok (some p) → ∀ scope q, .reference scope q ∈ p.operands →
    table.Binds q ∧ hasPlan stored q = true ∧ ∃ p', readPlan stored q = .ok (some p') ∧ p'.scope = scope

theorem closed_of_holds (complete : Complete table)
    (holds : Runner.Holds table (⟨stored, SortedMap.empty, none⟩ : Runner.Memory σ)) :
    Closed table stored := by
  intro key p found scope q member
  have planned : Planned table key p := holds.serves.planned found
  have runnable := Runner.runnable_planned planned
  obtain ⟨binding, bound⟩ := runnable.allowed _ member q rfl
  obtain ⟨p', compiled⟩ := complete bound
  have needed : Planned table q p' := ⟨binding, bound, compiled⟩
  have there : slot stored q = (true, .ok (some p')) := holds.held needed
  have given : scope = table.scopeOf q := runnable.fits.operands _ member
  have own : p'.scope = table.scopeOf q := (Runner.runnable_planned needed).fits.scope
  exact ⟨⟨binding, bound⟩, congrArg Prod.fst there, p', congrArg Prod.snd there, own.trans given.symm⟩

end Store

namespace TwoPhase
open Compile
variable {σ : Type} [Store σ] [LawfulStore σ] {table : Table} {time : Instant} {store stored : σ}
  {r : Report}

/-- A pass that succeeds on an empty store leaves a closed store. Whatever a runner over the store is asked
for, if it is asked for keys of the table only, the hooks look up no others, and no function says by itself
that something is missing, then nothing ever is: each resolution on the way loads a plan from the store as
the pass left it. -/
theorem closed_of_pass (empty : Empty store)
    (passed : (pass .interpreted table time).runOn store = (.ok r, stored)) :
    Store.Closed table stored ∧
    ∀ registry : Registry, registry.Respects .nothingMissing table.Binds → ∀ born requests,
      (∀ asked ∈ requests, table.Binds asked.1) → ∀ key point, table.Binds key →
        (∀ v, Runner.Visited registry key point (served registry requests (Runner.start born stored)) v →
          v.Serene registry stored) ∧
        ∀ e, ((Runner.request registry key point).runOn
          (served registry requests (Runner.start born stored))).1 = .error e → ¬ e.Missing := by
  obtain ⟨complete, holds⟩ := holds_of_success empty passed
  refine ⟨Store.closed_of_holds complete holds, ?_⟩
  intro registry respects born requests may key point bound
  let A : Account .nothingMissing table.scopeOf (Interpreter.Fresh registry table) :=
    .blank .nothingMissing (fun _ _ => trivial) table.scopeOf _
  have start : A.Stands (Runner.Closed table stored) .only (Runner.start born stored) :=
    ⟨⟨holds, rfl, rfl⟩, trivial⟩
  have serene : ∀ v, Runner.Visited registry key point
      (served registry requests (Runner.start born stored)) v → v.Serene registry stored := fun _ =>
    Runner.serene_of_visited complete respects start may bound
  exact ⟨serene, (serene _ .refl).misses⟩

def boxRegistry : Registry :=
  .ofClasses [.define "A" "A" .ok, (Class.define "P" "P" .ok).provides (Runner.lend (.plain "a")),
    (Class.define "Box" "Box" .ok).constructorParameter ⟨"a", .plain "a", none⟩
      |>.constructorParameter ⟨"p", .plain "p", none⟩]

def boxTable : Table :=
  let signature (name : String) := (boxRegistry.signature? name).getD default
  .ofList [(.plain "a", .build ⟨signature "A", .singleton⟩),
    (.plain "box", .build ⟨signature "Box", .prototype⟩),
    (.plain "p", .provided ⟨signature "P", .prototype⟩ .prototype none)]

def boxStore : MemoryStore .none :=
  ((Compile.pass .interpreted boxTable default).runOn (MemoryStore.start .none)).2

theorem respects_boxRegistry : boxRegistry.Respects .nothingMissing boxTable.Binds := by
  have keeps : ∀ {vs : List Value}, Protocol.nothingMissing.Expects Protocol.nothingMissing.AllGiven .only
    (.ok vs) := fun _ _ => trivial
  intro name c found
  have member := Registry.mem_of_ofClasses found
  simp only [List.mem_cons, List.not_mem_nil, or_false] at member
  rcases member with rfl | rfl | rfl
  · exact ⟨fun _ => keeps, nofun, nofun⟩
  · refine ⟨fun _ => keeps, nofun, fun provides => ?_⟩
    obtain rfl := Option.some.inj provides
    intro w o context point _
    refine ⟨⟨_, rfl⟩, fun w' _ answer expects => ?_⟩
    exact expects.map fun _ given => given
  · exact ⟨fun _ => keeps, nofun, nofun⟩

/-- The plan of a `Box` refers to the one `A`, whose plan is there. The provider is asked first, so the `Box`
is given the `A` that was made to be lent. -/
theorem box_misses_nothing :
    let asked : List (Key × Option Point) := [(.plain "p", none), (.plain "a", none)]
    let s := served boxRegistry asked (Runner.start 0 boxStore)
    let a : Value := .object 1 "A" "A" [⟨constructorMethod, [], []⟩]
    (∃ p p', readPlan boxStore (.plain "box") = .ok (some p) ∧
      .reference .singleton (.plain "a") ∈ p.operands ∧
      readPlan boxStore (.plain "a") = .ok (some p') ∧ p'.scope = .singleton) ∧
    ((Runner.request boxRegistry (.plain "box") none).runOn s).1 =
      .ok (.object 3 "Box" "Box" [⟨constructorMethod, [a, a], [a, a]⟩]) ∧
    Runner.Visit.Serene boxRegistry boxStore
      ⟨Runner.runnable boxRegistry s, .plain "box", none, none, s⟩ := by
  intro asked s a
  obtain ⟨closed, serene⟩ := @closed_of_pass (MemoryStore .none) _ _ boxTable default _ boxStore _
    MemoryStore.empty_start rfl
  have may : ∀ q ∈ asked, boxTable.Binds q.1 := by
    have bound : ∀ q ∈ asked, (boxTable.get? q.1).isSome = true := by decide
    exact fun q member => Option.isSome_iff_exists.mp (bound q member)
  obtain ⟨visits, -⟩ := serene boxRegistry respects_boxRegistry 0 asked may (.plain "box") none ⟨_, rfl⟩
  have member : .reference .singleton (.plain "a") ∈
      [Operand.reference .singleton (.plain "a"), .reference .prototype (.plain "p")] := List.mem_cons_self
  obtain ⟨-, -, p', there, scope⟩ := closed (.plain "box") _ rfl .singleton (.plain "a") member
  exact ⟨⟨_, p', rfl, member, there, scope⟩, rfl, visits _ .refl⟩

end TwoPhase
end Wiring
