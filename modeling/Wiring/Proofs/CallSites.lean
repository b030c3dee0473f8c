import Wiring.Proofs.Agreement
import Wiring.Proofs.Dialogue.Interpreter
import Wiring.Proofs.Dialogue.Runner
import Wiring.Proofs.Finding

/-! # What providers are told of their call sites

The interpreter tells a provider the parameter that it is asked for. A plan refers to the keys of its
table without their call sites, and it tells call sites only of keys that its table does not bind. Those
have plans that construct objects. So a runner tells providers nothing when it asks them for operands.
-/
namespace Wiring
open Act Store Wiring.Runtime Relation

namespace Compile
variable {σ : Type} {capability : Capability σ} {table : Table}

/-- An operand that is deferred only if a table does not bind its key. -/
def Sited (table : Table) (o : Operand) : Prop :=
  ∀ scope key point, o = .deferred scope key point → table.get? key = none

theorem yields_operand (p : Parameter) : (operand capability table p).Yields (Sited table) := by
  unfold operand
  cases bound : table.get? p.key with
  | some binding => exact yields_pure nofun
  | none =>
    refine (yields_any _).bind fun found _ => ?_
    cases found with
    | some scope =>
      refine yields_pure fun scope' key point same => ?_
      cases same
      exact bound
    | none =>
      cases p.default? with
      | some value => exact yields_pure nofun
      | none => exact yields_throw _

theorem yields_calls (setters : List Setter) : (calls capability table setters).Yields fun cs =>
    ∀ call ∈ cs, ∀ o ∈ call.operands, Sited table o := by
  induction setters with
  | nil => exact yields_pure nofun
  | cons setter rest ih =>
    refine Yields.bind (P := fun call => ∀ c : Call, call = some c → ∀ o ∈ c.operands, Sited table o) ?_
      fun call first => ih.bind fun cs others => yields_pure fun c member => ?_
    · refine (yields_mapM yields_operand setter.parameters).attempt.bind fun outcome sited => ?_
      cases outcome with
      | ok os =>
        refine yields_pure fun c same => ?_
        cases same
        exact sited os rfl
      | error e =>
        by_cases skip : (e.isUnbound && setter.optional) = true
        · simp only [skip, if_true]
          exact yields_pure nofun
        · simp only [skip]
          exact yields_throw e
    · rcases List.mem_append.mp member with made | made
      · exact first c (Option.mem_toList.mp made)
      · exact others c made

theorem yields_plan (key : Key) (binding : Binding) : (plan capability table key binding).Yields fun p =>
    ∀ o ∈ p.operands, Sited table o := by
  have assembled : ∀ signature, (assembly capability table signature).Yields fun a =>
      ∀ o ∈ a.allOperands, Sited table o := fun signature =>
    (yields_mapM yields_operand signature.constructor).bind fun os first =>
      (yields_calls signature.setters).bind fun cs later => yields_pure fun o member => by
        rcases List.mem_append.mp member with member | member
        · exact first o member
        · obtain ⟨call, made, inside⟩ := List.mem_flatMap.mp member
          exact later call made o inside
  cases binding with
  | literal value => exact yields_pure nofun
  | build recipe | provided recipe scope context =>
    exact Yields.bind (P := fun b => ∀ o ∈ (Plan.current key _ b).operands, Sited table o)
      ((assembled recipe.signature).bind fun a all => yields_pure all) fun _ all => yields_pure all

theorem yields_provide (key : Key) (binding : Binding) : (plan capability table key binding).Yields
    fun p => ∀ a context, p.body = .provide a context → ∃ recipe scope,
      binding = .provided recipe scope context := by
  cases binding with
  | literal value => exact yields_pure nofun
  | build recipe =>
    exact Yields.bind (P := fun b : Plan.Body => ∀ a context, b ≠ .provide a context)
      ((yields_any _).bind fun _ _ => yields_pure nofun) fun b none => yields_pure fun a context same =>
        absurd same (none a context)
  | provided recipe scope context =>
    refine Yields.bind (P := fun b => ∃ a, b = .provide a context)
      ((yields_any _).bind fun a _ => yields_pure ⟨a, rfl⟩) fun b made => yields_pure ?_
    obtain ⟨a, rfl⟩ := made
    intro a' context' same
    cases same
    exact ⟨recipe, scope, rfl⟩

end Compile

namespace Runner
open Compile

/-- A plan of a key that asks a provider only if a table binds the key, and that defers only operands
whose keys the table does not bind. -/
structure Placed (table : Table) (key : Key) (p : Plan) : Prop where
  named : p.key = key
  provides : ∀ a context, p.body = .provide a context → ∃ binding, table.get? key = some binding
  sited : ∀ o ∈ p.operands, Sited table o

variable {σ : Type} [Store σ]

/-- A memory over a store with the snapshot of a table, where all plans are placed. -/
structure Settled (table : Table) (m : Memory σ) : Prop where
  snapshot : ∃ time, readSnapshot m.store = .ok (some (Snapshot.ofTable time table))
  stored : ∀ {key p}, readPlan m.store key = .ok (some p) → Placed table key p
  plans : ∀ {key p}, m.plans.get? key = some p → Placed table key p
  table : m.table = none ∨ m.table = some table

def Settles (table : Table) (m n : Memory σ) : Prop := Settled table m → Settled table n

instance {table : Table} : IsPreorder (Memory σ) (Settles table) where
  refl _ := id
  trans _ _ _ first later h := later (first h)

variable {table : Table} {m : Memory σ} {key : Key}

theorem Settled.remember (settled : Settled table m) {p : Plan} (placed : Placed table p.key p) :
    Settled table { m with plans := m.plans.insertIfNew p.key p } where
  __ := settled
  plans {q r} found := by
    rcases SortedMap.get?_of_insertIfNew found with old | ⟨rfl, rfl⟩
    · exact settled.plans old
    · exact placed

theorem Settled.kept (settled : Settled table m) {p : Plan} (placed : Placed table key p) :
    Placed table key ((m.plans.get? p.key).getD p) := by
  cases held : m.plans.get? p.key with
  | none => exact placed
  | some q => exact settled.plans (placed.named ▸ held)

theorem settled_load {s t : State σ} {r : Except Error (Option Plan)} (settled : Settled table s.own)
    (ran : (load key).runOn s = (r, t)) :
    Settled table t.own ∧ ∀ p, r = .ok (some p) → Placed table key p := by
  have loading := loading_load key s
  rw [ran] at loading
  cases loading with
  | known held =>
    refine ⟨settled, fun q same => ?_⟩
    cases same
    exact settled.plans held
  | unread _ _ | absent _ _ | outdated _ _ _ => exact ⟨settled, fun q same => by cases same⟩
  | read _ found _ =>
    have placed := settled.stored found
    refine ⟨settled.remember (placed.named.symm ▸ placed), fun q same => ?_⟩
    cases same
    exact settled.kept placed

theorem moves_load_settled (key : Key) : (load (σ := σ) key).Moves (OnOwn (Settles table)) :=
  fun _ settled => (settled_load settled rfl).1

theorem runOn_snapshotTable_of_settled {s : State σ} (settled : Settled table s.own) :
    snapshotTable.runOn s = (.ok table, { s with own.table := some table }) := by
  simp only [snapshotTable, runOn_bind, runOn_get]
  rcases settled.table with none | held
  · obtain ⟨time, read⟩ := settled.snapshot
    simp only [none, runOn_get, read, runOn_bind, runOn_liftExcept, Snapshot.ofTable, Snapshot.toTable,
      if_true, SortedMap.ofList_entries, runOn_modify, runOn_pure]
  · simp only [held, runOn_pure]
    rw [← held]

theorem withClass_cases (registry : Registry) (key : Key) (table : Table) :
    withClass registry key table = table ∨ ∃ recipe,
      withClass registry key table = table.insertIfNew key (.build recipe) := by
  unfold withClass
  by_cases plain : key.isPlain = true
  · rw [if_pos plain]
    cases registry.signature? key.interface with
    | none => exact .inl rfl
    | some signature => exact .inr ⟨_, rfl⟩
  · exact .inl (if_neg plain)

theorem get?_withClass {registry : Registry} {q : Key} {binding : Binding}
    (bound : (withClass registry key table).get? q = some binding) :
    table.get? q = some binding ∨ ∃ recipe, binding = .build recipe := by
  rcases withClass_cases registry key table with same | ⟨recipe, same⟩ <;> rw [same] at bound
  · exact .inl bound
  · rcases SortedMap.get?_of_insertIfNew bound with old | ⟨-, rfl⟩
    · exact .inl old
    · exact .inr ⟨recipe, rfl⟩

theorem get?_of_withClass_none {registry : Registry} {q : Key}
    (unbound : (withClass registry key table).get? q = none) : table.get? q = none := by
  rcases withClass_cases registry key table with same | ⟨recipe, same⟩ <;> rw [same] at unbound
  · exact unbound
  · rw [SortedMap.get?_insertIfNew] at unbound
    by_cases here : q = key
    · rw [if_pos here] at unbound
      cases unbound
    · rwa [if_neg here] at unbound

theorem placed_of_plan {registry : Registry} {binding : Binding} {s t : State σ} {p : Plan}
    (bound : (withClass registry key table).get? key = some binding)
    (compiled : (Compile.plan (.compiling scopeOf) (withClass registry key table) key binding).runOn s =
      (.ok p, t)) : Placed table key p where
  named := Compile.plan_key compiled
  provides a context body := by
    obtain ⟨recipe, scope, rfl⟩ := yields_provide key binding s p t compiled a context body
    rcases get?_withClass bound with given | ⟨_, same⟩
    · exact ⟨_, given⟩
    · cases same
  sited o member scope q point same :=
    get?_of_withClass_none (yields_plan key binding s p t compiled o member scope q point same)

variable [LawfulStore σ]

theorem Settled.refused (settled : Settled table m) {p : Plan} {e : Error} {store : σ}
    (wrote : (writePlan p).runOn m.store = (.error e, store)) : Settled table { m with store := store } where
  __ := settled
  snapshot := settled.snapshot.imp fun _ read => (LawfulStore.snapshot_writePlan wrote).trans read
  stored {q _} found := settled.stored
    ((congrArg Prod.snd (LawfulStore.slot_of_refused wrote q)).symm.trans found)

theorem Settled.written (settled : Settled table m) {p : Plan} {store : σ}
    (placed : Placed table p.key p) (wrote : (writePlan p).runOn m.store = (.ok (), store)) :
    Settled table { m with store := store } where
  __ := settled
  snapshot := settled.snapshot.imp fun _ read => (LawfulStore.snapshot_writePlan wrote).trans read
  stored {q _} found := by
    have slots := congrArg Prod.snd (LawfulStore.slot_writePlan wrote q)
    by_cases same : q = p.key
    · rw [if_pos same] at slots
      cases slots.symm.trans found
      exact same ▸ placed
    · rw [if_neg same] at slots
      exact settled.stored (slots.symm.trans found)

variable (registry : Registry)

theorem settled_compile {s t : State σ} {r : Except Error (Option Plan)} (settled : Settled table s.own)
    (ran : (compile registry key).runOn s = (r, t)) :
    Settled table t.own ∧ ∀ p, r = .ok (some p) → Placed table key p := by
  have known : Settled table ({ s with own.table := some table } : State σ).own :=
    { settled with table := .inr rfl }
  have asked : ∀ {table' binding r} {u : State σ}, (Compile.plan (.compiling scopeOf) table' key
      binding).runOn { s with own.table := some table } = (r, u) → Settled table u.own :=
    fun {table' binding _ _} compiled =>
      (moves_compiling moves_load_settled table' key binding).of_eq compiled known
  have compiling := compiling_compile registry key s
  rw [ran] at compiling
  cases compiling with
  | unread read =>
    cases (runOn_snapshotTable_of_settled settled).symm.trans read
  | unbound read _ =>
    cases (runOn_snapshotTable_of_settled settled).symm.trans read
    exact ⟨known, fun q same => by cases same⟩
  | refused read _ compiled =>
    cases (runOn_snapshotTable_of_settled settled).symm.trans read
    exact ⟨asked compiled, fun q same => by cases same⟩
  | unwritten read _ compiled wrote =>
    cases (runOn_snapshotTable_of_settled settled).symm.trans read
    exact ⟨(asked compiled).refused wrote, fun q same => by cases same⟩
  | written read bound compiled wrote =>
    cases (runOn_snapshotTable_of_settled settled).symm.trans read
    have placed := placed_of_plan bound compiled
    have later := (asked compiled).written (placed.named.symm ▸ placed) wrote
    refine ⟨later.remember (placed.named.symm ▸ placed), fun q same => ?_⟩
    cases same
    exact (asked compiled).kept placed

/-- A runner over such a store meets only plans that are placed. -/
theorem settled_planFor {s t : State σ} {point : Option Point} {r : Except Error Plan}
    (settled : Settled table s.own) (ran : (planFor registry key point).runOn s = (r, t)) :
    Settled table t.own ∧ ∀ p, r = .ok p → Placed table key p := by
  have finding := finding_planFor registry key point s
  rw [ran] at finding
  cases finding with
  | unloaded loaded => exact ⟨(settled_load settled loaded).1, fun q same => by cases same⟩
  | loaded loaded =>
    obtain ⟨later, placed⟩ := settled_load settled loaded
    refine ⟨later, fun q same => ?_⟩
    cases same
    exact placed _ rfl
  | failed loaded compiled | unbound loaded compiled =>
    exact ⟨(settled_compile registry (settled_load settled loaded).1 compiled).1,
      fun q same => by cases same⟩
  | compiled loaded compiled =>
    obtain ⟨later, placed⟩ := settled_compile registry (settled_load settled loaded).1 compiled
    refine ⟨later, fun q same => ?_⟩
    cases same
    exact placed _ rfl

theorem moves_planFor_settled (key : Key) (point : Option Point) :
    (planFor (σ := σ) registry key point).Moves (OnOwn (Settles table)) :=
  fun _ settled => (settled_planFor registry settled rfl).1

theorem Visit.Leads.settled {v w : Visit σ} (leads : Visit.Leads registry v w)
    (settled : Settled table v.state.own) : Settled table w.state.own :=
  leads.own (R := Settles table) (moves_planFor_settled registry) settled

/-- A plan that is run for an operand of another one asks a provider only on behalf of no point. -/
theorem point_of_makes {v w : Visit σ} {scope : Scope} {q : Key} {told : Option Point} {plan : Plan}
    {a : Assembly} {context : Option String} (settled : Settled table v.state.own)
    (makes : Visit.Makes registry v (.operand scope q told) w) (runs : w.Runs registry plan)
    (asks : plan.body = .provide a context) : w.point = none := by
  have inner : Settled table w.state.own :=
    Visit.Leads.settled registry (.single ⟨_, makes⟩) settled
  -- The table binds the operand's key, since the plan asks a provider; so the operand is not deferred.
  obtain ⟨binding, bound⟩ :=
    ((settled_planFor registry inner rfl).2 plan runs).provides a context asks
  cases makes with
  | @mk depth key scope' point s t u outer _ found _ _ asked =>
    have placed : Placed table key outer :=
      (settled_planFor registry settled found).2 outer rfl
    have operand := asked.of_asksOnly (asksOnly_dialogue registry outer point)
    cases told with
    | none => rfl
    | some told =>
      exact absurd ((placed.sited _ operand scope q told rfl).symm.trans bound) nofun

end Runner

namespace TwoPhase
variable {σ : Type} [Store σ] [LawfulStore σ] {registry : Registry}

def served (registry : Registry) (requests : List (Key × Option Point)) (s : Runner.State σ) :
    Runner.State σ :=
  requests.foldl (fun s asked => ((Runner.request registry asked.1 asked.2).runOn s).2) s

theorem settled_served {table : Table} (requests : List (Key × Option Point)) {s : Runner.State σ}
    (settled : Runner.Settled table s.own) : Runner.Settled table (served registry requests s).own := by
  induction requests generalizing s with
  | nil => exact settled
  | cons asked rest ih =>
    refine ih ?_
    exact Runner.moves_obtain (R := Runner.Settles table) (Runner.moves_planFor_settled registry)
      (Runner.runnable registry s) asked.1 none asked.2 s settled

theorem settled_of_pass {table : Table} {time : Instant} {store stored : σ} {r : Compile.Report}
    (empty : Empty store)
    (passed : (Compile.pass .interpreted table time).runOn store = (.ok r, stored)) :
    Runner.Settled table (⟨stored, SortedMap.empty, none⟩ : Runner.Memory σ) := by
  obtain ⟨-, holds⟩ := holds_of_success empty passed
  refine ⟨holds.serves.snapshot, fun {key p} found => ?_, nofun, .inl rfl⟩
  have planned : Compile.Planned table key p := holds.serves.planned found
  obtain ⟨binding, bound, compiled⟩ := id planned
  have ran : (Compile.plan .interpreted table key binding).runOn store = (.ok p, store) := by
    rw [Compile.runOn_plan Compile.fixed_interpreted, compiled]
  exact ⟨planned.key_eq, fun _ _ _ => ⟨binding, bound⟩,
    Compile.yields_plan key binding store p store ran⟩

/-- After a pass that succeeds on an empty store, a runner that resolves an operand of one plan with a
plan that asks a provider tells the provider nothing of the call site, however many requests came
before; the interpreter tells it the parameter in question. -/
theorem operands_lose_call_sites (table : Table) {time : Instant} {store stored : σ}
    {r : Compile.Report} (empty : Empty store)
    (passed : (Compile.pass .interpreted table time).runOn store = (.ok r, stored)) (born : Nat)
    (requests : List (Key × Option Point)) (key : Key) (point : Option Point) :
    (∀ v scope q told w plan a context,
      Runner.Visited registry key point (served registry requests (Runner.start born stored)) v →
      Runner.Visit.Makes registry v (.operand scope q told) w → w.Runs registry plan →
      plan.body = .provide a context → w.point = none ∧
        Runner.dialogue registry plan.body w.point = Runner.construction registry a >>= fun made =>
          Dialogue.provide Runner.Question.lookup made context none) ∧
    ∀ v optional p w recipe scope context,
      Interpreter.Visit.Makes registry v (.argument optional p) w →
      w.binding = .provided recipe scope context → w.point = some p.point ∧
        Interpreter.dialogue registry w.binding w.point =
          Interpreter.instantiation registry recipe.signature >>= fun made =>
            Dialogue.provide Interpreter.Question.lookup made context (some p.point) := by
  refine ⟨fun v scope q told w plan a context visited makes runs asks => ?_,
    fun v optional p w recipe scope context makes provided => ?_⟩
  · have start : Runner.Settled table (Runner.start born stored : Runner.State σ).own :=
      settled_of_pass empty passed
    have served : Runner.Settled table (served registry requests (Runner.start born stored)).own :=
      settled_served requests start
    have none : w.point = none := Runner.point_of_makes registry
      (Runner.Visit.Leads.settled registry visited served) makes runs asks
    exact ⟨none, by rw [none, asks]; rfl⟩
  · have some : w.point = some p.point := by
      cases makes
      rfl
    exact ⟨some, by rw [some, provided]; rfl⟩

/-- A provider that answers with the call site that it is told, and a class with a parameter for it. -/
def siteRegistry : Registry :=
  let told (point : Option Point) : Json :=
    (point.map fun p => Tree.leaf (.string p.display)).getD Json.null
  .ofClasses [
    (Class.define "P" "P" fun _ => .ok []).provides
      fun _ _ point => .finish (.ok (.existing (.literal (told point)))),
    (Class.define "R" "R" fun _ => .ok []).constructorParameter ⟨"conn", .plain "Conn", none⟩]

def siteTable : Table :=
  let signature (name : String) := (siteRegistry.signature? name).getD default
  .ofList [(.plain "Conn", .provided ⟨signature "P", .prototype⟩ .prototype none),
    (.plain "R", Interpreter.discovered (signature "R"))]

def siteStore : MemoryStore .none :=
  ((Compile.pass .interpreted siteTable default).runOn (MemoryStore.start .none)).2

def planR : Plan :=
  .current (.plain "R") .prototype (.construct ⟨"R", [.reference .prototype (.plain "Conn")], [], none⟩)

def planConn : Plan := .current (.plain "Conn") .prototype (.provide ⟨"P", [], [], none⟩ none)

def readR : Runner.State (MemoryStore .none) :=
  ((Runner.planFor siteRegistry (.plain "R") none).runOn (Runner.start 0 siteStore)).2

/-- The runner resolves the parameter of `R` with a plan that asks the provider for no point. -/
theorem conn_asked_for_no_point : ∃ v scope q told w plan a context,
    Runner.Visited siteRegistry (.plain "R") none (Runner.start 0 siteStore) v ∧
    Runner.Visit.Makes siteRegistry v (.operand scope q told) w ∧ w.Runs siteRegistry plan ∧
    plan.body = .provide a context ∧ w.point = none := by
  have lost := (@operands_lose_call_sites (MemoryStore .none) _ _ siteRegistry siteTable default _
    siteStore _ MemoryStore.empty_start rfl 0 [] (.plain "R") none).1
  have found : (Runner.planFor siteRegistry (.plain "R") none).runOn (Runner.start 0 siteStore) =
      (.ok planR, readR) := rfl
  have makes : Runner.Visit.Makes siteRegistry
      ⟨Runner.runnable siteRegistry (Runner.start 0 siteStore), .plain "R", none, none,
        Runner.start 0 siteStore⟩
      (.operand .prototype (.plain "Conn") none)
      ⟨5, .plain "Conn", some .prototype, none, Runtime.entered (.plain "R") readR⟩ :=
    .mk found (fun _ => rfl) nofun .now
  have runs : Runner.Visit.Runs siteRegistry
      ⟨5, .plain "Conn", some .prototype, none, Runtime.entered (.plain "R") readR⟩ planConn := rfl
  exact ⟨_, _, _, _, _, _, _, _, .refl, makes, runs, rfl, (lost _ _ _ _ _ _ _ _ .refl makes runs rfl).1⟩

/-- For the same argument of `R` the provider is told the call site by the interpreter, and nothing by
the runner. -/
theorem call_site_lost :
    (∃ r, ((Compile.pass .interpreted siteTable default).runOn
      (MemoryStore.start .none : MemoryStore .none)).1 = .ok r) ∧
    ((Interpreter.request siteRegistry (.plain "R") none).runOn (Runtime.start 0 siteTable)).1 =
      .ok (.object 1 "R" "R" [⟨constructorMethod, [.literal (.leaf (.string "R::new(conn)"))], []⟩]) ∧
    ((Runner.request siteRegistry (.plain "R") none).runOn (Runner.start 0 siteStore)).1 =
      .ok (.object 1 "R" "R" [⟨constructorMethod, [.literal Json.null], []⟩]) :=
  ⟨⟨_, rfl⟩, rfl, rfl⟩

end TwoPhase
end Wiring
