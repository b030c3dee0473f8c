import Wiring.Proofs.Compile.Writing
import Wiring.Proofs.Guard
import Wiring.Proofs.Journal.Runner
import Wiring.Proofs.MemoryStore
import Wiring.Proofs.Registered
import Wiring.Proofs.Restoring
import Wiring.Proofs.Snapshot

/-! # Plans of registered classes

A plan calls no methods but those of the recipe that it is compiled from. So if the recipes of tables are those
of registered classes, what the plans in a store call is there, and so is what a runner compiles later from the
snapshot or from a class. A runner can carry out all of it.
-/
namespace Wiring
open Act Store Wiring.Runtime

variable {registry : Registry}

/-- An assembly of a registered class that makes no calls but those of its signature. -/
def Assembly.Known (registry : Registry) (a : Assembly) : Prop :=
  ∃ signature, registry.Knows signature ∧ a.className = signature.className ∧ a.hook = signature.hook ∧
    ∀ call ∈ a.calls, ∃ setter ∈ signature.setters, setter.method = call.method

structure Plan.Known (registry : Registry) (key : Key) (p : Plan) : Prop where
  named : p.key = key
  assembly : ∀ a, p.assembly? = some a → a.Known registry

namespace Compile
variable {σ : Type} {capability : Capability σ} {table : Table}

theorem yields_methods (setters : List Setter) : (calls capability table setters).Yields fun cs =>
    ∀ call ∈ cs, ∃ setter ∈ setters, setter.method = call.method := by
  induction setters with
  | nil => exact yields_pure nofun
  | cons setter rest ih =>
    have called : (call? capability table setter).Yields fun call =>
        ∀ c : Call, call = some c → setter.method = c.method := by
      refine (yields_any _).bind fun outcome _ => ?_
      cases outcome with
      | ok os =>
        refine yields_pure fun c same => ?_
        cases same
        rfl
      | error e =>
        by_cases skip : (e.isUnbound && setter.optional) = true
        · simp only [skip, if_true]
          exact yields_pure nofun
        · simp only [skip]
          exact yields_throw e
    refine called.bind fun call first => ih.bind fun cs others => yields_pure fun c member => ?_
    rcases List.mem_append.mp member with made | made
    · exact ⟨setter, List.mem_cons_self, first c (Option.mem_toList.mp made)⟩
    · obtain ⟨other, listed, same⟩ := others c made
      exact ⟨other, List.mem_cons_of_mem setter listed, same⟩

theorem yields_known {key : Key} {binding : Binding} (known : binding.Known registry) :
    (plan capability table key binding).Yields (Plan.Known registry key) := by
  have assembled : ∀ {signature}, registry.Knows signature →
      (assembly capability table signature).Yields (Assembly.Known registry) := fun {signature} knows =>
    (yields_any _).bind fun _ _ => (yields_methods signature.setters).bind fun cs methods =>
      yields_pure ⟨signature, knows, rfl, rfl, methods⟩
  cases binding with
  | literal value => exact yields_pure ⟨rfl, nofun⟩
  | build recipe | provided recipe scope context =>
    refine Yields.bind (P := fun body => ∀ a, (Plan.current key _ body).assembly? = some a → a.Known registry)
      ((assembled known).bind fun a made => yields_pure fun a' same => ?_) fun body made => yields_pure ⟨rfl, made⟩
    cases same
    exact made

end Compile

section
variable {σ : Type} [Store σ]

structure Store.Known (registry : Registry) (s : σ) : Prop where
  plans : ∀ {key p}, readPlan s key = .ok (some p) → p.Known registry key
  snapshot : ∀ {snapshot table}, readSnapshot s = .ok (some snapshot) → snapshot.toTable = .ok table →
    Table.Known registry table

/-- The stores that come of a registry: empty ones, those into which tables that come of the registry have been
compiled, whatever scopes the compiler was told of and whether or not the pass has failed, and those that a
runner leaves that has been asked for keys. -/
inductive Registry.Compiles (registry : Registry) : σ → Prop
  | empty {s : σ} : Store.Empty s → readSnapshot s = .ok none → registry.Compiles s
  | pass {s : σ} {table : Table} {capability : Compile.Capability σ} {scopes : Key → Option Scope}
    {time : Instant} : registry.Compiles s → registry.Produces table → capability.Fixed scopes →
    registry.Compiles ((Compile.passThrough capability table registry.introspector time).runOn s).2
  | served {s : σ} (born : Nat) (requests : List (Key × Option Point)) : registry.Compiles s →
    registry.Compiles ((Runner.injector registry).after (requests.map fun asked => Runner.errand (id, asked))
      (Runner.start born s)).own.store

variable [LawfulStore σ]

theorem Store.Known.writePlan {s t : σ} (known : Store.Known registry s) {p : Plan}
    (own : p.Known registry p.key) {r : Except Error Unit} (wrote : (Store.writePlan p).runOn s = (r, t)) :
    Store.Known registry t where
  plans {key q} found := by
    cases r with
    | error e =>
      exact known.plans ((congrArg Prod.snd (LawfulStore.slot_of_refused wrote key)).symm.trans found)
    | ok _ =>
      have slots := congrArg Prod.snd (LawfulStore.slot_writePlan wrote key)
      by_cases same : key = p.key
      · rw [if_pos same] at slots
        cases slots.symm.trans found
        exact same ▸ own
      · rw [if_neg same] at slots
        exact known.plans (slots.symm.trans found)
  snapshot read := by
    rw [LawfulStore.snapshot_writePlan wrote] at read
    exact known.snapshot read

theorem Store.Known.writeSnapshot {s t : σ} (known : Store.Known registry s) {table : Table}
    (own : Table.Known registry table) {time : Instant} {r : Except Error Unit}
    (wrote : (Store.writeSnapshot (Snapshot.ofTable time table)).runOn s = (r, t)) :
    Store.Known registry t where
  plans {key p} found :=
    known.plans ((congrArg Prod.snd (LawfulStore.slot_writeSnapshot wrote key)).symm.trans found)
  snapshot {snapshot built} read same := by
    cases r with
    | error e =>
      rw [LawfulStore.snapshot_of_refused wrote] at read
      exact known.snapshot read same
    | ok _ =>
      obtain rfl := Option.some.inj (Except.ok.inj ((LawfulStore.snapshot_writeSnapshot wrote).symm.trans read))
      cases (Snapshot.toTable_ofTable time table).symm.trans same
      exact own

theorem moves_pass {table : Table} (own : Table.Known registry table) {capability : Compile.Capability σ}
    {scopes : Key → Option Scope} (fixed : capability.Fixed scopes) (time : Instant) :
    (Compile.pass capability table time).Moves (Preserves (Store.Known registry)) := by
  have each : ∀ e ∈ table.entries, Binding.Known registry e.2 := fun e member =>
    own (SortedMap.mem_entries_iff.mp member)
  have entry : ∀ {key binding}, Binding.Known registry binding →
      (Compile.entry capability table key binding).Moves (Preserves (Store.Known registry)) := by
    intro key binding known s here
    obtain ⟨fate, t, ran, run⟩ := Compile.runOn_entry fixed table key binding s
    have yields : ∀ {p}, Compile.planFor scopes table key binding = .ok p → p.Known registry key := by
      intro p compiled
      have made : (Compile.plan capability table key binding).Yields (Plan.Known registry key) :=
        Compile.yields_known known
      refine made s p s ?_
      rw [Compile.runOn_plan fixed, compiled]
    rw [ran]
    cases run with
    | skipped _ | invalid _ _ => exact here
    | refused _ compiled wrote | compiled _ compiled wrote =>
      have good := yields compiled
      obtain rfl := good.named
      exact here.writePlan good wrote
  have entries : ∀ rest : List (Key × Binding), (∀ e ∈ rest, Binding.Known registry e.2) →
      (Compile.entries capability table rest).Moves (Preserves (Store.Known registry)) := by
    intro rest
    induction rest with
    | nil => exact fun _ => moves_of_keeps fun _ => rfl
    | cons e rest ih =>
      intro known
      obtain ⟨first, others⟩ := List.forall_mem_cons.mp known
      exact (entry first).bind fun _ => (ih others).bind fun _ => moves_of_keeps fun _ => rfl
  have snapshots : (Store.writeSnapshot (Snapshot.ofTable time table) : Act σ Unit).Moves
      (Preserves (Store.Known registry)) := fun s known => known.writeSnapshot own rfl
  refine (entries table.entries each).bind fun fates => snapshots.bind fun _ => ?_
  cases Compile.failures fates <;> exact moves_of_keeps fun _ => rfl

namespace Runner

/-- That all plans and tables a runner has are known. -/
def knownGuard (σ : Type) [Store σ] (registry : Registry) : Guard σ :=
  ⟨Store.Known registry, Plan.Known registry, Table.Known registry⟩

theorem lasts_knownGuard (complete : registry.Complete) : (knownGuard σ registry).Lasts registry where
  named := Plan.Known.named
  read known found _ := known.plans found
  nothing _ _ := Table.known_empty registry
  snapshot known read built := known.snapshot read built
  learns {table} key known := by
    rw [withClass_eq_learn]
    exact Table.Known.learn complete known key
  compiles _ _ known bound asks :=
    Guard.ensures_of_yields (fun key => (asks key).moves) (Compile.yields_known (known bound))
  writes known _ own wrote := known.writePlan own wrote

theorem backed_job (complete : registry.Complete) {key : Key} {p : Plan} (known : p.Known registry key)
    {b : Blueprint Question} (made : (job p.body).blueprint? = some b) : ∃ c, b.Backed registry c := by
  have backed : ∀ {a : Assembly}, p.assembly? = some a → ∃ c, (blueprint a).Backed registry c := by
    rintro ⟨className, operands, calls, hook⟩ same
    obtain ⟨signature, knows, rfl, rfl, methods⟩ := known.assembly _ same
    refine Blueprint.backed_of_knows complete knows fun step member => ?_
    obtain ⟨call, listed, rfl⟩ := List.mem_map.mp member
    exact methods call listed
  unfold Plan.assembly? at backed
  cases body : p.body with
  | literal value =>
    rw [body] at made
    cases made
  | construct a | provide a context =>
    rw [body] at made backed
    cases made
    exact backed rfl

theorem carriesOut (complete : registry.Complete) {s : σ} (known : Store.Known registry s) (born : Nat)
    (requests : List (Key × Option Point)) :
    (injector registry).CarriesOut (requests.map fun asked => errand (id, asked)) (start born s) := by
  have lasts := lasts_knownGuard (σ := σ) complete
  refine Injector.carriesOut_of_backed lasts.finds (fun {q s scope work t} here found b made => ?_)
    (List.forall_mem_map.mpr fun _ _ _ => id) (Guard.holds_start known born)
  obtain ⟨p, -, good, rfl⟩ := lasts.found here found
  exact backed_job complete good made

end Runner

theorem Registry.Compiles.known (complete : registry.Complete) {s : σ} (compiles : registry.Compiles s) :
    Store.Known registry s := by
  induction compiles with
  | empty empty nothing =>
    refine ⟨fun {key p} found => ?_, fun read => ?_⟩
    · cases (congrArg Prod.snd (empty key)).symm.trans found
    · cases nothing.symm.trans read
  | pass _ produced fixed ih =>
    rw [Compile.passThrough_registry]
    exact moves_pass (produced.known complete) fixed _ _ ih
  | served born requests _ ih => exact ((Runner.lasts_knownGuard complete).holds_after ih born requests).store

/-- Whatever classes are defined and registered, an interpreter of a table that comes of the registry, and a
runner of the plans compiled from such tables, can carry out all that they find. -/
theorem recipes_carried_out {classes : List Class} (defined : ∀ c ∈ classes, c.Defined) (born : Nat)
    (requests : List (Key × Option Point)) :
    (∀ table, (Registry.ofClasses classes).Produces table →
      (Interpreter.injector (.ofClasses classes)).CarriesOut (requests.map Interpreter.errand)
        (.start born table)) ∧
    ∀ store : σ, (Registry.ofClasses classes).Compiles store →
      (Runner.injector (.ofClasses classes)).CarriesOut (requests.map fun asked => Runner.errand (id, asked))
        (Runner.start born store) :=
  have complete := Registry.complete_ofClasses defined
  ⟨fun _ produced => Interpreter.carriesOut complete (produced.known complete) born requests,
    fun _ compiles => Runner.carriesOut complete (compiles.known complete) born requests⟩

end

def clock : Class :=
  let wound := (Class.define "Clock" "Clock" fun _ => .ok []).setter false "wind" [⟨"key", .plain "Key", none⟩]
    fun _ _ => .error (.instantiation "Clock" "overwound")
  wound.postConstruct "wind" fun _ => .ok []

def rustyKey : Class := .define "Key" "Rust" fun _ => .error (.instantiation "Key" "broken")
def shinyKey : Class := .define "Key" "Brass" fun _ => .ok []

def clockwork : List Class := [rustyKey, clock, shinyKey]

def clockTable : Table :=
  ((Module.applyAll (Registry.ofClasses clockwork).signature? [.bind { key := .plain "Clock", target := .itself },
    .bind { key := .plain "Key", target := .itself }]).runOn SortedMap.empty).2

/-- What compiling the table leaves. -/
def clockStore : MemoryStore .none :=
  ((Compile.passThrough .interpreted clockTable (Registry.ofClasses clockwork).introspector .epoch).runOn
    (.start .none)).2

/-- Both injectors make the clock. -/
theorem clock_made : (∀ c ∈ clockwork, c.Defined) ∧
    (Interpreter.injector (.ofClasses clockwork)).CarriesOut [Interpreter.errand (.plain "Clock", none)]
      (.start 0 clockTable) ∧
    (∃ v, ((Interpreter.request (.ofClasses clockwork) (.plain "Clock") none).runOn
      (.start 0 clockTable)).1 = .ok v) ∧
    (Runner.injector (.ofClasses clockwork)).CarriesOut [Runner.errand (id, .plain "Clock", none)]
      (Runner.start 0 clockStore) ∧
    ∃ v, ((Runner.request (.ofClasses clockwork) (.plain "Clock") none).runOn
      (Runner.start 0 clockStore)).1 = .ok v := by
  have defined : ∀ c ∈ clockwork, c.Defined := by
    have rusty : rustyKey.Defined := .define _ _ _
    have wound : clock.Defined := .postConstruct _ _ (.setter _ _ _ _ (.define _ _ _))
    have shiny : shinyKey.Defined := .define _ _ _
    simp only [clockwork, List.forall_mem_cons]
    exact ⟨rusty, wound, shiny, nofun⟩
  have produced : (Registry.ofClasses clockwork).Produces clockTable := .bound _ .empty
  have compiles : (Registry.ofClasses clockwork).Compiles clockStore :=
    .pass (.empty MemoryStore.empty_start rfl) produced Compile.fixed_interpreted
  obtain ⟨interprets, runs⟩ := recipes_carried_out (σ := MemoryStore .none) defined 0 [(.plain "Clock", none)]
  exact ⟨defined, interprets _ produced, ⟨_, rfl⟩, runs _ compiles, ⟨_, rfl⟩⟩

end Wiring
