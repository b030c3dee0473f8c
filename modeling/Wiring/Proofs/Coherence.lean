import Wiring.Proofs.Coherence.Runner
import Wiring.Proofs.Compile.Pass
import Wiring.Proofs.Deletion
import Wiring.Proofs.WriteOnce

/-! # Scopes are coherent

Compilers that resolve first and runners that compile on demand work on the store that a pass over their
table has left. If that pass has written its snapshot, then at each moment all plans in the store fit the
table: no two call sites differ about the scope of a key, and none differs from the key's own plan.
-/
namespace Wiring
open Act Store

namespace Compile
variable {σ : Type} [Store σ] [LawfulStore σ] {table wide : Table} (widens : table.Widens wide)
include widens

theorem ensures_entry {key : Key} {binding : Binding} (bound : wide.get? key = some binding) :
    (entry .interpreted wide key binding : Act σ Fate).Ensures (Store.Fitting table) fun _ => True := by
  intro s fitting
  obtain ⟨fate, t, ran, run⟩ := runOn_entry fixed_interpreted wide key binding s
  rw [ran]
  refine ⟨?_, fun _ _ => trivial⟩
  cases run with
  | skipped _ | invalid _ _ => exact fitting
  | refused _ compiled wrote | compiled _ compiled wrote =>
    obtain rfl := planFor_key compiled
    exact fitting.writePlan (fits_of_planFor widens bound compiled) wrote

theorem ensures_entries {rest : List (Key × Binding)} (found : ∀ e ∈ rest, wide.get? e.1 = some e.2) :
    (entries .interpreted wide rest : Act σ (List (Key × Fate))).Ensures (Store.Fitting table)
      fun _ => True := by
  induction rest with
  | nil => exact ensures_pure trivial
  | cons e rest ih =>
    obtain ⟨first, others⟩ := List.forall_mem_cons.mp found
    exact (ensures_entry widens first).bind fun _ _ => (ih others).bind fun _ _ => ensures_pure trivial

theorem ensures_pass (time : Instant) :
    (pass .interpreted wide time : Act σ Report).Ensures (Store.Fitting table) fun _ => True := by
  have found : ∀ e ∈ wide.entries, wide.get? e.1 = some e.2 := fun e => SortedMap.mem_entries_iff.mp
  have snapshots : (writeSnapshot (Snapshot.ofTable time wide) : Act σ Unit).Ensures
      (Store.Fitting table) fun _ => True := fun s fitting =>
    ⟨fitting.writeSnapshot widens rfl, fun _ _ => trivial⟩
  refine (ensures_entries widens found).bind fun fates _ => snapshots.bind fun _ _ => ?_
  cases failures fates with
  | nil => exact ensures_pure trivial
  | cons failure rest => exact ensures_throw _

theorem fitting_moments {s : σ} (fitting : Store.Fitting table s) :
    ∀ t ∈ moments .interpreted wide wide.entries s, Store.Fitting table t := by
  have each : ∀ e ∈ wide.entries,
      (entry .interpreted wide e.1 e.2 : Act σ Fate).Moves (Preserves (Store.Fitting table)) := fun e member =>
    (ensures_entry widens (SortedMap.mem_entries_iff.mp member)).moves
  exact fun t member => (course_moments each s).first t member fitting

omit widens in
theorem fitting_of_pass {time : Instant} {s t : σ} {r : Except Error Report} (empty : Empty s)
    (passed : (pass .interpreted table time).runOn s = (r, t))
    (snapshot : readSnapshot t = .ok (some (Snapshot.ofTable time table))) : Store.Fitting table t := by
  have writes : Writes noScopes table s t := (writes_pass fixed_interpreted time).of_eq passed
  refine ⟨⟨time, table, snapshot, .refl table⟩, fun {key p} found => ?_⟩
  rcases slots_of_writes empty writes key with absent | ⟨q, ⟨binding, bound, compiled⟩, there⟩
  · cases (congrArg Prod.snd absent).symm.trans found
  · cases (congrArg Prod.snd there).symm.trans found
    exact fits_of_planFor (.refl table) bound compiled

end Compile

namespace World
variable {σ ε : Type}

/-- What compilers and runners are asked in the ordinary way: to resolve a key, or to compile what is
known. -/
def Command.Usual : Command σ ε → Prop
  | .resolve .. | .compile .. | .request .. => True
  | .compileAll .. | .recompile .. => False

variable [Store σ]

/-- A world whose store fits a table, and with it whoever works on the store. -/
structure Fitting (table : Table) (w : World σ ε) : Prop where
  compilers : ∀ i, table.Widens (w.compilers i).own
  runners : ∀ i, Runner.Fitting table (w.runnerPart i).own

variable {table : Table} {w : World σ ε}

theorem Fitting.store (fitting : Fitting table w) : Store.Fitting table w.store := (fitting.runners 0).store

theorem Fitting.putCompiler (fitting : Fitting table w) {s : TwoPhase.State σ}
    (widens : table.Widens s.interpreter.own) (store : Store.Fitting table s.store) (i : Nat) :
    Fitting table (w.putCompiler i s) where
  compilers j := by
    change table.Widens (Function.update w.compilers i s.interpreter j).own
    by_cases same : j = i
    · rw [same, Function.update_self]
      exact widens
    · rw [Function.update_of_ne same]
      exact fitting.compilers j
  runners j := ⟨store, (fitting.runners j).plans, (fitting.runners j).table⟩

theorem Fitting.putRunner (fitting : Fitting table w) {s : Runner.State σ}
    (runner : Runner.Fitting table s.own) (i : Nat) : Fitting table (w.putRunner i s) where
  compilers := fitting.compilers
  runners j := by
    have part : ((w.putRunner i s).runners j) = if j = i then s else w.runners j :=
      runners_putRunner i j s w
    by_cases same : j = i
    · have own : ((w.putRunner i s).runnerPart j).own = s.own := by
        simp only [runnerPart, part, if_pos same]
        rfl
      exact own ▸ runner
    · have own : ((w.putRunner i s).runnerPart j).own = { (w.runners j).own with store := s.own.store } := by
        simp only [runnerPart, part, if_neg same]
        rfl
      exact own ▸ ⟨runner.store, (fitting.runners j).plans, (fitting.runners j).table⟩

variable [LawfulStore σ]

theorem fitting_compiler (fitting : Fitting table w) {interpreter : Interpreter.State}
    (widens : table.Widens interpreter.own) (i : Nat) (time : Instant) :
    (∀ x ∈ Command.compilerMoments i interpreter w, Fitting table x) ∧ Fitting table
      (w.putCompiler i ⟨interpreter, ((Compile.pass .interpreted interpreter.own time).runOn w.store).2⟩) := by
  refine ⟨fun x member => ?_, ?_⟩
  · obtain ⟨store, inside, rfl⟩ := List.mem_map.mp member
    exact fitting.putCompiler widens (Compile.fitting_moments widens fitting.store store inside) i
  · exact fitting.putCompiler widens (Compile.ensures_pass widens time w.store fitting.store).1 i

theorem fitting_command (fitting : Fitting table w) {command : Command σ ε} (usual : command.Usual) :
    (∀ x ∈ command.moments w, Fitting table x) ∧ Fitting table (command.after w) := by
  cases command with
  | compileAll source table time | recompile source time => exact usual.elim
  | compile i time =>
    have widens : table.Widens (w.compilerPart i).interpreter.own := fitting.compilers i
    exact fitting_compiler fitting widens i time
  | resolve i registry time key =>
    have grows : Interpreter.Grows registry (w.compilers i).own
        ((Interpreter.request registry key none).runOn (w.compilerPart i).interpreter).2.own :=
      Interpreter.moves_request key none (w.compilerPart i).interpreter
    have widens := (fitting.compilers i).grows grows
    simp only [Command.moments, Command.after, TwoPhase.request, TwoPhase.onInterpreter, runOn_bind,
      runOn_onPart]
    generalize (Interpreter.request registry key none).runOn (w.compilerPart i).interpreter = ran at widens ⊢
    obtain ⟨e | value, interpreter⟩ := ran
    · exact ⟨List.forall_mem_nil _, fitting.putCompiler widens fitting.store i⟩
    · have compiled := fitting_compiler fitting widens i time
      have store : (w.compilerPart i).store = w.store := rfl
      simp only [TwoPhase.compile, TwoPhase.onStore, runOn_bind, runOn_get, runOn_onPart, store]
      generalize (Compile.pass .interpreted interpreter.own time).runOn w.store = ran at compiled ⊢
      obtain ⟨e | report, stored⟩ := ran <;> exact compiled
  | request i registry key point =>
    have plans : ∀ key point, (Runner.planFor registry key point : Runner.Run σ Plan).Moves
        (Runtime.OnOwn (Preserves (Runner.Fitting table))) := fun key point =>
      (Runner.ensures_planFor registry key point).moves
    have course := Runner.course_moments plans (Runner.runnable registry (w.runnerPart i)) key none point
      (w.runnerPart i)
    refine ⟨fun x member => ?_, fitting.putRunner (course.whole (fitting.runners i)) i⟩
    obtain ⟨s, inside, rfl⟩ := List.mem_map.mp member
    exact fitting.putRunner (course.first s inside (fitting.runners i)) i

theorem fitting_moments {commands : List (Command σ ε)} (usual : ∀ c ∈ commands, c.Usual)
    (fitting : Fitting table w) : ∀ x ∈ w.moments commands, Fitting table x := by
  induction commands generalizing w with
  | nil => simpa [moments] using fitting
  | cons command rest ih =>
    obtain ⟨first, others⟩ := List.forall_mem_cons.mp usual
    obtain ⟨within, after⟩ := fitting_command fitting first
    refine List.forall_mem_cons.mpr ⟨fitting, fun x member => ?_⟩
    rcases List.mem_append.mp member with inside | later
    · exact within x inside
    · exact ih others after x later

def fresh (table : Table) (store : σ) (born : Nat) (outside : ε) : World σ ε :=
  ⟨store, born, fun _ => Runtime.start born table, fun _ => Runner.start born store, outside⟩

/-- Let a pass on an empty store write its snapshot, whether or not all bindings compile and all plans are
written. Whatever compilers with its table and runners over the store are asked then, and whichever writes
fail, at each moment the plan of a key has the scope that the table gives the key, and each reference or
deferred call site the scope that the table gives the key that it names. -/
theorem scopes_coherent {time : Instant} {store stored : σ} {r : Except Error Compile.Report}
    (empty : Empty store) (passed : (Compile.pass .interpreted table time).runOn store = (r, stored))
    (snapshot : readSnapshot stored = .ok (some (Snapshot.ofTable time table))) (born : Nat) (outside : ε)
    {commands : List (Command σ ε)} (usual : ∀ c ∈ commands, c.Usual) :
    ∀ x ∈ (fresh table stored born outside).moments commands, ∀ key p,
      Store.readPlan x.store key = .ok (some p) →
        p.key = key ∧ p.scope = table.scopeOf key ∧ ∀ o ∈ p.operands, o.Fits table := by
  have start : Fitting table (fresh table stored born outside) :=
    ⟨fun _ => .refl table, fun _ => ⟨Compile.fitting_of_pass empty passed snapshot, nofun, nofun⟩⟩
  intro x member key p found
  have fits : p.Fits table key := (fitting_moments usual start x member).store.plans found
  exact ⟨fits.named, fits.scope, fits.operands⟩

open TwoPhase in
def lateRegistry : Registry :=
  .ofClasses [bare "B", (bare "D").constructorParameter ⟨"b", .plain "B", none⟩ |>.constructorParameter
    ⟨"s", .plain "S", none⟩, bare "S"]

def lateStore : MemoryStore .none :=
  ((Compile.pass .interpreted TwoPhase.oneS default).runOn (MemoryStore.start .none)).2

def planD : Plan :=
  .current (.plain "D") .prototype (.construct ⟨"D",
    [.deferred .prototype (.plain "B") ⟨"D", "new", "b"⟩, .reference .singleton (.plain "S")], [], none⟩)

def lateCommands : List (Command (MemoryStore .none) Unit) :=
  [.request 0 lateRegistry (.plain "B") none, .request 1 lateRegistry (.plain "D") none]

/-- One runner compiles a `B` on demand, so another one that compiles a `D` defers its parameter for it. -/
theorem deferred_site_coherent :
    let last := lateCommands.foldl Command.after (fresh TwoPhase.oneS lateStore 0 ())
    Store.readPlan last.store (.plain "D") = .ok (some planD) ∧
      planD.scope = TwoPhase.oneS.scopeOf (.plain "D") ∧ ∀ o ∈ planD.operands, o.Fits TwoPhase.oneS := by
  intro last
  have read : Store.readPlan last.store (.plain "D") = .ok (some planD) := rfl
  have member := after_mem_moments lateCommands [] (fresh TwoPhase.oneS lateStore 0 ())
  rw [List.append_nil] at member
  have usual : ∀ c ∈ lateCommands, c.Usual := by simp [lateCommands, Command.Usual]
  obtain ⟨-, scope, sites⟩ := scopes_coherent (σ := MemoryStore .none) MemoryStore.empty_start rfl rfl 0 ()
    usual last member (.plain "D") planD read
  exact ⟨read, scope, sites⟩

def noSnapshots : Refusals := ⟨fun _ => none, some (.storage "Failed to open lock file" none)⟩

open TwoPhase in
def splitRegistry : Registry :=
  .ofClasses [bare "Q", (bare "R").constructorParameter ⟨"q", .plain "Q", none⟩,
    (bare "X").constructorParameter ⟨"u", .plain "U", none⟩]

/-- The table that binds `Q` to the one `X`, which cannot be compiled. -/
def splitTable : Table :=
  let signature (name : String) := (splitRegistry.signature? name).getD default
  .ofList [(.plain "Q", .build ⟨signature "X", .singleton⟩), (.plain "R", .build ⟨signature "R", .prototype⟩)]

def splitStore : MemoryStore noSnapshots :=
  ((Compile.pass .interpreted splitTable default).runOn (MemoryStore.start noSnapshots)).2

/-- The pass compiles the `R` with a reference to the one `Q` but does not leave its table. So a runner
binds `Q` anew, to the class of that name, and the plan that it stores is one for prototypes. -/
theorem scopes_split_without_snapshot :
    let w : World (MemoryStore noSnapshots) Unit := fresh splitTable splitStore 0 ()
    let commands := [.request 0 splitRegistry (.plain "Q") none]
    ∃ x ∈ w.moments commands, (∀ c ∈ commands, Command.Usual c) ∧
      (∃ p, Store.readPlan x.store (.plain "R") = .ok (some p) ∧
        .reference .singleton (.plain "Q") ∈ p.operands) ∧
      ∃ p, Store.readPlan x.store (.plain "Q") = .ok (some p) ∧ p.scope = .prototype ∧
        splitTable.scopeOf (.plain "Q") = .singleton := by
  intro w commands
  have member : commands.foldl Command.after w ∈ w.moments (commands ++ []) :=
    after_mem_moments commands [] w
  refine ⟨_, member, by simp [commands, Command.Usual], ⟨_, rfl, List.mem_singleton.mpr rfl⟩, _, rfl, rfl, rfl⟩

end World
end Wiring
