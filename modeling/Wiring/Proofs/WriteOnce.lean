import Wiring.Cache
import Wiring.Proofs.Course
import Wiring.Proofs.MemoryStore
import Wiring.Proofs.WriteOnce.Runner
import Wiring.TwoPhase

/-! # Plans are written once

Any number of compilers and runners work on one store, one command after another. However their
commands end, a plan that is in the store at some moment stays there as it is, and at each moment the
plans that runners have in memory are those of the store. Moments within a command count as well.
-/
namespace Wiring
open Act Store Wiring.Runtime

namespace Compile
variable {τ : Type} [Store τ]

def moments (capability : Capability τ) (table : Table) : List (Key × Binding) → τ → List τ
  | [], _ => []
  | e :: rest, s =>
    let next := ((entry capability table e.1 e.2).runOn s).2
    next :: moments capability table rest next

theorem exists_fate (capability : Capability τ) (table : Table) (key : Key) (binding : Binding) (s : τ) :
    ∃ fate t, (entry capability table key binding).runOn s = (.ok fate, t) := by
  simp only [entry, runOn_bind, runOn_get]
  cases hasPlan s key with
  | true => exact ⟨_, _, rfl⟩
  | false =>
    simp only [Bool.false_eq_true, if_false, runOn_bind, runOn_attempt]
    generalize (plan capability table key binding).runOn s = ran
    obtain ⟨e | p, t⟩ := ran
    · exact ⟨_, _, rfl⟩
    · cases ((writePlan p).runOn t).1 <;> exact ⟨_, _, rfl⟩

theorem course_moments {R : τ → τ → Prop} [IsPreorder τ R] {capability : Capability τ} {table : Table}
    {rest : List (Key × Binding)} (each : ∀ e ∈ rest, (entry capability table e.1 e.2).Moves R) (s : τ) :
    Course R s (moments capability table rest s) ((entries capability table rest).runOn s).2 := by
  induction rest generalizing s with
  | nil => exact .nil (refl_of R s)
  | cons e rest ih =>
    obtain ⟨first, others⟩ := List.forall_mem_cons.mp each
    obtain ⟨key, binding⟩ := e
    obtain ⟨fate, t, done⟩ := exists_fate capability table key binding s
    have now : R s t := first.of_eq done
    have later := ih others t
    simp only [moments, entries, runOn_bind, done]
    generalize (entries capability table rest).runOn t = ran at later ⊢
    obtain ⟨e | fates, u⟩ := ran <;> exact later.cons now

end Compile

namespace Runner
variable {σ : Type} [Store σ] (registry : Registry)

instance (key : Key) (scope : Scope) (s : State σ) : Decidable (Open key scope s) :=
  inferInstanceAs (Decidable (_ → _))

def moments : Nat → Key → Option Scope → Option Point → State σ → List (State σ)
  | 0, key, scope, point, s =>
    [((planFor registry key point).runOn s).2, ((obtain registry 0 key scope point).runOn s).2]
  | depth + 1, key, scope, point, s =>
    let found := (planFor registry key point).runOn s
    let within := match found with
      | (.error _, _) => []
      | (.ok plan, t) =>
        if Open key (scope.getD plan.scope) t ∧ key ∉ t.active then
          (dialogue registry plan.body point).moments (answer (obtain registry depth))
            (fun q => moments depth q.key q.scope q.point) (entered key t)
        else []
    found.2 :: (within ++ [((obtain registry (depth + 1) key scope point).runOn s).2])

variable {registry}

theorem runOn_obtain_of_found {depth : Nat} {key : Key} {scope : Option Scope} {point : Option Point}
    {s t : State σ} {plan : Plan} (found : (planFor registry key point).runOn s = (.ok plan, t)) :
    (obtain registry (depth + 1) key scope point).runOn s = (deliver key (scope.getD plan.scope)
      (evaluate registry (obtain registry depth) plan point)).runOn t := by
  simp only [obtain, runOn_bind, found]

variable {R : Memory σ → Memory σ → Prop} [IsPreorder (Memory σ) R]
  (plans : ∀ key point, (planFor registry key point).Moves (OnOwn R))
include plans

theorem course_moments (depth : Nat) (key : Key) (scope : Option Scope) (point : Option Point)
    (s : State σ) : Course (OnOwn R) s (moments registry depth key scope point s)
      ((obtain registry depth key scope point).runOn s).2 := by
  induction depth generalizing key scope point s with
  | zero =>
    refine Course.cons (plans key point s) (Course.single ?_)
    exact moves_after (fun plan => moves_deliver (moves_of_keeps fun _ => rfl) key _) s
  | succ depth ih =>
    refine Course.cons (plans key point s) ?_
    have later : OnOwn R ((planFor registry key point).runOn s).2
        ((obtain registry (depth + 1) key scope point).runOn s).2 := by
      refine moves_after (fun plan => moves_deliver (fun u => ?_) key _) s
      rw [performed_evaluate registry (obtain registry depth) plan point u]
      exact Dialogue.moves_runOn Dialogue.own_taken
        (fun q : Question => moves_obtain plans depth q.key q.scope q.point) _ u
    cases found : (planFor registry key point).runOn s with
    | mk outcome t =>
      rw [found] at later
      cases outcome with
      | error e => exact Course.single later
      | ok plan =>
        by_cases making : Open key (scope.getD plan.scope) t ∧ key ∉ t.active
        · simp only [if_pos making]
          have inner := Dialogue.course_moments (R := OnOwn R) Dialogue.own_taken
            (fun q : Question => ih q.key q.scope q.point) (dialogue registry plan.body point)
            (entered key t)
          have ends : OnOwn R ((dialogue registry plan.body point).runOn
              (answer (obtain registry depth)) (entered key t)).2
              ((obtain registry (depth + 1) key scope point).runOn s).2 := by
            rw [← performed_evaluate registry (obtain registry depth) plan point]
            change R _ _
            rw [runOn_obtain_of_found found, own_deliver_of_open making.1 making.2]
            exact refl_of R _
          have entering : OnOwn R t (entered key t) := refl_of R t.own
          exact ((Course.nil entering).append inner).append (Course.single ends)
        · simp only [if_neg making]
          exact Course.single later

end Runner

/-- A store with the compilers and the runners that work on it, the supply of object identities, and
whatever is asked for scopes from outside. -/
structure World (σ ε : Type) where
  store : σ
  born : Nat
  compilers : Nat → Interpreter.State
  runners : Nat → Runner.State σ
  outside : ε

namespace World
variable {σ ε α : Type} [Store σ]

def compilerPart (i : Nat) (w : World σ ε) : TwoPhase.State σ :=
  ⟨{ w.compilers i with born := w.born }, w.store⟩

def putCompiler (i : Nat) (s : TwoPhase.State σ) (w : World σ ε) : World σ ε :=
  { w with
    store := s.store
    born := s.interpreter.born
    compilers := Function.update w.compilers i s.interpreter }

def runnerPart (i : Nat) (w : World σ ε) : Runner.State σ :=
  { w.runners i with born := w.born, own.store := w.store }

def putRunner (i : Nat) (s : Runner.State σ) (w : World σ ε) : World σ ε :=
  { w with
    store := s.own.store
    born := s.born
    runners := Function.update w.runners i s }

def onStore (x : Act σ α) : Act (World σ ε) α :=
  x.onPart World.store fun store w => { w with store := store }

instance : Store (World σ ε) where
  hasPlan w := Store.hasPlan w.store
  writePlan plan := onStore (Store.writePlan plan)
  readPlan w := Store.readPlan w.store
  writeSnapshot snapshot := onStore (Store.writeSnapshot snapshot)
  readSnapshot w := Store.readSnapshot w.store
  tokens w := Store.tokens w.store
  capacity w := Store.capacity w.store

/-- Whom a pass asks for the scopes of keys that its table does not bind. Whoever is outside may look at
the store and has a state of its own. -/
inductive Source (σ ε : Type) where
  | nobody
  | runner (i : Nat)
  | outside (query : Key → σ → StateM ε (Option Scope))

def Source.capability : Source σ ε → Compile.Capability (World σ ε)
  | nobody => .interpreted
  | runner i => .compiling fun key w =>
    let asked := Runner.scopeOf key (w.runnerPart i)
    (asked.1, w.putRunner i asked.2)
  | outside query => .compiling fun key w =>
    let asked := query key w.store w.outside
    (asked.1, { w with outside := asked.2 })

/-- What can be asked for: passes over a table or the stored snapshot, and requests to a compiler or a
runner, each with any registry. -/
inductive Command (σ ε : Type) where
  | compileAll (source : Source σ ε) (table : Table) (time : Instant)
  | recompile (source : Source σ ε) (time : Instant)
  | resolve (i : Nat) (registry : Registry) (time : Instant) (key : Key)
  | compile (i : Nat) (time : Instant)
  | request (i : Nat) (registry : Registry) (key : Key) (point : Option Point)

namespace Command

/-- The world after a command, whether the command has failed or not. -/
def after (w : World σ ε) : Command σ ε → World σ ε
  | compileAll source table time => ((Compile.pass source.capability table time).runOn w).2
  | recompile source time => ((Compile.passOfSnapshot source.capability time).runOn w).2
  | resolve i registry time key =>
    w.putCompiler i ((TwoPhase.request registry time key).runOn (w.compilerPart i)).2
  | compile i time => w.putCompiler i ((TwoPhase.compile time).runOn (w.compilerPart i)).2
  | request i registry key point =>
    w.putRunner i ((Runner.request registry key point).runOn (w.runnerPart i)).2

def compilerMoments (i : Nat) (interpreter : Interpreter.State) (w : World σ ε) : List (World σ ε) :=
  (Compile.moments .interpreted interpreter.own interpreter.own.entries w.store).map fun store =>
    w.putCompiler i ⟨interpreter, store⟩

/-- The moments within a command. -/
def moments (w : World σ ε) : Command σ ε → List (World σ ε)
  | compileAll source table _ => Compile.moments source.capability table table.entries w
  | recompile source _ => match Store.readSnapshot w.store with
    | .ok (some snapshot) => match snapshot.toTable with
      | .ok table => Compile.moments source.capability table table.entries w
      | .error _ => []
    | _ => []
  | resolve i registry _ key =>
    match (Interpreter.request registry key none).runOn (w.compilerPart i).interpreter with
    | (.ok _, interpreter) => compilerMoments i interpreter w
    | (.error _, _) => []
  | compile i _ => compilerMoments i (w.compilerPart i).interpreter w
  | request i registry key point =>
    (Runner.moments registry (Runner.runnable registry (w.runnerPart i)) key none point
      (w.runnerPart i)).map fun s => w.putRunner i s

end Command

def moments (w : World σ ε) : List (Command σ ε) → List (World σ ε)
  | [] => [w]
  | command :: rest => w :: (command.moments w ++ moments (command.after w) rest)

/-- A world in which no runner holds plans but those in the store. -/
structure Faithful (w : World σ ε) : Prop where
  coherent : Coherent w.store
  held : ∀ {i key p}, (w.runners i).own.plans.get? key = some p →
    slot w.store key = (true, .ok (some p))

/-- From a faithful world the store is only filled, and the world stays faithful. -/
def Onward (w x : World σ ε) : Prop := Faithful w → Faithful x ∧ Fills w.store x.store

def Looks (w x : World σ ε) : Prop := x.store = w.store ∧ (Faithful w → Faithful x)

instance : IsPreorder (World σ ε) Onward where
  refl w h := ⟨h, refl_of Fills w.store⟩
  trans _ _ _ first later h :=
    ⟨(later (first h).1).1, trans_of Fills (first h).2 (later (first h).1).2⟩

instance : IsPreorder (World σ ε) Looks where
  refl _ := ⟨rfl, id⟩
  trans _ _ _ first later := ⟨later.1.trans first.1, fun h => later.2 (first.2 h)⟩

variable {w x : World σ ε} {i : Nat}

theorem Looks.onward (looks : Looks w x) : Onward w x :=
  fun faithful => ⟨looks.2 faithful, looks.1 ▸ refl_of Fills w.store⟩

theorem onward_of_fills (fills : Fills w.store x.store) (same : x.runners = w.runners) : Onward w x :=
  fun faithful => ⟨⟨faithful.coherent.fills fills, fun {i key p} found => by
    have old := faithful.held (same ▸ found)
    exact (fills.slot_eq (congrArg Prod.fst old)).trans old⟩, fills⟩

omit [Store σ] in
theorem runners_putRunner (i j : Nat) (s : Runner.State σ) (w : World σ ε) :
    (w.putRunner i s).runners j = if j = i then s else w.runners j := Function.update_apply ..

theorem Faithful.runnerPart (faithful : Faithful w) (i : Nat) :
    Runner.Faithful (w.runnerPart i).own :=
  ⟨faithful.coherent, fun found => faithful.held (i := i) found⟩

theorem onward_putRunner {s t : Runner.State σ} (onward : Runner.Onward s.own t.own) :
    Onward (w.putRunner i s) (w.putRunner i t) := by
  intro faithful
  have own : Runner.Faithful s.own := ⟨faithful.coherent, fun {key p} found =>
    faithful.held (i := i) (by rwa [runners_putRunner, if_pos rfl])⟩
  obtain ⟨later, fills⟩ := onward own
  refine ⟨⟨later.coherent, fun {j key p} found => ?_⟩, fills⟩
  rw [runners_putRunner] at found
  by_cases same : j = i
  · rw [if_pos same] at found
    exact later.held found
  · rw [if_neg same] at found
    have old : slot s.own.store key = (true, .ok (some p)) :=
      faithful.held (i := j) (by rwa [runners_putRunner, if_neg same])
    exact (fills.slot_eq (congrArg Prod.fst old)).trans old

theorem looks_runnerPart (w : World σ ε) (i : Nat) : Looks w (w.putRunner i (w.runnerPart i)) := by
  refine ⟨rfl, fun faithful => ⟨faithful.coherent, fun {j key p} found => faithful.held (i := j) ?_⟩⟩
  rw [runners_putRunner] at found
  by_cases same : j = i
  · rw [if_pos same] at found
    exact same ▸ found
  · rwa [if_neg same] at found

theorem onward_runner {t : Runner.State σ} (onward : Runner.Onward (w.runnerPart i).own t.own) :
    Onward w (w.putRunner i t) :=
  trans_of Onward (looks_runnerPart w i).onward (onward_putRunner onward)

theorem moves_source (source : Source σ ε) (key : Key) :
    (liftM (source.capability.scopeOf key) : Act (World σ ε) (Option Scope)).Moves Looks := by
  intro w
  cases source with
  | nobody => exact refl_of Looks w
  | outside query => exact ⟨rfl, fun faithful => ⟨faithful.coherent, faithful.held⟩⟩
  | runner i =>
    have loads : Runner.Loads (w.runnerPart i).own (Runner.scopeOf key (w.runnerPart i)).2.own :=
      Runner.moves_scopeOf Runner.moves_load key (w.runnerPart i)
    exact ⟨loads.1, fun faithful => (onward_runner loads.onward faithful).1⟩

variable [LawfulStore σ]

theorem moves_entry (source : Source σ ε) (table : Table) (key : Key) (binding : Binding) :
    (Compile.entry source.capability table key binding).Moves Onward := by
  intro w
  simp only [Compile.entry, runOn_bind, runOn_get]
  cases absent : Store.hasPlan w key with
  | true => exact refl_of Onward w
  | false =>
    have looks := Compile.moves_plan (moves_source source) table key binding w
    simp only [Bool.false_eq_true, if_false, runOn_bind, runOn_attempt]
    cases compiled : (Compile.plan source.capability table key binding).runOn w with
    | mk outcome u =>
      rw [compiled] at looks
      cases outcome with
      | error e => exact looks.onward
      | ok p =>
        obtain rfl := Compile.plan_key compiled
        have wrote : Onward u ((Store.writePlan p).runOn u).2 := by
          refine onward_of_fills (fills_writePlan ?_ (r := ((Store.writePlan p).runOn u.store).1) rfl) rfl
          rw [looks.1]
          exact absent
        have all := trans_of Onward looks.onward wrote
        simp only
        cases ((Store.writePlan p).runOn u).1 <;> exact all

theorem fills_writeSnapshot (snapshot : Snapshot) :
    (Store.writeSnapshot (σ := σ) snapshot).Moves Fills :=
  fun _ key => .inl (LawfulStore.slot_writeSnapshot rfl key)

end World

namespace Compile
variable {τ : Type} [Store τ] {R : τ → τ → Prop} [IsPreorder τ R] {capability : Capability τ}
  {table : Table}

theorem course_pass (each : ∀ e ∈ table.entries, (entry capability table e.1 e.2).Moves R)
    (snapshots : ∀ snapshot, (writeSnapshot (σ := τ) snapshot).Moves R) (time : Instant) (s : τ) :
    Course R s (moments capability table table.entries s) ((pass capability table time).runOn s).2 := by
  have later : R ((entries capability table table.entries).runOn s).2
      ((pass capability table time).runOn s).2 := by
    refine moves_after (fun fates => (snapshots _).bind fun _ => ?_) s
    cases failures fates <;> exact moves_of_keeps fun _ => rfl
  simpa using (course_moments each s).append (.nil later)

end Compile

namespace World
variable {σ ε : Type} [Store σ] [LawfulStore σ] {w : World σ ε}

theorem course_compileAll (source : Source σ ε) (table : Table) (time : Instant) (w : World σ ε) :
    Course Onward w (Compile.moments source.capability table table.entries w)
      ((Compile.pass source.capability table time).runOn w).2 :=
  Compile.course_pass (fun e _ => moves_entry source table e.1 e.2)
    (fun snapshot w => onward_of_fills (fills_writeSnapshot snapshot w.store) rfl) time w

theorem course_compiler (i : Nat) (interpreter : Interpreter.State) (time : Instant) (w : World σ ε) :
    Course Onward w (Command.compilerMoments i interpreter w)
      (w.putCompiler i ⟨interpreter, ((Compile.pass .interpreted interpreter.own time).runOn w.store).2⟩) := by
  have course : Course Fills w.store
      (Compile.moments .interpreted interpreter.own interpreter.own.entries w.store)
      ((Compile.pass .interpreted interpreter.own time).runOn w.store).2 :=
    Compile.course_pass (fun e member s => fills_of_writes
      (Compile.writes_entry Compile.fixed_interpreted (SortedMap.mem_entries_iff.mp member) s))
      fills_writeSnapshot time w.store
  exact course.map (fun fills => onward_of_fills fills rfl) fun fills => onward_of_fills fills rfl

theorem course_command (command : Command σ ε) (w : World σ ε) :
    Course Onward w (command.moments w) (command.after w) := by
  cases command with
  | compileAll source table time => exact course_compileAll source table time w
  | recompile source time =>
    simp only [Command.moments, Command.after, Compile.passOfSnapshot, Compile.onSnapshot, runOn_bind, runOn_get,
      runOn_liftExcept]
    have read : Store.readSnapshot w = Store.readSnapshot w.store := rfl
    rw [read]
    cases Store.readSnapshot w.store with
    | error e => exact .nil (refl_of Onward w)
    | ok found =>
      cases found with
      | none => exact .nil (refl_of Onward w)
      | some snapshot =>
        simp only [runOn_bind, runOn_liftExcept]
        cases snapshot.toTable with
        | error e => exact .nil (refl_of Onward w)
        | ok table => exact course_compileAll source table time w
  | resolve i registry time key =>
    simp only [Command.moments, Command.after, TwoPhase.request, TwoPhase.onInterpreter, runOn_bind,
      runOn_onPart]
    cases (Interpreter.request registry key none).runOn (w.compilerPart i).interpreter with
    | mk outcome interpreter =>
      cases outcome with
      | error e => exact .nil (onward_of_fills (refl_of Fills w.store) rfl)
      | ok value =>
        have course := course_compiler i interpreter time w
        have store : (w.compilerPart i).store = w.store := rfl
        simp only [TwoPhase.compile, TwoPhase.onStore, runOn_bind, runOn_get, runOn_onPart, store]
        generalize (Compile.pass .interpreted interpreter.own time).runOn w.store = ran at course ⊢
        obtain ⟨e | report, stored⟩ := ran <;> exact course
  | compile i time => exact course_compiler i (w.compilerPart i).interpreter time w
  | request i registry key point =>
    have course := Runner.course_moments (Runner.moves_planFor registry)
      (Runner.runnable registry (w.runnerPart i)) key none point (w.runnerPart i)
    exact course.map onward_runner onward_putRunner

theorem course_commands (commands : List (Command σ ε)) (w : World σ ε) :
    (w.moments commands).Pairwise Onward ∧ ∀ x ∈ w.moments commands, Onward w x := by
  induction commands generalizing w with
  | nil => simpa [moments] using refl_of Onward w
  | cons command rest ih =>
    have course := course_command command w
    obtain ⟨ordered, later⟩ := ih (command.after w)
    have all : ∀ x ∈ command.moments w ++ moments (command.after w) rest, Onward w x := by
      intro x member
      rcases List.mem_append.mp member with inside | after
      · exact course.first x inside
      · exact trans_of Onward course.whole (later x after)
    refine ⟨List.pairwise_cons.mpr ⟨all, List.pairwise_append.mpr ⟨course.ordered, ordered, ?_⟩⟩, ?_⟩
    · exact fun x hx y hy => trans_of Onward (course.last x hx) (later y hy)
    · exact List.forall_mem_cons.mpr ⟨refl_of Onward w, all⟩

omit [LawfulStore σ] in
theorem after_mem_moments (before rest : List (Command σ ε)) (w : World σ ε) :
    before.foldl Command.after w ∈ w.moments (before ++ rest) := by
  induction before generalizing w with
  | nil => cases rest <;> simp [moments]
  | cons command before ih =>
    exact List.mem_cons_of_mem w (List.mem_append_right _ (ih (command.after w)))

/-- From a coherent store and runners that have not loaded anything, whatever commands follow: a plan
that is there at some moment is there at each later one, and reads the same; and at each moment the
plans that runners hold are those that the store has. -/
theorem plans_written_once (coherent : Coherent w.store)
    (unloaded : ∀ i, (w.runners i).own.plans = SortedMap.empty) (commands : List (Command σ ε)) :
    ((w.moments commands).Pairwise fun x y => ∀ key, Store.hasPlan x.store key = true →
      Store.hasPlan y.store key = true ∧ Store.readPlan y.store key = Store.readPlan x.store key) ∧
    ∀ x ∈ w.moments commands, ∀ i key p, (x.runners i).own.plans.get? key = some p →
      Store.hasPlan x.store key = true ∧ Store.readPlan x.store key = .ok (some p) := by
  have faithful : Faithful w := ⟨coherent, fun {i key p} found => by
    rw [unloaded i] at found
    cases found⟩
  obtain ⟨ordered, later⟩ := course_commands commands w
  have all : ∀ x ∈ w.moments commands, Faithful x := fun x member => (later x member faithful).1
  refine ⟨ordered.imp_of_mem fun {x y} hx _ onward key held => ?_, fun x member i key p found => ?_⟩
  · have same := (onward (all x hx)).2.slot_eq held
    exact ⟨(congrArg Prod.fst same).trans held, congrArg Prod.snd same⟩
  · exact Prod.mk.inj ((all x member).held found)

def foreignPlan : Plan := { Plan.current (.plain "A") .singleton (.literal Json.null) with version := 2 }

def foreignStore : MemoryStore .none := ⟨SortedMap.empty.insert (.plain "A") foreignPlan, none⟩

def plainB : Registry := .ofClasses [.define "B" "B" fun _ => .ok []]

/-- The table that binds `A` to a literal and `B` to its class. -/
def foreignTable : Table :=
  .ofList [(.plain "A", .literal Json.null),
    (.plain "B", Interpreter.discovered ((plainB.signature? "B").getD default))]

def foreignWorld : World (MemoryStore .none) Unit :=
  ⟨foreignStore, 0, fun _ => Runtime.start 0 foreignTable, fun _ => Runner.start 0 foreignStore, ()⟩

/-- A request that the foreign plan refuses, a pass that asks the runner for scopes, and a request for
what the pass has compiled. -/
def foreignCommands : List (Command (MemoryStore .none) Unit) :=
  [.request 0 plainB (.plain "A") none, .compileAll (.runner 0) foreignTable default,
    .request 0 plainB (.plain "B") none]

theorem coherent_foreignStore : Coherent foreignStore := by
  have only : ∀ {key p}, Store.readPlan foreignStore key = .ok (some p) →
      key = .plain "A" ∧ p = foreignPlan := by
    intro key p found
    have got : foreignStore.plans.get? key = some p := Except.ok.inj found
    rw [foreignStore, SortedMap.get?_insert] at got
    by_cases same : key = .plain "A"
    · rw [if_pos same] at got
      exact ⟨same, (Option.some.inj got).symm⟩
    · rw [if_neg same] at got
      cases got
  refine ⟨fun {key} found => ?_, fun {key p} found => ?_, fun {key p} found => ?_⟩
  · exact congrArg Option.isSome (Except.ok.inj found)
  · exact congrArg Option.isSome (Except.ok.inj found)
  · obtain ⟨rfl, rfl⟩ := only found
    rfl

/-- The foreign plan is refused, skipped and left as it is; the runner holds the `B` of the store. -/
theorem foreign_plan_kept :
    let last := foreignCommands.foldl Command.after foreignWorld
    Store.readPlan last.store (.plain "A") = .ok (some foreignPlan) ∧
      ∃ p, (last.runners 0).own.plans.get? (.plain "B") = some p ∧
        Store.readPlan last.store (.plain "B") = .ok (some p) := by
  obtain ⟨kept, held⟩ := plans_written_once (w := foreignWorld) coherent_foreignStore (fun _ => rfl)
    foreignCommands
  have member := after_mem_moments foreignCommands [] foreignWorld
  rw [List.append_nil] at member
  refine ⟨?_, _, rfl, (held _ member 0 (.plain "B") _ rfl).2⟩
  rcases List.mem_cons.mp member with same | later
  · rw [same]
    rfl
  · exact ((List.pairwise_cons.mp kept).1 _ later (.plain "A") rfl).2

end World

namespace Cache
variable {c : Cache} {key : Key}

theorem isFile_iff (disk : Disk) (path : String) :
    disk.isFile path = true ↔ ∃ contents, disk.read path = .ok contents := by
  unfold Disk.isFile Disk.find? Disk.read
  cases disk.locate path with
  | error fault => exact ⟨nofun, nofun⟩
  | ok place =>
    simp only [bind, Except.bind]
    cases disk.node? place with
    | none => exact ⟨nofun, nofun⟩
    | some node =>
      cases node with
      | directory => exact ⟨nofun, nofun⟩
      | file contents => exact ⟨fun _ => ⟨contents, rfl⟩, fun _ => rfl⟩

theorem notFound_of_readPlan (h : c.readPlan key = .ok none) :
    c.disk.read (c.planPath key) = .error .notFound := by
  unfold readPlan readFile at h
  cases read : c.disk.read (c.planPath key) with
  | error fault =>
    rw [read] at h
    cases fault with
    | notFound => rfl
    | _ => cases h
  | ok contents =>
    rw [read] at h
    cases decoded : Plan.ofBytes? contents with
    | none =>
      simp only [decoded] at h
      cases h
    | some plan =>
      simp only [decoded, bind, Except.bind] at h
      by_cases same : plan.key = key <;> simp [same] at h

theorem found_of_readPlan {p : Plan} (h : c.readPlan key = .ok (some p)) :
    (∃ contents, c.disk.read (c.planPath key) = .ok contents) ∧ p.key = key := by
  unfold readPlan readFile at h
  cases read : c.disk.read (c.planPath key) with
  | error fault =>
    rw [read] at h
    cases fault <;> cases h
  | ok contents =>
    rw [read] at h
    refine ⟨⟨contents, rfl⟩, ?_⟩
    cases decoded : Plan.ofBytes? contents with
    | none =>
      simp only [decoded] at h
      cases h
    | some plan =>
      simp only [decoded, bind, Except.bind] at h
      by_cases same : plan.key = key
      · rw [if_pos same] at h
        cases h
        exact same
      · rw [if_neg same] at h
        cases h

/-- Whatever is on its disk, a cache is coherent. -/
theorem coherent (c : Cache) : Coherent c where
  absent {key} h := by
    rw [← Bool.not_eq_true]
    intro isFile
    obtain ⟨contents, there⟩ := (isFile_iff c.disk (c.planPath key)).mp isFile
    rw [notFound_of_readPlan h] at there
    cases there
  present {key} _ h := (isFile_iff c.disk (c.planPath key)).mpr (found_of_readPlan h).1
  named h := (found_of_readPlan h).2

end Cache
end Wiring
