import Wiring.Proofs.Journal.Nesting
import Wiring.Proofs.Termination

/-! # The journal of the runner

What a runner does for a key is what the plan of the key says. A plan stays in memory once it has been found,
so it is what is done for the key from then on, whatever becomes of the store.
-/
namespace Wiring.Runner
open Act Store Wiring.Runtime

variable {σ : Type} [Store σ] (registry : Registry)

def need : Operand → Need Question
  | .reference scope key => .question (.operand scope key none)
  | .deferred scope key point => .question (.operand scope key (some point))
  | .literal value => .literal value

/-- An assembly as a blueprint, none of whose setters is optional. -/
def blueprint (a : Assembly) : Blueprint Question :=
  .ofAssembly (fun _ => need) a.className a.operands (a.calls.map step) a.hook

def job : Plan.Body → Job Question
  | .construct assembly => .build (blueprint assembly)
  | .literal value => .literal value
  | .provide assembly context => .provide (blueprint assembly) context

def finder : Finder Question (Memory σ) where
  registry := registry
  lookup := .lookup
  key := Question.key
  point := Question.point
  find q s := match (planFor registry q.key q.point).runOn s with
    | (.ok plan, t) => (.does (q.scope.getD plan.scope) (job plan.body), t)
    | (.error e, t) => (.answered (.error e), t)

theorem dialogue_finder (body : Plan.Body) (point : Option Point) :
    (finder (σ := σ) registry).dialogue (job body) point = dialogue registry body point := by
  have needed : ∀ o, (need o).dialogue = Operand.dialogue o := fun o => by cases o <;> rfl
  cases body with
  | literal value => rfl
  | construct assembly | provide assembly context =>
    simp only [Finder.dialogue, job, blueprint, Blueprint.dialogue_ofAssembly, needed]
    rfl

theorem opens_finder : (finder (σ := σ) registry).opens = opens registry := by
  funext q s
  simp only [Finder.opens, finder, opens]
  rcases (planFor registry q.key q.point).runOn s with ⟨e | plan, t⟩
  · rfl
  · exact congrArg (fun body => (Opening.delivers _ _ body, _)) (dialogue_finder registry plan.body _)

def injector : Injector Question (Memory σ) where
  __ := finder registry
  answer depth := answer (obtain registry depth)
  bound := runnable registry
  bounded := by
    rw [opens_finder]
    exact bounded_answer

def Retains (m n : Memory σ) : Prop := ∀ key p, m.plans.get? key = some p → n.plans.get? key = some p

omit [Store σ] in
instance : IsPreorder (Memory σ) Retains where
  refl _ _ _ := id
  trans _ _ _ first later key p held := later key p (first key p held)

omit [Store σ] in
theorem retains_remember (m : Memory σ) (p : Plan) :
    Retains m { m with plans := m.plans.insertIfNew p.key p } := by
  intro key p' held
  simp only [SortedMap.get?_insertIfNew]
  by_cases same : key = p.key
  · rw [if_pos same, ← same, held]
    rfl
  · rwa [if_neg same]

omit [Store σ] in
theorem held_remember (m : Memory σ) (p : Plan) :
    (m.plans.insertIfNew p.key p).get? p.key = some ((m.plans.get? p.key).getD p) := by
  rw [SortedMap.get?_insertIfNew, if_pos rfl]

theorem retains_load (key : Key) : (load (σ := σ) key).Moves (OnOwn Retains) := by
  intro s
  have loading := loading_load key s
  generalize (load key).runOn s = ran at loading
  cases loading with
  | known _ | unread _ _ | absent _ _ | outdated _ _ _ => exact refl_of Retains s.own
  | read _ _ _ => exact retains_remember s.own _

theorem retains_snapshotTable : (snapshotTable (σ := σ)).Moves (OnOwn Retains) := by
  intro s
  simp only [snapshotTable, runOn_bind, runOn_get]
  cases s.own.table with
  | some table => exact refl_of Retains s.own
  | none =>
    simp only [runOn_bind, runOn_get, runOn_liftExcept]
    rcases readSnapshot s.own.store with e | _ | snapshot
    · exact refl_of Retains s.own
    · exact refl_of Retains s.own
    · simp only
      cases snapshot.toTable with
      | error e => exact refl_of Retains s.own
      | ok table => exact refl_of Retains s.own

theorem retains_compile (key : Key) : (compile (σ := σ) registry key).Moves (OnOwn Retains) := by
  intro s
  have compiling := compiling_compile registry key s
  generalize (compile registry key).runOn s = ran at compiling
  have tables : ∀ {r t}, snapshotTable.runOn s = (r, t) → OnOwn Retains s t := retains_snapshotTable.of_eq
  have plans : ∀ {table binding r} {t u : State σ},
      (Compile.plan (.compiling scopeOf) table key binding).runOn t = (r, u) → OnOwn Retains t u :=
    fun {table binding _ _ _} => (moves_compiling retains_load table key binding).of_eq
  cases compiling with
  | unread read | unbound read _ => exact tables read
  | refused read _ compiled | unwritten read _ compiled _ =>
    exact trans_of (OnOwn Retains) (tables read) (plans compiled)
  | written read _ compiled _ =>
    have before := trans_of (OnOwn Retains) (tables read) (plans compiled)
    exact trans_of Retains before (retains_remember _ _)

theorem retains_planFor (key : Key) (point : Option Point) :
    (planFor (σ := σ) registry key point).Moves (OnOwn Retains) := by
  intro s
  have finding := finding_planFor registry key point s
  generalize (planFor registry key point).runOn s = ran at finding
  have loads : ∀ {r t}, (load key).runOn s = (r, t) → OnOwn Retains s t := (retains_load key).of_eq
  have compiles : ∀ {r} {t u : State σ}, (compile registry key).runOn t = (r, u) → OnOwn Retains t u :=
    (retains_compile registry key).of_eq
  cases finding with
  | unloaded ran | loaded ran => exact loads ran
  | failed ran ran' | unbound ran ran' | compiled ran ran' =>
    exact trans_of (OnOwn Retains) (loads ran) (compiles ran')

variable {registry} {I : σ → Prop} {key : Key} {p : Plan} {s t : State σ}

theorem held_of_load (orderly : Orderly I) (inv : I s.own.store)
    (loaded : (load key).runOn s = (.ok (some p), t)) : t.own.plans.get? key = some p := by
  have loading := loading_load key s
  rw [loaded] at loading
  cases loading with
  | known held => exact held
  | @read p _ found _ =>
    obtain rfl := orderly.named inv found
    exact held_remember s.own p

theorem held_of_compile (compiled : (compile registry key).runOn s = (.ok (some p), t)) :
    t.own.plans.get? key = some p := by
  have compiling := compiling_compile registry key s
  rw [compiled] at compiling
  cases compiling with
  | @written _ _ p _ u _ _ _ planned _ =>
    obtain rfl := Compile.plan_key planned
    exact held_remember u.own p

/-- A plan that has been found is in memory. -/
theorem held_of_planFor (orderly : Orderly I) (inv : I s.own.store) {point : Option Point}
    (found : (planFor registry key point).runOn s = (.ok p, t)) : t.own.plans.get? key = some p := by
  have finding := finding_planFor registry key point s
  rw [found] at finding
  cases finding with
  | loaded ran => exact held_of_load orderly inv ran
  | compiled _ ran => exact held_of_compile ran

theorem planFor_of_held (held : s.own.plans.get? key = some p) (point : Option Point) :
    (planFor registry key point).runOn s = (.ok p, s) := by
  simp only [planFor, load, runOn_bind, runOn_get, held, runOn_pure]

def Law (m : Memory σ) (key : Key) (_ : Scope) (work : Job Question) : Prop :=
  ∃ plan, m.plans.get? key = some plan ∧ work = job plan.body

theorem lawful_injector (orderly : Orderly I) :
    (injector (σ := σ) registry).Lawful (fun m => I m.store) Retains Law where
  keeps {q s} inv := by
    have ensured := ensures_planFor_within orderly (class_mem_resolvable registry s.own) q.key q.point s (within_resolvable orderly inv)
    simp only [injector, finder]
    generalize (planFor registry q.key q.point).runOn s = ran at ensured
    obtain ⟨e | plan, t⟩ := ran <;> exact ensured.1.store
  moves q s := by
    have retains := retains_planFor registry q.key q.point s
    simp only [injector, finder]
    generalize (planFor registry q.key q.point).runOn s = ran at retains
    obtain ⟨e | plan, t⟩ := ran <;> exact retains
  ownOnly q s := by
    have only := ownOnly_planFor registry q.key q.point s
    simp only [injector, finder]
    generalize (planFor registry q.key q.point).runOn s = ran at only
    obtain ⟨e | plan, t⟩ := ran <;> exact only
  stable retains law := by
    obtain ⟨plan, held, same⟩ := law
    exact ⟨plan, retains _ _ held, same⟩
  sole law law' := by
    obtain ⟨plan, held, rfl⟩ := law
    obtain ⟨plan', held', rfl⟩ := law'
    cases held.symm.trans held'
    rfl
  found {q s scope work t} inv found := by
    simp only [injector, finder] at found
    cases ran : (planFor registry q.key q.point).runOn s with
    | mk outcome u =>
      rw [ran] at found
      cases outcome with
      | error e => cases found
      | ok plan =>
        cases found
        exact ⟨plan, held_of_planFor orderly inv ran, rfl⟩
  certain {q s scope work outcome t} law found := by
    obtain ⟨plan, held, -⟩ := law
    have again : (planFor registry q.key q.point).runOn s = (.ok plan, s) := planFor_of_held held q.point
    simp only [injector, finder, again] at found
    cases found

/-- A request for a key on behalf of a point, after others have changed the store. -/
def errand (asked : (σ → σ) × Key × Option Point) : Errand Question (Memory σ) :=
  ⟨fun m => { m with store := asked.1 m.store }, .lookup asked.2.1 asked.2.2⟩

theorem serve_errand (asked : (σ → σ) × Key × Option Point) (s : State σ) :
    (injector registry).serve (errand asked) s = (request registry asked.2.1 asked.2.2).runOn
      { s with own := { s.own with store := asked.1 s.own.store } } := rfl

omit [Store σ] in
theorem harmless_errands {requests : List ((σ → σ) × Key × Option Point)}
    (keeps : ∀ asked ∈ requests, ∀ store, I store → I (asked.1 store)) :
    ∀ e ∈ requests.map errand, e.Harmless (fun m => I m.store) Retains := by
  rw [List.forall_mem_map]
  exact fun asked member m inv => ⟨keeps asked member m.store inv, fun _ _ held => held⟩

theorem room_injector (orderly : Orderly I) (s : State σ) (inv : I s.own.store) :
    ∃ (opened : Memory σ → Prop) (keys : Finset Key),
      Machine.Confined (injector registry).opens opened keys ∧ opened s.own ∧
        keys.card ≤ (injector registry).bound s := by
  refine ⟨Within I (resolvable registry s.own), resolvable registry s.own, ?_, within_resolvable orderly inv,
    card_resolvable_le registry orderly inv⟩
  change Machine.Confined (finder registry).opens _ _
  rw [opens_finder]
  exact confined_opens orderly (class_mem_resolvable registry s.own)

end Wiring.Runner
