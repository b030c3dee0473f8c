import Wiring.Proofs.Runtime
import Wiring.Runner

/-! # How a runner finds plans

A plan is loaded from memory or the store, or else compiled on demand and written. Each way this can go
is one case here, with the states in between, so what follows from it need not be read off the actions.
-/
namespace Wiring
open Act

variable {σ : Type} [Store σ]

namespace Compile

omit [Store σ] in
theorem plan_key {capability : Capability σ} {table : Table} {key : Key} {binding : Binding} {s t : σ}
    {p : Plan} (h : (plan capability table key binding).runOn s = (.ok p, t)) : p.key = key := by
  obtain ⟨body, u, -, returned⟩ := runOn_bind_eq_ok.mp h
  cases returned
  rfl

section
variable {R : σ → σ → Prop} [IsPreorder σ R] {capability : Capability σ}
  (asks : ∀ key, (liftM (capability.scopeOf key) : Act σ (Option Scope)).Moves R) (table : Table)
include asks
omit [Store σ]

theorem moves_operand (p : Parameter) : (operand capability table p).Moves R := by
  unfold operand
  cases table.get? p.key with
  | some binding => exact moves_of_keeps fun _ => rfl
  | none =>
    refine (asks p.key).bind fun found => ?_
    cases found with
    | some scope => exact moves_of_keeps fun _ => rfl
    | none => cases p.default? <;> exact moves_of_keeps fun _ => rfl

theorem moves_call? (setter : Setter) : (call? capability table setter).Moves R := by
  refine (Moves.mapM (moves_operand asks table) setter.parameters).attempt.bind fun outcome => ?_
  cases outcome with
  | ok found => exact moves_of_keeps fun _ => rfl
  | error e =>
    by_cases skip : (e.isUnbound && setter.optional) = true <;> simp only [skip] <;>
      exact moves_of_keeps fun _ => rfl

theorem moves_calls (setters : List Setter) : (calls capability table setters).Moves R := by
  induction setters with
  | nil => exact moves_of_keeps fun _ => rfl
  | cons setter rest ih =>
    exact (moves_call? asks table setter).bind fun _ => ih.bind fun _ => moves_of_keeps fun _ => rfl

theorem moves_assembly (signature : Signature) : (assembly capability table signature).Moves R :=
  (Moves.mapM (moves_operand asks table) signature.constructor).bind fun _ =>
    (moves_calls asks table signature.setters).bind fun _ => moves_of_keeps fun _ => rfl

theorem moves_plan (key : Key) (binding : Binding) : (plan capability table key binding).Moves R := by
  refine Moves.bind ?_ fun _ => moves_of_keeps fun _ => rfl
  cases binding with
  | literal value => exact moves_of_keeps fun _ => rfl
  | build recipe | provided recipe scope context =>
    exact (moves_assembly asks table recipe.signature).bind fun _ => moves_of_keeps fun _ => rfl

end

end Compile

namespace Runner
open Store Wiring.Runtime

/-- A plan is in memory, or the store fails to read it or has none, or it is of another version, or it is
kept from now on. -/
inductive Loading (key : Key) (s : State σ) : Except Error (Option Plan) × State σ → Prop
  | known {p : Plan} : s.own.plans.get? key = some p → Loading key s (.ok (some p), s)
  | unread {e : Error} : s.own.plans.get? key = none → readPlan s.own.store key = .error e →
    Loading key s (.error e, s)
  | absent : s.own.plans.get? key = none → readPlan s.own.store key = .ok none →
    Loading key s (.ok none, s)
  | outdated {p : Plan} {e : Error} : s.own.plans.get? key = none →
    readPlan s.own.store key = .ok (some p) → checkVersion p = .error e → Loading key s (.error e, s)
  | read {p : Plan} : s.own.plans.get? key = none → readPlan s.own.store key = .ok (some p) →
    checkVersion p = .ok () → Loading key s (.ok (some ((s.own.plans.get? p.key).getD p)),
      { s with own.plans := s.own.plans.insertIfNew p.key p })

omit [Store σ] in
theorem runOn_remember_eq (p : Plan) (s : State σ) : (remember p).runOn s =
    (.ok ((s.own.plans.get? p.key).getD p), { s with own.plans := s.own.plans.insertIfNew p.key p }) := by
  simp only [remember, runOn_bind, runOn_modify, runOn_get, runOn_pure, SortedMap.get?_insertIfNew,
    if_true, Option.getD_some]

theorem loading_load (key : Key) (s : State σ) : Loading key s ((load key).runOn s) := by
  simp only [load, runOn_bind, runOn_get]
  cases held : s.own.plans.get? key with
  | some p => exact .known held
  | none =>
    simp only [runOn_bind, runOn_get, runOn_liftExcept]
    cases found : readPlan s.own.store key with
    | error e => exact .unread held found
    | ok plan =>
      cases plan with
      | none => exact .absent held found
      | some p =>
        simp only [runOn_bind, runOn_liftExcept]
        cases version : checkVersion p with
        | error e => exact .outdated held found version
        | ok _ =>
          simp only [runOn_remember_eq, runOn_pure]
          exact .read held found version

theorem scopeOf_eq (key : Key) (s : State σ) : scopeOf key s =
    (((load key).runOn s).1.toOption.bind (Option.map Plan.scope), ((load key).runOn s).2) := by
  simp only [scopeOf, bind, StateT.bind, ExceptT.run, Act.runOn]
  rcases load (σ := σ) key s with ⟨e | plan, t⟩ <;> rfl

theorem moves_scopeOf {R : State σ → State σ → Prop} (loads : ∀ key, (load key).Moves R)
    (key : Key) : (liftM (scopeOf key : StateM (State σ) (Option Scope)) :
      Run σ (Option Scope)).Moves R := by
  intro s
  rw [runOn_liftState, scopeOf_eq]
  exact loads key s

theorem moves_compiling {R : State σ → State σ → Prop} [IsPreorder (State σ) R]
    (loads : ∀ key, (load key).Moves R) (table : Table) (key : Key) (binding : Binding) :
    (Compile.plan (.compiling (scopeOf (σ := σ))) table key binding).Moves R :=
  Compile.moves_plan (moves_scopeOf loads) table key binding

variable (registry : Registry)

/-- The table is not to be had, or does not bind the key, or the compilation fails, or the plan cannot be
written, or it is written and kept from now on. -/
inductive Compiling (key : Key) (s : State σ) : Except Error (Option Plan) × State σ → Prop
  | unread {e : Error} {t : State σ} : snapshotTable.runOn s = (.error e, t) →
    Compiling key s (.error e, t)
  | unbound {table : Table} {t : State σ} : snapshotTable.runOn s = (.ok table, t) →
    (withClass registry key table).get? key = none → Compiling key s (.ok none, t)
  | refused {table : Table} {binding : Binding} {e : Error} {t u : State σ} :
    snapshotTable.runOn s = (.ok table, t) → (withClass registry key table).get? key = some binding →
    (Compile.plan (.compiling scopeOf) (withClass registry key table) key binding).runOn t =
      (.error e, u) → Compiling key s (.error e, u)
  | unwritten {table : Table} {binding : Binding} {p : Plan} {e : Error} {t u : State σ} {store : σ} :
    snapshotTable.runOn s = (.ok table, t) → (withClass registry key table).get? key = some binding →
    (Compile.plan (.compiling scopeOf) (withClass registry key table) key binding).runOn t = (.ok p, u) →
    (writePlan p).runOn u.own.store = (.error e, store) →
    Compiling key s (.error e, { u with own.store := store })
  | written {table : Table} {binding : Binding} {p : Plan} {t u : State σ} {store : σ} :
    snapshotTable.runOn s = (.ok table, t) → (withClass registry key table).get? key = some binding →
    (Compile.plan (.compiling scopeOf) (withClass registry key table) key binding).runOn t = (.ok p, u) →
    (writePlan p).runOn u.own.store = (.ok (), store) →
    Compiling key s (.ok (some ((u.own.plans.get? p.key).getD p)),
      { u with own := { u.own with store := store, plans := u.own.plans.insertIfNew p.key p } })

theorem compiling_compile (key : Key) (s : State σ) :
    Compiling registry key s ((compile registry key).runOn s) := by
  simp only [compile, runOn_bind]
  cases read : snapshotTable.runOn s with
  | mk outcome t =>
    cases outcome with
    | error e => exact .unread read
    | ok table =>
      cases bound : (withClass registry key table).get? key with
      | none =>
        simp only [bound]
        exact .unbound read bound
      | some binding =>
        simp only [bound, runOn_bind]
        cases compiled : (Compile.plan (.compiling scopeOf) (withClass registry key table) key
            binding).runOn t with
        | mk outcome u =>
          cases outcome with
          | error e => exact .refused read bound compiled
          | ok p =>
            simp only [onStore, runOn_onPart]
            cases wrote : (writePlan p).runOn u.own.store with
            | mk r store =>
              cases r with
              | error e => exact .unwritten read bound compiled wrote
              | ok _ =>
                simp only [runOn_remember_eq, runOn_pure]
                exact .written read bound compiled wrote

/-- A plan fails to be loaded, or is loaded, or is not there and is compiled, if the key is bound. -/
inductive Finding (key : Key) (point : Option Point) (s : State σ) : Except Error Plan × State σ → Prop
  | unloaded {e : Error} {t : State σ} : (load key).runOn s = (.error e, t) →
    Finding key point s (.error e, t)
  | loaded {p : Plan} {t : State σ} : (load key).runOn s = (.ok (some p), t) →
    Finding key point s (.ok p, t)
  | failed {e : Error} {t u : State σ} : (load key).runOn s = (.ok none, t) →
    (compile registry key).runOn t = (.error e, u) → Finding key point s (.error e, u)
  | unbound {t u : State σ} : (load key).runOn s = (.ok none, t) →
    (compile registry key).runOn t = (.ok none, u) → Finding key point s (.error (.unbound key point), u)
  | compiled {p : Plan} {t u : State σ} : (load key).runOn s = (.ok none, t) →
    (compile registry key).runOn t = (.ok (some p), u) → Finding key point s (.ok p, u)

theorem finding_planFor (key : Key) (point : Option Point) (s : State σ) :
    Finding registry key point s ((planFor registry key point).runOn s) := by
  simp only [planFor, runOn_bind]
  cases ran : (load key).runOn s with
  | mk outcome t =>
    cases outcome with
    | error e => exact .unloaded ran
    | ok found =>
      cases found with
      | some p => exact .loaded ran
      | none =>
        simp only [runOn_bind]
        cases ran' : (compile registry key).runOn t with
        | mk outcome u =>
          cases outcome with
          | error e => exact .failed ran ran'
          | ok found => cases found with
            | none => exact .unbound ran ran'
            | some p => exact .compiled ran ran'

/-- At most an injector's own part has changed. -/
def OwnOnly {ρ : Type} (s t : Runtime ρ) : Prop := t = { s with own := t.own }

instance {ρ : Type} : IsPreorder (Runtime ρ) OwnOnly where
  refl _ := rfl
  trans s t u first later := by
    obtain ⟨own, rfl⟩ : ∃ own, t = { s with own := own } := ⟨t.own, first⟩
    exact later

theorem ownOnly_put {ρ : Type} (s : Runtime ρ) (own : ρ) : OwnOnly s { s with own := own } := rfl

theorem ownOnly_load (key : Key) : (load (σ := σ) key).Moves OwnOnly := by
  intro s
  have loading := loading_load key s
  generalize (load key).runOn s = ran at loading
  cases loading <;> rfl

theorem ownOnly_snapshotTable : (snapshotTable (σ := σ)).Moves OwnOnly := by
  intro s
  simp only [snapshotTable, runOn_bind, runOn_get]
  cases s.own.table with
  | some table => rfl
  | none =>
    simp only [runOn_bind, runOn_get, runOn_liftExcept]
    rcases readSnapshot s.own.store with e | _ | snapshot
    · rfl
    · rfl
    · simp only
      cases snapshot.toTable <;> rfl

theorem ownOnly_compile (key : Key) : (compile (σ := σ) registry key).Moves OwnOnly := by
  intro s
  have compiling := compiling_compile registry key s
  generalize (compile registry key).runOn s = ran at compiling
  have tables : ∀ {r t}, snapshotTable.runOn s = (r, t) → OwnOnly s t := ownOnly_snapshotTable.of_eq
  have plans : ∀ {table binding r} {t u : State σ},
      (Compile.plan (.compiling scopeOf) table key binding).runOn t = (r, u) → OwnOnly t u :=
    fun {table binding _ _ _} => (moves_compiling ownOnly_load table key binding).of_eq
  cases compiling with
  | unread read | unbound read _ => exact tables read
  | refused read _ compiled => exact trans_of OwnOnly (tables read) (plans compiled)
  | unwritten read _ compiled _ | written read _ compiled _ =>
    exact trans_of OwnOnly (trans_of OwnOnly (tables read) (plans compiled)) (ownOnly_put _ _)

theorem ownOnly_planFor (key : Key) (point : Option Point) :
    (planFor (σ := σ) registry key point).Moves OwnOnly := by
  intro s
  have finding := finding_planFor registry key point s
  generalize (planFor registry key point).runOn s = ran at finding
  have loads : ∀ {r t}, (load key).runOn s = (r, t) → OwnOnly s t := (ownOnly_load key).of_eq
  have compiles : ∀ {r} {t u : State σ}, (compile registry key).runOn t = (r, u) → OwnOnly t u :=
    (ownOnly_compile registry key).of_eq
  cases finding with
  | unloaded ran | loaded ran => exact loads ran
  | failed ran ran' | unbound ran ran' | compiled ran ran' =>
    exact trans_of OwnOnly (loads ran) (compiles ran')

end Runner

end Wiring
