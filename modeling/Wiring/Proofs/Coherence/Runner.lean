import Wiring.Proofs.CallSites
import Wiring.Proofs.Guard

/-! # Scopes that fit a table

A configured table gives every key a scope: that of its binding, or prototype. Interpreters and runners
extend the table by classes, as prototypes, and compile from what they have. So each plan has the scope
of its key in the configured table, and each call site in it the scope of the key that it names.
-/
namespace Wiring
open Act

/-- The scope of a key; one that is not bound can only be made as a prototype. -/
def Table.scopeOf (table : Table) (key : Key) : Scope :=
  ((table.get? key).map Binding.scope).getD .prototype

/-- A wider table binds further keys, to classes and as prototypes. -/
structure Table.Widens (table wide : Table) : Prop where
  kept : ∀ {key binding}, table.get? key = some binding → wide.get? key = some binding
  added : ∀ {key binding}, table.get? key = none → wide.get? key = some binding →
    ∃ recipe, binding = .build recipe ∧ recipe.scope = .prototype

namespace Table.Widens
variable {table wide later : Table} {registry : Registry} {key : Key} {binding : Binding}

theorem refl (table : Table) : table.Widens table :=
  ⟨id, fun absent bound => nomatch absent.symm.trans bound⟩

theorem cases (widens : table.Widens wide) (bound : wide.get? key = some binding) :
    table.get? key = some binding ∨ table.get? key = none ∧
      ∃ recipe, binding = .build recipe ∧ recipe.scope = .prototype := by
  cases found : table.get? key with
  | none => exact .inr ⟨rfl, widens.added found bound⟩
  | some given =>
    have same : some given = some binding := (widens.kept found).symm.trans bound
    exact .inl same

theorem scope_eq (widens : table.Widens wide) (bound : wide.get? key = some binding) :
    binding.scope = table.scopeOf key := by
  unfold scopeOf
  rcases widens.cases bound with given | ⟨absent, recipe, rfl, prototype⟩
  · rw [given]
    rfl
  · rw [absent]
    exact prototype

theorem grows (widens : table.Widens wide) (grows : Interpreter.Grows registry wide later) :
    table.Widens later where
  kept found := grows.kept (widens.kept found)
  added {key binding} absent found := by
    have known := grows.known found
    cases given : wide.get? key with
    | some b =>
      rw [Interpreter.known_of_get? given, Option.some.injEq] at known
      exact widens.added absent (known ▸ given)
    | none =>
      simp only [Interpreter.known, given] at known
      by_cases plain : key.isPlain = true
      · rw [if_pos plain] at known
        obtain ⟨signature, -, rfl⟩ := Option.map_eq_some_iff.mp known
        exact ⟨_, rfl, rfl⟩
      · rw [if_neg plain] at known
        cases known

end Table.Widens

def Operand.Fits (table : Table) : Operand → Prop
  | .reference scope key | .deferred scope key _ => scope = table.scopeOf key
  | .literal _ => True

/-- A plan with the scope of its key, whose call sites have the scopes of theirs. If the key is not bound
to anything but a class, the plan constructs an object. -/
structure Plan.Fits (table : Table) (key : Key) (p : Plan) : Prop where
  named : p.key = key
  scope : p.scope = table.scopeOf key
  operands : ∀ o ∈ p.operands, o.Fits table
  constructs : (∀ binding, table.get? key = some binding → ∃ recipe, binding = .build recipe) →
    ∃ a, p.body = .construct a

namespace Compile

section
variable {σ : Type} {I : σ → Prop} {capability : Capability σ} {table wide : Table}
  (widens : table.Widens wide)
  (asks : ∀ key, (liftM (capability.scopeOf key) : Act σ (Option Scope)).Ensures I
    fun found => ∀ scope, found = some scope → scope = table.scopeOf key)
include widens asks

theorem ensures_operand (p : Parameter) :
    (operand capability wide p).Ensures I (Operand.Fits table) := by
  unfold operand
  cases bound : wide.get? p.key with
  | some binding => exact ensures_pure (widens.scope_eq bound)
  | none =>
    refine (asks p.key).bind fun found fits => ?_
    cases found with
    | some scope => exact ensures_pure (fits scope rfl)
    | none =>
      cases p.default? with
      | some value => exact ensures_pure trivial
      | none => exact ensures_throw _

theorem ensures_calls (setters : List Setter) : (calls capability wide setters).Ensures I
    fun cs => ∀ call ∈ cs, ∀ o ∈ call.operands, o.Fits table := by
  induction setters with
  | nil => exact ensures_pure nofun
  | cons setter rest ih =>
    have called : (call? capability wide setter).Ensures I
        fun call => ∀ c : Call, call = some c → ∀ o ∈ c.operands, o.Fits table := by
      refine (ensures_mapM (ensures_operand widens asks) setter.parameters).attempt.bind
        fun outcome fit => ?_
      cases outcome with
      | ok os =>
        refine ensures_pure fun c same => ?_
        cases same
        exact fit os rfl
      | error e =>
        by_cases skip : (e.isUnbound && setter.optional) = true
        · simp only [skip, if_true]
          exact ensures_pure nofun
        · simp only [skip]
          exact ensures_throw e
    refine called.bind fun call first => ih.bind fun cs others => ensures_pure fun c member => ?_
    rcases List.mem_append.mp member with made | made
    · exact first c (Option.mem_toList.mp made)
    · exact others c made

theorem ensures_assembly (signature : Signature) : (assembly capability wide signature).Ensures I
    fun a => ∀ o ∈ a.allOperands, o.Fits table := by
  refine (ensures_mapM (ensures_operand widens asks) signature.constructor).bind fun os first => ?_
  refine (ensures_calls widens asks signature.setters).bind fun cs later => ?_
  refine ensures_pure fun o member => ?_
  rcases List.mem_append.mp member with member | member
  · exact first o member
  · obtain ⟨call, made, inside⟩ := List.mem_flatMap.mp member
    exact later call made o inside

theorem ensures_plan {key : Key} {binding : Binding} (bound : wide.get? key = some binding) :
    (plan capability wide key binding).Ensures I (Plan.Fits table key) := by
  have scope : binding.scope = table.scopeOf key := widens.scope_eq bound
  cases binding with
  | literal value =>
    refine ensures_pure ⟨rfl, scope, nofun, fun builds => ?_⟩
    rcases widens.cases bound with given | ⟨-, recipe, same, -⟩
    · obtain ⟨recipe, same⟩ := builds _ given
      cases same
    · cases same
  | build recipe =>
    refine Ensures.bind (P := fun body => ∃ a, body = .construct a ∧ ∀ o ∈ a.allOperands, o.Fits table)
      ((ensures_assembly widens asks recipe.signature).bind fun a fit => ensures_pure ⟨a, rfl, fit⟩) ?_
    rintro _ ⟨a, rfl, fit⟩
    exact ensures_pure ⟨rfl, scope, fit, fun _ => ⟨a, rfl⟩⟩
  | provided recipe provided context =>
    refine Ensures.bind (P := fun body => ∃ a, body = .provide a context ∧
        ∀ o ∈ a.allOperands, o.Fits table)
      ((ensures_assembly widens asks recipe.signature).bind fun a fit => ensures_pure ⟨a, rfl, fit⟩) ?_
    rintro _ ⟨a, rfl, fit⟩
    refine ensures_pure ⟨rfl, scope, fit, fun builds => ?_⟩
    rcases widens.cases bound with given | ⟨-, recipe, same, -⟩
    · obtain ⟨recipe, same⟩ := builds _ given
      cases same
    · cases same

end

theorem fits_of_planFor {table wide : Table} (widens : table.Widens wide) {key : Key} {binding : Binding}
    {p : Plan} (bound : wide.get? key = some binding) (compiled : planFor noScopes wide key binding = .ok p) :
    p.Fits table key := by
  have ran : (plan .interpreted wide key binding).runOn () = (.ok p, ()) := by
    rw [runOn_plan fixed_interpreted, compiled]
  have asks : ∀ key, (liftM ((Capability.interpreted : Capability Unit).scopeOf key) :
      Act Unit (Option Scope)).Ensures (fun _ => True)
        fun found => ∀ scope, found = some scope → scope = table.scopeOf key := fun _ =>
    ensures_pure nofun
  exact ((ensures_plan widens asks bound).of_eq trivial ran).2 p rfl

end Compile

namespace Store
variable {σ : Type} [Store σ]

/-- A store with the snapshot of a wider table, all of whose plans fit. -/
structure Fitting (table : Table) (s : σ) : Prop where
  snapshot : ∃ time wide, readSnapshot s = .ok (some (Snapshot.ofTable time wide)) ∧ table.Widens wide
  plans : ∀ {key p}, readPlan s key = .ok (some p) → p.Fits table key

variable [LawfulStore σ] {table : Table} {s t : σ}

theorem Fitting.writePlan (fitting : Fitting table s) {p : Plan} (fits : p.Fits table p.key)
    {r : Except Error Unit} (wrote : (Store.writePlan p).runOn s = (r, t)) : Fitting table t where
  snapshot := by
    rw [LawfulStore.snapshot_writePlan wrote]
    exact fitting.snapshot
  plans {key q} found := by
    cases r with
    | error e =>
      have slots := congrArg Prod.snd (LawfulStore.slot_of_refused wrote key)
      exact fitting.plans (slots.symm.trans found)
    | ok _ =>
      have slots := congrArg Prod.snd (LawfulStore.slot_writePlan wrote key)
      by_cases same : key = p.key
      · rw [if_pos same] at slots
        cases slots.symm.trans found
        exact same ▸ fits
      · rw [if_neg same] at slots
        exact fitting.plans (slots.symm.trans found)

theorem Fitting.writeSnapshot (fitting : Fitting table s) {wide : Table} (widens : table.Widens wide)
    {time : Instant} {r : Except Error Unit}
    (wrote : (Store.writeSnapshot (Snapshot.ofTable time wide)).runOn s = (r, t)) : Fitting table t where
  snapshot := by
    cases r with
    | ok _ => exact ⟨time, wide, LawfulStore.snapshot_writeSnapshot wrote, widens⟩
    | error e =>
      rw [LawfulStore.snapshot_of_refused wrote]
      exact fitting.snapshot
  plans {key p} found :=
    fitting.plans ((congrArg Prod.snd (LawfulStore.slot_writeSnapshot wrote key)).symm.trans found)

end Store

namespace Runner
variable {σ : Type} [Store σ]

structure Fitting (table : Table) (m : Memory σ) : Prop where
  store : Store.Fitting table m.store
  plans : ∀ {key p}, m.plans.get? key = some p → p.Fits table key
  table : ∀ {wide}, m.table = some wide → table.Widens wide

def Fitted (table : Table) (s : State σ) : Prop := Fitting table s.own

def fittingGuard (table : Table) : Guard σ := ⟨Store.Fitting table, fun key p => p.Fits table key, table.Widens⟩

theorem on_fittingGuard {table : Table} {s : State σ} : (fittingGuard table).On s ↔ Fitted table s :=
  ⟨fun holds => ⟨holds.store, holds.plans, holds.table⟩, fun fits => ⟨fits.store, fits.plans, fits.table⟩⟩

variable [LawfulStore σ] (registry : Registry) {table : Table}

theorem lasts_fittingGuard : (fittingGuard (σ := σ) table).Lasts registry where
  named fits := fits.named
  read fitting found _ := fitting.plans found
  nothing fitting none := by
    obtain ⟨time, wide, held, -⟩ := fitting.snapshot
    cases none.symm.trans held
  snapshot fitting read built := by
    obtain ⟨time, wide, held, widens⟩ := fitting.snapshot
    obtain rfl := Option.some.inj (Except.ok.inj (read.symm.trans held))
    have same : (Snapshot.ofTable time wide).toTable = .ok wide := by
      simp only [Snapshot.ofTable, Snapshot.toTable, if_true, SortedMap.ofList_entries]
    cases built.symm.trans same
    exact widens
  learns key widens := by
    rw [withClass_eq_learn]
    exact widens.grows (Interpreter.grows_learn _ key)
  compiles _ _ widens bound asks :=
    Compile.ensures_plan widens (fun key => (asks key).imp fun found fit scope same => by
      obtain ⟨p, fits, rfl⟩ := fit scope same
      exact fits.scope) bound
  writes fitting _ fits wrote := fitting.writePlan fits wrote

/-- Whatever a runner that fits is asked for, it finds plans that fit. -/
theorem ensures_planFor (key : Key) (point : Option Point) :
    (planFor registry key point : Run σ Plan).Ensures (Fitted table) (Plan.Fits table key) := by
  intro s fitted
  obtain ⟨holds, fits⟩ :=
    Guard.ensures_planFor (lasts_fittingGuard registry) key point s (on_fittingGuard.mpr fitted)
  exact ⟨on_fittingGuard.mp holds, fits⟩

end Runner
end Wiring
