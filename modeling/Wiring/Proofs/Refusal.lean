import Wiring.Proofs.Guard

/-! # What runners refuse to run

A plan that is read for a key must be of the current version, and so must the snapshot. Otherwise a runner
answers with an error, at whatever moment it is asked, and nothing changes: neither its memory nor its store.
-/
namespace Wiring
open Act Wiring.Runtime

variable {σ : Type} [Store σ]

namespace Store

/-- There is a plan for a key, or there may be one, and it cannot be loaded. -/
inductive Unloadable (s : σ) (key : Key) : Error → Prop
  | unread {e : Error} : readPlan s key = .error e → Unloadable s key e
  | outdated {p : Plan} : readPlan s key = .ok (some p) → p.version ≠ Plan.currentVersion →
    Unloadable s key (.formatVersion "compiled unit" Plan.currentVersion p.version)

/-- There is a snapshot, or there may be one, and it gives no table. -/
inductive Untabled (s : σ) : Error → Prop
  | unread {e : Error} : readSnapshot s = .error e → Untabled s e
  | outdated {snapshot : Snapshot} : readSnapshot s = .ok (some snapshot) →
    snapshot.version ≠ Snapshot.currentVersion →
    Untabled s (.formatVersion "module snapshot" Snapshot.currentVersion snapshot.version)

theorem Unloadable.not_loaded {s : σ} {key : Key} {e : Error} (unloadable : Unloadable s key e) {p : Plan}
    (found : readPlan s key = .ok (some p)) (version : Runner.checkVersion p = .ok ()) : False := by
  cases unloadable with
  | unread failed => cases failed.symm.trans found
  | outdated other old =>
    cases other.symm.trans found
    rw [Runner.checkVersion, if_neg old] at version
    cases version

theorem Unloadable.not_missing {s : σ} {key : Key} {e : Error} (unloadable : Unloadable s key e) :
    readPlan s key ≠ .ok none := by
  intro missing
  cases unloadable with
  | unread failed => cases failed.symm.trans missing
  | outdated found _ => cases found.symm.trans missing

end Store

namespace Runner
open Store

variable {registry : Registry} {key : Key} {s : State σ} {e : Error}

theorem runOn_load_of_unloadable (fresh : s.own.plans.get? key = none)
    (unloadable : Unloadable s.own.store key e) : (load key).runOn s = (.error e, s) := by
  have loading := loading_load key s
  generalize (load key).runOn s = ran at loading
  cases loading with
  | known held => cases fresh.symm.trans held
  | unread _ failed =>
    cases unloadable with
    | unread failed' =>
      cases failed.symm.trans failed'
      rfl
    | outdated found _ => cases failed.symm.trans found
  | absent _ missing => exact absurd missing unloadable.not_missing
  | outdated _ found version =>
    cases unloadable with
    | unread failed => cases failed.symm.trans found
    | outdated other old =>
      cases other.symm.trans found
      rw [checkVersion, if_neg old] at version
      cases version
      rfl
  | read _ found version => exact (unloadable.not_loaded found version).elim

theorem runOn_snapshotTable_of_untabled (fresh : s.own.table = none) (untabled : Untabled s.own.store e) :
    snapshotTable.runOn s = (.error e, s) := by
  simp only [snapshotTable, runOn_bind, runOn_get, fresh, runOn_liftExcept]
  cases untabled with
  | unread failed => simp only [failed]
  | outdated found old => simp only [found, runOn_bind, runOn_liftExcept, Snapshot.toTable, if_neg old]

theorem planFor_of_unloadable (fresh : s.own.plans.get? key = none)
    (unloadable : Unloadable s.own.store key e) (point : Option Point) :
    (planFor registry key point).runOn s = (.error e, s) := by
  simp only [planFor, runOn_bind, runOn_load_of_unloadable fresh unloadable]

/-- Without a table a runner does not bind a class either. -/
theorem planFor_of_untabled (fresh : s.own.plans.get? key = none)
    (missing : readPlan s.own.store key = .ok none) (blank : s.own.table = none)
    (untabled : Untabled s.own.store e) (point : Option Point) :
    (planFor registry key point).runOn s = (.error e, s) := by
  have unloaded : (load key).runOn s = (.ok none, s) := by
    simp only [load, runOn_bind, runOn_get, fresh, runOn_liftExcept, missing, runOn_pure]
  have refused : (compile registry key).runOn s = (.error e, s) := by
    simp only [compile, runOn_bind, runOn_snapshotTable_of_untabled blank untabled]
  simp only [planFor, runOn_bind, unloaded, refused]

theorem answer_of_planFor {q : Question} (failed : (planFor registry q.key q.point).runOn s = (.error e, s))
    (depth : Nat) : ((injector registry).answer depth q).runOn s = (.error e, s) := by
  rw [(injector registry).bounded depth q s]
  simp only [Finder.opens, injector, finder, failed]
  rfl

section
variable (registry) (named : ∀ {s : σ} {key p}, readPlan s key = .ok (some p) → p.key = key)

def ownGuard (σ : Type) : Guard σ :=
  ⟨fun _ => True, fun key p => p.key = key ∧ p.version = Plan.currentVersion, fun _ => True⟩

omit [Store σ] in
theorem version_of_check {p : Plan} (version : checkVersion p = .ok ()) : p.version = Plan.currentVersion := by
  by_contra old
  rw [checkVersion, if_neg old] at version
  cases version

theorem yields_current {table : Table} {key : Key} {binding : Binding} :
    (Compile.plan (.compiling scopeOf) table key binding : Run σ Plan).Yields fun p =>
      p.key = key ∧ p.version = Plan.currentVersion :=
  (yields_any _).bind fun _ _ => yields_pure ⟨rfl, rfl⟩

include named in
theorem lasts_ownGuard : (ownGuard σ).Lasts registry where
  named own := own.1
  read _ found version := ⟨named found, version_of_check version⟩
  nothing _ _ := trivial
  snapshot _ _ _ := trivial
  learns _ _ := trivial
  compiles _ _ _ _ asks := Guard.ensures_of_yields (fun key => (asks key).moves) yields_current
  writes _ _ _ _ := trivial

/-- That the plan of a key cannot be loaded, as before, and is not in memory. -/
def barredGuard (Q : σ → Prop) (barred : Key) : Guard σ :=
  ⟨Q, fun key p => p.key = key ∧ key ≠ barred, fun _ => True⟩

include named in
theorem lasts_barredGuard {Q : σ → Prop} {barred : Key} (unloadable : ∀ s, Q s → ∃ e, Unloadable s barred e)
    (writes : ∀ {s t p r}, Q s → p.key ≠ barred → (writePlan p).runOn s = (r, t) → Q t) :
    (barredGuard Q barred).Lasts registry where
  named own := own.1
  read {s key p} here found version := by
    refine ⟨named found, ?_⟩
    rintro rfl
    obtain ⟨e, unloadable⟩ := unloadable s here
    exact unloadable.not_loaded found version
  nothing _ _ := trivial
  snapshot _ _ _ := trivial
  learns _ _ := trivial
  compiles {s table key binding} here missing _ _ asks := by
    have other : key ≠ barred := by
      rintro rfl
      obtain ⟨e, unloadable⟩ := unloadable s here
      exact unloadable.not_missing missing
    exact Guard.ensures_of_yields (fun key => (asks key).moves) fun s p t made =>
      ⟨(yields_current s p t made).1, other⟩
  writes here _ own wrote := writes here own.2 wrote

def blankGuard (missing : Key) (e : Error) : Guard σ :=
  ⟨fun s => readPlan s missing = .ok none ∧ Untabled s e, fun key p => p.key = key ∧ key ≠ missing,
    fun _ => False⟩

include named in
theorem lasts_blankGuard (missing : Key) (e : Error) : (blankGuard (σ := σ) missing e).Lasts registry where
  named own := own.1
  read {s key p} here found _ := by
    refine ⟨named found, ?_⟩
    rintro rfl
    cases here.1.symm.trans found
  nothing here none := by
    cases here.2 with
    | unread failed => cases failed.symm.trans none
    | outdated found _ => cases found.symm.trans none
  snapshot here found built := by
    cases here.2 with
    | unread failed => cases failed.symm.trans found
    | outdated other old =>
      cases other.symm.trans found
      rw [Snapshot.toTable, if_neg old] at built
      cases built
  learns _ := False.elim
  compiles _ _ none := none.elim
  writes _ none := none.elim

end

end Runner
end Wiring
