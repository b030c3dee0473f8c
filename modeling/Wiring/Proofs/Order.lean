import Wiring.Proofs.Compile.Pass
import Wiring.Proofs.Finding

/-! # The order of a pass

A runner that compiles a table against its own store is asked for scopes while the store is being filled,
and keeps what it loads. It is asked only about keys that the table does not bind, and only plans of keys
that the table binds are written. So all its answers are those of the start, and the bindings may be
worked off in any order.
-/
namespace Wiring
open Act Store

variable {σ : Type} [Store σ]

namespace Runner

omit [Store σ] in
theorem onStore_cases {α : Type} {x : Act σ α} {s t : State σ} {r : Except Error α}
    (ran : (onStore x).runOn s = (r, t)) :
    x.runOn s.own.store = (r, t.own.store) ∧ t.own.plans = s.own.plans := by
  unfold onStore at ran
  rw [runOn_onPart] at ran
  cases ran
  exact ⟨rfl, rfl⟩

theorem refuses_state {refusals : Refusals} (refuses : Refuses σ refusals) :
    Refuses (State σ) refusals where
  plan plan s := refuses.plan plan s.own.store
  snapshot snapshot s := refuses.snapshot snapshot s.own.store

instance [LawfulStore σ] : LawfulStore (State σ) where
  slot_writePlan wrote := LawfulStore.slot_writePlan (σ := σ) (onStore_cases wrote).1
  slot_of_refused wrote := LawfulStore.slot_of_refused (σ := σ) (onStore_cases wrote).1
  snapshot_writePlan wrote := LawfulStore.snapshot_writePlan (σ := σ) (onStore_cases wrote).1
  slot_writeSnapshot wrote := LawfulStore.slot_writeSnapshot (σ := σ) (onStore_cases wrote).1
  snapshot_writeSnapshot wrote := LawfulStore.snapshot_writeSnapshot (σ := σ) (onStore_cases wrote).1
  snapshot_of_refused wrote := LawfulStore.snapshot_of_refused (σ := σ) (onStore_cases wrote).1

theorem same_of_store {s t : State σ} (h : t.own.store = s.own.store) : Same s t where
  slot key := congrArg (fun store : σ => slot store key) h
  snapshot := congrArg (fun store : σ => readSnapshot store) h

/-- The plan that a runner would load for a key: the one in memory, or else the one in the store if that
can be read and is of the current version. -/
def loadable (m : Memory σ) (key : Key) : Option Plan :=
  match m.plans.get? key with
  | some p => some p
  | none => match readPlan m.store key with
    | .ok (some p) => if p.version = Plan.currentVersion then some p else none
    | _ => none

theorem loadable_congr {m n : Memory σ} {key : Key} (plans : n.plans.get? key = m.plans.get? key)
    (slots : slot n.store key = slot m.store key) : loadable n key = loadable m key := by
  have read : readPlan n.store key = readPlan m.store key := congrArg Prod.snd slots
  simp only [loadable, plans, read]

/-- What a store finds under a key is a plan of that key, as a cache on a disk makes sure of. -/
def NamedAt (s : σ) (key : Key) : Prop := ∀ p, readPlan s key = .ok (some p) → p.key = key

theorem scopeOf_cases {key : Key} {s : State σ} (named : NamedAt s.own.store key) :
    (scopeOf key s).1 = (loadable s.own key).map Plan.scope ∧
      (scopeOf key s).2.own.store = s.own.store ∧
      ∀ q, loadable (scopeOf key s).2.own q = loadable s.own q := by
  have loading := loading_load key s
  rw [scopeOf_eq]
  generalize (load key).runOn s = ran at loading
  cases loading with
  | known held => exact ⟨by simp only [loadable, held]; rfl, rfl, fun _ => rfl⟩
  | unread held found | absent held found =>
    exact ⟨by simp only [loadable, held, found]; rfl, rfl, fun _ => rfl⟩
  | @outdated p e held found refused =>
    have version : ¬ p.version = Plan.currentVersion := fun h => by simp [checkVersion, h] at refused
    exact ⟨by simp only [loadable, held, found, version, if_false]; rfl, rfl, fun _ => rfl⟩
  | @read p held found current =>
    have version : p.version = Plan.currentVersion := by
      by_contra h
      simp [checkVersion, h] at current
    have here : loadable s.own key = some p := by simp only [loadable, held, found, version, if_true]
    obtain rfl := named p found
    refine ⟨by rw [here, held]; rfl, rfl, fun q => ?_⟩
    by_cases same : q = p.key
    · subst same
      rw [here]
      simp only [loadable, SortedMap.get?_insertIfNew, held, if_true, Option.getD_none]
    · refine loadable_congr ?_ rfl
      simp only [SortedMap.get?_insertIfNew, same, if_false]

/-- What a runner would load for the keys outside a table is what it would have loaded at the start. -/
def AsBefore (table : Table) (s t : State σ) : Prop :=
  ∀ key, table.get? key = none →
    loadable t.own key = loadable s.own key ∧ NamedAt t.own.store key

theorem apart_scopeOf [LawfulStore σ] (table : Table) (s : State σ) :
    (Compile.Capability.compiling scopeOf).Apart (fun key => (loadable s.own key).map Plan.scope) table
      (AsBefore table s) where
  answers {key t} unbound inv := by
    obtain ⟨same, named⟩ := inv key unbound
    exact same ▸ (scopeOf_cases named).1
  asked {key t} unbound inv := by
    obtain ⟨-, store, loads⟩ := scopeOf_cases (inv key unbound).2
    exact ⟨fun q free => ⟨(loads q).trans (inv q free).1, fun p found => (inv q free).2 p (store ▸ found)⟩,
      same_of_store store⟩
  written {plan binding t} bound inv := by
    intro q free
    have other : q ≠ plan.key := fun h => by
      rw [h, bound] at free
      cases free
    rcases wrote : (writePlan plan).runOn t with ⟨r, u⟩
    obtain ⟨wrote', plans⟩ := onStore_cases wrote
    have kept : slot u.own.store q = slot t.own.store q := by
      cases r with
      | error e => exact LawfulStore.slot_of_refused wrote' q
      | ok _ => rw [LawfulStore.slot_writePlan wrote' q, if_neg other]
    refine ⟨(loadable_congr (congrArg (·.get? q) plans) kept).trans (inv q free).1, fun p found => ?_⟩
    exact (inv q free).2 p ((congrArg Prod.snd kept).symm.trans found)

end Runner

namespace Compile

/-- Two splits of one table that differ only in the order within the groups. -/
structure Split.Perm (a b : Split) : Prop where
  skipped : a.skipped.Perm b.skipped
  compiled : a.compiled.Perm b.compiled
  failed : a.failed.Perm b.failed

theorem splitOf_perm {fates fates' : List (Key × Fate)} (perm : fates.Perm fates') :
    (splitOf fates).Perm (splitOf fates') :=
  ⟨(perm.filter _).map _, (perm.filter _).map _, perm.filterMap _⟩

theorem Split.Accounts.slot_eq {capability : Capability σ} {refused : Key → Option Error} {table : Table}
    {split : Split} {s t u : σ} (first : split.Accounts capability refused table s t)
    (second : split.Accounts capability refused table s u) (key : Key) : slot u key = slot t key := by
  by_cases compiled : key ∈ split.compiled
  · obtain ⟨b, p, found, made, there⟩ := first.written key compiled
    obtain ⟨b', p', found', made', there'⟩ := second.written key compiled
    obtain rfl : b = b' := Option.some.inj (found.symm.trans found')
    obtain rfl : p = p' := Except.ok.inj (made.symm.trans made')
    exact there'.trans there.symm
  · exact (second.kept key compiled).trans (first.kept key compiled).symm

end Compile

namespace Runner
open Compile

/-- A runner whose store finds under each key outside a table only plans of that key is asked for scopes in a
pass over the table and its own store. In whichever order the bindings are worked off, the same keys are
skipped and compiled, the same ones fail with the same causes, and the same is in the store; each plan is
what its binding compiles to at the start of the pass. -/
theorem pass_in_any_order [LawfulStore σ] {refusals : Refusals} (refuses : Refuses σ refusals)
    {table : Table} {order : List (Key × Binding)} (perm : order.Perm table.entries) (time : Instant)
    {s : State σ} (named : ∀ key, table.get? key = none → NamedAt s.own.store key) :
    ∃ (split split' : Split) (t t' : State σ),
      (pass (.compiling scopeOf) table time).runOn s =
        (match refusals.snapshot with | none => split.result | some e => .error e, t) ∧
      (passOver (.compiling scopeOf) table order time).runOn s =
        (match refusals.snapshot with | none => split'.result | some e => .error e, t') ∧
      split.Accounts (.compiling scopeOf) refusals.plan table s t ∧
      split'.Perm split ∧ Same t t' := by
  have apart := apart_scopeOf table s
  have inv : AsBefore table s s := fun key unbound => ⟨rfl, named key unbound⟩
  obtain ⟨t, ran, accounts, snapshot⟩ :=
    apart.runOn_passOver (refuses_state refuses) (.refl _) time inv
  obtain ⟨t', ran', accounts', snapshot'⟩ :=
    apart.runOn_passOver (refuses_state refuses) perm time inv
  exact ⟨_, _, t, t', ran, ran', accounts, splitOf_perm (perm.map _), accounts.slot_eq accounts',
    snapshot'.trans snapshot.symm⟩

def needing (name key : String) (default : Option Json) : Binding :=
  .build ⟨⟨name, [⟨.plain key, default.isSome, default.getD Json.null, ⟨name, "new", key⟩⟩], [], none⟩,
    .singleton⟩

/-- The `A` needs an `R`, the `B` an `F` or nothing, the `C` a `U`, and the `D` an `A`. -/
def fourTable : Table :=
  .ofList [(.plain "a", needing "A" "r" none), (.plain "b", needing "B" "f" (some Json.null)),
    (.plain "c", needing "C" "u" none), (.plain "d", needing "D" "a" none)]

def stockedStore : MemoryStore .none :=
  ⟨.ofList [(.plain "r", .current (.plain "r") .singleton (.literal Json.null)),
    (.plain "f", { Plan.current (.plain "f") .singleton (.literal Json.null) with version := 0 }),
    (.plain "d", .current (.plain "d") .prototype (.literal Json.null))], none⟩

theorem filed_stockedStore : MemoryStore.Filed stockedStore := MemoryStore.filed_of_entries (by decide)

theorem four_pass_in_reverse : ∃ (split split' : Split) (t t' : State (MemoryStore .none)),
    split.Accounts (.compiling scopeOf) (fun _ => none) fourTable (start 0 stockedStore) t ∧
    split'.Perm split ∧ Same t t' ∧
    split'.failed = [(.plain "c", .unbound (.plain "u") (some ⟨"C", "new", "u"⟩))] ∧
    t'.own.plans.keys = [.plain "r"] ∧
    t'.own.store.plans.keys = [.plain "a", .plain "b", .plain "d", .plain "f", .plain "r"] := by
  obtain ⟨split, split', t, t', -, ran', accounts, same, reads⟩ :=
    pass_in_any_order MemoryStore.refuses (List.reverse_perm fourTable.entries) default
      (s := start 0 stockedStore) fun key _ p found => filed_stockedStore key p (Except.ok.inj found)
  exact ⟨split, split', t, t', accounts, same, reads,
    Split.failed_of_result ((congrArg Prod.fst ran').symm.trans rfl),
    (congrArg (fun r => r.2.own.plans.keys) ran').symm.trans rfl,
    (congrArg (fun r => r.2.own.store.plans.keys) ran').symm.trans rfl⟩

end Runner
end Wiring
