import Wiring.Proofs.Compile.Pass
import Wiring.Proofs.Snapshot

/-! # Lost plans

A pass leaves the snapshot of its table beside the plans. When some of the plans are lost, a pass over that
snapshot, which reads nothing but the recipes in it, compiles just these again, to the same plans, and
fails on what the first pass failed on.
-/
namespace Wiring

namespace Introspector

theorem recipe_default (signature? : String → Option Signature) (r : Recipe) :
    recipe { signature? := signature? } r = r := by
  have same : setter { signature? := signature? } = id := rfl
  unfold recipe
  rw [same, List.map_id]

theorem entries_default (signature? : String → Option Signature) (table : Table) :
    entries { signature? := signature? } table = table.entries := by
  have same : binding { signature? := signature? } = id := by
    funext b
    cases b with
    | literal value => rfl
    | build r => exact congrArg Binding.build (recipe_default signature? r)
    | provided r scope context => exact congrArg (Binding.provided · scope context) (recipe_default signature? r)
  unfold entries
  rw [same]
  exact List.map_id _

end Introspector

namespace Compile
open Store

variable {σ : Type} [Store σ]

theorem passThrough_registry (capability : Capability σ) (table : Table) (registry : Registry) :
    passThrough capability table registry.introspector = pass capability table := by
  funext time
  exact congrArg (passOver capability table · time) (Introspector.entries_default registry.signature? table)

theorem passThrough_descriptors (capability : Capability σ) (table : Table) :
    passThrough capability table .descriptors = pass capability table := by
  funext time
  exact congrArg (passOver capability table · time) (Introspector.entries_default (fun _ => none) table)

theorem runOn_passOfSnapshotThrough {capability : Capability σ} {table : Table} {time later : Instant} {s : σ}
    (held : readSnapshot s = .ok (some (Snapshot.ofTable time table))) :
    (passOfSnapshotThrough capability .descriptors later).runOn s = (pass capability table later).runOn s := by
  simp only [passOfSnapshotThrough, onSnapshot, Act.runOn_bind, Act.runOn_get, Act.runOn_liftExcept, held,
    Snapshot.toTable_ofTable, passThrough_descriptors]

section
variable (lost : List Key)

/-- What becomes of a binding in the second pass: compiled again if its plan is lost, and skipped if not. -/
def Fate.again (key : Key) : Fate → Fate
  | .compiled => if key ∈ lost then .compiled else .skipped
  | fate => fate

/-- The groups of a second pass after a pass that skipped nothing. -/
def Split.again (split : Split) : Split :=
  ⟨split.compiled.filter (· ∉ lost), split.compiled.filter (· ∈ lost), split.failed⟩

theorem splitOf_again {fates : List (Key × Fate)} (fresh : keysWith Fate.isSkipped fates = []) :
    splitOf (fates.map fun f => (f.1, f.2.again lost f.1)) = (splitOf fates).again lost := by
  induction fates with
  | nil => rfl
  | cons f rest ih =>
    obtain ⟨key, fate⟩ := f
    cases fate with
    | skipped => simp [keysWith, Fate.isSkipped] at fresh
    | failed e =>
      have later := ih fresh
      simp only [splitOf, Split.again, Split.mk.injEq] at later ⊢
      exact ⟨later.1, later.2.1, congrArg ((key, e) :: ·) later.2.2⟩
    | compiled =>
      have later := ih fresh
      have first : (splitOf ((key, .compiled) :: rest)).compiled = key :: (splitOf rest).compiled := rfl
      simp only [Split.again, first]
      by_cases gone : key ∈ lost <;>
        simp [splitOf, keysWith, failures, Fate.again, Fate.isSkipped, Fate.isCompiled, Fate.error?,
          Split.again, gone] at later ⊢
      all_goals exact later

end

section
variable {refused : Key → Option Error} {table : Table} {s t u : σ} {lost : List Key} (empty : Empty s)
  (slots : ∀ key, slot u key = if key ∈ lost then (false, .ok none) else slot t key)
include empty slots

theorem hasPlan_after_loss {split : Split} (accounts : split.Accounts .interpreted refused table s t)
    (key : Key) : hasPlan u key = true ↔ key ∈ split.compiled ∧ key ∉ lost := by
  have here := congrArg Prod.fst (slots key)
  by_cases gone : key ∈ lost
  · rw [if_pos gone] at here
    exact ⟨fun present => absurd (here.symm.trans present) nofun, fun h => absurd gone h.2⟩
  · rw [if_neg gone] at here
    by_cases compiled : key ∈ split.compiled
    · obtain ⟨_, _, _, _, there⟩ := accounts.written key compiled
      exact ⟨fun _ => ⟨compiled, gone⟩, fun _ => here.trans (congrArg Prod.fst there)⟩
    · have absent : hasPlan u key = false :=
        here.trans (congrArg Prod.fst ((accounts.kept key compiled).trans (empty key)))
      exact ⟨fun present => absurd (absent.symm.trans present) nofun, fun h => absurd h.1 compiled⟩

/-- A binding fares the same in both passes, but for a plan that the first one wrote and that is still
there. -/
theorem fatesFor_again {scopes : Key → Option Scope}
    (accounts : (splitOf (fatesFor scopes table refused s)).Accounts .interpreted refused table s t) :
    fatesFor scopes table refused u =
      (fatesFor scopes table refused s).map fun f => (f.1, f.2.again lost f.1) := by
  simp only [fatesFor, List.map_map]
  refine List.map_congr_left fun e member => congrArg (e.1, ·) ?_
  obtain ⟨key, binding⟩ := e
  change fateFor scopes table refused (hasPlan u key) key binding =
    (fateFor scopes table refused (hasPlan s key) key binding).again lost key
  have bound : table.get? key = some binding := SortedMap.mem_entries_iff.mp member
  have compiled_iff : key ∈ (splitOf (fatesFor scopes table refused s)).compiled ↔
      (fateFor scopes table refused (hasPlan s key) key binding).isCompiled = true := by
    refine mem_keysWith.trans ⟨?_, fun h => ⟨_, mem_fatesFor.mpr ⟨binding, bound, rfl⟩, h⟩⟩
    rintro ⟨fate, found, h⟩
    obtain ⟨b, bound', rfl⟩ := mem_fatesFor.mp found
    obtain rfl : binding = b := Option.some.inj (bound.symm.trans bound')
    exact h
  have present := hasPlan_after_loss empty slots accounts key
  rw [compiled_iff] at present
  have absent : hasPlan s key = false := congrArg Prod.fst (empty key)
  have was : (fateFor scopes table refused (hasPlan s key) key binding).isSkipped = false :=
    fateFor_isSkipped.trans absent
  cases there : hasPlan u key with
  | true =>
    obtain ⟨compiled, found⟩ := present.mp there
    cases fate : fateFor scopes table refused (hasPlan s key) key binding with
    | compiled => exact (if_neg found).symm
    | skipped | failed e => rw [fate] at compiled; cases compiled
  | false =>
    rw [absent] at was present ⊢
    cases fate : fateFor scopes table refused false key binding with
    | skipped => rw [fate] at was; cases was
    | failed e => rfl
    | compiled =>
      have gone : key ∈ lost := by
        by_contra found
        have held := present.mpr ⟨by rw [fate]; rfl, found⟩
        rw [there] at held
        cases held
      exact (if_pos gone).symm

end

/-- Let a pass over any table, with the registered classes, start from a store without plans, and let some of
the plans be lost. Then a pass over the snapshot, without the classes, compiles the lost keys among those that
the first pass compiled, skips the others among them, and fails on the same keys with the same causes. It
leaves in every slot what was there before the loss, and the snapshot of the same table. -/
theorem lost_plans_restored [LawfulStore σ] {refusals : Refusals} (refuses : Refuses σ refusals)
    (kept : refusals.snapshot = none) (registry : Registry) (table : Table) (time later : Instant) {s : σ}
    (empty : Empty s) :
    ∃ (split : Split) (t : σ), split.Accounts .interpreted refusals.plan table s t ∧ split.skipped = [] ∧
      (passThrough .interpreted table registry.introspector time).runOn s = (split.result, t) ∧
      ∀ (lost : List Key) (u : σ), readSnapshot u = readSnapshot t →
        (∀ key, slot u key = if key ∈ lost then (false, .ok none) else slot t key) →
        ∃ v, (passOfSnapshotThrough .interpreted .descriptors later).runOn u =
            ((split.again lost).result, v) ∧
          (split.again lost).Accounts .interpreted refusals.plan table u v ∧
          (∀ key, slot v key = slot t key) ∧ readSnapshot v = .ok (some (Snapshot.ofTable later table)) := by
  have apart := (fixed_interpreted (σ := σ)).apart table
  obtain ⟨t, ran, accounts, snapshot⟩ := apart.runOn_passOver refuses (.refl _) time (s := s) trivial
  rw [kept] at ran snapshot
  have fresh : (splitOf (fatesFor noScopes table refusals.plan s)).skipped = [] := by
    refine List.eq_nil_iff_forall_not_mem.mpr fun key member => ?_
    have present := ((accounts.mem_skipped key).mp member).2
    exact absurd ((congrArg Prod.fst (empty key)).symm.trans present) nofun
  refine ⟨_, t, accounts, fresh, by rw [passThrough_registry]; exact ran, fun lost u held slots => ?_⟩
  obtain ⟨v, ran', accounts', snapshot'⟩ := apart.runOn_passOver refuses (.refl _) later (s := u) trivial
  have split : splitOf (fatesFor noScopes table refusals.plan u) =
      (splitOf (fatesFor noScopes table refusals.plan s)).again lost := by
    rw [fatesFor_again empty slots accounts, splitOf_again lost fresh]
  rw [split] at accounts'
  rw [kept] at ran' snapshot'
  refine ⟨v, ?_, accounts', fun key => ?_, snapshot'⟩
  · rw [runOn_passOfSnapshotThrough (held.trans snapshot), ← split]
    exact ran'
  · by_cases again : key ∈ ((splitOf (fatesFor noScopes table refusals.plan s)).again lost).compiled
    · obtain ⟨b, p, found, made, there⟩ := accounts'.written key again
      obtain ⟨b', p', found', made', there'⟩ := accounts.written key (List.mem_filter.mp again).1
      obtain rfl : b = b' := Option.some.inj (found.symm.trans found')
      rw [runOn_plan fixed_interpreted] at made made'
      obtain rfl : p = p' := Except.ok.inj (made.symm.trans made')
      exact there.trans there'.symm
    · rw [accounts'.kept key again, slots key]
      by_cases gone : key ∈ lost
      · rw [if_pos gone]
        have other : key ∉ (splitOf (fatesFor noScopes table refusals.plan s)).compiled := fun compiled =>
          again (List.mem_filter.mpr ⟨compiled, by simpa using gone⟩)
        exact ((accounts.kept key other).trans (empty key)).symm
      · rw [if_neg gone]

/-- In this table `b` does not compile. Of the three plans that the pass writes the one for `c` is lost. -/
theorem mixed_plans_restored : ∃ (split : Split) (t v : MemoryStore Refusals.none),
    split.failed = [(.plain "b", .unbound (.plain "u") (some ⟨"B", "new", "u"⟩))] ∧
    t.plans.keys = [.plain "a", .plain "c", .plain "d"] ∧
    (passOfSnapshotThrough .interpreted .descriptors default).runOn (t.erase (.plain "c")) =
      ((split.again [.plain "c"]).result, v) ∧
    ∀ key, slot v key = slot t key := by
  obtain ⟨split, t, -, -, ran, restored⟩ := lost_plans_restored
    (MemoryStore.refuses : Refuses (MemoryStore Refusals.none) _) rfl SortedMap.empty mixedTable default
    default (MemoryStore.empty_start : Empty (MemoryStore.start Refusals.none))
  obtain ⟨v, ran', -, slots, -⟩ := restored [.plain "c"] (t.erase (.plain "c")) rfl fun key => by
    simpa only [List.mem_singleton] using t.slot_erase (.plain "c") key
  exact ⟨split, t, v, Split.failed_of_result ((congrArg Prod.fst ran).symm.trans rfl),
    (congrArg (fun r => r.2.plans.keys) ran).symm.trans rfl, ran', slots⟩

end Compile
end Wiring
