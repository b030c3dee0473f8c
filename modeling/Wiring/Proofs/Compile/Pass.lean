import Wiring.Compile.Pass
import Wiring.Proofs.Compile.Writing
import Wiring.Proofs.MemoryStore

/-! # The outcome of a pass

A pass splits the keys of its table into the skipped, the compiled and the failed ones. What became
of a key depends only on the store before the pass and on the key's own binding, since no step
changes the slot of another key. The loop keeps this as its invariant.
-/
namespace Wiring.Compile
open Store

variable {σ : Type} [Store σ]

/-- What becomes of a binding: skipped if there is a plan, else compiled unless the binding does not
compile or its plan is refused. -/
def fateFor (scopes : Key → Option Scope) (table : Table) (refused : Key → Option Error)
    (present : Bool) (key : Key) (binding : Binding) : Fate :=
  if present then .skipped
  else match planFor scopes table key binding with
    | .error e => .failed e
    | .ok _ => match refused key with
      | some e => .failed e
      | none => .compiled

def slotFor (scopes : Key → Option Scope) (table : Table) (key : Key) (binding : Binding)
    (old : Bool × Except Error (Option Plan)) : Fate → Bool × Except Error (Option Plan)
  | .compiled => (true, (planFor scopes table key binding).map some)
  | _ => old

section
variable {scopes : Key → Option Scope} {table : Table} {key : Key} {binding : Binding} {s t : σ} {fate : Fate}
  (run : EntryRun scopes table key binding s fate t)
include run

theorem EntryRun.fate_eq {refusals : Refusals} (refuses : Refuses σ refusals) :
    fate = fateFor scopes table refusals.plan (hasPlan s key) key binding := by
  have result : ∀ {p r}, planFor scopes table key binding = .ok p → (writePlan p).runOn s = (r, t) →
      r = outcome (refusals.plan key) := by
    intro p r compiled wrote
    rw [← planFor_key compiled, ← refuses.plan p s, wrote]
  cases run with
  | skipped present => simp only [fateFor, present, if_true]
  | invalid absent failed => simp only [fateFor, absent, failed, Bool.false_eq_true, if_false]
  | refused absent compiled wrote =>
    have refused := result compiled wrote
    cases told : refusals.plan key with
    | none => simp only [told, outcome, reduceCtorEq] at refused
    | some e =>
      simp only [told, outcome, Except.error.injEq] at refused
      simp only [fateFor, absent, compiled, told, refused, Bool.false_eq_true, if_false]
  | compiled absent compiled wrote =>
    have worked := result compiled wrote
    cases told : refusals.plan key with
    | none => simp only [fateFor, absent, compiled, told, Bool.false_eq_true, if_false]
    | some e => simp only [told, outcome, reduceCtorEq] at worked

variable [LawfulStore σ]

theorem EntryRun.slot_eq (q : Key) :
    slot t q = if q = key then slotFor scopes table key binding (slot s key) fate else slot s q := by
  by_cases hq : q = key
  · subst hq
    rw [if_pos rfl]
    cases run with
    | skipped _ => rfl
    | invalid _ _ => rfl
    | refused _ _ wrote => exact LawfulStore.slot_of_refused wrote q
    | compiled _ compiled wrote =>
      rw [LawfulStore.slot_writePlan wrote q, planFor_key compiled, if_pos rfl]
      simp only [slotFor, compiled, Except.map]
  · rw [if_neg hq]
    cases run with
    | skipped _ => rfl
    | invalid _ _ => rfl
    | refused _ _ wrote => exact LawfulStore.slot_of_refused wrote q
    | compiled _ compiled wrote =>
      rw [LawfulStore.slot_writePlan wrote q, planFor_key compiled, if_neg hq]

theorem EntryRun.snapshot_eq : readSnapshot t = readSnapshot s := by
  cases run with
  | skipped _ => rfl
  | invalid _ _ => rfl
  | refused _ _ wrote => exact LawfulStore.snapshot_writePlan wrote
  | compiled _ _ wrote => exact LawfulStore.snapshot_writePlan wrote

end

/-- A capability that answers the same as long as only plans of keys of the table are written. -/
structure Capability.Apart (capability : Capability σ) (scopes : Key → Option Scope) (table : Table)
    (I : σ → Prop) : Prop where
  answers : ∀ {key s}, table.get? key = none → I s → (capability.scopeOf key s).1 = scopes key
  asked : ∀ {key s}, table.get? key = none → I s →
    I (capability.scopeOf key s).2 ∧ Same s (capability.scopeOf key s).2
  written : ∀ {plan binding s}, table.get? plan.key = some binding → I s → I ((writePlan plan).runOn s).2

theorem Capability.Fixed.apart {capability : Capability σ} {scopes : Key → Option Scope}
    (fixed : capability.Fixed scopes) (table : Table) : capability.Apart scopes table fun _ => True where
  answers {key s} _ _ := congrArg Prod.fst (fixed key s)
  asked {key s} _ _ := ⟨trivial, (congrArg Prod.snd (fixed key s)).symm ▸ .refl s⟩
  written _ _ := trivial

section
variable {capability : Capability σ} {scopes : Key → Option Scope} {table : Table} {I : σ → Prop}
  (apart : capability.Apart scopes table I)
include apart

theorem Capability.Apart.steady (s : σ) : capability.Steady scopes table fun t => I t ∧ Same s t := by
  rintro key unbound t ⟨inv, same⟩
  obtain ⟨inv', same'⟩ := apart.asked unbound inv
  exact ⟨⟨inv', same.trans same'⟩, congrArg Except.ok (apart.answers unbound inv)⟩

theorem Capability.Apart.plan_eq {s : σ} (inv : I s) (key : Key) (binding : Binding) :
    ((plan capability table key binding).runOn s).1 = planFor scopes table key binding :=
  (computes_plan (apart.steady s) key binding s ⟨inv, .refl s⟩).2

/-- Compiling changes nothing that can be read, so a binding is worked off as in a store in which the
capability was not asked. -/
theorem Capability.Apart.runOn_entry {key : Key} {binding : Binding} {s : σ}
    (bound : table.get? key = some binding) (inv : I s) :
    ∃ fate u t, (entry capability table key binding).runOn s = (.ok fate, t) ∧ Same s u ∧
      EntryRun scopes table key binding u fate t ∧ I t := by
  have compiling := computes_plan (apart.steady s) key binding s ⟨inv, .refl s⟩
  simp only [entry, Act.runOn_bind, Act.runOn_get]
  cases present : hasPlan s key with
  | true => exact ⟨_, s, s, rfl, .refl s, .skipped present, inv⟩
  | false =>
    simp only [Bool.false_eq_true, if_false, Act.runOn_bind, Act.runOn_attempt]
    generalize (plan capability table key binding).runOn s = ran at compiling
    obtain ⟨outcome, u⟩ := ran
    obtain ⟨⟨inv', same⟩, made⟩ := compiling
    have absent : hasPlan u key = false := (hasPlan_of_slot (same.slot key)).trans present
    cases outcome with
    | error e => exact ⟨_, u, u, rfl, same, .invalid absent made.symm, inv'⟩
    | ok p =>
      have kept := apart.written (planFor_key made.symm ▸ bound) inv'
      simp only
      rcases wrote : (writePlan p).runOn u with ⟨e | _, t⟩ <;> rw [wrote] at kept
      · exact ⟨_, u, t, rfl, same, .refused absent made.symm wrote, kept⟩
      · exact ⟨_, u, t, rfl, same, .compiled absent made.symm wrote, kept⟩

variable [LawfulStore σ] {refusals : Refusals} (refuses : Refuses σ refusals)
include refuses

/-- The invariant of the loop: keys worked off have their fates and slots, all others are as before. -/
theorem runOn_entries {rest : List (Key × Binding)} (nodup : (rest.map Prod.fst).Nodup)
    (bound : ∀ e ∈ rest, table.get? e.1 = some e.2) {s : σ} (inv : I s) :
    ∃ t, (entries capability table rest).runOn s =
        (.ok (rest.map fun e => (e.1, fateFor scopes table refusals.plan (hasPlan s e.1) e.1 e.2)), t) ∧
      (∀ e ∈ rest, slot t e.1 = slotFor scopes table e.1 e.2 (slot s e.1)
        (fateFor scopes table refusals.plan (hasPlan s e.1) e.1 e.2)) ∧
      (∀ q, q ∉ rest.map Prod.fst → slot t q = slot s q) ∧ readSnapshot t = readSnapshot s := by
  induction rest generalizing s with
  | nil => exact ⟨s, rfl, by simp, fun _ _ => rfl, rfl⟩
  | cons head rest ih =>
    obtain ⟨key, binding⟩ := head
    simp only [List.map_cons, List.nodup_cons] at nodup
    obtain ⟨here, others⟩ := List.forall_mem_cons.mp bound
    obtain ⟨fate, u, mid, first, asked, run, inv'⟩ := apart.runOn_entry here inv
    obtain rfl := run.fate_eq refuses
    have slots := run.slot_eq
    simp only [asked.slot] at slots
    rw [hasPlan_of_slot (asked.slot key)] at first slots
    have other : ∀ q, q ≠ key → slot mid q = slot s q := fun q hq => by rw [slots q, if_neg hq]
    obtain ⟨t, later, done, kept, snapshot'⟩ := ih nodup.2 others inv'
    have same : ∀ e ∈ rest, slot mid e.1 = slot s e.1 := fun e he =>
      other e.1 fun h => nodup.1 (h ▸ List.mem_map_of_mem he)
    have fates : ∀ e ∈ rest, hasPlan mid e.1 = hasPlan s e.1 := fun e he =>
      hasPlan_of_slot (same e he)
    refine ⟨t, ?_, ?_, ?_, snapshot'.trans (run.snapshot_eq.trans asked.snapshot)⟩
    · simp only [entries, Act.runOn_bind, first, later, Act.runOn_pure, List.map_cons]
      rw [List.map_congr_left fun e he => by rw [fates e he]]
    · intro e he
      rcases List.mem_cons.mp he with rfl | he
      · rw [kept key nodup.1, slots key, if_pos rfl]
      · rw [done e he, same e he, fates e he]
    · intro q hq
      simp only [List.map_cons, List.mem_cons, not_or] at hq
      rw [kept q hq.2, other q hq.1]

end

theorem mem_keysWith {p : Fate → Bool} {fates : List (Key × Fate)} {key : Key} :
    key ∈ keysWith p fates ↔ ∃ fate, (key, fate) ∈ fates ∧ p fate = true := by
  simp [keysWith]

theorem mem_failures {fates : List (Key × Fate)} {key : Key} {e : Error} :
    (key, e) ∈ failures fates ↔ (key, .failed e) ∈ fates := by
  simp only [failures, List.mem_filterMap, Prod.exists]
  constructor
  · rintro ⟨key', fate, member, h⟩
    cases fate with
    | failed e' =>
      simp only [Fate.error?, Option.map_some, Option.some.injEq, Prod.mk.injEq] at h
      exact h.1 ▸ h.2 ▸ member
    | skipped | compiled => simp [Fate.error?] at h
  · exact fun member => ⟨key, .failed e, member, rfl⟩

theorem keysWith_sublist (p : Fate → Bool) (fates : List (Key × Fate)) :
    (keysWith p fates).Sublist (fates.map Prod.fst) :=
  List.filter_sublist.map Prod.fst

theorem failures_sublist (fates : List (Key × Fate)) :
    ((failures fates).map Prod.fst).Sublist (fates.map Prod.fst) := by
  induction fates with
  | nil => exact .slnil
  | cons head rest ih =>
    obtain ⟨key, fate⟩ := head
    cases fate with
    | failed e => exact ih.cons_cons key
    | skipped | compiled => exact ih.cons key

theorem groups_perm (fates : List (Key × Fate)) :
    (keysWith Fate.isSkipped fates ++ keysWith Fate.isCompiled fates ++
      (failures fates).map Prod.fst).Perm (fates.map Prod.fst) := by
  induction fates with
  | nil => exact .nil
  | cons head rest ih =>
    obtain ⟨key, fate⟩ := head
    cases fate with
    | skipped => exact ih.cons key
    | compiled =>
      refine List.Perm.trans ?_ (ih.cons key)
      simp only [keysWith, failures, List.append_assoc]
      exact List.perm_middle
    | failed e => exact List.perm_middle.trans (ih.cons key)

/-- The keys that a pass skips, those it compiles, and those it fails on with their causes. -/
structure Split where
  skipped : List Key
  compiled : List Key
  failed : List (Key × Error)

def Split.keys (split : Split) : List Key :=
  split.skipped ++ split.compiled ++ split.failed.map Prod.fst

def Split.result (split : Split) : Except Error Report :=
  match split.failed with
  | [] => .ok ⟨split.compiled, split.skipped⟩
  | failed => .error (.compilation failed)

theorem Split.failed_of_result {split : Split} {e : Key × Error} {failures : List (Key × Error)}
    (h : split.result = .error (.compilation (e :: failures))) : split.failed = e :: failures := by
  unfold Split.result at h
  cases failed : split.failed <;> rw [failed] at h <;> cases h
  rfl

def Cause (compiled : Except Error Plan) (refused : Option Error) (e : Error) : Prop :=
  compiled = .error e ∨ (∃ p, compiled = .ok p) ∧ refused = some e

/-- A split that says what a pass does to a table between two states of its store. -/
structure Split.Accounts (split : Split) (capability : Capability σ) (refused : Key → Option Error)
    (table : Table) (before after : σ) : Prop where
  /-- The groups are disjoint and together are the keys of the table. -/
  perm : split.keys.Perm table.keys
  nodup : split.keys.Nodup
  skipped_ordered : split.skipped.Sublist table.keys
  compiled_ordered : split.compiled.Sublist table.keys
  failed_ordered : (split.failed.map Prod.fst).Sublist table.keys
  mem_skipped : ∀ key, key ∈ split.skipped ↔ key ∈ table.keys ∧ hasPlan before key = true
  mem_compiled : ∀ key, key ∈ split.compiled ↔ hasPlan before key = false ∧
    ∃ binding, table.get? key = some binding ∧ refused key = none ∧
      ∃ p, ((plan capability table key binding).runOn before).1 = .ok p
  mem_failed : ∀ key e, (key, e) ∈ split.failed ↔ hasPlan before key = false ∧
    ∃ binding, table.get? key = some binding ∧
      Cause ((plan capability table key binding).runOn before).1 (refused key) e
  /-- A compiled key holds what its binding compiles to. -/
  written : ∀ key ∈ split.compiled, ∃ binding p, table.get? key = some binding ∧
    ((plan capability table key binding).runOn before).1 = .ok p ∧
    slot after key = (true, .ok (some p))
  kept : ∀ key, key ∉ split.compiled → slot after key = slot before key
  planless : ∀ key e, (key, e) ∈ split.failed → hasPlan after key = false

theorem fateFor_eq_compiled {scopes : Key → Option Scope} {table : Table}
    {refused : Key → Option Error} {present : Bool} {key : Key} {binding : Binding} :
    (fateFor scopes table refused present key binding).isCompiled = true ↔
      present = false ∧ refused key = none ∧ ∃ p, planFor scopes table key binding = .ok p := by
  unfold fateFor
  cases present <;> cases planFor scopes table key binding <;> cases refused key <;>
    simp [Fate.isCompiled]

theorem fateFor_eq_failed {scopes : Key → Option Scope} {table : Table}
    {refused : Key → Option Error} {present : Bool} {key : Key} {binding : Binding} {e : Error} :
    fateFor scopes table refused present key binding = .failed e ↔
      present = false ∧ Cause (planFor scopes table key binding) (refused key) e := by
  unfold fateFor Cause
  cases present <;> cases planFor scopes table key binding <;> cases refused key <;> simp

theorem fateFor_isSkipped {scopes : Key → Option Scope} {table : Table}
    {refused : Key → Option Error} {present : Bool} {key : Key} {binding : Binding} :
    (fateFor scopes table refused present key binding).isSkipped = present := by
  unfold fateFor
  cases present <;> cases planFor scopes table key binding <;> cases refused key <;> rfl

def fatesFor (scopes : Key → Option Scope) (table : Table) (refused : Key → Option Error)
    (s : σ) : List (Key × Fate) :=
  table.entries.map fun e => (e.1, fateFor scopes table refused (hasPlan s e.1) e.1 e.2)

theorem mem_fatesFor {scopes : Key → Option Scope} {table : Table} {refused : Key → Option Error}
    {s : σ} {key : Key} {fate : Fate} :
    (key, fate) ∈ fatesFor scopes table refused s ↔ ∃ binding, table.get? key = some binding ∧
      fateFor scopes table refused (hasPlan s key) key binding = fate := by
  simp only [fatesFor, List.mem_map, Prod.exists, Prod.mk.injEq, SortedMap.mem_entries_iff]
  constructor
  · rintro ⟨key', binding, found, rfl, h⟩
    exact ⟨binding, found, h⟩
  · rintro ⟨binding, found, h⟩
    exact ⟨key, binding, found, rfl, h⟩

theorem fatesFor_keys (scopes : Key → Option Scope) (table : Table)
    (refused : Key → Option Error) (s : σ) :
    (fatesFor scopes table refused s).map Prod.fst = table.keys := by
  simp [fatesFor, SortedMap.keys, Function.comp_def]

theorem mem_skipped_fatesFor {scopes : Key → Option Scope} {table : Table}
    {refused : Key → Option Error} {s : σ} {key : Key} :
    key ∈ keysWith Fate.isSkipped (fatesFor scopes table refused s) ↔
      key ∈ table.keys ∧ hasPlan s key = true := by
  simp only [mem_keysWith, mem_fatesFor, SortedMap.mem_keys_iff]
  constructor
  · rintro ⟨_, ⟨b, found, rfl⟩, h⟩
    exact ⟨⟨b, found⟩, fateFor_isSkipped.symm.trans h⟩
  · rintro ⟨⟨b, found⟩, present⟩
    exact ⟨_, ⟨b, found, rfl⟩, fateFor_isSkipped.trans present⟩

theorem mem_compiled_fatesFor {scopes : Key → Option Scope} {table : Table}
    {refused : Key → Option Error} {s : σ} {key : Key} :
    key ∈ keysWith Fate.isCompiled (fatesFor scopes table refused s) ↔
      hasPlan s key = false ∧ ∃ binding, table.get? key = some binding ∧ refused key = none ∧
        ∃ p, planFor scopes table key binding = .ok p := by
  simp only [mem_keysWith, mem_fatesFor]
  constructor
  · rintro ⟨_, ⟨b, found, rfl⟩, h⟩
    obtain ⟨absent, free, p, hp⟩ := fateFor_eq_compiled.mp h
    exact ⟨absent, b, found, free, p, hp⟩
  · rintro ⟨absent, b, found, free, p, hp⟩
    exact ⟨_, ⟨b, found, rfl⟩, fateFor_eq_compiled.mpr ⟨absent, free, p, hp⟩⟩

theorem mem_failures_fatesFor {scopes : Key → Option Scope} {table : Table}
    {refused : Key → Option Error} {s : σ} {key : Key} {e : Error} :
    (key, e) ∈ failures (fatesFor scopes table refused s) ↔
      hasPlan s key = false ∧ ∃ binding, table.get? key = some binding ∧
        Cause (planFor scopes table key binding) (refused key) e := by
  rw [mem_failures, mem_fatesFor]
  simp only [fateFor_eq_failed]
  exact ⟨fun ⟨b, found, absent, cause⟩ => ⟨absent, b, found, cause⟩,
    fun ⟨absent, b, found, cause⟩ => ⟨b, found, absent, cause⟩⟩

def splitOf (fates : List (Key × Fate)) : Split :=
  ⟨keysWith Fate.isSkipped fates, keysWith Fate.isCompiled fates, failures fates⟩

theorem Split.Accounts.disjoint {split : Split} {capability : Capability σ}
    {refused : Key → Option Error} {table : Table} {before after : σ}
    (h : split.Accounts capability refused table before after) {key : Key}
    (hs : key ∈ split.skipped) : key ∉ split.compiled := by
  have hn := h.nodup
  simp only [Split.keys, List.append_assoc] at hn
  exact fun hc => (List.nodup_append.mp hn).2.2 key hs key (List.mem_append_left _ hc) rfl

section
variable {capability : Capability σ} {scopes : Key → Option Scope} {table : Table}

theorem splitOf_accounts (refused : Key → Option Error) {s t : σ}
    (plans : ∀ key binding, ((plan capability table key binding).runOn s).1 =
      planFor scopes table key binding)
    (done : ∀ e ∈ table.entries, slot t e.1 = slotFor scopes table e.1 e.2 (slot s e.1)
      (fateFor scopes table refused (hasPlan s e.1) e.1 e.2))
    (kept : ∀ q, q ∉ table.keys → slot t q = slot s q) :
    (splitOf (fatesFor scopes table refused s)).Accounts capability refused table s t := by
  have keys := fatesFor_keys scopes table refused s
  have perm : (splitOf (fatesFor scopes table refused s)).keys.Perm table.keys :=
    keys ▸ groups_perm _
  have slots : ∀ {key binding}, table.get? key = some binding → slot t key =
      slotFor scopes table key binding (slot s key)
        (fateFor scopes table refused (hasPlan s key) key binding) :=
    fun found => done (_, _) (SortedMap.mem_entries_iff.mpr found)
  have unchanged : ∀ key, key ∉ keysWith Fate.isCompiled (fatesFor scopes table refused s) →
      slot t key = slot s key := by
    intro key hk
    by_cases member : key ∈ table.keys
    · obtain ⟨b, found⟩ := SortedMap.mem_keys_iff.mp member
      rw [slots found]
      cases hf : fateFor scopes table refused (hasPlan s key) key b with
      | skipped | failed e => rfl
      | compiled => exact absurd (mem_keysWith.mpr ⟨_, mem_fatesFor.mpr ⟨b, found, hf⟩, rfl⟩) hk
    · exact kept key member
  refine ⟨perm, perm.nodup_iff.mpr table.keys_nodup, keys ▸ keysWith_sublist _ _,
    keys ▸ keysWith_sublist _ _, keys ▸ failures_sublist _, fun _ => mem_skipped_fatesFor, ?_, ?_, ?_,
    unchanged, ?_⟩
  · simp only [plans]
    exact fun _ => mem_compiled_fatesFor
  · simp only [plans]
    exact fun _ _ => mem_failures_fatesFor
  · intro key hk
    obtain ⟨absent, b, found, free, p, hp⟩ := mem_compiled_fatesFor.mp hk
    refine ⟨b, p, found, by rw [plans, hp], ?_⟩
    have hf : fateFor scopes table refused (hasPlan s key) key b = .compiled := by
      simp [fateFor, absent, hp, free]
    rw [slots found, hf]
    simp [slotFor, hp, Except.map]
  · intro key e he
    obtain ⟨absent, b, found, cause⟩ := mem_failures_fatesFor.mp he
    have hc : key ∉ keysWith Fate.isCompiled (fatesFor scopes table refused s) := by
      intro hk
      obtain ⟨_, b', found', free, p, hp⟩ := mem_compiled_fatesFor.mp hk
      obtain rfl : b = b' := Option.some.inj (found.symm.trans found')
      rcases cause with h | ⟨_, h⟩
      · simp [hp] at h
      · simp [free] at h
    rw [hasPlan_of_slot (unchanged key hc), absent]

def fatesOver (scopes : Key → Option Scope) (table : Table) (refused : Key → Option Error)
    (s : σ) (order : List (Key × Binding)) : List (Key × Fate) :=
  order.map fun e => (e.1, fateFor scopes table refused (hasPlan s e.1) e.1 e.2)

omit [Store σ] in
theorem keys_nodup_of_perm {order : List (Key × Binding)} (perm : order.Perm table.entries) :
    (order.map Prod.fst).Nodup :=
  (perm.map Prod.fst).nodup_iff.mpr table.keys_nodup

/-- What a pass does, in whichever order it works off the bindings. -/
theorem Capability.Apart.runOn_passOver [LawfulStore σ] {I : σ → Prop} (apart : capability.Apart scopes table I)
    {refusals : Refusals} (refuses : Refuses σ refusals) {order : List (Key × Binding)}
    (perm : order.Perm table.entries) (time : Instant) {s : σ} (inv : I s) :
    ∃ t, (passOver capability table order time).runOn s =
        (match refusals.snapshot with
          | none => (splitOf (fatesOver scopes table refusals.plan s order)).result
          | some e => .error e, t) ∧
      (splitOf (fatesFor scopes table refusals.plan s)).Accounts capability refusals.plan table s t ∧
      readSnapshot t = match refusals.snapshot with
        | none => .ok (some (Snapshot.ofTable time table))
        | some _ => readSnapshot s := by
  obtain ⟨mid, worked, done, kept, snapshot⟩ := runOn_entries apart refuses (keys_nodup_of_perm perm)
    (fun e he => SortedMap.mem_entries_iff.mp (perm.mem_iff.mp he)) inv
  have accounts := splitOf_accounts refusals.plan (apart.plan_eq inv)
    (fun e he => done e (perm.mem_iff.mpr he))
    (fun q hq => kept q fun h => hq ((perm.map Prod.fst).mem_iff.mp h))
  have result := refuses.snapshot (Snapshot.ofTable time table) mid
  cases wrote : (writeSnapshot (Snapshot.ofTable time table)).runOn mid with
  | mk r t =>
    have same := LawfulStore.slot_writeSnapshot wrote
    have planless : ∀ key, hasPlan t key = hasPlan mid key := fun key => hasPlan_of_slot (same key)
    refine ⟨t, ?_, { accounts with
      written := fun key hk => by simpa only [same] using accounts.written key hk
      kept := fun key hk => by simpa only [same] using accounts.kept key hk
      planless := fun key e he => by simpa only [planless] using accounts.planless key e he }, ?_⟩
    · rw [wrote] at result
      simp only [passOver, Act.runOn_bind, worked, wrote]
      cases refused : refusals.snapshot with
      | some e =>
        rw [refused] at result
        obtain rfl : r = .error e := result
        rfl
      | none =>
        rw [refused] at result
        obtain rfl : r = .ok () := result
        simp only [Split.result, splitOf, fatesOver]
        cases failures _ <;> rfl
    · rw [wrote] at result
      cases refused : refusals.snapshot with
      | some e =>
        rw [refused] at result
        obtain rfl : r = .error e := result
        exact (LawfulStore.snapshot_of_refused wrote).trans snapshot
      | none =>
        rw [refused] at result
        obtain rfl : r = .ok () := result
        exact LawfulStore.snapshot_writeSnapshot wrote

theorem runOn_pass [LawfulStore σ] (fixed : capability.Fixed scopes) {refusals : Refusals}
    (refuses : Refuses σ refusals) (table : Table) (time : Instant) (s : σ) :
    ∃ (split : Split) (t : σ), split.Accounts capability refusals.plan table s t ∧
      (pass capability table time).runOn s =
        (match refusals.snapshot with | none => split.result | some e => .error e, t) ∧
      readSnapshot t = match refusals.snapshot with
        | none => .ok (some (Snapshot.ofTable time table))
        | some _ => readSnapshot s := by
  obtain ⟨t, ran, accounts, snapshot⟩ :=
    (fixed.apart table).runOn_passOver refuses (.refl _) time (s := s) trivial
  exact ⟨_, t, accounts, ran, snapshot⟩

end

/-- The outcome of a pass over any table and store: a split of the table into skipped, compiled and
failed keys, the snapshot of the table, and a report or the failures; and of a pass after it with
writes that work, which keeps every plan and fails on just the bindings that do not compile. -/
theorem pass_splits_table {σ : Type} [Store σ] [LawfulStore σ] {capability : Capability σ}
    {scopes : Key → Option Scope} {refusals : Refusals} (fixed : capability.Fixed scopes)
    (refuses : Refuses σ refusals) (table : Table) (time : Instant) (s : σ) :
    ∃ (split : Split) (t : σ), split.Accounts capability refusals.plan table s t ∧
      (pass capability table time).runOn s =
        (match refusals.snapshot with | none => split.result | some e => .error e, t) ∧
      (readSnapshot t = match refusals.snapshot with
        | none => .ok (some (Snapshot.ofTable time table))
        | some _ => readSnapshot s) ∧
      (Snapshot.ofTable time table).toTable = .ok table ∧
      ∀ (τ : Type) [Store τ] [LawfulStore τ] (again : Capability τ) (later : Instant) (u : τ),
        again.Fixed scopes → Refuses τ .none → (∀ key, slot u key = slot t key) →
        ∃ (second : Split) (v : τ), second.Accounts again (fun _ => none) table u v ∧
          (pass again table later).runOn u = (second.result, v) ∧
          (∀ key ∈ split.compiled, key ∈ second.skipped ∧ key ∉ second.compiled) ∧
          ∀ key e, (key, e) ∈ second.failed ↔ (key, e) ∈ split.failed ∧
            ∃ binding, table.get? key = some binding ∧
              ((plan capability table key binding).runOn s).1 = .error e := by
  obtain ⟨split, t, accounts, ran, snapshot⟩ := runOn_pass fixed refuses table time s
  refine ⟨split, t, accounts, ran, snapshot, by simp [Snapshot.ofTable, Snapshot.toTable], ?_⟩
  intro τ _ _ again later u fixed' refuses' slots
  obtain ⟨second, v, accounts', ran', _⟩ := runOn_pass fixed' refuses' table later u
  refine ⟨second, v, accounts', ran', ?_, ?_⟩
  · intro key hk
    obtain ⟨b, p, found, _, there⟩ := accounts.written key hk
    have present : hasPlan u key = true := congrArg Prod.fst ((slots key).trans there)
    have skipped := (accounts'.mem_skipped key).mpr ⟨SortedMap.mem_keys_iff.mpr ⟨b, found⟩, present⟩
    exact ⟨skipped, accounts'.disjoint skipped⟩
  · intro key e
    have compiles : ∀ b, ((plan again table key b).runOn u).1 =
        ((plan capability table key b).runOn s).1 := fun b => by rw [runOn_plan fixed', runOn_plan fixed]
    rw [accounts'.mem_failed]
    constructor
    · rintro ⟨absent, b, found, cause⟩
      have fails : ((plan capability table key b).runOn s).1 = .error e := by
        rcases cause with h | ⟨_, h⟩
        · exact compiles b ▸ h
        · cases h
      rw [hasPlan_of_slot (slots key)] at absent
      have hc : key ∉ split.compiled := by
        intro hk
        obtain ⟨_, _, _, _, there⟩ := accounts.written key hk
        exact Bool.false_ne_true (absent.symm.trans (congrArg Prod.fst there))
      rw [hasPlan_of_slot (accounts.kept key hc)] at absent
      exact ⟨(accounts.mem_failed key e).mpr ⟨absent, b, found, .inl fails⟩, b, found, fails⟩
    · rintro ⟨failed, b, found, fails⟩
      refine ⟨?_, b, found, .inl ((compiles b).trans fails)⟩
      rw [hasPlan_of_slot (slots key)]
      exact accounts.planless key e failed

/-- A table in which `a` compiles, `b` needs a key that nothing binds and `c`, `d` are literals. -/
def mixedTable : Table :=
  let needy : Signature := ⟨"B", [{ key := .plain "u", point := ⟨"B", "new", "u"⟩ }], [], none⟩
  .ofList [(.plain "d", .literal Json.null), (.plain "c", .literal Json.null),
    (.plain "b", .build ⟨needy, .singleton⟩), (.plain "a", .literal Json.null)]

def refusingC : Refusals :=
  ⟨fun key => if key = .plain "c" then some (.storage "full" none) else none, none⟩

def mixedStore : MemoryStore refusingC :=
  ⟨SortedMap.empty.insert (.plain "d") (.current (.plain "d") .singleton (.literal Json.null)), none⟩

theorem pass_splits_mixed_table : ∃ (split : Split) (t : MemoryStore refusingC),
    split.Accounts .interpreted refusingC.plan mixedTable mixedStore t ∧
    split.failed = [(.plain "b", .unbound (.plain "u") (some ⟨"B", "new", "u"⟩)),
      (.plain "c", .storage "full" none)] ∧
    t.plans.keys = [.plain "a", .plain "d"] := by
  obtain ⟨split, t, accounts, ran, -⟩ := pass_splits_table fixed_interpreted
    MemoryStore.refuses mixedTable default mixedStore
  exact ⟨split, t, accounts, Split.failed_of_result ((congrArg Prod.fst ran).symm.trans rfl),
    (congrArg (fun r => r.2.plans.keys) ran).symm.trans rfl⟩

end Wiring.Compile
