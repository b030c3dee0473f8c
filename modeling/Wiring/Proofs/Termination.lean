import Wiring.Proofs.Dialogue.Interpreter
import Wiring.Proofs.Dialogue.Runner
import Wiring.Proofs.Machine
import Wiring.Proofs.MemoryStore

/-! # Every request finishes

The keys that an injector can resolve are finitely many, and they stay the same while its table and its
store grow. So its machine finishes whatever it is asked for, and never resolves more keys at once than
there are.
-/
namespace Wiring
open Act Wiring.Runtime

theorem Registry.plain_mem_keys {registry : Registry} {key : Key} {signature : Signature}
    (plain : key.isPlain = true) (signed : registry.signature? key.interface = some signature) :
    key ∈ registry.keys.map Key.plain := by
  obtain ⟨c, registered, -⟩ := Option.map_eq_some_iff.mp signed
  have named : Key.plain key.interface = key := by
    obtain ⟨interface, name⟩ := key
    have empty : name = "" := by simpa [Key.isPlain] using plain
    rw [empty]
    rfl
  exact List.mem_map.mpr ⟨key.interface, SortedMap.mem_keys_iff.mpr ⟨c, registered⟩, named⟩

namespace Interpreter

variable (registry : Registry)

/-- The key of a question is looked up, which may bind it. -/
def opens : Opens Question Table := fun q s =>
  match known registry s.own q.key with
  | some binding => (.delivers q.key binding.scope (dialogue registry binding q.point),
      { s with own := learn registry s.own q.key })
  | none => (.answered q.fallback, s)

def resolvable (table : Table) : Finset Key := (table.keys ++ registry.keys.map Key.plain).toFinset

variable {registry}

theorem mem_resolvable {table : Table} {key : Key} {binding : Binding}
    (bound : known registry table key = some binding) : key ∈ resolvable registry table := by
  rw [resolvable, List.mem_toFinset, List.mem_append]
  unfold known at bound
  cases found : table.get? key with
  | some binding => exact .inl (SortedMap.mem_keys_iff.mpr ⟨binding, found⟩)
  | none =>
    rw [found] at bound
    by_cases plain : key.isPlain = true
    · rw [if_pos plain] at bound
      obtain ⟨signature, signed, -⟩ := Option.map_eq_some_iff.mp bound
      exact .inr (Registry.plain_mem_keys plain signed)
    · rw [if_neg plain] at bound
      cases bound

theorem card_resolvable_le (s : State) : (resolvable registry s.own).card ≤ bindable registry s := by
  have count := List.toFinset_card_le (s.own.keys ++ registry.keys.map Key.plain)
  simp only [List.length_append, List.length_map, SortedMap.keys] at count
  exact count

theorem confined_opens (table : Table) :
    Machine.Confined (opens registry) (Grows registry table) (resolvable registry table) where
  keeps {q s} grows := by
    unfold opens
    cases known registry s.own q.key with
    | some binding => exact trans_of (Grows registry) grows (grows_learn s.own q.key)
    | none => exact grows
  ownOnly q s := by
    unfold opens
    cases known registry s.own q.key <;> rfl
  delivers {q s key scope body} grows delivered := by
    unfold opens at delivered
    cases found : known registry s.own q.key with
    | some binding =>
      rw [found] at delivered
      cases delivered
      exact mem_resolvable ((grows.known_eq q.key).symm.trans found)
    | none =>
      rw [found] at delivered
      cases delivered

theorem bounded_answer :
    Machine.Bounded (opens registry) fun depth => answer registry (resolve registry depth) := by
  intro depth q s
  rw [runOn_answer, opens]
  cases known registry s.own q.key with
  | none => rfl
  | some binding =>
    cases depth with
    | zero => rfl
    | succ depth =>
      have same : realize registry (resolve registry depth) binding q.point =
          (dialogue registry binding q.point).runOn (answer registry (resolve registry depth)) :=
        funext (performed_realize registry (resolve registry depth) binding q.point)
      simp only [resolve, same]
      rfl

theorem request_finishes (key : Key) (point : Option Point) {s : State} (idle : s.active = []) :
    Machine.Finishes (opens registry) (.lookup key point) s ((request registry key point).runOn s)
      (resolvable registry s.own) :=
  Machine.finishes (confined_opens s.own) bounded_answer (card_resolvable_le s) (.lookup key point) idle
    (refl_of (Grows registry) s.own)

end Interpreter

namespace Store

open Classical in
/-- The keys that a store has plans for, if they are finitely many. -/
noncomputable def keys {σ : Type} [Store σ] (s : σ) : Finset Key :=
  if finite : (planned s).Finite then finite.toFinset else ∅

variable {σ : Type} [Store σ] {I : σ → Prop} (orderly : Orderly I) {s : σ} (inv : I s)
include orderly inv

theorem Orderly.mem_keys {key : Key} {p : Plan} (found : readPlan s key = .ok (some p)) : key ∈ keys s := by
  have finite : (planned s).Finite := Set.finite_of_encard_le_coe (orderly.few inv)
  rw [keys, dif_pos finite, Set.Finite.mem_toFinset]
  exact ⟨p, found⟩

theorem Orderly.card_keys_le : (keys s).card ≤ capacity s := by
  have finite : (planned s).Finite := Set.finite_of_encard_le_coe (orderly.few inv)
  have few := orderly.few inv
  rw [finite.encard_eq_coe_toFinset_card] at few
  rw [keys, dif_pos finite]
  exact Nat.cast_le.mp few

end Store

namespace Runner
open Store

variable {σ : Type} [Store σ] (registry : Registry)

def opens : Opens Question (Memory σ) := fun q s =>
  match (planFor registry q.key q.point).runOn s with
  | (.ok plan, t) => (.delivers q.key (q.scope.getD plan.scope) (dialogue registry plan.body q.point), t)
  | (.error e, t) => (.answered (.error e), t)

/-- The keys of the table that a runner compiles from. -/
def tableKeys (m : Memory σ) : List Key :=
  match m.table with
  | some table => table.keys
  | none =>
    match readSnapshot m.store with
    | .ok (some snapshot) => snapshot.entries.map Prod.fst
    | _ => []

/-- The keys with a plan in the store or in memory, those of the snapshot, and the plain keys of the
registered classes. -/
noncomputable def resolvable (m : Memory σ) : Finset Key :=
  keys m.store ∪ (m.plans.keys ++ tableKeys m ++ registry.keys.map Key.plain).toFinset

theorem card_resolvable_le {I : σ → Prop} (orderly : Orderly I) {s : State σ} (inv : I s.own.store) :
    (resolvable registry s.own).card ≤ runnable registry s := by
  have union := Finset.card_union_le (keys s.own.store)
    (s.own.plans.keys ++ tableKeys s.own ++ registry.keys.map Key.plain).toFinset
  have stored := orderly.card_keys_le inv
  have count := List.toFinset_card_le (s.own.plans.keys ++ tableKeys s.own ++ registry.keys.map Key.plain)
  have table : (tableKeys s.own).length = tableSize s := by
    unfold tableKeys tableSize
    cases s.own.table with
    | some table => exact List.length_map _
    | none => rcases readSnapshot s.own.store with e | _ | snapshot <;> simp
  have plans : s.own.plans.keys.length = s.own.plans.size := List.length_map _
  have classes : (registry.keys.map Key.plain).length = registry.size := by
    simp [SortedMap.keys, SortedMap.size]
  simp only [List.length_append, table, plans, classes] at count
  unfold resolvable runnable
  omega

/-- A memory that works on such a store, with no keys but those of a set. -/
structure Within (I : σ → Prop) (keys : Finset Key) (m : Memory σ) : Prop where
  store : I m.store
  stored : ∀ {key p}, readPlan m.store key = .ok (some p) → key ∈ keys
  loaded : ∀ {key p}, m.plans.get? key = some p → key ∈ keys
  table : ∀ key ∈ tableKeys m, key ∈ keys

abbrev Inside (I : σ → Prop) (keys : Finset Key) (s : State σ) : Prop := Within I keys s.own

variable {registry} {I : σ → Prop} {keys : Finset Key}

theorem within_resolvable (orderly : Orderly I) {m : Memory σ} (inv : I m.store) :
    Within I (resolvable registry m) m := by
  refine ⟨inv, fun {key p} found => ?_, fun {key p} found => ?_, fun key member => ?_⟩ <;>
    simp only [resolvable, Finset.mem_union, List.mem_toFinset, List.mem_append]
  · exact .inl (orderly.mem_keys inv found)
  · exact .inr (.inl (.inl (SortedMap.mem_keys_iff.mpr ⟨p, found⟩)))
  · exact .inr (.inl (.inr member))

theorem class_mem_resolvable (registry : Registry) (m : Memory σ) :
    ∀ key ∈ registry.keys.map Key.plain, key ∈ resolvable registry m := fun _ named =>
  Finset.mem_union_right _ (List.mem_toFinset.mpr (List.mem_append_right _ named))

theorem Within.remember {m : Memory σ} (within : Within I keys m) {p : Plan} (member : p.key ∈ keys) :
    Within I keys { m with plans := m.plans.insertIfNew p.key p } where
  __ := within
  loaded {key p'} found := by
    rcases SortedMap.get?_of_insertIfNew found with old | ⟨rfl, -⟩
    · exact within.loaded old
    · exact member

theorem Within.keep {m : Memory σ} (within : Within I keys m) {table : Table}
    (members : ∀ key ∈ table.keys, key ∈ keys) : Within I keys { m with table := some table } where
  __ := within
  table := members

theorem Within.write (orderly : Orderly I) {m : Memory σ} (within : Within I keys m) {p : Plan}
    (member : p.key ∈ keys) {r : Except Error Unit} {store : σ}
    (wrote : (writePlan p).runOn m.store = (r, store)) : Within I keys { m with store := store } where
  store := orderly.keeps within.store wrote
  stored {key p'} found := by
    rcases orderly.adds within.store wrote found with rfl | ⟨p', found⟩
    · exact member
    · exact within.stored found
  loaded := within.loaded
  table key listed := by
    refine within.table key ?_
    unfold tableKeys at listed ⊢
    cases held : m.table with
    | some table => rwa [held] at listed
    | none =>
      simp only [held] at listed
      rcases read : readSnapshot store with e | _ | snapshot
      · simp [read] at listed
      · simp [read] at listed
      · rw [read] at listed
        rwa [orderly.snapshot within.store wrote read]

theorem ensures_load_within (orderly : Orderly I) (key : Key) :
    (load (σ := σ) key).Ensures (Inside I keys) fun found => ∀ p, found = some p → key ∈ keys := by
  intro s within
  have loading := loading_load key s
  generalize (load key).runOn s = ran at loading
  cases loading with
  | known found => exact ⟨within, fun _ _ _ _ => within.loaded found⟩
  | unread _ _ | outdated _ _ _ => exact ⟨within, nofun⟩
  | absent _ _ =>
    refine ⟨within, ?_⟩
    rintro a ⟨⟩
    exact nofun
  | read _ found _ =>
    have member : key ∈ keys := within.stored found
    refine ⟨within.remember ?_, fun _ _ _ _ => member⟩
    rw [orderly.named within.store found]
    exact member

theorem ensures_snapshotTable_within :
    (snapshotTable (σ := σ)).Ensures (Inside I keys) fun table => ∀ key ∈ table.keys, key ∈ keys := by
  intro s within
  have tables := within.table
  simp only [snapshotTable, runOn_bind, runOn_get]
  cases held : s.own.table with
  | some table =>
    simp only [tableKeys, held] at tables
    refine ⟨within, ?_⟩
    rintro table ⟨⟩
    exact tables
  | none =>
    simp only [tableKeys, held] at tables
    simp only [runOn_bind, runOn_get, runOn_liftExcept]
    rcases read : readSnapshot s.own.store with e | _ | snapshot
    · refine ⟨within, ?_⟩
      rintro table ⟨⟩
    · have members : ∀ key ∈ (SortedMap.empty : Table).keys, key ∈ keys :=
        fun _ member => absurd member List.not_mem_nil
      refine ⟨within.keep members, ?_⟩
      rintro table ⟨⟩
      exact members
    · simp only [read] at tables
      simp only [Snapshot.toTable]
      by_cases version : snapshot.version = Snapshot.currentVersion
      · have members : ∀ key ∈ (SortedMap.ofList snapshot.entries : Table).keys, key ∈ keys :=
          fun key member => tables key (SortedMap.mem_keys_ofList.mp member)
        rw [if_pos version]
        refine ⟨within.keep members, ?_⟩
        rintro table ⟨⟩
        exact members
      · rw [if_neg version]
        refine ⟨within, ?_⟩
        rintro table ⟨⟩

theorem mem_of_withClass {key : Key} {table : Table} {binding : Binding}
    (bound : (withClass registry key table).get? key = some binding) :
    key ∈ table.keys ∨ key ∈ registry.keys.map Key.plain := by
  unfold withClass at bound
  by_cases plain : key.isPlain = true
  · rw [if_pos plain] at bound
    cases signed : registry.signature? key.interface with
    | none =>
      rw [signed] at bound
      exact .inl (SortedMap.mem_keys_iff.mpr ⟨binding, bound⟩)
    | some signature => exact .inr (Registry.plain_mem_keys plain signed)
  · rw [if_neg plain] at bound
    exact .inl (SortedMap.mem_keys_iff.mpr ⟨binding, bound⟩)

section
variable (orderly : Orderly I) (classes : ∀ key ∈ registry.keys.map Key.plain, key ∈ keys)
include orderly classes

theorem ensures_compile_within (key : Key) :
    (compile (σ := σ) registry key).Ensures (Inside I keys) fun found =>
      ∀ p, found = some p → key ∈ keys := by
  intro s within
  have compiling := compiling_compile registry key s
  generalize (compile registry key).runOn s = ran at compiling
  have listed : (snapshotTable (σ := σ)).Ensures (Inside I keys) _ := ensures_snapshotTable_within
  have tables := fun {r t} => listed.of_eq (r := r) (t := t) within
  have plans : ∀ {table binding r} {t u : State σ}, Inside I keys t →
      (Compile.plan (.compiling scopeOf) table key binding).runOn t = (r, u) → Inside I keys u :=
    fun {table binding _ _ _} inside ran => (moves_compiling (R := Preserves (Inside I keys))
      (fun key => (ensures_load_within orderly key).moves) table key binding).of_eq ran inside
  have bindable : ∀ {table t binding}, snapshotTable.runOn s = (.ok table, t) →
      (withClass registry key table).get? key = some binding → key ∈ keys := by
    intro table t binding read bound
    rcases mem_of_withClass bound with listed | named
    · exact (tables read).2 table rfl key listed
    · exact classes key named
  cases compiling with
  | unread read => exact ⟨(tables read).1, nofun⟩
  | unbound read _ =>
    refine ⟨(tables read).1, ?_⟩
    rintro a ⟨⟩
    exact nofun
  | refused read _ compiled => exact ⟨plans (tables read).1 compiled, nofun⟩
  | unwritten read bound compiled wrote =>
    have inside := plans (tables read).1 compiled
    refine ⟨inside.write orderly ?_ wrote, nofun⟩
    rw [Compile.plan_key compiled]
    exact bindable read bound
  | written read bound compiled wrote =>
    have inside := plans (tables read).1 compiled
    have member := bindable read bound
    have named := Compile.plan_key compiled
    refine ⟨(inside.write orderly ?_ wrote).remember ?_, fun _ _ _ _ => member⟩
    · rw [named]
      exact member
    · rw [named]
      exact member

theorem ensures_planFor_within (key : Key) (point : Option Point) :
    (planFor (σ := σ) registry key point).Ensures (Inside I keys) fun _ => key ∈ keys := by
  intro s within
  have finding := finding_planFor registry key point s
  generalize (planFor registry key point).runOn s = ran at finding
  have loads := fun {r t} => (ensures_load_within orderly key).of_eq (r := r) (t := t) within
  have compiles := fun {r t u} =>
    (ensures_compile_within orderly classes key).of_eq (r := r) (s := t) (t := u)
  cases finding with
  | unloaded ran => exact ⟨(loads ran).1, nofun⟩
  | loaded ran => exact ⟨(loads ran).1, fun _ _ => (loads ran).2 _ rfl _ rfl⟩
  | failed ran ran' | unbound ran ran' => exact ⟨(compiles (loads ran).1 ran').1, nofun⟩
  | compiled ran ran' =>
    have ended := compiles (loads ran).1 ran'
    exact ⟨ended.1, fun _ _ => ended.2 _ rfl _ rfl⟩

theorem confined_opens : Machine.Confined (opens (σ := σ) registry) (Within I keys) keys where
  keeps {q s} within := by
    have ensured := ensures_planFor_within orderly classes q.key q.point s within
    unfold opens
    generalize (planFor registry q.key q.point).runOn s = ran at ensured
    obtain ⟨e | plan, t⟩ := ran <;> exact ensured.1
  ownOnly q s := by
    have moved := ownOnly_planFor registry q.key q.point s
    unfold opens
    generalize (planFor registry q.key q.point).runOn s = ran at moved
    obtain ⟨e | plan, t⟩ := ran <;> exact moved
  delivers {q s key scope body} within delivered := by
    have ensured := ensures_planFor_within orderly classes q.key q.point s within
    unfold opens at delivered
    generalize (planFor registry q.key q.point).runOn s = ran at ensured delivered
    obtain ⟨e | plan, t⟩ := ran
    · cases delivered
    · cases delivered
      exact ensured.2 plan rfl

end

theorem bounded_answer :
    Machine.Bounded (opens (σ := σ) registry) fun depth => answer (obtain registry depth) := by
  intro depth q s
  unfold opens
  cases depth with
  | zero =>
    simp only [answer, Runner.obtain, runOn_bind]
    rcases (planFor registry q.key q.point).runOn s with ⟨e | plan, t⟩ <;> rfl
  | succ depth =>
    simp only [answer, Runner.obtain, runOn_bind]
    rcases (planFor registry q.key q.point).runOn s with ⟨e | plan, t⟩
    · rfl
    · have same : evaluate (σ := σ) registry (obtain registry depth) plan q.point =
          (dialogue registry plan.body q.point).runOn (answer (obtain registry depth)) :=
        funext (performed_evaluate registry (obtain registry depth) plan q.point)
      simp only [same]
      rfl

theorem request_finishes (orderly : Orderly I) (key : Key) (point : Option Point) {s : State σ}
    (inv : I s.own.store) (idle : s.active = []) :
    Machine.Finishes (opens registry) (.lookup key point) s ((request registry key point).runOn s)
      (resolvable registry s.own) :=
  Machine.finishes (confined_opens orderly (class_mem_resolvable registry s.own)) bounded_answer
    (card_resolvable_le registry orderly inv) (.lookup key point) idle (within_resolvable orderly inv)

end Runner

/-- Whatever is asked for, whatever the classes, the table and the plans there are, an interpreter and a
runner come to an end without a bound on their nesting, as they do with the bound that they have. At every
moment different keys are being resolved, and no more than there are. -/
theorem requests_finish {σ : Type} [Store σ] {I : σ → Prop} (orderly : Store.Orderly I)
    (registry : Registry) (key : Key) (point : Option Point) (s : Interpreter.State)
    (t : Runner.State σ) (idle : s.active = []) (resting : t.active = []) (inv : I t.own.store) :
    Machine.Finishes (Interpreter.opens registry) (.lookup key point) s
      ((Interpreter.request registry key point).runOn s) (Interpreter.resolvable registry s.own) ∧
    Machine.Finishes (Runner.opens registry) (.lookup key point) t
      ((Runner.request registry key point).runOn t) (Runner.resolvable registry t.own) :=
  ⟨Interpreter.request_finishes key point idle, Runner.request_finishes orderly key point inv resting⟩

def askingItself : Class :=
  (Class.define "Echo" "Echo" fun _ => .ok []).provides fun _ _ _ =>
    .lookup (.plain "echo") none fun outcome => .finish (.ok (.existing (outcome.toOption.getD default)))

def echoRegistry : Registry := .ofClasses [askingItself]

def echoTable : Table :=
  .ofList [(.plain "echo", .provided ⟨askingItself.signature, .prototype⟩ .singleton none)]

/-- A store with the snapshot of that table and no plans. -/
def echoStore : MemoryStore .none := ⟨SortedMap.empty, some (Snapshot.ofTable default echoTable)⟩

theorem echo_finishes :
    (∃ ended, ended.1 = .ok default ∧ Machine.Finishes (Interpreter.opens echoRegistry)
      (.lookup (.plain "echo") none) (Runtime.start 0 echoTable) ended
      (Interpreter.resolvable echoRegistry echoTable)) ∧
    ∃ ended, ended.1 = .ok default ∧ Machine.Finishes (Runner.opens echoRegistry)
      (.lookup (.plain "echo") none) (Runner.start 0 echoStore) ended
      (Runner.resolvable echoRegistry ⟨echoStore, SortedMap.empty, none⟩) := by
  have interpreted : ((Interpreter.request echoRegistry (.plain "echo") none).runOn
    (Runtime.start 0 echoTable)).1 = .ok default := rfl
  have ran : ((Runner.request echoRegistry (.plain "echo") none).runOn
    (Runner.start 0 echoStore)).1 = .ok default := rfl
  have filed : MemoryStore.Filed echoStore := nofun
  have both := requests_finish MemoryStore.orderly_filed echoRegistry (.plain "echo") none
    (Runtime.start 0 echoTable) (Runner.start 0 echoStore) rfl rfl filed
  exact ⟨⟨_, interpreted, both.1⟩, ⟨_, ran, both.2⟩⟩

end Wiring
