import Wiring.Proofs.Compile.Writing
import Wiring.Proofs.Dialogue.Runner
import Wiring.Proofs.Finding

/-! # Runners write where nothing is

A runner writes the plan of a key only when it found none, and what it keeps in memory was read from the
store or written to it. In a store that is coherent, so that nothing is found just where there is no
plan, each plan in memory is then the one that the store has.
-/
namespace Wiring
open Act

variable {σ : Type} [Store σ]

namespace Store

/-- A store in which reading and looking for a plan do not contradict each other. A plan that is there
may still be unreadable. -/
structure Coherent (s : σ) : Prop where
  absent : ∀ {key}, readPlan s key = .ok none → hasPlan s key = false
  present : ∀ {key p}, readPlan s key = .ok (some p) → hasPlan s key = true
  named : ∀ {key p}, readPlan s key = .ok (some p) → p.key = key

/-- Slots of a later store are the old ones, or plans where there were none. -/
def Fills (s t : σ) : Prop :=
  ∀ key, slot t key = slot s key ∨ hasPlan s key = false ∧
    ∃ p : Plan, p.key = key ∧ slot t key = (true, .ok (some p))

instance : IsPreorder σ Fills where
  refl _ _ := .inl rfl
  trans a b c first later key := by
    rcases later key with same | ⟨absent, p, named, there⟩
    · rcases first key with same' | ⟨absent, p, named, there⟩
      · exact .inl (same.trans same')
      · exact .inr ⟨absent, p, named, same.trans there⟩
    · rcases first key with same' | ⟨-, _, -, there'⟩
      · exact .inr ⟨(hasPlan_of_slot same').symm.trans absent, p, named, there⟩
      · exact absurd ((congrArg Prod.fst there').symm.trans absent) nofun

variable {s t : σ}

theorem Fills.slot_eq (fills : Fills s t) {key : Key} (held : hasPlan s key = true) :
    slot t key = slot s key := by
  rcases fills key with same | ⟨absent, -⟩
  · exact same
  · rw [held] at absent
    cases absent

theorem Coherent.fills (coherent : Coherent s) (fills : Fills s t) : Coherent t := by
  have slots : ∀ key, (hasPlan t key = hasPlan s key ∧ readPlan t key = readPlan s key) ∨
      ∃ p : Plan, p.key = key ∧ hasPlan t key = true ∧ readPlan t key = .ok (some p) := by
    intro key
    rcases fills key with same | ⟨-, p, named, there⟩
    · exact .inl (Prod.mk.inj same)
    · exact .inr ⟨p, named, Prod.mk.inj there⟩
  refine ⟨fun {key} found => ?_, fun {key p} found => ?_, fun {key p} found => ?_⟩ <;>
    rcases slots key with ⟨has, read⟩ | ⟨q, named, has, read⟩
  · exact has.trans (coherent.absent (read.symm.trans found))
  · rw [found] at read
    cases read
  · exact has.trans (coherent.present (read.symm.trans found))
  · exact has
  · exact coherent.named (read.symm.trans found)
  · rw [found] at read
    cases read
    exact named

theorem fills_writePlan [LawfulStore σ] {plan : Plan} {r : Except Error Unit}
    (absent : hasPlan s plan.key = false) (wrote : (writePlan plan).runOn s = (r, t)) : Fills s t := by
  intro key
  cases r with
  | error e => exact .inl (LawfulStore.slot_of_refused wrote key)
  | ok _ =>
    have slots := LawfulStore.slot_writePlan wrote key
    by_cases same : key = plan.key
    · rw [if_pos same] at slots
      exact .inr ⟨same ▸ absent, plan, same.symm, slots⟩
    · rw [if_neg same] at slots
      exact .inl slots

theorem fills_of_writes {scopes : Key → Option Scope} {table : Table}
    (writes : Compile.Writes scopes table s t) : Fills s t := by
  intro key
  rcases writes key with same | ⟨absent, binding, p, -, compiled, there⟩
  · exact .inl same
  · exact .inr ⟨absent, p, Compile.planFor_key compiled, there⟩

end Store

namespace Runner
open Store Wiring.Runtime

/-- A memory that holds no plans but those in its store. -/
structure Faithful (m : Memory σ) : Prop where
  coherent : Coherent m.store
  held : ∀ {key p}, m.plans.get? key = some p → slot m.store key = (true, .ok (some p))

def Loads (m n : Memory σ) : Prop := n.store = m.store ∧ (Faithful m → Faithful n)

def Onward (m n : Memory σ) : Prop := Faithful m → Faithful n ∧ Fills m.store n.store

instance : IsPreorder (Memory σ) Loads where
  refl _ := ⟨rfl, id⟩
  trans _ _ _ first later := ⟨later.1.trans first.1, fun h => later.2 (first.2 h)⟩

instance : IsPreorder (Memory σ) Onward where
  refl m h := ⟨h, refl_of Fills m.store⟩
  trans _ _ _ first later h :=
    ⟨(later (first h).1).1, trans_of Fills (first h).2 (later (first h).1).2⟩

theorem Loads.onward {m n : Memory σ} (loads : Loads m n) : Onward m n :=
  fun faithful => ⟨loads.2 faithful, loads.1 ▸ refl_of Fills m.store⟩

variable {m : Memory σ} {key : Key} {p : Plan}

theorem Faithful.remember (faithful : Faithful m) (there : slot m.store p.key = (true, .ok (some p))) :
    Faithful { m with plans := m.plans.insertIfNew p.key p } where
  coherent := faithful.coherent
  held {q r} found := by
    rcases SortedMap.get?_of_insertIfNew found with old | ⟨rfl, rfl⟩
    · exact faithful.held old
    · exact there

theorem Faithful.fills (faithful : Faithful m) {store : σ} (fills : Fills m.store store) :
    Faithful { m with store := store } where
  coherent := faithful.coherent.fills fills
  held found := by
    have old := faithful.held found
    exact (fills.slot_eq (congrArg Prod.fst old)).trans old

theorem moves_load (key : Key) : (load (σ := σ) key).Moves (OnOwn Loads) := by
  intro s
  have loading := loading_load key s
  generalize (load key).runOn s = ran at loading
  cases loading with
  | known _ | unread _ _ | absent _ _ | outdated _ _ _ => exact refl_of Loads s.own
  | read _ found _ =>
    refine ⟨rfl, fun faithful => faithful.remember ?_⟩
    rw [faithful.coherent.named found]
    exact Prod.ext (faithful.coherent.present found) found

theorem hasPlan_of_load {s t : State σ} (coherent : Coherent s.own.store)
    (loaded : (load key).runOn s = (.ok none, t)) : t = s ∧ hasPlan s.own.store key = false := by
  have loading := loading_load key s
  rw [loaded] at loading
  cases loading with
  | absent _ found => exact ⟨rfl, coherent.absent found⟩

theorem moves_snapshotTable : (snapshotTable (σ := σ)).Moves (OnOwn Loads) := by
  intro s
  simp only [snapshotTable, runOn_bind, runOn_get]
  cases s.own.table with
  | some table => exact refl_of Loads s.own
  | none =>
    simp only [runOn_bind, runOn_get, runOn_liftExcept]
    cases readSnapshot s.own.store with
    | error e => exact refl_of Loads s.own
    | ok found =>
      cases found with
      | none => exact ⟨rfl, fun faithful => ⟨faithful.coherent, faithful.held⟩⟩
      | some snapshot =>
        simp only
        cases snapshot.toTable with
        | error e => exact refl_of Loads s.own
        | ok table => exact ⟨rfl, fun faithful => ⟨faithful.coherent, faithful.held⟩⟩

variable [LawfulStore σ] (registry : Registry)

theorem onward_compile {s : State σ} (absent : hasPlan s.own.store key = false) :
    Onward s.own ((compile registry key).runOn s).2.own := by
  have tables : ∀ {r t}, snapshotTable.runOn s = (r, t) → Loads s.own t.own :=
    moves_snapshotTable.of_eq
  have plans : ∀ {table binding r} {t u : State σ},
      (Compile.plan (.compiling scopeOf) table key binding).runOn t = (r, u) → Loads t.own u.own :=
    fun {table binding _ _ _} => (moves_compiling moves_load table key binding).of_eq
  have compiling := compiling_compile registry key s
  generalize (compile registry key).runOn s = ran at compiling
  cases compiling with
  | unread read | unbound read _ => exact (tables read).onward
  | refused read _ compiled => exact (trans_of Loads (tables read) (plans compiled)).onward
  | @unwritten table binding p e t u store read _ compiled wrote =>
    intro faithful
    have loads := trans_of Loads (tables read) (plans compiled)
    obtain rfl := Compile.plan_key compiled
    have fills : Fills u.own.store store := fills_writePlan (loads.1 ▸ absent) wrote
    exact ⟨(loads.2 faithful).fills fills, loads.1 ▸ fills⟩
  | @written table binding p t u store read _ compiled wrote =>
    intro faithful
    have loads := trans_of Loads (tables read) (plans compiled)
    obtain rfl := Compile.plan_key compiled
    have fills : Fills u.own.store store := fills_writePlan (loads.1 ▸ absent) wrote
    have there := LawfulStore.slot_writePlan wrote p.key
    rw [if_pos rfl] at there
    exact ⟨((loads.2 faithful).fills fills).remember there, loads.1 ▸ fills⟩

/-- Finding the plan of a key writes at most that plan, and only if there was none. -/
theorem moves_planFor (key : Key) (point : Option Point) :
    (planFor (σ := σ) registry key point).Moves (OnOwn Onward) := by
  intro s
  have loads : ∀ {r t}, (load key).runOn s = (r, t) → Loads s.own t.own := (moves_load key).of_eq
  have compiles : ∀ {t r u}, (load key).runOn s = (.ok none, t) →
      (compile registry key).runOn t = (r, u) → Onward s.own u.own := fun {t r u} ran ran' faithful => by
    obtain ⟨rfl, absent⟩ := hasPlan_of_load faithful.coherent ran
    have onward := onward_compile registry absent faithful
    rwa [ran'] at onward
  have finding := finding_planFor registry key point s
  generalize (planFor registry key point).runOn s = ran at finding
  cases finding with
  | unloaded ran | loaded ran => exact (loads ran).onward
  | failed ran ran' | unbound ran ran' | compiled ran ran' => exact compiles ran ran'

end Runner
end Wiring
