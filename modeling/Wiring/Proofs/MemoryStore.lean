import Wiring.Proofs.SortedMap
import Wiring.Proofs.Store

/-! # Stores in memory

The least store there is: a map of plans and a snapshot, with writes that fail as they are told to.
It is lawful, so what holds of all lawful stores holds of something.
-/
namespace Wiring
open Store

structure MemoryStore (refusals : Refusals) where
  plans : SortedMap Key Plan
  snapshot : Option Snapshot

namespace MemoryStore
variable {refusals : Refusals}

def start (refusals : Refusals) : MemoryStore refusals := ⟨SortedMap.empty, none⟩

def put (plan : Plan) : Act (MemoryStore refusals) Unit :=
  match refusals.plan plan.key with
  | some e => throw e
  | none => modify fun s => { s with plans := s.plans.insert plan.key plan }

def putSnapshot (snapshot : Snapshot) : Act (MemoryStore refusals) Unit :=
  match refusals.snapshot with
  | some e => throw e
  | none => modify fun s => { s with snapshot := some snapshot }

instance : Store (MemoryStore refusals) where
  hasPlan s key := s.plans.contains key
  writePlan := put
  readPlan s key := .ok (s.plans.get? key)
  writeSnapshot := putSnapshot
  readSnapshot s := .ok s.snapshot
  tokens s := .ok (SortedMap.ofList (s.plans.keys.map fun key => (key.token, ()))).keys
  capacity s := s.plans.size

theorem runOn_put (plan : Plan) (s : MemoryStore refusals) : (put plan).runOn s =
    (outcome (refusals.plan plan.key), match refusals.plan plan.key with
      | some _ => s
      | none => { s with plans := s.plans.insert plan.key plan }) := by
  unfold put
  cases refusals.plan plan.key <;> rfl

theorem runOn_putSnapshot (snapshot : Snapshot) (s : MemoryStore refusals) :
    (putSnapshot snapshot).runOn s = (outcome refusals.snapshot, match refusals.snapshot with
      | some _ => s
      | none => { s with snapshot := some snapshot }) := by
  unfold putSnapshot
  cases refusals.snapshot <;> rfl

theorem refuses : Refuses (MemoryStore refusals) refusals :=
  ⟨fun plan s => congrArg Prod.fst (runOn_put plan s),
    fun snapshot s => congrArg Prod.fst (runOn_putSnapshot snapshot s)⟩

theorem empty_start : Empty (start refusals) := fun _ => rfl

theorem put_cases {plan : Plan} {r : Except Error Unit} {s t : MemoryStore refusals}
    (h : (writePlan plan).runOn s = (r, t)) :
    (r = .ok () ∧ t = { s with plans := s.plans.insert plan.key plan }) ∨
      (∃ e, r = .error e) ∧ t = s := by
  change (put plan).runOn s = _ at h
  rw [runOn_put] at h
  cases hr : refusals.plan plan.key with
  | some e =>
    simp only [hr, outcome, Prod.mk.injEq] at h
    exact .inr ⟨⟨e, h.1.symm⟩, h.2.symm⟩
  | none =>
    simp only [hr, outcome, Prod.mk.injEq] at h
    exact .inl ⟨h.1.symm, h.2.symm⟩

theorem putSnapshot_cases {snapshot : Snapshot} {r : Except Error Unit} {s t : MemoryStore refusals}
    (h : (writeSnapshot snapshot).runOn s = (r, t)) :
    (r = .ok () ∧ t = { s with snapshot := some snapshot }) ∨ (∃ e, r = .error e) ∧ t = s := by
  change (putSnapshot snapshot).runOn s = _ at h
  rw [runOn_putSnapshot] at h
  cases hr : refusals.snapshot with
  | some e =>
    simp only [hr, outcome, Prod.mk.injEq] at h
    exact .inr ⟨⟨e, h.1.symm⟩, h.2.symm⟩
  | none =>
    simp only [hr, outcome, Prod.mk.injEq] at h
    exact .inl ⟨h.1.symm, h.2.symm⟩

instance : LawfulStore (MemoryStore refusals) where
  slot_writePlan := by
    intro plan s t h key
    rcases put_cases h with ⟨-, rfl⟩ | ⟨⟨e, he⟩, -⟩
    · by_cases hk : key = plan.key <;>
        simp [slot, hasPlan, readPlan, SortedMap.contains, SortedMap.get?_insert, hk]
    · cases he
  slot_of_refused := by
    intro plan e s t h key
    rcases put_cases h with ⟨he, -⟩ | ⟨-, rfl⟩
    · cases he
    · rfl
  snapshot_writePlan := by
    intro plan r s t h
    rcases put_cases h with ⟨-, rfl⟩ | ⟨-, rfl⟩ <;> rfl
  slot_writeSnapshot := by
    intro snapshot r s t h key
    rcases putSnapshot_cases h with ⟨-, rfl⟩ | ⟨-, rfl⟩ <;> rfl
  snapshot_writeSnapshot := by
    intro snapshot s t h
    rcases putSnapshot_cases h with ⟨-, rfl⟩ | ⟨⟨e, he⟩, -⟩
    · rfl
    · cases he
  snapshot_of_refused := by
    intro snapshot e s t h
    rcases putSnapshot_cases h with ⟨he, -⟩ | ⟨-, rfl⟩
    · cases he
    · rfl

def erase (s : MemoryStore refusals) (key : Key) : MemoryStore refusals :=
  { s with plans := s.plans.erase key }

theorem slot_erase (s : MemoryStore refusals) (key q : Key) :
    slot (s.erase key) q = if q = key then (false, .ok none) else slot s q := by
  by_cases same : q = key <;>
    simp [slot, hasPlan, readPlan, erase, SortedMap.contains, SortedMap.get?_erase, same]

/-- A store whose plans are filed under their keys. -/
def Filed (s : MemoryStore refusals) : Prop := ∀ key p, s.plans.get? key = some p → p.key = key

theorem filed_of_entries {s : MemoryStore refusals} (filed : ∀ e ∈ s.plans.entries, e.2.key = e.1) :
    Filed s :=
  fun _ _ found => filed _ (SortedMap.mem_entries_iff.mpr found)

theorem orderly_filed : Orderly (Filed : MemoryStore refusals → Prop) where
  few {s} _ := by
    refine s.plans.encard_le_size id Function.injective_id.injOn fun key there => ?_
    obtain ⟨p, found⟩ := there
    exact SortedMap.mem_keys_iff.mpr ⟨p, Except.ok.inj found⟩
  named filed found := filed _ _ (Except.ok.inj found)
  keeps {s t plan r} filed wrote := by
    rcases put_cases wrote with ⟨-, rfl⟩ | ⟨-, rfl⟩
    · intro key p found
      rw [SortedMap.get?_insert] at found
      split at found
      · rename_i same
        cases found
        exact same.symm
      · exact filed key p found
    · exact filed
  adds {s t plan r key p} _ wrote found := by
    rcases put_cases wrote with ⟨-, rfl⟩ | ⟨-, rfl⟩
    · have held : (s.plans.insert plan.key plan).get? key = some p := Except.ok.inj found
      rw [SortedMap.get?_insert] at held
      split at held
      · rename_i same
        exact .inl same
      · exact .inr ⟨p, congrArg Except.ok held⟩
    · exact .inr ⟨p, found⟩
  snapshot _ wrote found := (LawfulStore.snapshot_writePlan wrote).symm.trans found

end MemoryStore
end Wiring
