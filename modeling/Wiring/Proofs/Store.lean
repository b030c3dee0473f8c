import Wiring.Store
import Wiring.Proofs.Act
import Wiring.Proofs.SortedMap

/-! # The laws of stores

A lawful store gives back what it was given. Its writes may fail, and a failed write changes
nothing that can be read. What a store says of a key is its slot: whether there is a plan, and what
reading it gives, which may be an error when others have written the store.
-/
namespace Wiring

variable {σ τ : Type} [Store σ] [Store τ]

namespace Store

/-- What a store says of a key. -/
def slot (s : σ) (key : Key) : Bool × Except Error (Option Plan) := (hasPlan s key, readPlan s key)

def Empty (s : σ) : Prop := ∀ key, slot s key = (false, .ok none)

/-- Stores that read the same. -/
structure Same (s : σ) (t : τ) : Prop where
  slot : ∀ key, slot t key = slot s key
  snapshot : readSnapshot t = readSnapshot s

omit [Store τ] in
theorem Same.refl (s : σ) : Same s s := ⟨fun _ => rfl, rfl⟩

theorem Same.trans {υ : Type} [Store υ] {s : σ} {t : τ} {u : υ} (first : Same s t) (later : Same t u) :
    Same s u :=
  ⟨fun key => (later.slot key).trans (first.slot key), later.snapshot.trans first.snapshot⟩

/-- Which writes fail, and how. -/
structure Refusals where
  plan : Key → Option Error
  snapshot : Option Error

def Refusals.none : Refusals := ⟨fun _ => .none, .none⟩

def outcome : Option Error → Except Error Unit
  | some e => .error e
  | .none => .ok ()

/-- A store whose writes fail as told, whatever its state. -/
structure Refuses (σ : Type) [Store σ] (refusals : Refusals) : Prop where
  plan : ∀ (plan : Plan) (s : σ), ((writePlan plan).runOn s).1 = outcome (refusals.plan plan.key)
  snapshot : ∀ (snapshot : Snapshot) (s : σ),
    ((writeSnapshot snapshot).runOn s).1 = outcome refusals.snapshot

def planned (s : σ) : Set Key := {key | ∃ p, readPlan s key = .ok (some p)}

/-- Stores that have no more plans than they can hold and for each key a plan of its own, and in which writing
a plan puts no other one and no snapshot. -/
structure Orderly (I : σ → Prop) : Prop where
  few : ∀ {s}, I s → (planned s).encard ≤ capacity s
  named : ∀ {s key p}, I s → readPlan s key = .ok (some p) → p.key = key
  keeps : ∀ {s t plan r}, I s → (writePlan plan).runOn s = (r, t) → I t
  adds : ∀ {s t plan r key p}, I s → (writePlan plan).runOn s = (r, t) →
    readPlan t key = .ok (some p) → key = plan.key ∨ ∃ p', readPlan s key = .ok (some p')
  snapshot : ∀ {s t plan r snapshot}, I s → (writePlan plan).runOn s = (r, t) →
    readSnapshot t = .ok (some snapshot) → readSnapshot s = .ok (some snapshot)

end Store

open Store

/-- A store that gives back what it was given. -/
class LawfulStore (σ : Type) [Store σ] : Prop where
  slot_writePlan : ∀ {plan : Plan} {s t : σ}, (writePlan plan).runOn s = (.ok (), t) →
    ∀ key, slot t key = if key = plan.key then (true, .ok (some plan)) else slot s key
  slot_of_refused : ∀ {plan : Plan} {e : Error} {s t : σ},
    (writePlan plan).runOn s = (.error e, t) → ∀ key, slot t key = slot s key
  snapshot_writePlan : ∀ {plan : Plan} {r : Except Error Unit} {s t : σ},
    (writePlan plan).runOn s = (r, t) → readSnapshot t = readSnapshot s
  slot_writeSnapshot : ∀ {snapshot : Snapshot} {r : Except Error Unit} {s t : σ},
    (writeSnapshot snapshot).runOn s = (r, t) → ∀ key, slot t key = slot s key
  snapshot_writeSnapshot : ∀ {snapshot : Snapshot} {s t : σ},
    (writeSnapshot snapshot).runOn s = (.ok (), t) → readSnapshot t = .ok (some snapshot)
  snapshot_of_refused : ∀ {snapshot : Snapshot} {e : Error} {s t : σ},
    (writeSnapshot snapshot).runOn s = (.error e, t) → readSnapshot t = readSnapshot s

namespace Store

theorem hasPlan_of_slot {s : σ} {t : τ} {key : Key} (h : slot s key = slot t key) :
    hasPlan s key = hasPlan t key := congrArg Prod.fst h

end Store
end Wiring
