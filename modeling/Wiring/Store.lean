import Wiring.Act
import Wiring.Plan
import Wiring.Snapshot

/-! # Stores

A store keeps one plan per key and one snapshot. The laws a store obeys are not part of the class:
writes may fail, and what is found may have been put there by others.
-/
namespace Wiring

class Store (σ : Type) where
  hasPlan : σ → Key → Bool
  writePlan : Plan → Act σ Unit
  readPlan : σ → Key → Except Error (Option Plan)
  writeSnapshot : Snapshot → Act σ Unit
  readSnapshot : σ → Except Error (Option Snapshot)
  /-- The tokens of the plans there are, sorted. -/
  tokens : σ → Except Error (List String)
  /-- No fewer than the plans there are to read. -/
  capacity : σ → Nat

end Wiring
