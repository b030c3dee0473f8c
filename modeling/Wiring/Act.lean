import Wiring.Error

/-! # Actions

An action runs on a state and may fail. A failed action keeps the state changes made before it
failed, so a caller that goes on after a failure goes on from there.
-/
namespace Wiring

/-- An action on a state that may fail; a failure keeps the state. -/
abbrev Act (σ α : Type) := ExceptT Error (StateM σ) α

namespace Act
variable {σ τ α : Type}

def attempt (x : Act σ α) : Act σ (Except Error α) := fun s =>
  let (outcome, s) := x s
  (.ok outcome, s)

/-- The outcome of an action and the state after it. -/
def runOn (x : Act σ α) (s : σ) : Except Error α × σ := x s

def onPart (part : τ → σ) (put : σ → τ → τ) (x : Act σ α) : Act τ α := fun t =>
  let (outcome, s) := x (part t)
  (outcome, put s t)

end Act
end Wiring
