import Wiring.Compile.Pass
import Wiring.Interpreter

/-! # Resolve, then compile

The first answer for a key comes from the interpreter. What it discovers on the way belongs to the
table, so the compilation pass comes after it and covers everything known by then.
-/
namespace Wiring.TwoPhase

structure State (σ : Type) where
  interpreter : Interpreter.State
  store : σ

abbrev Run (σ α : Type) := Act (State σ) α

variable {σ : Type} [Store σ]

def onInterpreter {α : Type} (x : Interpreter.Run α) : Run σ α :=
  x.onPart State.interpreter fun interpreter s => { s with interpreter := interpreter }

def onStore {α : Type} (x : Act σ α) : Run σ α :=
  x.onPart State.store fun store s => { s with store := store }

def compile (time : Instant) : Run σ Compile.Report := do
  let table := (← get).interpreter.own
  onStore (Compile.pass .interpreted table time)

/-- Resolves a key and then compiles every binding known afterwards. -/
def request (registry : Registry) (time : Instant) (key : Key) : Run σ Value := do
  let value ← onInterpreter (Interpreter.request registry key none)
  let _ ← compile time
  return value

end Wiring.TwoPhase
