import Wiring.Compile.Plan
import Wiring.Introspector
import Wiring.Store

/-! # Compilation passes

A pass compiles every binding of a table that has no plan in the store yet, in key order, and then
writes the table as a snapshot. A binding that fails leaves no plan and does not stop the pass; the
failures are reported together at the end.
-/
namespace Wiring.Compile

/-- The keys whose plans a pass wrote, and the keys that had one. -/
structure Report where
  compiled : List Key
  skipped : List Key
  deriving DecidableEq, Inhabited

def Report.isIdle (r : Report) : Bool := r.compiled.isEmpty

/-- What became of one binding in a pass. -/
inductive Fate where
  | skipped
  | compiled
  | failed (error : Error)

variable {σ : Type} [Store σ] (capability : Capability σ) (table : Table)

/-- Compiles one binding unless it has a plan. -/
def entry (key : Key) (binding : Binding) : Act σ Fate := do
  if Store.hasPlan (← get) key then return .skipped
  let written ← Act.attempt do
    let plan ← plan capability table key binding
    Store.writePlan plan
  match written with
  | .ok () => return .compiled
  | .error e => return .failed e

def entries : List (Key × Binding) → Act σ (List (Key × Fate))
  | [] => return []
  | (key, binding) :: rest => do
    let fate ← entry capability table key binding
    return (key, fate) :: (← entries rest)

def keysWith (p : Fate → Bool) (fates : List (Key × Fate)) : List Key :=
  (fates.filter fun f => p f.2).map Prod.fst

def Fate.isCompiled : Fate → Bool
  | .compiled => true
  | _ => false

def Fate.isSkipped : Fate → Bool
  | .skipped => true
  | _ => false

def Fate.error? : Fate → Option Error
  | .failed e => some e
  | _ => none

def failures (fates : List (Key × Fate)) : List (Key × Error) :=
  fates.filterMap fun f => f.2.error?.map fun e => (f.1, e)

def report (fates : List (Key × Fate)) : Report :=
  ⟨keysWith Fate.isCompiled fates, keysWith Fate.isSkipped fates⟩

def passOver (bindings : List (Key × Binding)) (time : Instant) : Act σ Report := do
  let fates ← entries capability table bindings
  Store.writeSnapshot (Snapshot.ofTable time table)
  match failures fates with
  | [] => return report fates
  | failed => throw (.compilation failed)

/-- Compiles a table into the store and writes its snapshot. -/
def pass (time : Instant) : Act σ Report := passOver capability table table.entries time

/-- Compiles a table as an introspector reads it. -/
def passThrough (introspector : Introspector) (time : Instant) : Act σ Report :=
  passOver capability table (introspector.entries table) time

def onSnapshot {α : Type} (x : Table → Act σ α) : Act σ α := do
  match ← Store.readSnapshot (← get) with
  | none => throw (.storage "no module snapshot in the artifact store" none)
  | some snapshot =>
    let table ← snapshot.toTable
    x table

def passOfSnapshot (time : Instant) : Act σ Report := onSnapshot fun table => pass capability table time

def passOfSnapshotThrough (introspector : Introspector) (time : Instant) : Act σ Report :=
  onSnapshot fun table => passThrough capability table introspector time

end Wiring.Compile
