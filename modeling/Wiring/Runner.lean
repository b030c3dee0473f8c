import Wiring.Compile.Plan
import Wiring.Runtime
import Wiring.Store

/-! # The runner

The runner resolves a key by running its plan from a store. A key without a plan is compiled from
the snapshot in the store, or, if it is the plain key of a registered class, from that class; the
plan is written back and then run. Plans once loaded stay in memory.
-/
namespace Wiring.Runner

/-- The store a runner works on, the plans it has loaded, and the table of the snapshot once it has
been read. -/
structure Memory (σ : Type) where
  store : σ
  plans : SortedMap Key Plan
  table : Option Table

abbrev State (σ : Type) := Runtime (Memory σ)

abbrev Run (σ α : Type) := Act (State σ) α

def start {σ : Type} (born : Nat) (store : σ) : State σ :=
  Runtime.start born ⟨store, SortedMap.empty, none⟩

variable {σ : Type} [Store σ]

def onStore {α : Type} (x : Act σ α) : Run σ α :=
  x.onPart (fun s => s.own.store) fun store s => { s with own.store := store }

/-- A runner is a store too: the one it works on. -/
instance : Store (State σ) where
  hasPlan s := Store.hasPlan s.own.store
  writePlan plan := onStore (Store.writePlan plan)
  readPlan s := Store.readPlan s.own.store
  writeSnapshot snapshot := onStore (Store.writeSnapshot snapshot)
  readSnapshot s := Store.readSnapshot s.own.store
  tokens s := Store.tokens s.own.store
  capacity s := Store.capacity s.own.store

/-- Keeps a plan in memory; a plan already there for its key stays. -/
def remember (plan : Plan) : Run σ Plan := do
  modify fun s => { s with own.plans := s.own.plans.insertIfNew plan.key plan }
  return ((← get).own.plans.get? plan.key).getD plan

def checkVersion (plan : Plan) : Except Error Unit :=
  if plan.version = Plan.currentVersion then .ok ()
  else .error (.formatVersion "compiled unit" Plan.currentVersion plan.version)

/-- The plan of a key, from memory or the store. -/
def load (key : Key) : Run σ (Option Plan) := do
  match (← get).own.plans.get? key with
  | some plan => return some plan
  | none =>
    match ← Store.readPlan (← get).own.store key with
    | none => return none
    | some plan =>
      checkVersion plan
      return some (← remember plan)

/-- The scope of a key that has a plan; a plan that cannot be loaded counts as none. -/
def scopeOf (key : Key) : StateM (State σ) (Option Scope) := do
  match ← (load key).run with
  | .ok plan => return plan.map Plan.scope
  | .error _ => return none

def snapshotTable : Run σ Table := do
  match (← get).own.table with
  | some table => return table
  | none =>
    let table ← match ← Store.readSnapshot (← get).own.store with
      | none => pure SortedMap.empty
      | some snapshot => snapshot.toTable
    modify fun s => { s with own.table := some table }
    return table

variable (registry : Registry)

/-- A table with a plain key bound to the registered class it names, unless the table binds it. -/
def withClass (key : Key) (table : Table) : Table :=
  if key.isPlain then
    match registry.signature? key.interface with
    | none => table
    | some signature => table.insertIfNew key (.build ⟨signature, .prototype⟩)
  else table

def compile (key : Key) : Run σ (Option Plan) := do
  let table := withClass registry key (← snapshotTable)
  match table.get? key with
  | none => return none
  | some binding =>
    let plan ← Compile.plan (.compiling scopeOf) table key binding
    onStore (Store.writePlan plan)
    return some (← remember plan)

def planFor (key : Key) (point : Option Point) : Run σ Plan := do
  match ← load key with
  | some plan => return plan
  | none =>
    match ← compile registry key with
    | some plan => return plan
    | none => throw (.unbound key point)

abbrev Obtain (σ : Type) := Key → Option Scope → Option Point → Run σ Value

/-- The value of an operand. A plain reference tells the callee nothing about its call site. -/
def operand (obtain : Obtain σ) : Operand → Run σ Value
  | .reference scope key => obtain key (some scope) none
  | .deferred scope key point => obtain key (some scope) (some point)
  | .literal value => return .literal value

def step (call : Call) : Runtime.Step Operand := ⟨call.method, call.operands, false⟩

def construct (obtain : Obtain σ) (a : Assembly) : Run σ (Class × Object) :=
  Runtime.assemble registry (operand obtain) a.className a.operands (a.calls.map step) a.hook

def evaluate (obtain : Obtain σ) (plan : Plan) (point : Option Point) : Run σ Value := do
  match plan.body with
  | .construct assembly => return (← construct registry obtain assembly).2.value
  | .literal value => return .literal value
  | .provide assembly context =>
    let made ← construct registry obtain assembly
    Runtime.provide (fun key point => obtain key none point) made context point

def obtain : Nat → Obtain σ
  | 0, key, scope, point => do
    let plan ← planFor registry key point
    Runtime.deliver key (scope.getD plan.scope) Runtime.tooDeep
  | depth + 1, key, scope, point => do
    let plan ← planFor registry key point
    Runtime.deliver key (scope.getD plan.scope) (evaluate registry (obtain depth) plan point)

def tableSize (s : State σ) : Nat :=
  match s.own.table with
  | some table => table.size
  | none =>
    match Store.readSnapshot s.own.store with
    | .ok (some snapshot) => snapshot.entries.length
    | _ => 0

/-- No fewer than the keys that can ever have a plan, which bounds the nesting. -/
def runnable (s : State σ) : Nat :=
  Store.capacity s.own.store + s.own.plans.size + tableSize s + registry.size

def request (key : Key) (point : Option Point) : Run σ Value := do
  obtain registry (runnable registry (← get)) key none point

end Wiring.Runner
