import Wiring.Cache
import Wiring.Module
import Wiring.Runner
import Wiring.TwoPhase

/-! # Sessions

A session is one program at work on one cache. It holds a registry, an interpreter that compiles as
it goes, and a runner; the two share the cache and the supply of object identities.
-/
namespace Wiring

structure Session where
  registry : Registry
  cache : Cache
  born : Nat
  interpreter : Interpreter.State
  runner : Runner.State Cache

namespace Session

/-- Which injector answers a request. -/
inductive Via where
  | interpreter
  /-- The interpreter, with a compilation pass after each answer. -/
  | compiler
  | runner
  deriving DecidableEq, Repr

/-- What a compilation pass may ask for the scope of a key that its table does not bind. -/
inductive Reach where
  | nothing
  | fixed (scopes : SortedMap Key Scope)
  | runner

variable {α : Type}

def onCache (x : Act Cache α) : Act Session α :=
  x.onPart Session.cache fun cache s => { s with cache := cache }

def interpreterPart (s : Session) : Interpreter.State := { s.interpreter with born := s.born }

def onInterpreter (x : Interpreter.Run α) : Act Session α :=
  x.onPart interpreterPart fun interpreter s =>
    { s with interpreter := interpreter, born := interpreter.born }

def compilerPart (s : Session) : TwoPhase.State Cache := ⟨s.interpreterPart, s.cache⟩

def onCompiler (x : TwoPhase.Run Cache α) : Act Session α :=
  x.onPart compilerPart fun both s =>
    { s with interpreter := both.interpreter, born := both.interpreter.born, cache := both.store }

def runnerPart (s : Session) : Runner.State Cache :=
  { s.runner with born := s.born, own.store := s.cache }

def onRunner (x : Runner.Run Cache α) : Act Session α :=
  x.onPart runnerPart fun runner s =>
    { s with runner := runner, born := runner.born, cache := runner.own.store }

def moduleTable (registry : Registry) (clauses : List Clause) : Except Error Table :=
  Module.table registry.signature? clauses

def start (registry : Registry) (cache : Cache) (clauses : List Clause) : Except Error Session := do
  let table ← moduleTable registry clauses
  return ⟨registry, cache, 0, Runtime.start 0 table, Runner.start 0 cache⟩

def table (s : Session) : Table := s.interpreter.own

def renewRunner (s : Session) : Session := { s with runner := Runner.start s.born s.cache }

def renewInterpreter (clauses : List Clause) (s : Session) : Except Error Session := do
  let table ← moduleTable s.registry clauses
  return { s with interpreter := Runtime.start s.born table }

/-- Requests through the compiler come from nowhere in particular. -/
def request (via : Via) (time : Instant) (key : Key) (point : Option Point) : Act Session Value := do
  let registry := (← get).registry
  match via with
  | .interpreter => onInterpreter (Interpreter.request registry key point)
  | .compiler => onCompiler (TwoPhase.request registry time key)
  | .runner => onRunner (Runner.request registry key point)

def compile (time : Instant) : Act Session Compile.Report := onCompiler (TwoPhase.compile time)

/-- A compilation pass on the cache with a reach. -/
def reaching (reach : Reach)
    (x : {σ : Type} → [Store σ] → Compile.Capability σ → Act σ Compile.Report) :
    Act Session Compile.Report :=
  match reach with
  | .nothing => onCache (x .interpreted)
  | .fixed scopes => onCache (x (.compiling fun key => return scopes.get? key))
  | .runner => onRunner (x (.compiling Runner.scopeOf))

def compileModule (reach : Reach) (time : Instant) (clauses : List Clause) :
    Act Session Compile.Report := do
  let registry := (← get).registry
  match moduleTable registry clauses with
  | .error e => throw e
  | .ok table =>
    reaching reach fun capability => Compile.passThrough capability table registry.introspector time

def recompile (reach : Reach) (time : Instant) : Act Session Compile.Report :=
  reaching reach fun capability => Compile.passOfSnapshotThrough capability .descriptors time

def scopeOf (key : Key) : Act Session (Option Scope) :=
  onRunner (liftM (Runner.scopeOf key : StateM (Runner.State Cache) (Option Scope)))

end Session
end Wiring
