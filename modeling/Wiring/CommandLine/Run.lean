import Wiring.Cache
import Wiring.CommandLine.Basic
import Wiring.Compile.Pass
import Wiring.Settings.Loader

/-! # Carrying out command lines

Each command works on the cache directory that the command line or else the settings name, and
answers with a text. Only `compile` changes anything.
-/
namespace Wiring.CommandLine

/-- A failed command: what was being done, if that is worth saying, and the error beneath, if any. -/
structure Failure where
  context : Option String
  cause : Option Error
  deriving Inhabited

abbrev Answer := Except Failure String

def plainly {α : Type} : Except Error α → Except Failure α
  | .ok x => .ok x
  | .error e => .error ⟨none, some e⟩

def within {α : Type} (context : String) : Except Error α → Except Failure α
  | .ok x => .ok x
  | .error e => .error ⟨some context, some e⟩

def unlines (lines : List String) : String := String.join (lines.map (· ++ "\n"))

def reportText (r : Compile.Report) : String :=
  unlines (r.compiled.map fun key => "compiled " ++ key.display) ++
    toString r.compiled.length ++ " compiled, " ++ toString r.skipped.length ++ " already present\n"

def compile (time : Instant) (c : Cache) : Answer × Cache :=
  let (outcome, after) := (Compile.passOfSnapshotThrough .interpreted .descriptors time).runOn c
  ((within ("Compilation into " ++ c.root ++ " failed") outcome).map reportText, after)

def list (c : Cache) : Answer := plainly ((Store.tokens c).map unlines)

def showPlan (key : Key) (c : Cache) : Answer := do
  match ← plainly (Store.readPlan c key) with
  | some plan => .ok plan.listing
  | none => .error ⟨some ("no unit for " ++ key.display ++ " in " ++ c.root), none⟩

def snapshotText (s : Snapshot) : String :=
  "format " ++ toString s.version.toNat ++ " generated " ++ s.time.offsetText ++ " (" ++
    toString s.entries.length ++ " bindings)\n" ++
    unlines (s.entries.map fun e => e.1.display ++ " -> " ++ e.2.describe)

def snapshot (c : Cache) : Answer := do
  match ← plainly (Store.readSnapshot c) with
  | some s => .ok (snapshotText s)
  | none => .error ⟨some ("no module snapshot in " ++ c.root), none⟩

/-- Carries out a command on a cache. -/
def perform (time : Instant) (command : Command) (c : Cache) : Answer × Cache :=
  match command with
  | .compile => compile time c
  | .list => (list c, c)
  | .show interface name => (showPlan ⟨interface, name.getD ""⟩ c, c)
  | .snapshot => (snapshot c, c)

def settings (line : CommandLine) (home : Option String) (assigned : Environment.Variables)
    (disk : Disk) : Except Failure Settings := do
  let loader : Settings.Loader := { file := line.settingsFile }
  let loaded ← within "Failed to load configuration" (loader.load home assigned disk)
  match line.cacheDirectory with
  | none => .ok loaded
  | some path => .ok { loaded with compiler.cacheDirectory := path }

def cacheOf (s : Settings.Compiler) (disk : Disk) : Cache := ⟨disk, s.cacheDirectory, s.pretty⟩

def run (line : CommandLine) (home : Option String) (assigned : Environment.Variables)
    (time : Instant) (disk : Disk) : Answer × Disk :=
  match line.settings home assigned disk with
  | .error e => (.error e, disk)
  | .ok settings =>
    let (answer, c) := perform time line.command (cacheOf settings.compiler disk)
    (answer, c.disk)

end Wiring.CommandLine
