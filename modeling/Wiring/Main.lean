import Std.Time.DateTime.Timestamp
import Wiring.CommandLine.Reader
import Wiring.CommandLine.Run
import Wiring.Log

/-! # The program

The files a command may need are read into a disk, the command runs on that disk, and the files that
it changed are written back, each in one move and under its lock. The system's directories are not
listed: plans are looked for under the key that the command names, under the keys of the snapshot,
and under the keys that plans ask for.
-/
namespace Wiring.Program

def variableNames : List String :=
  Settings.default.members.flatMap fun (table, members) =>
    match members with
    | .table members => members.map fun m => table ++ "__" ++ m.1
    | _ => []

def readVariables (family : String) : IO Environment.Variables := do
  let found ← variableNames.filterMapM fun name => do
    let name := (family ++ "_" ++ name).toUpper
    return (← IO.getEnv name).map fun value => (name, value)
  return Environment.ofList found

def settingsHome : IO (Option String) := do
  let home := (← IO.getEnv "HOME").map fun home => Path.join home ".config"
  match ← IO.getEnv "XDG_CONFIG_HOME" with
  | some path => return if Path.isAbsolute path then some path else home
  | none => return home

def now : IO Instant := do
  let time := (← Std.Time.Timestamp.now).val
  let second := time.second.val
  return ⟨second.fdiv 86400, (second.fmod 86400).toNat, time.nano.val.toNat⟩

def changed (op : Disk.Op Unit) (disk : Disk) : Disk := (op.run disk).2

/-- Reads a file into a disk; what cannot be read is a directory there. -/
def readFile (disk : Disk) (path : String) : IO Disk := do
  try
    let contents ← IO.FS.readBinFile path
    let directory := (Path.parent? path).getD ""
    return changed (do Disk.makeDirectories directory; Disk.write path contents) disk
  catch
    | .noFileOrDirectory _ _ _ => return disk
    | _ => return changed (Disk.makeDirectories path) disk

def writeBack (before after : Disk) (path : String) : IO Unit := do
  match before.read path, after.read path with
  | .ok old, .ok new => if old != new then write new
  | .error _, .ok new => write new
  | _, .error _ => pure ()
where
  write (contents : ByteArray) : IO Unit := do
    IO.FS.createDirAll ((Path.parent? path).getD "")
    let guard ← IO.FS.Handle.mk (Disk.Replace.lockPath path) .append
    guard.lock
    let temporary := path ++ ".tmp"
    IO.FS.writeBinFile temporary contents
    IO.FS.rename temporary path
    guard.unlock

/-- The keys to look for in a cache: those of the snapshot, if it can be read. -/
def snapshotKeys (c : Cache) : List Key :=
  match Store.readSnapshot c with
  | .ok (some snapshot) => snapshot.entries.map Prod.fst
  | _ => []

def askedBy (c : Cache) (key : Key) : List Key :=
  match Store.readPlan c key with
  | .ok (some plan) => plan.operands.filterMap Operand.key?
  | _ => []

/-- Reads the plans of keys, and of the keys that these plans ask for, and so on. -/
def readPlans (start : Cache) (keys : List Key) : IO (Cache × List Key) := do
  let mut c := start
  let mut seen : List Key := []
  let mut pending := keys
  while !pending.isEmpty do
    let now := pending.filter fun key => !seen.contains key
    let disk ← (now.map c.planPath).foldlM readFile c.disk
    c := { c with disk := disk }
    seen := now ++ seen
    pending := (now.flatMap (askedBy c)).filter fun key => !seen.contains key
  return (c, seen)

def stopText : CommandLine.Stop → String
  | .nothing => "no command"
  | .missingCommand => "a command is missing"
  | .unknownCommand => "there is no such command"
  | .missingArgument => "an argument is missing"
  | .unknownArgument => "unexpected argument"
  | .invalidValue => "an option has no value that it could have"
  | .unwantedValue => "an option takes no value"
  | .repeatedOption => "an option is given twice"
  | .help => "commands: compile, list, show <interface> [--name <name>], snapshot\n" ++
      "options: --config <file>, --cache-dir <directory>"
  | .version => "0.1.0"

def stopped (stop : CommandLine.Stop) : IO UInt32 := do
  if stop = .help ∨ stop = .version then
    IO.println (stopText stop)
    return 0
  IO.eprintln (stopText stop)
  return 2

def failed (e : CommandLine.Failure) : IO UInt32 := do
  let words := e.context.toList ++ (e.cause.map Error.message).toList
  IO.eprintln ("Error: " ++ ": ".intercalate words)
  return 1

def run (line : CommandLine) : IO UInt32 := do
  let loader : Settings.Loader := { file := line.settingsFile }
  let home ← settingsHome
  let assigned ← readVariables loader.family
  let time ← now
  let places := match loader.file with
    | some path => [path]
    | none => Settings.usualPlaces home
  let disk ← places.foldlM readFile Disk.empty
  match line.settings home assigned disk with
  | .error e => failed e
  | .ok settings =>
    let logPaths := (settings.logging.file.map fun path => Log.dayFile path time).toList
    let snapshotPath := (CommandLine.cacheOf settings.compiler disk).snapshotPath
    let disk ← (logPaths ++ [snapshotPath]).foldlM readFile disk
    let cache := CommandLine.cacheOf settings.compiler disk
    let named := match line.command with
      | .show interface name => [⟨interface, name.getD ""⟩]
      | _ => []
    let (cache, keys) ← readPlans cache (named ++ snapshotKeys cache)
    let disk := cache.disk
    match (Log.start false settings.logging time).runOn disk with
    | (.error e, _) => failed ⟨none, some e⟩
    | (.ok (), logged) =>
      let (answer, after) := line.run home assigned time logged
      (logPaths ++ keys.map cache.planPath ++ [snapshotPath]).forM (writeBack disk after)
      match answer with
      | .error e => failed e
      | .ok text =>
        IO.print text
        return 0

end Wiring.Program

def main (words : List String) : IO UInt32 :=
  match Wiring.CommandLine.read words with
  | .error stop => Wiring.Program.stopped stop
  | .ok line => Wiring.Program.run line
