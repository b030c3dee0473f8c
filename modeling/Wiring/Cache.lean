import Wiring.Disk.Replace
import Wiring.Format.Plan
import Wiring.Store

/-! # Caches

A cache is a store in one directory of a disk: a file for each plan, named by the token of its key,
and one file for the snapshot. Files are the indented or the compact form of the data format.
-/
namespace Wiring

/-- The disk a cache is on, its directory, and whether it writes the indented form. -/
structure Cache where
  disk : Disk
  root : String
  pretty : Bool

namespace Cache

def planExtension : String := "json"
def snapshotName : String := "_module.json"

def planName (key : Key) : String := key.token ++ "." ++ planExtension

def planPath (c : Cache) (key : Key) : String := Path.join c.root (planName key)

def snapshotPath (c : Cache) : String := Path.join c.root snapshotName

def encode (c : Cache) (j : Json) : ByteArray :=
  (if c.pretty then j.indented else j.compact).toUTF8

def readFile {α : Type} (c : Cache) (path : String) (decode : ByteArray → Option α) :
    Except Error (Option α) :=
  match c.disk.read path with
  | .error .notFound => .ok none
  | .error fault => .error (.within .storage ("Failed to read " ++ path) fault.text)
  | .ok contents =>
    match decode contents with
    | some found => .ok (some found)
    | none => .error (.within .storage ("Corrupt artifact " ++ path) "not the text of an artifact")

/-- A plan must be that of the key its file is named for. -/
def readPlan (c : Cache) (key : Key) : Except Error (Option Plan) := do
  match ← c.readFile (c.planPath key) Plan.ofBytes? with
  | none => .ok none
  | some plan =>
    if plan.key = key then .ok (some plan)
    else .error (.storage
      (c.planPath key ++ " holds the unit of " ++ plan.key.display ++ ", not " ++ key.display) none)

def onDisk {α : Type} (x : Act Disk α) : Act Cache α :=
  x.onPart Cache.disk fun disk c => { c with disk := disk }

def write (path : String) (j : Json) : Act Cache Unit := do
  onDisk (Disk.replaceFile path ((← get).encode j))

def isPlanName (name : String) : Bool :=
  Path.extension? name = some planExtension && name ≠ snapshotName

/-- The tokens of the plans in the directory, sorted. -/
def tokens (c : Cache) : List String :=
  if c.disk.isDirectory c.root then
    let stems := ((c.disk.fileNames c.root).filter isPlanName).map Path.stem
    (SortedMap.ofList (stems.map fun stem => (stem, ()))).keys
  else []

instance : Store Cache where
  hasPlan c key := c.disk.isFile (c.planPath key)
  writePlan plan := do write ((← get).planPath plan.key) plan.toJson
  readPlan := readPlan
  writeSnapshot snapshot := do write (← get).snapshotPath snapshot.toJson
  readSnapshot c := c.readFile c.snapshotPath Snapshot.ofBytes?
  tokens c := .ok c.tokens
  capacity c := c.disk.nodes.size

end Cache
end Wiring
