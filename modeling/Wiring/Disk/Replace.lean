import Wiring.Act
import Wiring.Disk.Basic

/-! # Replacing a file in one move

A file is replaced under its lock: the new contents go to a temporary file beside it, which is then
renamed into its place. Each stage may fail, of itself or by interference from outside, and a failed
write has written part; after a failure the temporary file is removed. The progress keeps the disks
that were there on the way.
-/
namespace Wiring.Disk.Replace

/-- The stages of a replacement; a directory is made again once all above it are there. -/
inductive Stage where
  | directory (path : String) (again : Bool)
  | openLock
  | takeLock
  | create
  | write
  | sync
  | rename
  | remove
  deriving DecidableEq, Repr

/-- What fails from outside, with its cause, and how many bytes are written first. -/
structure Interference where
  fails : Stage → Option String
  written : Nat

def Interference.none : Interference := ⟨fun _ => .none, 0⟩

structure Progress where
  disk : Disk
  past : List Disk

inductive Trouble where
  | own (fault : Fault)
  | outside (cause : String)
  deriving DecidableEq, Repr

def Trouble.text : Trouble → String
  | .own fault => fault.text
  | .outside cause => cause

abbrev Work (α : Type) := ExceptT Trouble (StateM Progress) α

def operate (op : Op Unit) : Work Unit := fun p =>
  match op p.disk with
  | (.ok (), disk) => (.ok (), ⟨disk, p.disk :: p.past⟩)
  | (.error fault, disk) => (.error (.own fault), ⟨disk, p.disk :: p.past⟩)

variable (interference : Interference)

def stage (s : Stage) (op : Op Unit) : Work Unit := do
  match interference.fails s with
  | some cause => throw (.outside cause)
  | none => operate op

def makeDirectory (again : Bool) (path : String) : Work Unit :=
  ensured (·.disk.isDirectory path)
    (stage interference (.directory path again) (Disk.makeDirectory path))

def makeDirectories (path : String) : Work Unit :=
  makeAncestors (.own .notFound) (makeDirectory interference) (Path.ancestors path)

/-- Part of the contents is written first, and writing may stop there. -/
def writeStage (path : String) (contents : ByteArray) : Work Unit := do
  operate (Disk.write path (contents.extract 0 interference.written))
  stage interference .write (Disk.write path contents)

def lockPath (path : String) : String := path ++ ".lock"

def fill (temporary : String) (contents : ByteArray) : Work Unit := do
  stage interference .create (Disk.write temporary ByteArray.empty)
  writeStage interference temporary contents
  stage interference .sync (pure ())

def move (temporary path : String) (contents : ByteArray) : Work Unit := do
  fill interference temporary contents
  stage interference .rename (Disk.rename temporary path)

def cleaned (temporary : String) (x : Work Unit) : Work Unit := fun p =>
  match x p with
  | (.ok (), p) => (.ok (), p)
  | (.error trouble, p) =>
    (.error trouble, (stage interference .remove (Disk.removeFile temporary) p).2)

def within (context : String) (x : Work Unit) : Act Progress Unit := fun p =>
  match x p with
  | (.ok (), p) => (.ok (), p)
  | (.error trouble, p) => (.error (Error.within .storage context trouble.text), p)

def lock (path : String) : Act Progress Unit := do
  within ("Failed to open lock file " ++ lockPath path)
    (stage interference .openLock (Disk.touch (lockPath path)))
  within ("Failed to lock " ++ lockPath path) (stage interference .takeLock (pure ()))

/-- Replaces a file, with the name of the temporary file given. -/
def replace (path : String) (contents : ByteArray) (name : String) : Act Progress Unit := do
  match Path.parent? path with
  | none => throw (.storage (path ++ " has no parent directory") none)
  | some directory =>
    within ("Failed to create cache directory " ++ directory)
      (makeDirectories interference directory)
    lock interference path
    let temporary := Path.join directory name
    within ("Failed to write " ++ path)
      (cleaned interference temporary (move interference temporary path contents))

end Replace

/-- The n-th name for a temporary file. All have one length, as it counts against that of paths. -/
def temporaryName (n : Nat) : String :=
  let digits := toString n
  ".tmp-" ++ String.ofList (List.replicate (36 - digits.length) '0') ++ digits

/-- A name for a temporary file that no path of the disk ends with. -/
def freshName (disk : Disk) : String :=
  let taken (n : Nat) : Bool :=
    disk.nodes.keys.any fun path => path.getLast? = some (temporaryName n)
  temporaryName (((List.range (disk.nodes.size + 1)).find? fun n => !taken n).getD 0)

def alone {α : Type} (x : Act Replace.Progress α) : Act Disk α := fun disk =>
  let (outcome, p) := x ⟨disk, []⟩
  (outcome, p.disk)

/-- Replaces a file, or makes it, without ever showing part of the new contents. -/
def replaceFile (path : String) (contents : ByteArray) : Act Disk Unit := do
  let name := (← get).freshName
  alone (Replace.replace Replace.Interference.none path contents name)

def acquireLock (path : String) : Act Disk String := do
  alone (Replace.lock Replace.Interference.none path)
  return Replace.lockPath path

end Wiring.Disk
