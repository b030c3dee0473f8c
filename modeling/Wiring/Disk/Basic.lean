import Wiring.Disk.Path
import Wiring.SortedMap

/-! # Disks

A disk maps places to files and directories, a place being the list of names from the working
directory; two points in front of them lead up. The working directory and all above it are always
there. Names and paths have a greatest length. Operations find their way step by step and fail as a
file system does.
-/
namespace Wiring

inductive Disk.Node where
  | file (contents : ByteArray)
  | directory

def Disk.Node.isDirectory : Option Disk.Node → Bool
  | some .directory => true
  | _ => false

structure Disk where
  nodes : SortedMap (List String) Disk.Node

namespace Disk

inductive Fault where
  | notFound
  | notDirectory
  | isDirectory
  | exists
  | nameTooLong
  | unnameable
  deriving DecidableEq, Repr

def Fault.text : Fault → String
  | .notFound => "No such file or directory (os error 2)"
  | .notDirectory => "Not a directory (os error 20)"
  | .isDirectory => "Is a directory (os error 21)"
  | .exists => "File exists (os error 17)"
  | .nameTooLong => "File name too long (os error 36)"
  | .unnameable => "file name contained an unexpected NUL byte"

/-- An operation; a failed one may have changed the disk. -/
abbrev Op (α : Type) := ExceptT Fault (StateM Disk) α

def empty : Disk := ⟨SortedMap.empty⟩

instance : Inhabited Disk := ⟨empty⟩

def isAbove (place : List String) : Bool := place.all (· = "..")

def up (place : List String) : List String :=
  if isAbove place then place ++ [".."] else place.dropLast

def node? (disk : Disk) (place : List String) : Option Node :=
  if isAbove place then some .directory else disk.nodes.get? place

def put (disk : Disk) (place : List String) (node : Node) : Disk :=
  ⟨disk.nodes.insert place node⟩

def maxNameBytes : Nat := 255
def maxPathBytes : Nat := 4095

/-- The place that steps lead to, starting from a directory; only the last name may be missing, and
only directories lead on. -/
def walk (disk : Disk) (start : List String) : List String → Except Fault (List String)
  | [] => .ok start
  | step :: rest =>
    if !Node.isDirectory (disk.node? start) then .error .notDirectory
    else if step = "." then walk disk start rest
    else if step = ".." then walk disk (up start) rest
    else if maxNameBytes < step.utf8ByteSize then .error .nameTooLong
    else
      let next := start ++ [step]
      match rest, disk.node? next with
      | [], _ => .ok next
      | _ :: _, none => .error .notFound
      | _ :: _, some _ => walk disk next rest

/-- The place a path names. The empty path names nothing. -/
def locate (disk : Disk) (path : String) : Except Fault (List String) := do
  if path.toList = [] then .error .notFound
  else if path.toList.contains '\x00' then .error .unnameable
  else if maxPathBytes < path.utf8ByteSize then .error .nameTooLong
  else
    let place ← disk.walk [] (Path.steps path)
    match disk.node? place with
    | some (.file _) => if path.toList.getLast? = some '/' then .error .notDirectory else .ok place
    | _ => .ok place

def find? (disk : Disk) (path : String) : Option Node :=
  match disk.locate path with
  | .ok place => disk.node? place
  | .error _ => none

def isFile (disk : Disk) (path : String) : Bool :=
  match disk.find? path with
  | some (.file _) => true
  | _ => false

def isDirectory (disk : Disk) (path : String) : Bool := Node.isDirectory (disk.find? path)

def exists? (disk : Disk) (path : String) : Bool := (disk.find? path).isSome

/-- The contents of a file. -/
def read (disk : Disk) (path : String) : Except Fault ByteArray := do
  match disk.node? (← disk.locate path) with
  | some (.file contents) => .ok contents
  | some .directory => .error .isDirectory
  | none => .error .notFound

def fileNames (disk : Disk) (path : String) : List String :=
  match disk.locate path with
  | .error _ => []
  | .ok place =>
    disk.nodes.entries.filterMap fun e =>
      match e.2, e.1.getLast? with
      | .file _, some name => if e.1.dropLast = place then some name else none
      | _, _ => none

def files (disk : Disk) : List String :=
  let paths := disk.nodes.entries.filterMap fun e =>
    match e.2 with
    | .file _ => if e.1.head? = some ".." then none else some ("/".intercalate e.1)
    | .directory => none
  (SortedMap.ofList (paths.map fun path => (path, ()))).keys

def makeDirectory (path : String) : Op Unit := do
  let disk ← get
  let place ← disk.locate path
  if (disk.node? place).isSome then throw .exists
  modify fun disk => disk.put place .directory

section
variable {ε σ : Type}

/-- Makes a directory in some way. When that fails it counts as made if it is there. -/
def ensured (there : σ → Bool) (make : ExceptT ε (StateM σ) Unit) : ExceptT ε (StateM σ) Unit := fun s =>
  match make s with
  | (.error e, s) => (if there s then .ok () else .error e, s)
  | made => made

/-- Makes the first of some paths a directory, each path being the parent of the one before. When that
fails because something is missing, those after it are made, and then it is tried again. -/
def makeAncestors [DecidableEq ε] (missing : ε) (make : (again : Bool) → String → ExceptT ε (StateM σ) Unit) :
    List String → ExceptT ε (StateM σ) Unit
  | [] => throw missing
  | path :: above =>
    if path.toList = [] then pure ()
    else fun s =>
      match make false path s with
      | (.error e, s) =>
        if e = missing then (do makeAncestors missing make above; make true path) s else (.error e, s)
      | made => made

end

def ensureDirectory (path : String) : Op Unit := ensured (·.isDirectory path) (makeDirectory path)

def makeDirectories (path : String) : Op Unit :=
  makeAncestors .notFound (fun _ => ensureDirectory) (Path.ancestors path)

/-- The place of a file that may be made, and its contents if it is there. -/
def openFile (path : String) : Op (List String × Option ByteArray) := do
  let disk ← get
  let place ← disk.locate path
  match disk.node? place with
  | some (.file contents) => return (place, some contents)
  | some .directory => throw .isDirectory
  | none => if path.toList.getLast? = some '/' then throw .isDirectory else return (place, none)

def touch (path : String) : Op Unit := do
  let (place, found) ← openFile path
  if found.isNone then modify fun disk => disk.put place (.file ByteArray.empty)

/-- Gives a file new contents. -/
def write (path : String) (contents : ByteArray) : Op Unit := do
  let (place, _) ← openFile path
  modify fun disk => disk.put place (.file contents)

/-- Moves a file to a place that may hold a file. -/
def rename (source target : String) : Op Unit := do
  let (sourcePlace, found) ← openFile source
  match found with
  | none => throw .notFound
  | some contents =>
    let (targetPlace, _) ← openFile target
    modify fun disk => (Disk.mk (disk.nodes.erase sourcePlace)).put targetPlace (.file contents)

def removeFile (path : String) : Op Unit := do
  let (place, found) ← openFile path
  if found.isNone then throw .notFound
  modify fun disk => ⟨disk.nodes.erase place⟩

def cleared (disk : Disk) (place : List String) : Disk :=
  ⟨disk.nodes.entries.filter fun e => !(place.isPrefixOf e.1 && e.1 ≠ place),
    disk.nodes.ascending.filter _⟩

/-- Removes what a path names, with all below it, and tells whether that went well. A directory is
emptied first. Then it is removed under its path, which must not end in a step that is no name; when
the way there is gone by then it counts as removed. -/
def removeAll (disk : Disk) (path : String) : Bool × Disk :=
  match disk.locate path with
  | .error _ => (false, disk)
  | .ok place =>
    match disk.node? place with
    | none => (false, disk)
    | some (.file _) => (true, ⟨disk.nodes.erase place⟩)
    | some .directory =>
      let disk := disk.cleared place
      match disk.locate path, (Path.steps path).getLast? with
      | .error fault, _ => (fault = .notFound, disk)
      | .ok _, some "." => (false, disk)
      | .ok _, some ".." => (false, disk)
      | .ok _, _ => (true, ⟨disk.nodes.erase place⟩)

def writeText (path text : String) : Op Unit := do
  makeDirectories ((Path.parent? path).getD "")
  write path text.toUTF8

def readText? (disk : Disk) (path : String) : Option String :=
  match disk.read path with
  | .ok contents => String.fromUTF8? contents
  | .error _ => none

end Disk
end Wiring
