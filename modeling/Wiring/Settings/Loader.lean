import Wiring.Disk.Replace
import Wiring.Settings.Basic
import Wiring.Settings.Environment

/-! # Loading and saving settings

Settings come from three sources, each merged over the one before: the defaults, a settings file,
and environment variables. The file is the one that was asked for, or else the first that there is
among the usual places; no file is no failure.
-/
namespace Wiring.Settings

def fileName : String := "diac.toml"
def directoryName : String := "diac"

/-- Where settings come from: a file, if one was asked for, and the variables of a family, whose
names begin with its name and an underscore. A file is opened by its whole path, of which so many
bytes lead to the working directory unless the path is absolute. -/
structure Loader where
  file : Option String := none
  family : String := "DIAC"
  directoryBytes : Nat := 16

def usualPlaces (home : Option String) : List String :=
  let inDirectory := Path.join directoryName fileName
  [fileName, inDirectory] ++ home.toList.map fun home => Path.join home inDirectory

namespace Loader

def file? (l : Loader) (home : Option String) (disk : Disk) : Option String :=
  match l.file with
  | some path => if disk.exists? path then some path else none
  | none => (usualPlaces home).find? fun path => disk.exists? path

/-- The settings in a text. Values may be wrapped, but not the document itself. -/
def read? (text : String) : Option Setting := do
  let members ← (← Toml.read text).mapM fun m => do some (m.1, ← m.2.unwrap?)
  some (.table members)

/-- How long the whole path of a file is. -/
def wholeBytes (l : Loader) (path : String) : Nat :=
  if Path.isAbsolute path then path.utf8ByteSize else l.directoryBytes + path.utf8ByteSize

/-- What the file says; a directory says nothing, nor does a file whose whole path is too long. A relative path
that is no file in the working directory is also tried in each directory above it; those lie outside the disk,
which stands for a machine where they hold no such file. -/
def fileTree? (l : Loader) (home : Option String) (disk : Disk) : Option Setting :=
  match l.file? home disk with
  | none => some (.table [])
  | some path =>
    if disk.isFile path && l.wholeBytes path ≤ Disk.maxPathBytes then
      (disk.readText? path).bind read?
    else some (.table [])

def tree? (l : Loader) (home : Option String) (assigned : Environment.Variables) (disk : Disk) :
    Option Setting := do
  let file ← l.fileTree? home disk
  let environment := Environment.settings (l.family ++ "_") assigned
  some (Setting.merge (Setting.merge (.table Settings.default.members) file) environment)

def load (l : Loader) (home : Option String) (assigned : Environment.Variables) (disk : Disk) :
    Except Error Settings :=
  match (l.tree? home assigned disk).bind Settings.ofTree? with
  | some settings => settings.checked
  | none => .error (.within .configuration "Failed to extract configuration" "not a valid setting")

end Loader

/-- Writes settings to a file that loading reads back. -/
def save (s : Settings) (path : String) : Act Disk Unit := do
  match s.fileText with
  | .error e => throw e
  | .ok text =>
    match (Disk.write path text.toUTF8).run (← get) with
    | (.ok (), disk) => set disk
    | (.error fault, _) => throw (.within .io "Failed to write config file" fault.text)

end Wiring.Settings
