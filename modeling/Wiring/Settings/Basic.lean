import Wiring.Disk.Path
import Wiring.Error
import Wiring.Settings.Toml

/-! # Settings

Settings are read from a tree in which any field may be missing, and written to a tree that has
them all. They are valid when the log level is one of the known words, in any case, and the cache
directory is not empty.
-/
namespace Wiring

inductive Level where
  | trace
  | debug
  | info
  | warn
  | error
  deriving DecidableEq, Repr

namespace Level

def text : Level → String
  | .trace => "TRACE"
  | .debug => "DEBUG"
  | .info => "INFO"
  | .warn => "WARN"
  | .error => "ERROR"

def ofLowerCase? : String → Option Level
  | "trace" => some .trace
  | "debug" => some .debug
  | "info" => some .info
  | "warn" => some .warn
  | "warning" => some .warn
  | "error" => some .error
  | _ => none

/-- Only letters of the basic alphabet have a lower case that occurs in a word for a level. -/
def ofText (text : String) : Except Error Level :=
  match ofLowerCase? text.toLower with
  | some level => .ok level
  | none => .error (.configuration
      ("Invalid log level: " ++ text ++ ". Use trace, debug, info, warn, or error") none)

end Level

namespace Settings

structure Logging where
  level : String := "info"
  json : Bool := false
  file : Option String := none
  maxFileSize : UInt64 := 10485760
  maxFiles : UInt64 := 5
  deriving DecidableEq, Repr, Inhabited

structure Compiler where
  cacheDirectory : String := ".diac/cache"
  pretty : Bool := true
  deriving DecidableEq, Repr, Inhabited

end Settings

structure Settings where
  logging : Settings.Logging := {}
  compiler : Settings.Compiler := {}
  deriving DecidableEq, Repr

namespace Settings

def default : Settings := {}

instance : Inhabited Settings := ⟨default⟩

/-- The settings, unless they are not allowed. -/
def checked (s : Settings) : Except Error Settings := do
  let _ ← Level.ofText s.logging.level
  if s.compiler.cacheDirectory = "" then
    throw (.setting "Compiler cache directory cannot be empty")
  return s

/-- Whether two settings are equal, paths being compared by component. -/
def same (a b : Settings) : Bool :=
  { a.logging with file := none } == { b.logging with file := none } &&
    a.logging.file.isSome == b.logging.file.isSome &&
    Path.same (a.logging.file.getD "") (b.logging.file.getD "") &&
    Path.same a.compiler.cacheDirectory b.compiler.cacheDirectory &&
    a.compiler.pretty == b.compiler.pretty

def Logging.members (l : Logging) : Setting.Members :=
  [("level", .text l.level), ("json_format", .flag l.json),
    ("file_output", l.file.elim .nothing .text), ("max_file_size", .integer l.maxFileSize.toNat),
    ("max_files", .integer l.maxFiles.toNat)]

def Compiler.members (c : Compiler) : Setting.Members :=
  [("cache_dir", .text c.cacheDirectory), ("pretty_units", .flag c.pretty)]

def members (s : Settings) : Setting.Members :=
  [("logging", .table s.logging.members), ("compiler", .table s.compiler.members)]

open Setting in
def Logging.ofTree? (tree : Setting) : Option Logging := do
  match ← fields? ["level", "json_format", "file_output", "max_file_size", "max_files"] tree with
  | [level, json, file, maxFileSize, maxFiles] =>
    let missing : Logging := {}
    some ⟨← field missing.level text? level, ← field missing.json flag? json,
      ← field missing.file (optional text?) file, ← field missing.maxFileSize count? maxFileSize,
      ← field missing.maxFiles count? maxFiles⟩
  | _ => none

open Setting in
def Compiler.ofTree? (tree : Setting) : Option Compiler := do
  match ← fields? ["cache_dir", "pretty_units"] tree with
  | [cacheDirectory, pretty] =>
    let missing : Compiler := {}
    some ⟨← field missing.cacheDirectory text? cacheDirectory, ← field missing.pretty flag? pretty⟩
  | _ => none

open Setting in
def ofTree? (tree : Setting) : Option Settings := do
  match ← fields? ["logging", "compiler"] tree with
  | [logging, compiler] =>
    some ⟨← field {} Logging.ofTree? logging, ← field {} Compiler.ofTree? compiler⟩
  | _ => none

def fileText (s : Settings) : Except Error String :=
  match Toml.write s.members with
  | some text => .ok text
  | none => .error (.within .configuration "Failed to serialize config to TOML" "not a value that is written")

end Settings
end Wiring
