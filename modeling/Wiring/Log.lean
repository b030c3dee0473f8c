import Wiring.Disk.Replace
import Wiring.Instant
import Wiring.Settings.Basic

/-! # Opening the log

A program has one log. A log that is kept in a file has a file for each day, beside the path that
the settings name and called after it. The file is made before it turns out that a log is open.
-/
namespace Wiring.Log

def baseName (path : String) : String := ((Path.fileName? path).map Path.stem).getD "diac"

def dayFile (path : String) (time : Instant) : String :=
  Path.join ((Path.parent? path).getD ".") (baseName path ++ "." ++ time.dateText)

def makeFile (path : String) (disk : Disk) : Disk :=
  let make : Disk.Op Unit := do
    Disk.makeDirectories ((Path.parent? path).getD "")
    Disk.touch path
  (make.run disk).2

/-- Opens the log, with `isOpen` telling whether there is one. -/
def start (isOpen : Bool) (settings : Settings.Logging) (time : Instant) : Act Disk Unit := do
  match Level.ofText settings.level with
  | .error e => throw e
  | .ok _ =>
    match settings.file with
    | none => pure ()
    | some path => modify (makeFile (dayFile path time))
    if isOpen then
      throw (.within .infrastructure "Failed to initialize logging" "a log is open already")

end Wiring.Log
