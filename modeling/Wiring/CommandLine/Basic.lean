/-! # Command lines

A command line names one command and may name a settings file and a cache directory, before the
command or after it.
-/
namespace Wiring

inductive Command where
  /-- Compiles every binding of the snapshot that has no plan yet. -/
  | compile
  | list
  | show (interface : String) (name : Option String)
  /-- Sums up the snapshot. -/
  | snapshot
  deriving DecidableEq, Repr

structure CommandLine where
  settingsFile : Option String
  cacheDirectory : Option String
  command : Command
  deriving DecidableEq, Repr

namespace CommandLine

/-- Why a command line is not carried out. -/
inductive Stop where
  /-- There is nothing on it. -/
  | nothing
  | missingCommand
  | unknownCommand
  | missingArgument
  /-- An option that there is not, or an argument too many. -/
  | unknownArgument
  | invalidValue
  /-- A value for an option that takes none. -/
  | unwantedValue
  | repeatedOption
  | help
  | version
  deriving DecidableEq, Repr

end CommandLine
end Wiring
