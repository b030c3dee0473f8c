import Wiring.Binding
import Wiring.Error
import Wiring.Instant

/-! # Snapshots

A snapshot is a whole table as data, with a version and a time. Reading a table back takes the
entries in order, so the last entry of a key counts, and refuses other versions.
-/
namespace Wiring

structure Snapshot where
  version : UInt32
  time : Instant
  entries : List (Key × Binding)
  deriving DecidableEq, Inhabited

namespace Snapshot

/-- The version of snapshots that this library writes and reads. -/
def currentVersion : UInt32 := 1

def ofTable (time : Instant) (table : Table) : Snapshot := ⟨currentVersion, time, table.entries⟩

def toTable (s : Snapshot) : Except Error Table :=
  if s.version = currentVersion then .ok (SortedMap.ofList s.entries)
  else .error (.formatVersion "module snapshot" currentVersion s.version)

end Snapshot
end Wiring
