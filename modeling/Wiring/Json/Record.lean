import Wiring.Json.Reader

/-! # Records and tagged variants

A record is read from an object, whose unknown members are ignored and whose known members occur
at most once, or from an array of its fields in order, of which the last may be missing. A tagged
variant names its case in one member, or in the first item of an array. What stands inside a
tagged variant is `buffered`: all of it must stand for a value, and a case of an inner variant may
then be given by position.
-/
namespace Wiring

/-- Whether a part is read on its own or as part of a tagged variant. -/
inductive Reading where
  | direct
  | buffered
  deriving DecidableEq, Repr

namespace Source

def string? : Source → Option String
  | .leaf (some (.string s)) => some s
  | _ => none

def bool? : Source → Option Bool
  | .leaf (some (.bool b)) => some b
  | _ => none

def integer? : Source → Option Int
  | .leaf (some (.number (.integer n))) => some n.value
  | _ => none

def word32? (s : Source) : Option UInt32 := do
  let n ← s.integer?
  if Unsigned32 n then some n.toNat.toUInt32 else none

def list? {α : Type} (item : Source → Option α) : Source → Option (List α)
  | .array items => items.mapM item
  | _ => none

def nullable {α : Type} (item : Source → Option α) : Source → Option (Option α)
  | .leaf (some .null) => some none
  | s => (item s).map some

/-- The one member of a name, if any; nothing when there are more. -/
def member? (name : String) (members : List (String × Source)) : Option (Option Source) :=
  match members.filter fun m => m.1 = name with
  | [] => some none
  | [m] => some (some m.2)
  | _ => none

def fields? (names : List String) : Source → Option (List (Option Source))
  | .object members => names.mapM fun name => member? name members
  | .array items =>
    if items.length ≤ names.length then
      some (items.map some ++ List.replicate (names.length - items.length) none)
    else none
  | .leaf _ => none

def required {α : Type} (item : Source → Option α) (field : Option Source) : Option α :=
  field.bind item

def optional {α : Type} (missing : α) (item : Source → Option α) : Option Source → Option α
  | none => some missing
  | some s => item s

/-- The position of a case among `names`, given by name or, in a buffered part, by number. -/
def case? (reading : Reading) (names : List String) (tag : Source) : Option Nat :=
  match tag with
  | .leaf (some (.string s)) => names.idxOf? s
  | .leaf (some (.number (.integer n))) =>
    if reading = .buffered ∧ 0 ≤ n.value ∧ n.value < names.length then some n.value.toNat else none
  | _ => none

/-- The case of a tagged variant and the rest of its members or items, which are buffered. -/
def tagged? (reading : Reading) (tag : String) (names : List String) (s : Source) :
    Option (Nat × Source) := do
  let _ ← s.value?
  match s with
  | .object members => do
    let name ← (← member? tag members)
    some (← case? reading names name, .object (members.filter fun m => m.1 ≠ tag))
  | .array (name :: rest) => some (← case? reading names name, .array rest)
  | _ => none

end Source
end Wiring
