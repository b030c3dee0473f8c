import Wiring.Number.Power

/-! # Trees of settings

Settings from files, from the environment and from defaults are trees. Later trees are merged over
earlier ones member by member; where one of the two is no table the later one counts.
-/
namespace Wiring

inductive Setting where
  | nothing
  | flag (value : Bool)
  | integer (value : Int)
  /-- A number that is no integer; no setting is one, so its value does not matter. -/
  | fraction
  | text (value : String)
  | list (items : List Setting)
  | table (members : List (String × Setting))
  deriving Inhabited

namespace Setting

abbrev Members := List (String × Setting)

def member? (name : String) (members : Members) : Option Setting :=
  (members.find? fun m => m.1 = name).map Prod.snd

def put (name : String) (value : Setting) : Members → Members
  | [] => [(name, value)]
  | m :: rest => if m.1 = name then (name, value) :: rest else m :: put name value rest

mutual
/-- The later tree over the earlier one. -/
def merge (earlier : Setting) : Setting → Setting
  | .table later =>
    match earlier with
    | .table earlier => .table (mergeMembers earlier later)
    | _ => .table later
  | later => later

def mergeMembers (earlier : Members) : Members → Members
  | [] => earlier
  | (name, later) :: rest =>
    let merged := match member? name earlier with
      | some value => merge value later
      | none => later
    mergeMembers (put name merged earlier) rest
end

def wrappedName : String := "___figment_value_value"
def tagName : String := "___figment_value_id"

mutual
/-- A tree without its wrappings: a table with a wrapped value stands for that value, whatever else
it holds. Only an integer is a tag. -/
def unwrap? : Setting → Option Setting
  | .table members => do
    let members ← unwrapMembers? members
    some ((member? wrappedName members).getD (.table members))
  | .list items => do some (.list (← unwrapItems? items))
  | plain => some plain

def unwrapMembers? : List (String × Setting) → Option (List (String × Setting))
  | [] => some []
  | (name, value) :: rest => do
    let rest ← unwrapMembers? rest
    if name = tagName then
      match value with
      | .integer _ => some rest
      | _ => none
    else some ((name, ← unwrap? value) :: rest)

def unwrapItems? : List Setting → Option (List Setting)
  | [] => some []
  | item :: rest => do some ((← unwrap? item) :: (← unwrapItems? rest))
end

def nested : List String → Setting → Setting
  | [], value => value
  | name :: rest, value => .table [(name, nested rest value)]

/-- The values of a record's fields, from a table by name or from a list in order. -/
def fields? (names : List String) : Setting → Option (List (Option Setting))
  | .table members => some (names.map fun name => member? name members)
  | .list items => some ((List.range names.length).map fun i => items[i]?)
  | _ => none

def text? : Setting → Option String
  | .text value => some value
  | _ => none

def flag? : Setting → Option Bool
  | .flag value => some value
  | _ => none

def count? : Setting → Option UInt64
  | .integer value => if Unsigned64 value then some value.toNat.toUInt64 else none
  | _ => none

def optional {α : Type} (read : Setting → Option α) : Setting → Option (Option α)
  | .nothing => some none
  | value => (read value).map some

/-- A field with a default. -/
def field {α : Type} (default : α) (read : Setting → Option α) : Option Setting → Option α
  | none => some default
  | some value => read value

end Setting
end Wiring
