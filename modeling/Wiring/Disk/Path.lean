/-! # Paths

A path is a text of names between slashes. Empty names and points stand for nothing, except a point
at the start of a relative path, which is a component but not a name.
-/
namespace Wiring.Path

def split : List Char → List (List Char)
  | [] => [[]]
  | c :: rest =>
    if c = '/' then [] :: split rest
    else
      match split rest with
      | [] => [[c]]
      | first :: more => (c :: first) :: more

def isAbsolute (path : String) : Bool := path.toList.head? = some '/'

/-- The steps of the way from the working directory: names, a point for staying and two for going
up. -/
def steps (path : String) : List String :=
  ((split path.toList).filter fun part => part ≠ []).map String.ofList

def join (directory name : String) : String :=
  if directory.toList = [] then name
  else if directory.toList.getLast? = some '/' then directory ++ name
  else directory ++ "/" ++ name

/-- Parts without the ones at the end that stand for nothing; `start` tells whether the first part
of the list is the start of a relative path. -/
def trimRight (start : Bool) (parts : List (List Char)) : List (List Char) :=
  let rec go : List (List Char) → List (List Char)
    | [] => []
    | part :: earlier =>
      if part = [] ∨ (part = ['.'] ∧ ¬ (start ∧ earlier = [])) then go earlier else part :: earlier
  (go parts.reverse).reverse

def parts (path : String) : List (List Char) :=
  let parts := split path.toList
  trimRight (!isAbsolute path) (if isAbsolute path then parts.drop 1 else parts)

def joinParts : List (List Char) → List Char
  | [] => []
  | [part] => part
  | part :: rest => part ++ '/' :: joinParts rest

def components (path : String) : List (List Char) :=
  match parts path with
  | [] => []
  | first :: rest =>
    let names := rest.filter fun part => part ≠ [] ∧ part ≠ ['.']
    if first = [] ∨ (first = ['.'] ∧ isAbsolute path) then names else first :: names

def same (a b : String) : Bool := isAbsolute a == isAbsolute b && components a == components b

/-- The path without its last component, if it has one. -/
def parent? (path : String) : Option String :=
  match parts path with
  | [] => none
  | found@(_ :: _) =>
    let earlier := trimRight (!isAbsolute path) found.dropLast
    some (String.ofList ((if isAbsolute path then ['/'] else []) ++ joinParts earlier))

def ancestors (path : String) : List String :=
  let rec go : Nat → String → List String
    | 0, path => [path]
    | fuel + 1, path =>
      match parent? path with
      | some above => path :: go fuel above
      | none => [path]
  go (parts path).length path

def fileName? (path : String) : Option String :=
  match (parts path).getLast? with
  | none => none
  | some part => if part = ['.'] ∨ part = ['.', '.'] then none else some (String.ofList part)

/-- A name split at its last point; a point at the start does not count. -/
def splitName (name : String) : String × Option String :=
  let (after, before) := name.toList.reverse.span (· ≠ '.')
  match before with
  | [] => (name, none)
  | [_] => (name, none)
  | _ :: stem => (String.ofList stem.reverse, some (String.ofList after.reverse))

def stem (name : String) : String := (splitName name).1
def extension? (name : String) : Option String := (splitName name).2

end Wiring.Path
