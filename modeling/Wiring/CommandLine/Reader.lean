import Wiring.CommandLine.Basic

/-! # Reading command lines

Words are read from left to right. The words before the command and those after it are two parts,
each with its own options; an option given in both counts as in the second. An option may have its
value attached or in the next word. The value of an option is looked at when the next option or
argument comes, or at the end of its part, so of two mistakes the later one may be reported.
-/
namespace Wiring.CommandLine

inductive Flag where
  | settingsFile
  | cacheDirectory
  | name
  | help
  | version
  deriving DecidableEq, Repr

def Flag.stop? : Flag → Option Stop
  | .help => some .help
  | .version => some .version
  | _ => none

/-- A path has at least one character. -/
def Flag.accepts (value : String) : Flag → Bool
  | .settingsFile => value ≠ ""
  | .cacheDirectory => value ≠ ""
  | _ => true

inductive Verb where
  | compile
  | list
  | show
  | snapshot
  deriving DecidableEq, Repr

def Verb.ofWord? : String → Option Verb
  | "compile" => some .compile
  | "list" => some .list
  | "show" => some .show
  | "snapshot" => some .snapshot
  | _ => none

def helpWord : String := "help"

inductive Part where
  | first
  | after (verb : Verb)
  deriving DecidableEq, Repr

namespace Part

def knows : Part → Flag → Bool
  | .first, .name => false
  | .first, _ => true
  | .after _, .version => false
  | .after .show, .name => true
  | .after _, .name => false
  | .after _, _ => true

def long? (part : Part) (name : String) : Option Flag :=
  let flag := match name with
    | "config" => some Flag.settingsFile
    | "cache-dir" => some .cacheDirectory
    | "name" => some .name
    | "help" => some .help
    | "version" => some .version
    | _ => none
  flag.filter part.knows

def short? (part : Part) (letter : Char) : Option Flag :=
  let flag := match letter with
    | 'c' => some Flag.settingsFile
    | 'n' => some .name
    | 'h' => some .help
    | 'V' => some .version
    | _ => none
  flag.filter part.knows

def arguments : Part → Nat
  | .after .show => 1
  | _ => 0

end Part

inductive Word where
  /-- Two dashes, after which all words are arguments. -/
  | escape
  | long (name : String) (attached : Option String)
  | short (letter : Char) (rest : List Char)
  | plain
  deriving DecidableEq, Repr

def Word.ofString (word : String) : Word :=
  match word.toList with
  | ['-', '-'] => .escape
  | '-' :: '-' :: rest =>
    let (name, attached) := rest.span (· ≠ '=')
    .long (String.ofList name)
      (if attached.isEmpty then none else some (String.ofList (attached.drop 1)))
  | '-' :: letter :: rest => .short letter rest
  | _ => .plain

/-- A part as far as it has been read: the options with their values, the last option if its value
has not been looked at, the arguments, and whether an escape has come. -/
structure Progress where
  values : List (Flag × String) := []
  pending : Option (Flag × Option String) := none
  arguments : List String := []
  escaped : Bool := false

namespace Progress

def value? (p : Progress) (flag : Flag) : Option String :=
  (p.values.find? fun v => v.1 = flag).map Prod.snd

def waits (p : Progress) : Bool :=
  match p.pending with
  | some (_, none) => !p.escaped
  | _ => false

/-- Looks at the value of the last option. -/
def settle (p : Progress) : Except Stop Progress :=
  match p.pending with
  | none => .ok p
  | some (_, none) => .error .invalidValue
  | some (flag, some value) =>
    if (p.value? flag).isSome then .error .repeatedOption
    else if flag.accepts value then .ok { p with values := p.values ++ [(flag, value)], pending := none }
    else .error .invalidValue

/-- Goes on to an option, with its value if that is attached. -/
def option (flag : Flag) (attached : Option String) (p : Progress) : Except Stop Progress := do
  let p ← p.settle
  match flag.stop?, attached with
  | some stop, _ => .error stop
  | none, none => .ok { p with pending := some (flag, none) }
  | none, some value => settle { p with pending := some (flag, some value) }

def argument (part : Part) (word : String) (p : Progress) : Except Stop Progress := do
  if p.arguments.length < part.arguments then
    let p ← p.settle
    .ok { p with arguments := p.arguments ++ [word] }
  else
    match part with
    | .after _ => .error .unknownArgument
    | .first =>
      if p.escaped && (word = helpWord || (Verb.ofWord? word).isSome) then .error .unknownArgument
      else .error .unknownCommand

def word (part : Part) (word : String) (p : Progress) : Except Stop Progress :=
  if p.escaped then p.argument part word
  else
    match Word.ofString word with
    | .escape => .ok { p with escaped := true }
    | .long name attached =>
      match part.long? name with
      | none => .error .unknownArgument
      | some flag =>
        if flag.stop?.isSome && attached.isSome then .error .unwantedValue else p.option flag attached
    | .short letter rest =>
      match part.short? letter with
      | none => .error .unknownArgument
      | some flag =>
        if flag.stop?.isSome || rest.isEmpty then p.option flag none
        else p.option flag (some (String.ofList (if rest.head? = some '=' then rest.drop 1 else rest)))
    | .plain =>
      match p.pending with
      | some (flag, none) => .ok { p with pending := some (flag, some word) }
      | _ => p.argument part word

end Progress

def helpOn : List String → Stop
  | [] => .help
  | [word] => if word = helpWord || (Verb.ofWord? word).isSome then .help else .unknownCommand
  | _ => .unknownCommand

def readAfter (verb : Verb) (words : List String) : Except Stop Progress := do
  let p ← words.foldlM (fun p word => Progress.word (.after verb) word p) ({} : Progress)
  let p ← p.settle
  if p.arguments.length < (Part.after verb).arguments then .error .missingArgument
  else .ok p

def Verb.command (verb : Verb) (p : Progress) : Command :=
  match verb with
  | .compile => .compile
  | .list => .list
  | .snapshot => .snapshot
  | .show => .show (p.arguments.headD "") (p.value? .name)

/-- The words up to the command and, once it has come, those after it. -/
def readFirst (p : Progress) : List String → Except Stop CommandLine
  | [] => do
    let p ← p.settle
    .error (if p.values.isEmpty then .nothing else .missingCommand)
  | word :: rest => do
    let free := !p.waits && !p.escaped
    if free && word = helpWord then .error (helpOn rest)
    else
      match if free then Verb.ofWord? word else none with
      | some verb =>
        let after ← readAfter verb rest
        let p ← p.settle
        let value (flag : Flag) : Option String := (after.value? flag).or (p.value? flag)
        .ok ⟨value .settingsFile, value .cacheDirectory, verb.command after⟩
      | none => readFirst (← p.word .first word) rest

def read (words : List String) : Except Stop CommandLine := readFirst {} words

end Wiring.CommandLine
