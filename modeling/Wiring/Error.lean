import Wiring.Recipe

/-! # Errors

An error says what went wrong; `Error.message` puts it into words. Errors met while reading or
writing carry the text of the cause beneath them, which their own words end with when they were
made by one of the context functions.
-/
namespace Wiring

inductive Error where
  /-- An input or output error as the system reports it. -/
  | device (cause : String)
  | io (details : String) (cause : Option String)
  /-- A text is not what it should be. -/
  | json (cause : String)
  | unbound (key : Key) (point : Option Point)
  | compilation (failures : List (Key × Error))
  | storage (details : String) (cause : Option String)
  | formatVersion (artifact : String) (expected found : UInt32)
  | unknownClass (className : String)
  | instantiation (className details : String)
  | circular (path : List Key)
  | invalidArgument (details : String)
  /-- A setting that is not allowed. -/
  | setting (details : String)
  | configuration (details : String) (cause : Option String)
  | internal (details : String)
  | infrastructure (details : String) (cause : Option String)
  | plain (details : String)
  deriving Inhabited

namespace Error

def isUnbound : Error → Bool
  | .unbound _ _ => true
  | _ => false

def requiredBy : Option Point → String
  | none => ""
  | some point => " (required by " ++ point.display ++ ")"

mutual
def message : Error → String
  | .device cause => "I/O error: " ++ cause
  | .io details _ => "I/O error: " ++ details
  | .json cause => "JSON parsing error: " ++ cause
  | .unbound key point => "Unbound dependency: " ++ key.display ++ requiredBy point
  | .compilation failures =>
    "Compilation failed for " ++ toString failures.length ++ " binding(s): " ++
      String.intercalate "; " (failureMessages failures)
  | .storage details _ => "Storage error: " ++ details
  | .formatVersion artifact expected found =>
    "Unsupported " ++ artifact ++ " format version " ++ toString found.toNat ++
      " (expected " ++ toString expected.toNat ++ ")"
  | .unknownClass className => "Unknown class: " ++ className
  | .instantiation className details => "Instantiation error for " ++ className ++ ": " ++ details
  | .circular path => "Circular dependency: " ++ String.intercalate " -> " (path.map Key.display)
  | .invalidArgument details => "Invalid argument: " ++ details
  | .setting details => "Configuration error: " ++ details
  | .configuration details _ => "Configuration error: " ++ details
  | .internal details => "Internal error: " ++ details
  | .infrastructure details _ => "Infrastructure error: " ++ details
  | .plain details => "String error: " ++ details

def failureMessages : List (Key × Error) → List String
  | [] => []
  | (key, error) :: rest => (key.display ++ ": " ++ error.message) :: failureMessages rest
end

def cause? : Error → Option String
  | .device cause => some cause
  | .json cause => some cause
  | .io _ cause => cause
  | .storage _ cause => cause
  | .configuration _ cause => cause
  | .infrastructure _ cause => cause
  | _ => none

/-- Details without the cause they end with. -/
def withoutCause (details : String) : Option String → String
  | none => details
  | some cause => ((details.dropSuffix? (": " ++ cause)).map (·.copy)).getD details

mutual
/-- The error with only this library's own words, for reports that leave out what a system says. -/
def headline : Error → Error
  | .io details cause => .io (withoutCause details cause) cause
  | .storage details cause => .storage (withoutCause details cause) cause
  | .configuration details cause => .configuration (withoutCause details cause) cause
  | .infrastructure details cause => .infrastructure (withoutCause details cause) cause
  | .compilation failures => .compilation (headlines failures)
  | error => error

def headlines : List (Key × Error) → List (Key × Error)
  | [] => []
  | (key, error) :: rest => (key, error.headline) :: headlines rest
end

inductive Area where
  | infrastructure
  | io
  | configuration
  | storage
  deriving DecidableEq, Repr

/-- An error of an area whose details are the context and the cause. -/
def within (area : Area) (context cause : String) : Error :=
  let details := context ++ ": " ++ cause
  match area with
  | .infrastructure => .infrastructure details (some cause)
  | .io => .io details (some cause)
  | .configuration => .configuration details (some cause)
  | .storage => .storage details (some cause)

end Error
end Wiring
