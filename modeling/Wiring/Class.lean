import Wiring.Hook
import Wiring.SortedMap

/-! # Classes and registries

A class is a signature together with the functions that carry it out: its constructor, its methods
by name, and, for a provider, its hook. Functions return what the object keeps of the call. Setters
and the final hook share one method table, in which the last definition of a name stays. A registry
maps class names to classes.
-/
namespace Wiring

abbrev Constructor := List Value → Except Error (List Value)

/-- A method sees the object before the call. -/
abbrev Method := Object → List Value → Except Error (List Value)

/-- The hook of a provider object for a context and the point that asks. -/
abbrev Provide := Object → Option String → Option Point → Hook

structure Class where
  signature : Signature
  type : String
  construct : Constructor
  methods : SortedMap String Method
  provide : Option Provide

def constructorMethod : String := "new"

namespace Class

def name (c : Class) : String := c.signature.className

def define (name type : String) (construct : Constructor) : Class :=
  ⟨⟨name, [], [], none⟩, type, construct, SortedMap.empty, none⟩

structure Declared where
  name : String
  key : Key
  default : Option Json := none

def Declared.parameter (className method : String) (d : Declared) : Parameter :=
  let point : Point := ⟨className, method, d.name⟩
  match d.default with
  | none => { key := d.key, point := point }
  | some value => { key := d.key, hasDefault := true, defaultValue := value, point := point }

def constructorParameter (c : Class) (d : Declared) : Class :=
  { c with signature.constructor :=
      c.signature.constructor ++ [d.parameter c.name constructorMethod] }

def setter (c : Class) (optional : Bool) (method : String) (parameters : List Declared)
    (call : Method) : Class :=
  { c with
    signature.setters := c.signature.setters ++
      [⟨method, parameters.map (Declared.parameter c.name method), optional⟩]
    methods := c.methods.insert method call }

def postConstruct (c : Class) (method : String) (call : Object → Except Error (List Value)) : Class :=
  { c with
    signature.hook := some method
    methods := c.methods.insert method fun object _ => call object }

def provides (c : Class) (provide : Provide) : Class := { c with provide := some provide }

/-- A new object with the given identity. -/
def make (c : Class) (id : Nat) (arguments : List Value) : Except Error Object := do
  let kept ← c.construct arguments
  .ok ⟨id, c.type, c.name, [⟨constructorMethod, arguments, kept⟩]⟩

/-- The object after a method call; the object's type must be the one of the class. -/
def invoke (c : Class) (object : Object) (method : String) (arguments : List Value) :
    Except Error Object :=
  match c.methods.get? method with
  | none => .error (.instantiation c.name ("no injectable method " ++ method))
  | some call =>
    if object.type = c.type then do
      let kept ← call object arguments
      .ok (object.record ⟨method, arguments, kept⟩)
    else .error (.instantiation c.name "target has a different type")

def hookOf (c : Class) (object : Object) (context : Option String) (point : Option Point) :
    Except Error Hook :=
  match c.provide with
  | none => .error (.instantiation c.name "class is not a provider")
  | some provide =>
    if object.type = c.type then .ok (provide object context point)
    else .error (.instantiation c.name "provider has a different type")

end Class

abbrev Registry := SortedMap String Class

namespace Registry

/-- Adds a class; it takes the place of an earlier one of its name. -/
def register (r : Registry) (c : Class) : Registry := r.insert c.name c

def ofClasses (classes : List Class) : Registry := classes.foldl register SortedMap.empty

def signature? (r : Registry) (className : String) : Option Signature :=
  (r.get? className).map Class.signature

def debugText (r : Registry) : String :=
  "ClassRegistry \x7b classes: [" ++ String.intercalate ", " (r.keys.map Text.quote) ++ "] \x7d"

end Registry
end Wiring
