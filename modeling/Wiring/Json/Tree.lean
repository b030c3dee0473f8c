import Wiring.Json.Number
import Wiring.SortedMap

/-! # Trees of the data format

`Tree σ` is a nesting of arrays and objects over leaves in `σ`; an object keeps its members as
they were written. `Json` is the tree over scalars. A literal is a `Json` whose objects are
`Sorted`: members in strictly increasing key order, so equal literals are equal trees.
-/
namespace Wiring

inductive Scalar where
  | null
  | bool (value : Bool)
  | number (value : Number)
  | string (value : String)
  deriving DecidableEq, Repr, Inhabited

inductive Tree (σ : Type) where
  | leaf (value : σ)
  | array (items : List (Tree σ))
  | object (members : List (String × Tree σ))
  deriving Repr

instance {σ : Type} [Inhabited σ] : Inhabited (Tree σ) := ⟨.leaf default⟩

abbrev Json := Tree Scalar

namespace Tree
variable {σ : Type}

mutual
def decEq [DecidableEq σ] : (a b : Tree σ) → Decidable (a = b)
  | .leaf a, .leaf b => decidable_of_iff (a = b) (by simp)
  | .array a, .array b =>
    have := decEqItems a b
    decidable_of_iff (a = b) (by simp)
  | .object a, .object b =>
    have := decEqMembers a b
    decidable_of_iff (a = b) (by simp)
  | .leaf _, .array _ | .leaf _, .object _ | .array _, .leaf _
  | .array _, .object _ | .object _, .leaf _ | .object _, .array _ => isFalse (by simp)

def decEqItems [DecidableEq σ] : (a b : List (Tree σ)) → Decidable (a = b)
  | [], [] => isTrue rfl
  | x :: a, y :: b =>
    have := decEq x y
    have := decEqItems a b
    decidable_of_iff (x = y ∧ a = b) (by simp)
  | [], _ :: _ | _ :: _, [] => isFalse (by simp)

def decEqMembers [DecidableEq σ] : (a b : List (String × Tree σ)) → Decidable (a = b)
  | [], [] => isTrue rfl
  | (k, x) :: a, (l, y) :: b =>
    have := decEq x y
    have := decEqMembers a b
    decidable_of_iff (k = l ∧ x = y ∧ a = b) (by simp [and_assoc])
  | [], _ :: _ | _ :: _, [] => isFalse (by simp)
end

instance [DecidableEq σ] : DecidableEq (Tree σ) := decEq

mutual
/-- How deep arrays and objects are nested; a leaf has depth zero. -/
def depth : Tree σ → Nat
  | .leaf _ => 0
  | .array items => depthItems items + 1
  | .object members => depthMembers members + 1

def depthItems : List (Tree σ) → Nat
  | [] => 0
  | x :: rest => max x.depth (depthItems rest)

def depthMembers : List (String × Tree σ) → Nat
  | [] => 0
  | (_, x) :: rest => max x.depth (depthMembers rest)
end

end Tree

namespace Json

def null : Json := .leaf .null
def bool (b : Bool) : Json := .leaf (.bool b)
def string (s : String) : Json := .leaf (.string s)
def number (n : Number) : Json := .leaf (.number n)

mutual
/-- Every object lists its members in strictly increasing key order. -/
def Sorted : Json → Prop
  | .leaf _ => True
  | .array items => SortedItems items
  | .object members => Ascending members ∧ SortedMembers members

def SortedItems : List Json → Prop
  | [] => True
  | x :: rest => Sorted x ∧ SortedItems rest

def SortedMembers : List (String × Json) → Prop
  | [] => True
  | (_, x) :: rest => Sorted x ∧ SortedMembers rest
end

mutual
/-- No number is a double. -/
def Integral : Json → Prop
  | .leaf (.number (.double _)) => False
  | .leaf _ => True
  | .array items => IntegralItems items
  | .object members => IntegralMembers members

def IntegralItems : List Json → Prop
  | [] => True
  | x :: rest => Integral x ∧ IntegralItems rest

def IntegralMembers : List (String × Json) → Prop
  | [] => True
  | (_, x) :: rest => Integral x ∧ IntegralMembers rest
end

mutual
/-- Gives zero doubles one sign, so that equal numbers are equal leaves. -/
def unsignZeros : Json → Json
  | .leaf (.number (.double d)) => .leaf (.number (.double d.unsignedZero))
  | .leaf s => .leaf s
  | .array items => .array (unsignZerosItems items)
  | .object members => .object (unsignZerosMembers members)

def unsignZerosItems : List Json → List Json
  | [] => []
  | x :: rest => unsignZeros x :: unsignZerosItems rest

def unsignZerosMembers : List (String × Json) → List (String × Json)
  | [] => []
  | (k, x) :: rest => (k, unsignZeros x) :: unsignZerosMembers rest
end

end Json
end Wiring
