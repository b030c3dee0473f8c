import Wiring.Value

/-! # Provider hooks

A hook is what a provider does when it is asked: look up keys one after another, each next step
depending on the answers so far, and end with an offer or an error. Being a well-founded tree, a
hook makes finitely many look-ups however they are answered.
-/
namespace Wiring

/-- What a hook ends with: a value it holds, or a new object of its own. -/
inductive Offer where
  | existing (value : Value)
  | fresh (type className : String) (arguments : List Value)

inductive Hook where
  | finish (outcome : Except Error Offer)
  | lookup (key : Key) (point : Option Point) (next : Except Error Value → Hook)

instance : Inhabited Hook := ⟨.finish (.ok (.existing default))⟩

end Wiring
