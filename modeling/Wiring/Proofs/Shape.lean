import Wiring.Value
import Mathlib.Data.List.Forall2

/-! # Values of the same shape

Identities are only good for telling objects apart. Two values have the same shape if some one-to-one
matching of identities turns the one into the other: the same literal, or objects of the same class
with the same calls in the same order, and one object wherever the other value has one object.
-/
namespace Wiring

/-- Identities matched with identities. -/
abbrev Matching := Nat → Nat → Prop

/-- Each identity has at most one partner on either side. -/
def Matching.OneToOne (β : Matching) : Prop :=
  ∀ {i j i' j' : Nat}, β i j → β i' j' → (i = i' ↔ j = j')

variable {β γ δ : Matching}

mutual
/-- Values that a matching of identities turns into one another. -/
def Value.Alike (β : Matching) : Value → Value → Prop
  | .literal a, .literal b => a = b
  | .object i type className history, .object j type' className' history' =>
    β i j ∧ type = type' ∧ className = className' ∧ callsAlike β history history'
  | _, _ => False

def callsAlike (β : Matching) : List (Invocation Value) → List (Invocation Value) → Prop
  | [], [] => True
  | ⟨method, arguments, kept⟩ :: rest, ⟨method', arguments', kept'⟩ :: rest' =>
    method = method' ∧ valuesAlike β arguments arguments' ∧ valuesAlike β kept kept' ∧
      callsAlike β rest rest'
  | _, _ => False

def valuesAlike (β : Matching) : List Value → List Value → Prop
  | [], [] => True
  | v :: rest, w :: rest' => Value.Alike β v w ∧ valuesAlike β rest rest'
  | _, _ => False
end

/-- The same value up to the identities of its objects. -/
def SameShape (v w : Value) : Prop := ∃ β : Matching, β.OneToOne ∧ Value.Alike β v w

mutual
theorem Value.Alike.mono (h : ∀ i j, β i j → γ i j) :
    ∀ {v w : Value}, Value.Alike β v w → Value.Alike γ v w
  | .literal _, .literal _, same => same
  | .object .., .object .., ⟨ids, type, className, calls⟩ =>
    ⟨h _ _ ids, type, className, callsAlike_mono h calls⟩

theorem callsAlike_mono (h : ∀ i j, β i j → γ i j) :
    ∀ {cs ds : List (Invocation Value)}, callsAlike β cs ds → callsAlike γ cs ds
  | [], [], _ => trivial
  | ⟨_, _, _⟩ :: _, ⟨_, _, _⟩ :: _, ⟨method, arguments, kept, rest⟩ =>
    ⟨method, valuesAlike_mono h arguments, valuesAlike_mono h kept, callsAlike_mono h rest⟩

theorem valuesAlike_mono (h : ∀ i j, β i j → γ i j) :
    ∀ {vs ws : List Value}, valuesAlike β vs ws → valuesAlike γ vs ws
  | [], [], _ => trivial
  | _ :: _, _ :: _, ⟨first, rest⟩ => ⟨first.mono h, valuesAlike_mono h rest⟩
end

mutual
theorem Value.Alike.span (h : ∀ i j k, β i j → γ i k → δ j k) :
    ∀ {u v w : Value}, Value.Alike β u v → Value.Alike γ u w → Value.Alike δ v w
  | .literal _, .literal _, .literal _, left, right => left.symm.trans right
  | .object .., .object .., .object .., ⟨ids, type, className, calls⟩, ⟨ids', type', className', calls'⟩ =>
    ⟨h _ _ _ ids ids', type.symm.trans type', className.symm.trans className',
      callsAlike_span h calls calls'⟩

theorem callsAlike_span (h : ∀ i j k, β i j → γ i k → δ j k) :
    ∀ {bs cs ds : List (Invocation Value)}, callsAlike β bs cs → callsAlike γ bs ds → callsAlike δ cs ds
  | [], [], [], _, _ => trivial
  | ⟨_, _, _⟩ :: _, ⟨_, _, _⟩ :: _, ⟨_, _, _⟩ :: _, ⟨method, arguments, kept, rest⟩,
      ⟨method', arguments', kept', rest'⟩ =>
    ⟨method.symm.trans method', valuesAlike_span h arguments arguments', valuesAlike_span h kept kept',
      callsAlike_span h rest rest'⟩

theorem valuesAlike_span (h : ∀ i j k, β i j → γ i k → δ j k) :
    ∀ {us vs ws : List Value}, valuesAlike β us vs → valuesAlike γ us ws → valuesAlike δ vs ws
  | [], [], [], _, _ => trivial
  | _ :: _, _ :: _, _ :: _, ⟨first, rest⟩, ⟨first', rest'⟩ =>
    ⟨first.span h first', valuesAlike_span h rest rest'⟩
end

/-- One-to-one matchings from a third side match the two others one to one. -/
theorem Matching.OneToOne.span (hβ : β.OneToOne) (hγ : γ.OneToOne) :
    Matching.OneToOne fun j k => ∃ i, β i j ∧ γ i k := by
  intro j k j' k' both both'
  obtain ⟨i, left, right⟩ := both
  obtain ⟨i', left', right'⟩ := both'
  exact (hβ left left').symm.trans (hγ right right')

theorem SameShape.of_common {u v w : Value} (hβ : β.OneToOne) (hγ : γ.OneToOne)
    (left : Value.Alike β u v) (right : Value.Alike γ u w) : SameShape v w :=
  ⟨_, hβ.span hγ, left.span (fun i _ _ ids ids' => ⟨i, ids, ids'⟩) right⟩

mutual
theorem Value.alike_refl : ∀ v : Value, Value.Alike (fun i j => i = j) v v
  | .literal _ => rfl
  | .object _ _ _ history => ⟨rfl, rfl, rfl, callsAlike_refl history⟩

theorem callsAlike_refl : ∀ cs : List (Invocation Value), callsAlike (fun i j => i = j) cs cs
  | [] => trivial
  | ⟨_, arguments, kept⟩ :: rest =>
    ⟨rfl, valuesAlike_refl arguments, valuesAlike_refl kept, callsAlike_refl rest⟩

theorem valuesAlike_refl : ∀ vs : List Value, valuesAlike (fun i j => i = j) vs vs
  | [] => trivial
  | v :: rest => ⟨v.alike_refl, valuesAlike_refl rest⟩
end

theorem SameShape.symm {v w : Value} (h : SameShape v w) : SameShape w v := by
  obtain ⟨β, oneToOne, alike⟩ := h
  refine ⟨fun j i => β i j, fun ids ids' => (oneToOne ids ids').symm, ?_⟩
  exact alike.span (fun i j k ids same => same ▸ ids) v.alike_refl

theorem SameShape.trans {u v w : Value} (first : SameShape u v) (later : SameShape v w) :
    SameShape u w := by
  obtain ⟨β, oneToOne, alike⟩ := first.symm
  obtain ⟨γ, oneToOne', alike'⟩ := later
  exact .of_common oneToOne oneToOne' alike alike'

mutual
def Value.rename (f : Nat → Nat) : Value → Value
  | .literal value => .literal value
  | .object id type className history => .object (f id) type className (renameCalls f history)

def renameCalls (f : Nat → Nat) : List (Invocation Value) → List (Invocation Value)
  | [] => []
  | ⟨method, arguments, kept⟩ :: rest =>
    ⟨method, renameValues f arguments, renameValues f kept⟩ :: renameCalls f rest

def renameValues (f : Nat → Nat) : List Value → List Value
  | [] => []
  | v :: rest => v.rename f :: renameValues f rest
end

mutual
theorem Value.rename_id : ∀ v : Value, v.rename id = v
  | .literal _ => rfl
  | .object i type className history => congrArg (Value.object i type className) (renameCalls_id history)

theorem renameCalls_id : ∀ cs : List (Invocation Value), renameCalls id cs = cs
  | [] => rfl
  | ⟨method, arguments, kept⟩ :: rest => by
    rw [renameCalls, renameValues_id arguments, renameValues_id kept, renameCalls_id rest]

theorem renameValues_id : ∀ vs : List Value, renameValues id vs = vs
  | [] => rfl
  | v :: rest => by rw [renameValues, v.rename_id, renameValues_id rest]
end

section
variable {f f' : Nat → Nat}

mutual
theorem Value.Alike.renamed (h : ∀ i j, β i j → γ (f i) (f' j)) :
    ∀ {v w : Value}, Value.Alike β v w → Value.Alike γ (v.rename f) (w.rename f')
  | .literal _, .literal _, same => same
  | .object .., .object .., ⟨ids, type, className, calls⟩ =>
    ⟨h _ _ ids, type, className, callsAlike_renamed h calls⟩

theorem callsAlike_renamed (h : ∀ i j, β i j → γ (f i) (f' j)) :
    ∀ {cs ds : List (Invocation Value)}, callsAlike β cs ds →
      callsAlike γ (renameCalls f cs) (renameCalls f' ds)
  | [], [], _ => trivial
  | ⟨_, _, _⟩ :: _, ⟨_, _, _⟩ :: _, ⟨method, arguments, kept, rest⟩ =>
    ⟨method, valuesAlike_renamed h arguments, valuesAlike_renamed h kept, callsAlike_renamed h rest⟩

theorem valuesAlike_renamed (h : ∀ i j, β i j → γ (f i) (f' j)) :
    ∀ {vs ws : List Value}, valuesAlike β vs ws → valuesAlike γ (renameValues f vs) (renameValues f' ws)
  | [], [], _ => trivial
  | _ :: _, _ :: _, ⟨first, rest⟩ => ⟨first.renamed h, valuesAlike_renamed h rest⟩
end

theorem Value.Alike.rename (h : ∀ i j, β i j → γ (f i) j) {v w : Value} (alike : Value.Alike β v w) :
    Value.Alike γ (v.rename f) w := by
  have both : Value.Alike γ (v.rename f) (w.rename id) := alike.renamed h
  rwa [w.rename_id] at both

end

theorem valuesAlike_iff {vs ws : List Value} :
    valuesAlike β vs ws ↔ List.Forall₂ (Value.Alike β) vs ws := by
  induction vs generalizing ws with
  | nil => cases ws <;> simp [valuesAlike]
  | cons v vs ih => cases ws <;> simp [valuesAlike, ih]

theorem callsAlike_append {cs ds : List (Invocation Value)} {c d : Invocation Value}
    (earlier : callsAlike β cs ds) (last : callsAlike β [c] [d]) :
    callsAlike β (cs ++ [c]) (ds ++ [d]) := by
  induction cs generalizing ds with
  | nil =>
    cases ds with
    | nil => exact last
    | cons d' ds => exact earlier.elim
  | cons c' cs ih =>
    cases ds with
    | nil => exact earlier.elim
    | cons d' ds =>
      obtain ⟨method, arguments, kept, rest⟩ := earlier
      exact ⟨method, arguments, kept, ih rest⟩

def Object.Alike (β : Matching) (o p : Object) : Prop := Value.Alike β o.value p.value

theorem Object.Alike.type_eq {o p : Object} (h : Object.Alike β o p) : o.type = p.type := h.2.1

theorem Object.Alike.record {o p : Object} (h : Object.Alike β o p) (method : String)
    {vs ws kept kept' : List Value} (arguments : List.Forall₂ (Value.Alike β) vs ws)
    (keeps : List.Forall₂ (Value.Alike β) kept kept') :
    Object.Alike β (o.record ⟨method, vs, kept⟩) (p.record ⟨method, ws, kept'⟩) :=
  ⟨h.1, h.2.1, h.2.2.1, callsAlike_append h.2.2.2
    ⟨rfl, valuesAlike_iff.mpr arguments, valuesAlike_iff.mpr keeps, trivial⟩⟩

end Wiring
