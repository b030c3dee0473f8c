import Wiring.Proofs.Dialogue.Protocol
import Wiring.Proofs.Purity
import Mathlib.Data.Set.Insert
import Mathlib.Order.Interval.Set.Defs

/-! # Identities that functions know

Functions cannot make up objects: what they hand out they were given, or it was there before. While one
object is made, the identities taken for it are known to its own functions only; whoever answers questions
in between does not meet them. So a world has the identities that are shared, and those of the object that
is being made.
-/
namespace Wiring

def Matching.same (ids : Set Nat) : Matching := fun i j => i = j ∧ i ∈ ids

def Value.Over (ids : Set Nat) (v : Value) : Prop := Value.Alike (.same ids) v v

variable {ids ids' : Set Nat} {v : Value} {vs : List Value} {old : Nat}

theorem Value.Over.mono (sub : ids ⊆ ids') (named : v.Over ids) : v.Over ids' :=
  Value.Alike.mono (fun _ _ both => ⟨both.1, sub both.2⟩) named

theorem forall_over_iff : (∀ v ∈ vs, v.Over ids) ↔ List.Forall₂ (Value.Alike (.same ids)) vs vs := by
  rw [List.forall₂_same]
  rfl

theorem Matching.fixes_same (sub : Set.Iio old ⊆ ids) : (Matching.same ids).Fixes old where
  oneToOne both both' := by
    obtain ⟨rfl, -⟩ := both
    obtain ⟨rfl, -⟩ := both'
    exact Iff.rfl
  fixed _ lt := ⟨rfl, sub lt⟩

theorem Value.Over.record {o : Object} (named : o.value.Over ids) (method : String)
    {arguments kept : List Value} (given : ∀ v ∈ arguments, v.Over ids) (keeps : ∀ v ∈ kept, v.Over ids) :
    (o.record ⟨method, arguments, kept⟩).value.Over ids :=
  Object.Alike.record (o := o) named method (forall_over_iff.mp given) (forall_over_iff.mp keeps)

theorem Value.over_object {i : Nat} (member : i ∈ ids) (type className method : String)
    {arguments kept : List Value} (given : ∀ v ∈ arguments, v.Over ids) (keeps : ∀ v ∈ kept, v.Over ids) :
    (Value.object i type className [⟨method, arguments, kept⟩]).Over ids :=
  ⟨⟨rfl, member⟩, rfl, rfl, rfl, valuesAlike_iff.mpr (forall_over_iff.mp given),
    valuesAlike_iff.mpr (forall_over_iff.mp keeps), trivial⟩

/-- Identities that are known to all, and those of the object that is being made. -/
structure Names where
  known : Set Nat
  own : Set Nat

namespace Names

instance : Preorder Names where
  le w w' := w.known ⊆ w'.known ∧ w.own ⊆ w'.own
  le_refl _ := ⟨subset_rfl, subset_rfl⟩
  le_trans _ _ _ first later := ⟨first.1.trans later.1, first.2.trans later.2⟩

/-- What is known to all, counting the objects that were there before. -/
def shared (old : Nat) (w : Names) : Set Nat := Set.Iio old ∪ w.known

def all (old : Nat) (w : Names) : Set Nat := w.shared old ∪ w.own

variable {w w' : Names}

theorem shared_mono (le : w ≤ w') : w.shared old ⊆ w'.shared old := Set.union_subset_union_right _ le.1

theorem all_mono (le : w ≤ w') : w.all old ⊆ w'.all old := Set.union_subset_union (shared_mono le) le.2

end Names

/-- Only objects that were known are given, and those that are being made. -/
def Protocol.identities (old : Nat) : Protocol Names where
  given w v := v.Over (w.all old)
  made w i := i ∈ w.own
  fails _ := True
  take w i := { w with own := insert i w.own }
  le_take w i := ⟨subset_rfl, Set.subset_insert i w.own⟩
  made_take w i := Set.mem_insert i w.own
  given_mono le named := named.mono (Names.all_mono le)
  made_mono le member := le.2 member
  literal _ _ := rfl
  object type className method member given keeps :=
    Value.over_object (.inr member) type className method given keeps
  record method named given keeps := named.record method given keeps
  unknownClass _ := trivial
  instantiation _ _ := trivial
  circular _ := trivial

/-- Functions hand out no objects but those that they are given and those that were there before. -/
def Registry.Honest (old : Nat) (registry : Registry) : Prop :=
  registry.Respects (.identities old) fun _ => True

section
variable {w : Names}

theorem expects_of_agree {α : Type} {V : Names → α → Prop} {R : α → α → Prop} {x : Except Error α}
    (agree : Agree R x x) (fits : ∀ a, R a a → V w a) : (Protocol.identities old).Expects V w x := by
  cases x with
  | error e => trivial
  | ok a =>
    cases agree with
    | ok same => exact fits a same

theorem Hook.Alike.obeys {hook : Hook} (alike : ∀ w', w ≤ w' → Hook.Alike (.same (w'.all old)) hook hook) :
    hook.Obeys (.identities old) (fun _ => True) w := by
  induction hook generalizing w with
  | finish outcome =>
    refine expects_of_agree (alike w (le_refl w)) fun offer same => ?_
    cases offer with
    | existing value => exact same
    | fresh type className arguments => exact forall_over_iff.mpr same.2.2
  | lookup key point next ih =>
    refine ⟨trivial, fun w' le answer expects => ih answer fun w'' le' => ?_⟩
    refine (alike w'' (le.trans le')).2.2 answer answer ?_
    cases answer with
    | error e => exact .error e
    | ok v => exact .ok (Value.Over.mono (Names.all_mono le') expects)

theorem Registry.Pure.honest {registry : Registry} (pure : registry.Pure old) : registry.Honest old := by
  intro name c found
  have pure : c.Pure old := pure name c found
  have fixes : ∀ w : Names, (Matching.same (w.all old)).Fixes old := fun w =>
    Matching.fixes_same fun _ lt => .inl (.inl lt)
  have kept : ∀ {w : Names} (vs : List Value), List.Forall₂ (Value.Alike (.same (w.all old))) vs vs →
      (Protocol.identities old).AllGiven w vs := fun _ same => forall_over_iff.mpr same
  refine ⟨fun {w _} all => ?_, fun found w o vs given all => ?_, fun found w o context point given => ?_⟩
  · exact expects_of_agree (pure.construct (fixes w) (forall_over_iff.mp all)) kept
  · exact expects_of_agree (pure.method found (fixes w) given (forall_over_iff.mp all)) kept
  · refine Hook.Alike.obeys fun w' le => pure.provide found (fixes w') ?_ context point
    exact Value.Over.mono (Names.all_mono le) given

end

def Protocol.anything : Protocol OneWorld :=
  .ofErrors (fun _ => True) (fun _ => trivial) (fun _ _ => trivial) fun _ => trivial

theorem respects_anything (registry : Registry) : registry.Respects .anything fun _ => True := by
  have expects : ∀ {α : Type} {V : OneWorld → α → Prop} (x : Except Error α), (∀ a, V .only a) →
      Protocol.anything.Expects V .only x := by
    intro α V x all
    cases x with
    | ok a => exact all a
    | error e => trivial
  have given : ∀ vs, Protocol.anything.AllGiven .only vs := fun _ _ _ => trivial
  have hooks : ∀ (hook : Hook) w, hook.Obeys .anything (fun _ => True) w := by
    intro hook
    induction hook with
    | finish outcome =>
      refine fun w => expects outcome fun offer => ?_
      cases offer with
      | existing value => trivial
      | fresh type className arguments => exact given arguments
    | lookup key point next ih => exact fun w => ⟨trivial, fun w' _ answer _ => ih answer w'⟩
  intro name c found
  exact ⟨fun _ => expects _ given, fun _ _ _ _ _ _ => expects _ given, fun _ _ _ _ _ _ => hooks _ _⟩

end Wiring
