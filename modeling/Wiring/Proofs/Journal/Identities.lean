import Mathlib.Data.List.Pairwise
import Wiring.Proofs.Journal

/-! # Journals and identities

Every identity that is taken in a run is in the journal once: an object with it has been completed, has been
given up, or is a hook's own.
-/
namespace Wiring
open Wiring.Runtime

variable {ι ρ α : Type}

def Event.identities : Event ι → List Nat
  | .completes _ _ _ o => [o.id]
  | .abandons _ _ begun _ => begun
  | .owns o => [o.id]
  | _ => []

def Takes (s : Runtime ρ) (ids : List Nat) (t : Runtime ρ) : Prop :=
  s.born ≤ t.born ∧ ids.Perm (List.range' s.born (t.born - s.born))

namespace Takes
variable {s t u : Runtime ρ} {ids ids' : List Nat}

theorem nothing (same : t.born = s.born) : Takes s [] t := by
  refine ⟨same.ge, ?_⟩
  rw [same, Nat.sub_self]
  exact .nil

theorem one (next : t.born = s.born + 1) : Takes s [s.born] t := by
  refine ⟨by omega, ?_⟩
  rw [next, Nat.add_sub_cancel_left]
  exact .refl _

theorem append (first : Takes s ids t) (later : Takes t ids' u) : Takes s (ids ++ ids') u := by
  obtain ⟨le, perm⟩ := first
  obtain ⟨le', perm'⟩ := later
  refine ⟨le.trans le', (perm.append perm').trans ?_⟩
  have span : s.born + (t.born - s.born) = t.born := by omega
  have total : t.born - s.born + (u.born - t.born) = u.born - s.born := by omega
  rw [← total, ← List.range'_append_1, span]

theorem perm (takes : Takes s ids t) (same : ids'.Perm ids) : Takes s ids' t :=
  ⟨takes.1, same.trans takes.2⟩

theorem nodup (takes : Takes s ids t) : ids.Nodup := takes.2.nodup_iff.mpr List.nodup_range'

theorem mem (takes : Takes s ids t) {i : Nat} (member : i ∈ ids) : s.born ≤ i ∧ i < t.born := by
  have bounds := List.mem_range'_1.mp (takes.2.mem_iff.mp member)
  have le := takes.1
  omega

end Takes

/-- Every identity taken is in the journal once. -/
def Accounted (s : Runtime ρ) (xs : List (Event ι)) (t : Runtime ρ) : Prop :=
  Takes s (xs.flatMap Event.identities) t

theorem Accounted.eq_of_mem {s t : Runtime ρ} {xs : List (Event ι)} (accounted : Accounted s xs t)
    {x y : Event ι} (hx : x ∈ xs) (hy : y ∈ xs) {i : Nat} (inside : i ∈ x.identities)
    (inside' : i ∈ y.identities) : x = y := by
  by_contra other
  have apart := (List.nodup_flatMap.mp accounted.nodup).2
  have : Std.Symm (Function.onFun List.Disjoint (Event.identities (ι := ι))) :=
    ⟨fun _ _ => List.Disjoint.symm⟩
  exact apart.forall hx hy other inside inside'

theorem stretch_accounted : Stretch (Accounted (ι := ι) (ρ := ρ)) where
  nil _ := .nothing rfl
  append first later := by
    unfold Accounted
    rw [List.flatMap_append]
    exact Takes.append first later

section
variable {answer : ι → Act (Runtime ρ) Value} {within : ι → Runtime ρ → List (Event ι)}
  (answers : ∀ q s, Accounted s (within q s) ((answer q).runOn s).2)
include answers

/-- A dialogue takes identities of its own besides those that are taken by the answers. -/
theorem takes_turns (d : Dialogue ι α) (s : Runtime ρ) :
    Takes s ((Turn.journal within (d.turns answer s)).flatMap Event.identities ++
      Turn.identities (d.turns answer s)) (d.runOn answer s).2 := by
  induction d generalizing s with
  | finish outcome => exact .nothing rfl
  | take make next ih =>
    have later := ih (make s.born) (Dialogue.taken (make s.born) s)
    rw [Dialogue.turns, Dialogue.runOn]
    generalize make s.born = made at later ⊢
    cases made with
    | error e => exact later
    | ok o => exact ((Takes.one rfl).append later).perm List.perm_middle
  | ask question next ih =>
    have all := (answers question s).append (ih ((answer question).runOn s).1 ((answer question).runOn s).2)
    rw [← List.append_assoc, ← List.flatMap_append] at all
    exact all

theorem accounted_blueprint (registry : Registry) (key : Key) (b : Blueprint ι) (s : Runtime ρ) :
    Accounted s (b.journal answer within registry key s) ((b.dialogue registry).runOn answer s).2 := by
  have verdict : (b.verdict key ((b.dialogue registry).turns answer s)
      ((b.dialogue registry).runOn answer s).1).identities =
      Turn.identities ((b.dialogue registry).turns answer s) := by
    cases ran : (b.dialogue registry).runOn answer s with
    | mk outcome t =>
      cases outcome with
      | error e => rfl
      | ok made => exact (Blueprint.built_of_dialogue ran).2.symm
  have takes := takes_turns answers (b.dialogue registry) s
  unfold Accounted Blueprint.journal
  rw [List.flatMap_append, List.flatMap_singleton, verdict]
  exact takes

theorem accounted_work {F : Finder ι ρ} (key : Key) (job : Job ι) (point : Option Point) (s : Runtime ρ) :
    Accounted s (F.work answer within key job point s) ((F.dialogue job point).runOn answer s).2 :=
  stretch_accounted.work answers (fun _ _ _ _ => .one rfl) (fun _ _ => .nothing rfl)
    (fun b _ s => accounted_blueprint answers F.registry key b s) point s

end

theorem born_leave (key : Key) (scope : Scope) (made : Except Error Value × Runtime ρ) :
    (leave key scope made).2.born = made.2.born := by
  obtain ⟨e | value, s⟩ := made
  · rfl
  · cases scope <;> rfl

theorem Injector.accounted_journal {I : Injector ι ρ} (ownOnly : I.OwnOnly)
    (depth : Nat) (q : ι) (s : Runtime ρ) :
    Accounted s (I.journal depth q s) ((I.answer depth q).runOn s).2 := by
  have found : ∀ {q s lead t}, I.find q s = (lead, t) → t.born = s.born := by
    intro q s lead t found
    rw [ownOnly.eq found]
  have carried : I.Carried fun _ _ s xs r => Accounted s xs r.2 := {
    missed := fun taken => .nothing (found taken)
    recalled := fun taken _ => .nothing (found taken)
    circular := fun taken _ => .nothing (found taken)
    stopped := fun _ taken _ _ => .nothing (found taken)
    made := fun {depth q s scope job t} taken _ _ inner ran making => by
      have worked := accounted_work (F := I.toFinder) inner (I.key q) job (I.point q) (entered (I.key q) t)
      rw [making] at worked
      have same : t.born = s.born := found taken
      exact stretch_accounted.around (.nothing same) worked (.nothing (born_leave (I.key q) scope ran)) }
  exact carried.journal depth q s

theorem Injector.accounted_chronicle {I : Injector ι ρ} (ownOnly : I.OwnOnly)
    (errands : List (Errand ι ρ)) (s : Runtime ρ) :
    Accounted s (I.chronicle errands s) (I.after errands s) :=
  stretch_accounted.chronicle (fun q s => I.accounted_journal ownOnly _ q s) (fun _ _ _ => .nothing rfl) s

end Wiring
