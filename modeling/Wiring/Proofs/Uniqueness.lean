import Wiring.Proofs.Account.Identities
import Wiring.Proofs.Closure

/-! # One singleton, ever new prototypes

Over a whole run, whatever comes up in it, an interpreter and a runner deliver one value for a singleton,
and for a class that is bound as a prototype an object that was not delivered before.
-/
namespace Wiring
open Act Store

/-- For each singleton of a table, all that is delivered is one value. -/
def Table.OneEach (table : Table) (delivered : List (Key × Value)) : Prop :=
  ∀ key binding, table.get? key = some binding → binding.scope = .singleton →
    ∀ v w, (key, v) ∈ delivered → (key, w) ∈ delivered → v = w

/-- For each class that is a prototype, each delivery is an object that was not delivered earlier, for
whatever key. -/
structure Table.EachAnew (registry : Registry) (table : Table) (delivered : List (Key × Value)) : Prop where
  objects : ∀ x ∈ delivered, Interpreter.Fresh registry table x.1 → ∃ o : Object, o.value = x.2
  apart : delivered.Pairwise fun earlier later =>
    Interpreter.Fresh registry table later.1 → earlier.2.sameObject later.2 = false

variable {registry : Registry} {table : Table} {xs : List (Key × Value)} {c c' : Core} {old born : Nat}

theorem Table.oneEach_of_keeps (keeps : c.Keeps table.scopeOf xs c') : table.OneEach xs := by
  intro key binding bound single v w first second
  have scope : table.scopeOf key = .singleton := by
    unfold Table.scopeOf
    rw [bound]
    exact single
  exact keeps.unique scope first second

theorem Table.eachAnew_of_covers {w w' : Names}
    (covers : w.Covers old (Interpreter.Fresh registry table) c xs w' c') :
    table.EachAnew registry xs where
  objects x member fresh := by
    obtain ⟨o, same, -⟩ := covers.made x member fresh
    exact ⟨o, same⟩
  apart := covers.apart

theorem Interpreter.scope_of_fresh (registry : Registry) (table : Table) (key : Key)
    (fresh : Fresh registry table key) : table.scopeOf key = .prototype := by
  obtain ⟨recipe, bound, prototype⟩ := fresh
  exact (scope_of_known bound).symm.trans prototype

theorem Names.sound_start (le : old ≤ born) :
    Names.Sound old ⟨∅, ∅⟩ (⟨born, SortedMap.empty⟩ : Core) where
  old_le := le
  taken i member := by
    rcases member with (lt | known) | own
    · exact Nat.lt_of_lt_of_le lt le
    · exact known.elim
    · exact own.elim
  secret _ own := own.elim
  kept := nofun

namespace Interpreter

theorem oneEach_delivered (registry : Registry) (table : Table) (born : Nat)
    (requests : List (Key × Option Point)) :
    table.OneEach (delivered registry requests (Runtime.start born table)) := by
  let A := Account.singletons table.scopeOf (Fresh registry table)
  have start : A.Stands (Grows registry table) .only (Runtime.start born table) := ⟨refl_of _ table, trivial⟩
  obtain ⟨_, keeps⟩ := goes_delivered A (fun _ _ => trivial) (respects_anything registry) requests start
  exact Table.oneEach_of_keeps keeps

theorem eachAnew_delivered (honest : registry.Honest old) (table : Table) (le : old ≤ born)
    (requests : List (Key × Option Point)) :
    table.EachAnew registry (delivered registry requests (Runtime.start born table)) := by
  let A := Account.prototypes old table.scopeOf (Fresh registry table) (scope_of_fresh registry table)
  have start : A.Stands (Grows registry table) ⟨∅, ∅⟩ (Runtime.start born table) :=
    ⟨refl_of _ table, Names.sound_start le⟩
  obtain ⟨_, covers⟩ := goes_delivered A (fun _ _ => trivial) honest requests start
  exact Table.eachAnew_of_covers covers

end Interpreter

namespace Runner
variable {σ : Type} [Store σ]

theorem Serves.fitting {m : Memory σ} (serves : Serves table m) : Store.Fitting table m.store where
  snapshot := by
    obtain ⟨time, read⟩ := serves.snapshot
    exact ⟨time, table, read, .refl table⟩
  plans found := by
    obtain ⟨binding, bound, compiled⟩ := serves.planned found
    exact Compile.fits_of_planFor (.refl table) bound compiled

variable [LawfulStore σ] {stored : σ} (fitting : Store.Fitting table stored)
include fitting

theorem oneEach_delivered (registry : Registry) (born : Nat) (requests : List (Key × Option Point)) :
    table.OneEach (delivered registry requests (start born stored)) := by
  let A := Account.singletons table.scopeOf (Interpreter.Fresh registry table)
  have finds : Finds registry .anything table (fun _ => True) (Fitting (σ := σ) table) :=
    finds_fitting registry (fun _ => trivial) table
  have begins : A.Stands (Fitting table) .only (start born stored) := ⟨⟨fitting, nofun, nofun⟩, trivial⟩
  obtain ⟨_, -, keeps⟩ := goes_delivered A finds (respects_anything registry) (fun _ _ => trivial) begins
  exact Table.oneEach_of_keeps keeps

theorem eachAnew_delivered (honest : registry.Honest old) (le : old ≤ born)
    (requests : List (Key × Option Point)) :
    table.EachAnew registry (delivered registry requests (start born stored)) := by
  let A := Account.prototypes old table.scopeOf (Interpreter.Fresh registry table)
    (Interpreter.scope_of_fresh registry table)
  have finds : Finds registry (.identities old) table (fun _ => True) (Fitting (σ := σ) table) :=
    finds_fitting registry (fun _ => trivial) table
  have begins : A.Stands (Fitting table) ⟨∅, ∅⟩ (start born stored) :=
    ⟨⟨fitting, nofun, nofun⟩, Names.sound_start le⟩
  obtain ⟨_, -, covers⟩ := goes_delivered A finds honest (fun _ _ => trivial) begins
  exact Table.eachAnew_of_covers covers

end Runner

namespace TwoPhase

/-- Whatever an interpreter of a table is asked for, be it that requests, arguments or look-ups fail, all it
delivers for a singleton is one value. If the functions of the classes hand out only what they are given
and what was there before, then all it delivers for a class that is a prototype are objects that were not
delivered earlier. So it is with a runner over the store that a pass over the table leaves, if it succeeds
on an empty store. -/
theorem singletons_one_prototypes_new (registry : Registry) (table : Table) (born : Nat)
    (requests : List (Key × Option Point)) :
    (table.OneEach (Interpreter.delivered registry requests (Runtime.start born table)) ∧
      ∀ old, old ≤ born → registry.Honest old →
        table.EachAnew registry (Interpreter.delivered registry requests (Runtime.start born table))) ∧
    ∀ (σ : Type) [Store σ] [LawfulStore σ] (time : Instant) (store stored : σ) (r : Compile.Report),
      Store.Empty store → (Compile.pass .interpreted table time).runOn store = (.ok r, stored) →
      table.OneEach (Runner.delivered registry requests (Runner.start born stored)) ∧
        ∀ old, old ≤ born → registry.Honest old →
          table.EachAnew registry (Runner.delivered registry requests (Runner.start born stored)) := by
  refine ⟨⟨?_, fun old le honest => ?_⟩, fun σ _ _ time store stored r empty passed => ?_⟩
  · exact Interpreter.oneEach_delivered registry table born requests
  · exact Interpreter.eachAnew_delivered honest table le requests
  · obtain ⟨-, holds⟩ := holds_of_success empty passed
    have fitting : Store.Fitting table stored := holds.serves.fitting
    refine ⟨Runner.oneEach_delivered fitting registry born requests, fun old le honest => ?_⟩
    exact Runner.eachAnew_delivered fitting honest le requests

theorem pure_boxRegistry : Registry.Pure 0 boxRegistry := by
  have keeps : PureConstructor 0 .ok := fun _ _ _ arguments => .ok arguments
  refine Registry.pure_ofClasses ?_
  intro c member
  simp only [List.mem_cons, List.not_mem_nil, or_false] at member
  rcases member with rfl | rfl | rfl
  · exact Class.pure_define "A" "A" keeps
  · exact (Class.pure_define "P" "P" keeps).provides (Runner.pureProvide_lend _)
  · exact ((Class.pure_define "Box" "Box" keeps).constructorParameter _).constructorParameter _

/-- Two boxes are made, and each of them is given the `A` both as such and as lent. Nothing binds `u`. -/
theorem two_boxes_one_A :
    let requests : List (Key × Option Point) :=
      [(.plain "box", none), (.plain "u", none), (.plain "p", none), (.plain "box", none)]
    let made := Interpreter.delivered boxRegistry requests (Runtime.start 0 boxTable)
    let run := Runner.delivered boxRegistry requests (Runner.start 0 boxStore)
    let keys : List Key := ["a", "a", "p", "box", "a", "p", "a", "a", "p", "box"].map .plain
    boxTable.scopeOf (.plain "a") = .singleton ∧ Interpreter.Fresh boxRegistry boxTable (.plain "box") ∧
      (made.map Prod.fst = keys ∧ boxTable.OneEach made ∧ boxTable.EachAnew boxRegistry made) ∧
      run.map Prod.fst = keys ∧ boxTable.OneEach run ∧ boxTable.EachAnew boxRegistry run := by
  intro requests made run keys
  have honest : boxRegistry.Honest 0 := pure_boxRegistry.honest
  obtain ⟨⟨one, anew⟩, stored⟩ := singletons_one_prototypes_new boxRegistry boxTable 0 requests
  obtain ⟨one', anew'⟩ := stored (MemoryStore .none) default _ boxStore _ MemoryStore.empty_start rfl
  have fresh : Interpreter.Fresh boxRegistry boxTable (.plain "box") := ⟨_, rfl, rfl⟩
  exact ⟨rfl, fresh, ⟨rfl, one, anew 0 (le_refl 0) honest⟩, rfl, one', anew' 0 (le_refl 0) honest⟩

end TwoPhase
end Wiring
