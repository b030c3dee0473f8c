import Wiring.Proofs.Follow.Deliver
import Wiring.Proofs.Runner

/-! # The runner follows the drafts of plans

A runner over a store that has every plan of a table never compiles, and what it runs is what is
drafted. It refuses a cycle when it comes back to a key, and nothing is drafted then at any depth, so
whatever has a draft has an answer.
-/
namespace Wiring.Runner
open Act Compile Filter Store Wiring.Runtime

variable {σ : Type} [Store σ]

def holding (stage : Stage) (table : Table) : Scene (Memory σ) where
  __ := stage
  plans := plansOf table
  good := Holds table
  limit _ := True
  strict := True

variable {stage : Stage} {table : Table} {owner : Option Key} {active : List Key} {least : Matching}

theorem moves_holding {α : Type} {x : Run σ α} : x.Moves (OnOwn (holding stage table).Backward) :=
  fun _ => id

theorem runOn_planFor_held {registry : Registry} {s : State σ} (holds : Holds table s.own) {key : Key}
    {p : Plan} (planned : Planned table key p) (point : Option Point) :
    ∃ m, Holds table m ∧ (planFor registry key point).runOn s = (.ok p, { s with own := m }) := by
  obtain ⟨m, serves, same, loaded⟩ := runOn_load_some holds.serves planned (holds.held planned)
  refine ⟨m, ⟨serves, fun planned => ?_⟩, ?_⟩
  · rw [same]
    exact holds.held planned
  · simp only [planFor, runOn_bind, loaded, runOn_pure]

def Performs (stage : Stage) (table : Table) (owner : Option Key) (active : List Key) (ask : Obtain σ)
    (o : Operand) : Prop :=
  ∀ least, (holding stage table).Follows owner active least Value.Alike (operand ask o)
    ((holding (σ := σ) stage table).operandDraft owner o)

section
variable {ask : Obtain σ}

theorem performs_of_key {o : Operand} (each : ∀ key, o.key? = some key → ∀ least scope point,
      (holding stage table).Follows owner active least Value.Alike (ask key (some scope) point)
        ((holding (σ := σ) stage table).deliverDraft owner key scope)) :
    Performs stage table owner active ask o := by
  intro least
  cases o with
  | literal value => exact Scene.follows_pure fun _ => rfl
  | reference scope key => exact each key rfl least scope none
  | deferred scope key point => exact each key rfl least scope (some point)

theorem follows_operands {operands : List Operand}
    (performs : ∀ o ∈ operands, Performs stage table owner active ask o) :
    List.Forall₂ (fun x y => (holding stage table).Follows owner active least Value.Alike
      (operand ask x) ((holding (σ := σ) stage table).operandDraft owner y)) operands operands :=
  List.forall₂_same.mpr fun o member => performs o member least

theorem follows_calls {calls : List Call}
    (performs : ∀ call ∈ calls, ∀ o ∈ call.operands, Performs stage table owner active ask o)
    {c : Class} (known : ∃ name, stage.registry.get? name = some c) {o' o : Object}
    (objects : Object.Alike least o' o) :
    (holding stage table).Follows owner active least Object.Alike
      ((calls.map step).foldlM (callSetter (operand ask) c) o) fun depth => calls.foldlM
        (Draft.call (fun o => (holding (σ := σ) stage table).operandDraft owner o depth) c) o' := by
  induction calls generalizing least o' o with
  | nil => exact Scene.follows_pure fun le => objects.mono le
  | cons call rest ih =>
    obtain ⟨first, others⟩ := List.forall_mem_cons.mp performs
    rw [List.map_cons, List.foldlM_cons]
    exact (Scene.follows_callSetter (fun _ => moves_holding) known rfl (follows_operands first)
      objects).bind (fun _ => moves_holding) fun _ same => ih others same

theorem follows_construct {a : Assembly}
    (performs : ∀ o ∈ a.allOperands, Performs stage table owner active ask o) :
    (holding stage table).Follows owner active least (MadeAlike stage.registry)
      (construct stage.registry ask a) fun depth => Draft.assemble stage.registry stage.naming
      (fun o => (holding (σ := σ) stage table).operandDraft owner o depth) owner a := by
  refine Scene.follows_assemble (fun _ => moves_holding)
    (follows_operands fun o member => performs o (List.mem_append_left _ member)) ?_
  intro chart c o' o le known objects
  refine follows_calls (fun call made o member => performs o ?_) known objects
  exact List.mem_append_right _ (List.mem_flatMap.mpr ⟨call, made, member⟩)

theorem follows_evaluate {p : Plan}
    (performs : ∀ o ∈ p.operands, Performs stage table owner active ask o) (point : Option Point) :
    (holding stage table).Follows owner active least Value.Alike (evaluate stage.registry ask p point)
      fun depth => Draft.evaluate stage.registry stage.naming
        (fun o => (holding (σ := σ) stage table).operandDraft owner o depth) owner p.body := by
  unfold Plan.operands Plan.assembly? at performs
  unfold evaluate
  cases body : p.body with
  | literal value => exact Scene.follows_pure fun _ => rfl
  | construct a =>
    rw [body] at performs
    refine (follows_construct performs).bind (fun _ => moves_holding) fun _ alike => ?_
    exact Scene.follows_pure fun le => alike.objects.mono le
  | provide a context =>
    rw [body] at performs
    refine (follows_construct performs).bind (fun _ => moves_holding) fun _ alike => ?_
    exact Scene.follows_provide alike context point

end

/-- A key that is reached from every key being resolved. -/
def Reached (table : Table) (active : List Key) (key : Key) : Prop :=
  ∀ user ∈ active, Relation.TransGen (Draft.Needs (plansOf table)) key user

theorem Reached.push {key needed : Key} (reached : Reached table active key)
    (needs : Draft.Needs (plansOf table) needed key) : Reached table (key :: active) needed :=
  List.forall_mem_cons.mpr ⟨.single needs, fun user member => .head needs (reached user member)⟩

/-- A key that is reached from itself has no draft. -/
theorem Reached.draft_eq_none {key : Key} (reached : Reached table active key) (member : key ∈ active)
    (owner : Option Key) (depth n : Nat) :
    ((holding (σ := σ) stage table).draft owner key depth).run n = none := by
  cases drafted : ((holding (σ := σ) stage table).draft owner key depth).run n with
  | none => rfl
  | some r => exact absurd (reached key member) (not_transGen_self (Draft.acc_of_value drafted))

theorem follows_planned {key : Key} {p : Plan} (planned : Planned table key p) (make : Plan → Run σ Value)
    {body : Option Key → Nat → Draft Value} (makes : (holding stage table).Makes active key (make p) body)
    (scope : Option Scope) (point : Option Point) :
    (holding stage table).Follows owner active least Value.Alike
      (do let p ← planFor stage.registry key point; deliver key (scope.getD p.scope) (make p))
      ((holding (σ := σ) stage table).deliverDraft owner key (scope.getD p.scope)) := by
  intro chart n s le tracks limit
  obtain ⟨m, holds, ran⟩ := runOn_planFor_held tracks.own planned point
  rw [runOn_bind, ran] at limit ⊢
  have tracks' : (holding stage table).Tracks owner active chart n { s with own := m } :=
    { tracks with own := holds }
  exact (Scene.follows_deliver makes _ chart n _ le tracks' limit).of_own

theorem follows_obtain (complete : Complete table) {depth : Nat} (room : Room table depth active)
    {key : Key} {p : Plan} (planned : Planned table key p) (reached : Reached table active key)
    (scope : Option Scope) (point : Option Point) :
    (holding stage table).Follows owner active least Value.Alike
      (obtain stage.registry depth key scope point : Run σ Value)
      ((holding (σ := σ) stage table).deliverDraft owner key (scope.getD p.scope)) := by
  induction depth generalizing active key p owner least scope point with
  | zero =>
    have found : plansOf table key = some p := plansOf_eq_some_iff.mpr planned
    obtain ⟨binding, bound, -⟩ := id planned
    -- A key that is not being resolved yet would leave room, so the end of nesting is out of reach.
    refine follows_planned planned (fun _ => tooDeep) ⟨Scene.draft_succ _ found, fun fresh => ?_,
      fun member _ => reached.draft_eq_none member⟩ scope point
    obtain ⟨left, impossible, -⟩ := room.push ⟨binding, bound⟩ fresh
    cases impossible
  | succ depth ih =>
    have found : plansOf table key = some p := plansOf_eq_some_iff.mpr planned
    obtain ⟨binding, bound, compiled⟩ := id planned
    refine follows_planned planned (fun p => evaluate stage.registry (obtain stage.registry depth) p point)
      ⟨Scene.draft_succ _ found, fun fresh owner => ?_, fun member _ => reached.draft_eq_none member⟩
      scope point
    obtain ⟨left, same, inner⟩ := room.push ⟨binding, bound⟩ fresh
    obtain rfl : depth = left := Nat.succ.inj same
    refine follows_evaluate (fun o member => performs_of_key fun needed asks least scope point => ?_) point
    obtain ⟨binding', bound'⟩ := bound_of_planFor compiled o member needed asks
    obtain ⟨q, compiled'⟩ := complete bound'
    have planned' : Planned table needed q := ⟨binding', bound', compiled'⟩
    exact ih inner planned' (reached.push ⟨p, found, o, member, asks⟩) (some scope) point

end Wiring.Runner
