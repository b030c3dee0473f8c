import Wiring.Proofs.Compile.Later
import Wiring.Proofs.Compile.Writing
import Wiring.Proofs.Interpreter
import Wiring.Proofs.MemoryStore
import Wiring.TwoPhase
import Mathlib.Data.List.Induction

/-! # Plans that later discoveries outdate

A compiler that resolves first compiles from a table that grows, and never compiles a key again. So
a plan is that of the table of the pass that wrote it, and in time it may differ from what the table
of now gives.
-/
namespace Wiring.TwoPhase
open Act Store Compile

variable {σ : Type} [Store σ] (registry : Registry)

/-- What can be asked of a compiler that resolves first. -/
inductive Command where
  | resolve (time : Instant) (key : Key)
  | compile (time : Instant)

def Command.run : Command → Run σ Unit
  | .resolve time key => do
    let _ ← request registry time key
  | .compile time => do
    let _ ← TwoPhase.compile time

def start (table : Table) (store : σ) : State σ := ⟨Runtime.start 0 table, store⟩

/-- The state after some commands, of which any may have failed. -/
def after (commands : List Command) (s : State σ) : State σ :=
  commands.foldl (fun s command => ((command.run registry).runOn s).2) s

theorem after_append (commands : List Command) (command : Command) (s : State σ) :
    after registry (commands ++ [command]) s =
      ((command.run registry).runOn (after registry commands s)).2 := by
  simp [after]

/-- The table has grown, and the plans written are those of the table it has become. -/
structure Advances (s t : State σ) : Prop where
  grows : Interpreter.Grows registry s.interpreter.own t.interpreter.own
  writes : Writes noScopes t.interpreter.own s.store t.store

theorem advances_compile [LawfulStore σ] (time : Instant) (s : State σ) :
    Advances registry s ((TwoPhase.compile time).runOn s).2 where
  grows := refl_of (Interpreter.Grows registry) s.interpreter.own
  writes := writes_pass fixed_interpreted time s.store

theorem advances_request [LawfulStore σ] (time : Instant) (key : Key) (s : State σ) :
    Advances registry s ((request registry time key).runOn s).2 := by
  have grows : Interpreter.Grows registry s.interpreter.own _ :=
    Interpreter.moves_request key none s.interpreter
  simp only [request, runOn_bind, onInterpreter, runOn_onPart]
  cases answered : (Interpreter.request registry key none).runOn s.interpreter with
  | mk r interpreter =>
    rw [answered] at grows
    cases r with
    | error e => exact ⟨grows, refl_of (Writes noScopes interpreter.own) s.store⟩
    | ok value =>
      have compiled := advances_compile registry time ⟨interpreter, s.store⟩
      cases ran : (TwoPhase.compile time).runOn (⟨interpreter, s.store⟩ : State σ) with
      | mk r t =>
        rw [ran] at compiled
        have all := trans_of (Interpreter.Grows registry) grows compiled.grows
        simp only [ran]
        cases r <;> exact ⟨all, compiled.writes⟩

theorem advances_run [LawfulStore σ] (command : Command) (s : State σ) :
    Advances registry s ((command.run registry).runOn s).2 := by
  cases command with
  | resolve time key =>
    have advanced := advances_request registry time key s
    simp only [Command.run, runOn_bind]
    cases ran : (request registry time key).runOn s with
    | mk r t =>
      rw [ran] at advanced
      cases r <;> exact advanced
  | compile time =>
    have advanced := advances_compile registry time s
    simp only [Command.run, runOn_bind]
    cases ran : (TwoPhase.compile time).runOn s with
    | mk r t =>
      rw [ran] at advanced
      cases r <;> exact advanced

/-- A plan that a command wrote where there was none, from the table that it left. -/
structure WrittenBy (registry : Registry) (start : State σ) (before : List Command)
    (command : Command) (key : Key) (binding : Binding) (p : Plan) : Prop where
  absent : hasPlan (after registry before start).store key = false
  bound : (after registry (before ++ [command]) start).interpreter.own.get? key = some binding
  compiled : planFor noScopes (after registry (before ++ [command]) start).interpreter.own key
    binding = .ok p
  there : slot (after registry (before ++ [command]) start).store key = (true, .ok (some p))

variable {registry}

theorem written_of_hasPlan [LawfulStore σ] {s : State σ} (empty : Empty s.store)
    (commands : List Command) {key : Key}
    (held : hasPlan (after registry commands s).store key = true) :
    ∃ before command binding p, before ++ [command] <+: commands ∧
      WrittenBy registry s before command key binding p ∧
      slot (after registry commands s).store key = (true, .ok (some p)) ∧
      Interpreter.Grows registry (after registry (before ++ [command]) s).interpreter.own
        (after registry commands s).interpreter.own := by
  induction commands using List.reverseRecOn with
  | nil =>
    have absent : hasPlan s.store key = false := congrArg Prod.fst (empty key)
    exact absurd (absent.symm.trans held) nofun
  | append_singleton commands last ih =>
    have advanced := advances_run registry last (after registry commands s)
    rw [← after_append] at advanced
    rcases advanced.writes key with same | ⟨absent, binding, p, bound, compiled, there⟩
    · obtain ⟨before, command, binding, p, isPrefix, written, there, grows⟩ :=
        ih ((hasPlan_of_slot same).symm.trans held)
      exact ⟨before, command, binding, p, isPrefix.trans (List.prefix_append _ _), written,
        same.trans there, trans_of (Interpreter.Grows registry) grows advanced.grows⟩
    · exact ⟨commands, last, binding, p, List.prefix_rfl, ⟨absent, bound, compiled, there⟩, there,
        refl_of (Interpreter.Grows registry) _⟩

theorem slot_after [LawfulStore σ] {s : State σ} {key : Key} {p : Plan}
    (there : slot s.store key = (true, .ok (some p))) (commands : List Command) :
    slot (after registry commands s).store key = (true, .ok (some p)) := by
  induction commands using List.reverseRecOn with
  | nil => exact there
  | append_singleton commands last ih =>
    have advanced := advances_run registry last (after registry commands s)
    rw [← after_append] at advanced
    rcases advanced.writes key with same | ⟨absent, -⟩
    · exact same.trans ih
    · exact absurd (absent.symm.trans (congrArg Prod.fst ih)) nofun

/-- After any commands, each plan in the store is what its key compiled to from the table of the pass that wrote
it, which is part of the table of now. The table of now compiles the key as well, and to the same plan if and only
if no key bound since is that of a parameter with its default in the plan, and no setter left out then has all its
arguments now. Whatever commands follow, the plan stays. -/
theorem plan_outdated_iff_unsettled [LawfulStore σ] (table : Table) {store : σ}
    (empty : Empty store) (commands : List Command) {key : Key}
    (held : hasPlan (after registry commands (start table store)).store key = true) :
    ∃ before command binding p p', before ++ [command] <+: commands ∧
      let past := after registry (before ++ [command]) (start table store)
      let now := after registry commands (start table store)
      hasPlan (after registry before (start table store)).store key = false ∧
      readPlan past.store key = .ok (some p) ∧ readPlan now.store key = .ok (some p) ∧
      (∀ later, slot (after registry later now).store key = (true, .ok (some p))) ∧
      (∀ q bound, past.interpreter.own.get? q = some bound → now.interpreter.own.get? q = some bound) ∧
      past.interpreter.own.get? key = some binding ∧ now.interpreter.own.get? key = some binding ∧
      ((plan .interpreted past.interpreter.own key binding).runOn past.store).1 = .ok p ∧
      ((plan .interpreted now.interpreter.own key binding).runOn now.store).1 = .ok p' ∧
      (p' = p ↔ Binding.Settled past.interpreter.own now.interpreter.own binding) := by
  obtain ⟨before, command, binding, p, isPrefix, written, there, grows⟩ :=
    written_of_hasPlan empty commands held
  obtain ⟨p', again, same⟩ := planFor_later grows.kept written.compiled
  refine ⟨before, command, binding, p, p', isPrefix, written.absent, congrArg Prod.snd written.there,
    congrArg Prod.snd there, slot_after there, fun _ _ => grows.kept, written.bound,
    grows.kept written.bound, ?_, ?_, same⟩
  · rw [runOn_plan fixed_interpreted]
    exact written.compiled
  · rw [runOn_plan fixed_interpreted]
    exact again

def five : Json := .leaf (.number (.integer ⟨5, by decide⟩))

def fallbackRegistry : Registry :=
  let bare (name : String) : Class := .define name name fun _ => .ok []
  .ofClasses [(bare "A").constructorParameter ⟨"b", .plain "B", some five⟩, bare "B", bare "C"]

def withoutB : Table :=
  let bound (name : String) := Interpreter.discovered ((fallbackRegistry.signature? name).getD default)
  .ofList [(.plain "A", bound "A"), (.plain "C", bound "C")]

/-- A request for `C` compiles `A` with its default; one for `B` then outdates that plan. -/
def outdating : List Command := [.resolve default (.plain "C"), .resolve default (.plain "B")]

def outdated : State (MemoryStore .none) :=
  after fallbackRegistry outdating (start withoutB (MemoryStore.start .none))

theorem plan_of_A_unsettled : ∃ past binding p p',
    readPlan outdated.store (.plain "A") = .ok (some p) ∧
    ((plan .interpreted outdated.interpreter.own (.plain "A") binding).runOn outdated.store).1 =
      .ok p' ∧
    p.operands = [.literal five] ∧ p'.operands = [.reference .prototype (.plain "B")] ∧
    ¬ Binding.Settled past outdated.interpreter.own binding := by
  obtain ⟨before, command, binding, p, p', -, -, -, there, -, -, -, bound, -, again, same⟩ :=
    @plan_outdated_iff_unsettled (MemoryStore .none) _ fallbackRegistry _ withoutB _
      MemoryStore.empty_start outdating (.plain "A") rfl
  have old : p.operands = [.literal five] := by
    cases there
    rfl
  have new : p'.operands = [.reference .prototype (.plain "B")] := by
    cases bound
    cases again
    rfl
  let past := after fallbackRegistry (before ++ [command]) (start withoutB (MemoryStore.start .none))
  refine ⟨past.interpreter.own, binding, p, p', there, again, old, new, fun settled => ?_⟩
  rw [same.mpr settled, old] at new
  cases new

/-- Not every plan in the store is what its key compiles to from the table of now, even if every
command so far has succeeded. -/
theorem plan_may_be_outdated : ¬ ∀ (registry : Registry) (table : Table) (commands : List Command)
    (last : Command),
    let before := after registry commands (start table (MemoryStore.start .none))
    let now := ((last.run registry).runOn before).2
    ((last.run registry).runOn before).1 = .ok () →
      ∀ key, hasPlan now.store key = true → ∃ binding p,
        now.interpreter.own.get? key = some binding ∧
        ((plan .interpreted now.interpreter.own key binding).runOn now.store).1 = .ok p ∧
        readPlan now.store key = .ok (some p) := by
  intro fresh
  obtain ⟨binding, p, bound, compiled, there⟩ := fresh fallbackRegistry withoutB
    [.resolve default (.plain "C")] (.resolve default (.plain "B")) rfl (.plain "A") rfl
  have old : p.operands = [.literal five] := by
    cases there
    rfl
  have new : p.operands = [.reference .prototype (.plain "B")] := by
    cases bound
    cases compiled
    rfl
  rw [old] at new
  cases new

end Wiring.TwoPhase
