import Wiring.Proofs.Compile.Writing
import Wiring.Proofs.Follow.Interpreter
import Wiring.Proofs.Follow.Runner
import Wiring.Proofs.MemoryStore
import Wiring.TwoPhase

/-! # Both phases agree

The first answer of a compiler over an empty store comes from the interpreter, and the pass after it
compiles every binding of the table that the interpreter ended with. The interpreter has then followed
the drafts of the plans that were written, which a fresh runner over the store follows too.
-/
namespace Wiring.TwoPhase
open Act Store Compile Draft Wiring.Runtime

variable {σ : Type} [Store σ]

theorem holds_of_success [LawfulStore σ] {table : Table} {time : Instant} {s t : σ} {r : Report}
    (empty : Empty s) (ran : (pass .interpreted table time).runOn s = (.ok r, t)) :
    Complete table ∧ Runner.Holds table (⟨t, SortedMap.empty, none⟩ : Runner.Memory σ) := by
  obtain ⟨held, snapshot⟩ := hasPlan_of_pass fixed_interpreted ran
  have writes : Writes noScopes table s ((pass .interpreted table time).runOn s).2 :=
    writes_pass fixed_interpreted time s
  rw [ran] at writes
  have planned : ∀ {key binding}, table.get? key = some binding →
      ∃ p, Planned table key p ∧ slot t key = (true, .ok (some p)) := by
    intro key binding bound
    rcases slots_of_writes empty writes key with absent | planned
    · have none : hasPlan t key = false := congrArg Prod.fst absent
      rw [held bound] at none
      cases none
    · exact planned
  refine ⟨fun bound => ?_, ⟨slots_of_writes empty writes, ⟨time, snapshot⟩, nofun, .inl rfl⟩,
    fun given => ?_⟩
  · obtain ⟨p, ⟨binding', bound', compiled⟩, -⟩ := planned bound
    obtain rfl := Option.some.inj (bound.symm.trans bound')
    exact ⟨p, compiled⟩
  · obtain ⟨binding, bound, -⟩ := id given
    obtain ⟨q, planned, there⟩ := planned bound
    rwa [given.unique planned]

theorem ends_request (stage : Stage) {key : Key} {born : Nat} (le : stage.old ≤ born) {before : Table}
    {v : Value} {t : Interpreter.State} (complete : Complete t.own)
    (answered : (Interpreter.request stage.registry key none).runOn (Runtime.start born before) =
      (.ok v, t)) :
    ∃ binding, t.own.get? key = some binding ∧
      (Interpreter.limited stage t.own).Ends none [] (fun i j => i = j ∧ i < stage.old) 0
        (Runtime.start born before) Value.Alike
        ((Interpreter.limited stage t.own).deliverDraft none key binding.scope) (.ok v, t) := by
  have resolves : Interpreter.Resolves stage t.own [] _ := Interpreter.resolves_resolve complete
    (Interpreter.bindable stage.registry (Runtime.start born before)) []
  have looked : (Interpreter.request stage.registry key none).runOn (Runtime.start born before) = _ :=
    Interpreter.runOn_lookup _ key none (Runtime.start born before)
  rw [answered] at looked
  cases found : Interpreter.known stage.registry before key with
  | none =>
    rw [Runtime.start, found] at looked
    cases looked
  | some binding =>
    rw [Runtime.start, found] at looked
    let learnt : Interpreter.State := Runtime.start born (Interpreter.learn stage.registry before key)
    have resolved : (Interpreter.resolve stage.registry
        (Interpreter.bindable stage.registry (Runtime.start born before)) key binding none).runOn learnt =
        (.ok v, t) := looked.symm
    have grows : Interpreter.Grows stage.registry (Interpreter.learn stage.registry before key)
        (_, t).2.own := resolved ▸ resolves.moves key binding none learnt
    have bound : t.own.get? key = some binding := (Interpreter.get?_of_learn grows).trans found
    have limit : (Interpreter.limited stage t.own).limit t.own :=
      refl_of (Interpreter.Grows stage.registry) t.own
    have tracks : (Interpreter.limited stage t.own).Tracks none [] (fun i j => i = j ∧ i < stage.old) 0
        learnt := Scene.tracks_start _ le trivial
    have ends := resolves.follows bound none _ _ _ (fun _ _ => id) tracks
    rw [resolved] at ends
    exact ⟨binding, bound, (ends limit).of_own⟩

theorem ends_runner (stage : Stage) {table : Table} {key : Key} {born : Nat} (le : stage.old ≤ born)
    {store : σ} (complete : Complete table)
    (holds : Runner.Holds table (⟨store, SortedMap.empty, none⟩ : Runner.Memory σ)) {binding : Binding}
    (bound : table.get? key = some binding) :
    (Runner.holding stage table).Ends none [] (fun i j => i = j ∧ i < stage.old) 0
      (Runner.start born store) Value.Alike
      ((Runner.holding (σ := σ) stage table).deliverDraft none key binding.scope)
      ((Runner.request stage.registry key none).runOn (Runner.start born store)) := by
  obtain ⟨p, compiled⟩ := complete bound
  have planned : Planned table key p := ⟨binding, bound, compiled⟩
  have room : Runner.Room table (Runner.runnable stage.registry (Runner.start born store)) [] :=
    ⟨List.nodup_nil, nofun, Runner.size_le_runnable holds.serves stage.registry⟩
  have tracks : (Runner.holding stage table).Tracks none [] (fun i j => i = j ∧ i < stage.old) 0
      (Runner.start born store) := Scene.tracks_start _ le holds
  rw [← planFor_scope compiled]
  exact Runner.follows_obtain complete room planned nofun none none _ _ _ (fun _ _ => id) tracks trivial

/-- If the first answer of a compiler over an empty store is a value, a fresh runner over the store that
it left answers a value of the same shape. -/
theorem runner_answers_alike [LawfulStore σ] {registry : Registry} {old : Nat}
    (purity : registry.Pure old) (quiet : registry.Quiet) (table : Table) {store : σ}
    (empty : Empty store) (time : Instant) (key : Key) {born born' : Nat} (h : old ≤ born)
    (h' : old ≤ born') {v : Value} {s : State σ}
    (answered : (request registry time key).runOn ⟨Runtime.start born table, store⟩ = (.ok v, s)) :
    ∃ w t, (Runner.request registry key none).runOn (Runner.start born' s.store) = (.ok w, t) ∧
      SameShape v w := by
  obtain ⟨naming, injective, above⟩ := exists_naming old
  let stage : Stage := ⟨registry, naming, old, injective, above, purity, quiet⟩
  unfold request at answered
  obtain ⟨_, _, first, answered⟩ := runOn_bind_eq_ok.mp answered
  obtain ⟨r, _, passed, answered⟩ := runOn_bind_eq_ok.mp answered
  cases answered
  rcases resolved : (Interpreter.request registry key none).runOn (Runtime.start born table) with ⟨_, t⟩
  rw [onInterpreter, runOn_onPart, resolved] at first
  cases first
  rcases written : (pass .interpreted t.own time).runOn store with ⟨_, stored⟩
  simp only [TwoPhase.compile, runOn_bind, runOn_get, onStore, runOn_onPart, written] at passed
  cases passed
  obtain ⟨complete, holds⟩ := holds_of_success empty written
  obtain ⟨binding, bound, ends⟩ := ends_request stage h complete resolved
  exact Scene.sameShape_of_ends ends trivial (ends_runner stage h' complete holds bound)

/-- A `B` made of what `a` stands for and a default. One of its setters takes `a` again, the other one
is optional and needs a key that nothing binds. -/
def sharingB : Class :=
  let takes (name : String) : Class.Declared := ⟨name, .plain name, none⟩
  Class.define "B" "B" (fun _ => .ok [])
    |>.constructorParameter (takes "a")
    |>.constructorParameter ⟨"n", .plain "n", some Json.null⟩
    |>.setter true "late" [takes "a", takes "u"] (fun _ arguments => .ok arguments)
    |>.setter false "again" [takes "a"] (fun _ arguments => .ok arguments)

def sharingRegistry : Registry := .ofClasses [.define "A" "A" fun _ => .ok [], sharingB]

def oneA : Table := .ofList [(.plain "a", .build ⟨⟨"A", [], [], none⟩, .singleton⟩)]

theorem pure_sharingRegistry : Registry.Pure 0 sharingRegistry := by
  have none : PureConstructor 0 fun _ => .ok [] := fun _ _ _ _ => .ok .nil
  have keeps : PureMethod 0 fun _ arguments => .ok arguments := fun _ _ _ _ _ _ arguments => .ok arguments
  refine Registry.pure_ofClasses ?_
  intro c member
  simp only [List.mem_cons, List.not_mem_nil, or_false] at member
  rcases member with rfl | rfl
  · exact Class.pure_define "A" "A" none
  · exact ((((Class.pure_define "B" "B" none).constructorParameter _).constructorParameter _).setter
      true "late" _ keeps).setter false "again" _ keeps

theorem quiet_sharingRegistry : Registry.Quiet sharingRegistry := by
  have never : ∀ {values : List Value} {e : Error}, Except.ok values = .error e → e.isUnbound = false :=
    nofun
  refine Registry.quiet_ofClasses ?_
  intro c member
  simp only [List.mem_cons, List.not_mem_nil, or_false] at member
  rcases member with rfl | rfl
  · exact Class.quiet_define "A" "A" never
  · exact ((((Class.quiet_define "B" "B" never).constructorParameter _).constructorParameter _).setter
      true "late" _ never).setter false "again" _ never

/-- The optional setter is left out on both sides, and the other one is given the `A` that the
constructor was given. -/
theorem runner_shares_alike :
    let a : Value := .object 0 "A" "A" [⟨constructorMethod, [], []⟩]
    let b : Value := .object 1 "B" "B"
      [⟨constructorMethod, [a, .literal Json.null], []⟩, ⟨"again", [a], [a]⟩]
    let start : State (MemoryStore .none) := ⟨Runtime.start 0 oneA, MemoryStore.start .none⟩
    let compiled := ((request sharingRegistry default (.plain "B")).runOn start).2
    ∃ w t, (Runner.request sharingRegistry (.plain "B") none).runOn (Runner.start 7 compiled.store) =
      (.ok w, t) ∧ SameShape b w :=
  runner_answers_alike pure_sharingRegistry quiet_sharingRegistry oneA MemoryStore.empty_start default
    (.plain "B") (Nat.le_refl 0) (Nat.zero_le 7) rfl

end Wiring.TwoPhase
