import Wiring.Proofs.Compile.Pass
import Wiring.Proofs.Settling.Interpreter
import Wiring.Proofs.Staleness

/-! # Requests deleted

A compiler that resolves first is asked for keys one after another, and some requests fail. If one of
them is deleted, the later ones resolve as before: they fail with the same errors or yield values of the
same shape. But what the deleted request had discovered is missing from the table, and so from the
bindings that later passes compile.
-/
namespace Wiring.TwoPhase
open Act Store Compile Interpreter

variable {σ : Type} [Store σ]

theorem interpreter_request (registry : Registry) (time : Instant) (key : Key) (s : State σ) :
    ((request registry time key).runOn s).2.interpreter =
      ((Interpreter.request registry key none).runOn s.interpreter).2 := by
  simp only [request, runOn_bind, onInterpreter, runOn_onPart]
  rcases (Interpreter.request registry key none).runOn s.interpreter with ⟨e | v, t⟩
  · rfl
  · simp only [TwoPhase.compile, runOn_bind, runOn_get, onStore, runOn_onPart]
    rcases (pass .interpreted t.own time).runOn s.store with ⟨e | r, stored⟩ <;> rfl

theorem fst_request (registry : Registry) (time : Instant) (key : Key) (s : State σ) :
    ((request registry time key).runOn s).1 =
      ((Interpreter.request registry key none).runOn s.interpreter).1 >>= fun v =>
        ((pass .interpreted ((Interpreter.request registry key none).runOn s.interpreter).2.own
          time).runOn s.store).1.map fun _ => v := by
  simp only [request, runOn_bind, onInterpreter, runOn_onPart]
  rcases (Interpreter.request registry key none).runOn s.interpreter with ⟨e | v, t⟩
  · rfl
  · simp only [TwoPhase.compile, runOn_bind, runOn_get, onStore, runOn_onPart]
    change _ = (((pass .interpreted t.own time).runOn s.store).1.map fun _ => v)
    rcases (pass .interpreted t.own time).runOn s.store with ⟨e | r, stored⟩ <;> rfl

theorem interpreter_run (registry : Registry) (command : Command) (s : State σ) :
    ((command.run registry).runOn s).2.interpreter = match command with
      | .resolve _ key => ((Interpreter.request registry key none).runOn s.interpreter).2
      | .compile _ => s.interpreter := by
  cases command with
  | resolve time key =>
    simp only [Command.run, runOn_bind, ← interpreter_request registry time key s]
    rcases (request registry time key).runOn s with ⟨e | v, t⟩ <;> rfl
  | compile time =>
    simp only [Command.run, TwoPhase.compile, runOn_bind, runOn_get, onStore, runOn_onPart]
    rcases (pass .interpreted s.interpreter.own time).runOn s.store with ⟨e | r, stored⟩ <;> rfl

/-- The keys that some commands have asked for, directly or not. -/
def askedFor (g : Grounds) (commands : List Command) : Set Key :=
  {needed | ∃ time key, .resolve time key ∈ commands ∧ g.Reaches key needed}

theorem askedFor_append (g : Grounds) (first later : List Command) :
    askedFor g (first ++ later) = askedFor g first ∪ askedFor g later := by
  ext needed
  simp only [askedFor, List.mem_append, Set.mem_ofPred_eq, Set.mem_union, or_and_right, exists_or]

theorem askedFor_resolve (g : Grounds) (time : Instant) (key : Key) :
    askedFor g [.resolve time key] = {needed | g.Reaches key needed} := by
  ext needed
  simp [askedFor]

theorem askedFor_compile (g : Grounds) (time : Instant) : askedFor g [.compile time] = ∅ := by
  ext needed
  simp [askedFor]

theorem sound_after (g : Grounds) {born : Nat} (le : g.old ≤ born) (store : σ)
    (commands : List Command) : g.Sound (askedFor g commands)
      (after g.registry commands ⟨Runtime.start born g.table, store⟩).interpreter := by
  -- From the end, since what the last command does depends on the state that the others left.
  induction commands using List.reverseRecOn with
  | nil =>
    have none : askedFor g [] = ∅ := by
      ext needed
      simp [askedFor]
    exact ⟨_, Grounds.tracks_start le g.table, none ▸ Grounds.knows_start g born⟩
  | append_singleton commands last ih =>
    rw [after_append, askedFor_append]
    cases last with
    | compile time =>
      rw [askedFor_compile, Set.union_empty, interpreter_run]
      exact ih
    | resolve time key =>
      rw [askedFor_resolve, interpreter_run]
      exact (Grounds.sound_request ih key).2

theorem get?_of_sound {g : Grounds} {asked asked' all : Set Key} {s t u : Interpreter.State}
    (one : g.Sound asked s) (other : g.Sound asked' t) (both : g.Sound all u)
    (union : all = asked ∪ asked') (q : Key) :
    u.own.get? q = (s.own.get? q).or (t.own.get? q) := by
  obtain ⟨-, -, one⟩ := one
  obtain ⟨-, -, other⟩ := other
  obtain ⟨-, -, both⟩ := both
  subst union
  ext binding
  rw [both.own]
  cases first : s.own.get? q with
  | some found =>
    obtain ⟨known, asked⟩ := one.own.mp first
    rw [Option.some_or, known]
    exact and_iff_left (asked.imp_right .inl)
  | none =>
    rw [Option.none_or, other.own]
    refine and_congr_right fun known => or_congr_right ⟨fun member => ?_, .inr⟩
    refine member.resolve_left fun early => ?_
    exact nomatch first.symm.trans (one.own.mpr ⟨known, .inr early⟩)

/-- The bindings of a table that do not compile, in key order, with their causes. -/
structure Uncompiled (store : σ) (table : Table) (failures : List (Key × Error)) : Prop where
  ordered : (failures.map Prod.fst).Sublist table.keys
  mem : ∀ key cause, (key, cause) ∈ failures ↔ ∃ binding, table.get? key = some binding ∧
    ((plan .interpreted table key binding).runOn store).1 = .error cause

/-- The outcome of a request that has resolved its key. -/
def verdict (failures : List (Key × Error)) (v : Value) : Except Error Value :=
  match failures with
  | [] => .ok v
  | failures => .error (.compilation failures)

theorem exists_uncompiled [LawfulStore σ] (refuses : Refuses σ .none) (registry : Registry)
    {s : State σ} (empty : Empty s.store) (commands : List Command) (time : Instant) (key : Key) :
    let now := after registry commands s
    let resolved := (Interpreter.request registry key none).runOn now.interpreter
    ∃ failures, Uncompiled now.store resolved.2.own failures ∧
      ((request registry time key).runOn now).1 = resolved.1 >>= verdict failures := by
  intro now resolved
  obtain ⟨split, stored, accounts, ran, -⟩ :=
    runOn_pass fixed_interpreted refuses resolved.2.own time now.store
  -- A key with a plan was compiled from an earlier table, so it is not among those that fail now.
  have compiles : ∀ {q binding}, resolved.2.own.get? q = some binding → hasPlan now.store q = true →
      ∃ p, planFor noScopes resolved.2.own q binding = .ok p := by
    intro q binding bound present
    obtain ⟨before, command, binding', p, -, written, -, grows⟩ :=
      written_of_hasPlan empty commands present
    have later : Grows registry _ resolved.2.own :=
      trans_of (Grows registry) grows (moves_request key none now.interpreter)
    obtain rfl := Option.some.inj ((later.kept written.bound).symm.trans bound)
    obtain ⟨p', again, -⟩ := planFor_later later.kept written.compiled
    exact ⟨p', again⟩
  refine ⟨split.failed, ⟨accounts.failed_ordered, fun q cause => ?_⟩, ?_⟩
  · rw [accounts.mem_failed]
    constructor
    · rintro ⟨-, binding, bound, failed | ⟨-, refused⟩⟩
      · exact ⟨binding, bound, failed⟩
      · cases refused
    · rintro ⟨binding, bound, failed⟩
      refine ⟨?_, binding, bound, .inl failed⟩
      cases present : hasPlan now.store q with
      | false => rfl
      | true =>
        obtain ⟨p, compiled⟩ := compiles bound present
        rw [runOn_plan fixed_interpreted, compiled] at failed
        cases failed
  · rw [fst_request]
    refine congrArg (resolved.1 >>= ·) (funext fun v => ?_)
    change ((pass .interpreted resolved.2.own time).runOn now.store).1.map (fun _ => v) = _
    rw [ran]
    change split.result.map (fun _ => v) = verdict split.failed v
    unfold Split.result verdict
    cases split.failed <;> rfl

/-- Let functions be pure, and let providers not care who asks and pass on that a key needs itself. If one
request is deleted from the commands before another one, be it because it failed, then the other one
resolves its key as before, and its table is what it was but for the keys that the deleted request had
left there. With or without it, the outcome of the other request is what its key resolves to, or the list
of the bindings of its table that do not compile. -/
theorem deleted_request_changes_only_table [LawfulStore σ] (refuses : Refuses σ .none)
    {registry : Registry} {old : Nat} (purity : registry.Pure old) (blind : registry.Blind)
    (passes : registry.Passes Error.Circular) (table : Table) {born : Nat} (le : old ≤ born) {store : σ}
    (empty : Empty store) (before later : List Command) (time time' : Instant) (deleted key : Key) :
    let start : State σ := ⟨Runtime.start born table, store⟩
    let left := after registry (before ++ [.resolve time deleted]) start
    let kept := after registry (before ++ .resolve time deleted :: later) start
    let spared := after registry (before ++ later) start
    let resolved (s : State σ) := (Interpreter.request registry key none).runOn s.interpreter
    Agree SameShape (resolved kept).1 (resolved spared).1 ∧
      (∀ q, (resolved kept).2.own.get? q =
        ((resolved spared).2.own.get? q).or (left.interpreter.own.get? q)) ∧
      ∀ s, s = kept ∨ s = spared → ∃ failures, Uncompiled s.store (resolved s).2.own failures ∧
        ((request registry time' key).runOn s).1 = (resolved s).1 >>= verdict failures := by
  intro start left kept spared resolved
  obtain ⟨naming, injective, above⟩ := Draft.exists_naming old
  let g : Grounds := ⟨registry, table, naming, old, injective, above, purity, blind, passes⟩
  have sound : ∀ commands, g.Sound (askedFor g commands) (after registry commands start).interpreter :=
    sound_after g le store
  obtain ⟨answer, whole⟩ := Grounds.sound_request (sound (before ++ .resolve time deleted :: later)) key
  obtain ⟨answer', rest⟩ := Grounds.sound_request (sound (before ++ later)) key
  refine ⟨answer.agree answer', get?_of_sound rest (sound _) whole ?_, ?_⟩
  · rw [List.append_cons]
    ext q
    simp only [askedFor_append, Set.mem_union]
    tauto
  · rintro s (rfl | rfl)
    · exact exists_uncompiled refuses registry empty _ time' key
    · exact exists_uncompiled refuses registry empty _ time' key

def bare (name : String) : Class := .define name name fun _ => .ok []

/-- The `A` needs a `T`, the `S` and a `B`, the `B` a key that nothing binds, and the `C` the `S`. -/
def needyRegistry : Registry :=
  .ofClasses [
    (bare "A").constructorParameter ⟨"t", .plain "T", none⟩ |>.constructorParameter ⟨"s", .plain "S", none⟩
      |>.constructorParameter ⟨"b", .plain "B", none⟩,
    (bare "B").constructorParameter ⟨"u", .plain "U", none⟩,
    (bare "C").constructorParameter ⟨"s", .plain "S", none⟩, bare "S", bare "T"]

def oneS : Table := .ofList [(.plain "S", .build ⟨⟨"S", [], [], none⟩, .singleton⟩)]

theorem pure_bare (name : String) : (bare name).Pure 0 :=
  Class.pure_define name name fun _ _ _ _ => .ok .nil

theorem pure_needyRegistry : Registry.Pure 0 needyRegistry := by
  refine Registry.pure_ofClasses ?_
  intro c member
  simp only [List.mem_cons, List.not_mem_nil, or_false] at member
  rcases member with rfl | rfl | rfl | rfl | rfl
  · exact (((pure_bare "A").constructorParameter _).constructorParameter _).constructorParameter _
  · exact (pure_bare "B").constructorParameter _
  · exact (pure_bare "C").constructorParameter _
  · exact pure_bare "S"
  · exact pure_bare "T"

theorem no_provider {name : String} {c : Class} (found : needyRegistry.get? name = some c) :
    c.provide = none := by
  have member := Registry.mem_of_ofClasses found
  simp only [List.mem_cons, List.not_mem_nil, or_false] at member
  rcases member with rfl | rfl | rfl | rfl | rfl <;> rfl

def madeC (c s : Nat) : Value :=
  .object c "C" "C" [⟨constructorMethod, [.object s "S" "S" [⟨constructorMethod, [], []⟩]], []⟩]

/-- A request for an `A` fails when it has made a `T` and the `S`. The `C` that is made next is given that
`S`; otherwise it would be given a new one. -/
theorem made_alike_after_failure :
    let start : State (MemoryStore .none) := TwoPhase.start oneS (MemoryStore.start .none)
    let left := after needyRegistry [.resolve default (.plain "A")] start
    (∃ e, ((Interpreter.request needyRegistry (.plain "A") none).runOn start.interpreter).1 = .error e) ∧
    ((Interpreter.request needyRegistry (.plain "C") none).runOn left.interpreter).1 = .ok (madeC 2 1) ∧
    ((Interpreter.request needyRegistry (.plain "C") none).runOn start.interpreter).1 = .ok (madeC 1 0) ∧
    SameShape (madeC 2 1) (madeC 1 0) := by
  have blind : needyRegistry.Blind := fun _ _ found _ provides =>
    nomatch (no_provider found).symm.trans provides
  have passes : needyRegistry.Passes Error.Circular := fun _ _ found _ provides =>
    nomatch (no_provider found).symm.trans provides
  have alike : Agree SameShape (.ok (madeC 2 1)) (.ok (madeC 1 0)) :=
    (deleted_request_changes_only_table MemoryStore.refuses pure_needyRegistry blind passes oneS
      (Nat.le_refl 0) MemoryStore.empty_start [] [] default default (.plain "A") (.plain "C")).1
  refine ⟨⟨_, rfl⟩, rfl, rfl, ?_⟩
  cases alike with
  | ok same => exact same

/-- A failed request after which a key is resolved that could not be resolved before. -/
structure Interferes (registry : Registry) (table : Table) (failed key : Key) : Prop where
  fails : ∃ e, ((Interpreter.request registry failed none).runOn (Runtime.start 0 table)).1 = .error e
  after : ∃ v, ((Interpreter.request registry key none).runOn
    ((Interpreter.request registry failed none).runOn (Runtime.start 0 table)).2).1 = .ok v
  before : ∃ e, ((Interpreter.request registry key none).runOn (Runtime.start 0 table)).1 = .error e

def nothing : Offer := .existing (.literal Json.null)

def caringRegistry : Registry :=
  let provideK : Provide := fun _ _ point =>
    if point = some ⟨"A", "new", "k"⟩ then .lookup (.plain "S") none fun found =>
      .finish (found.map .existing)
    else .finish (.ok nothing)
  .ofClasses [(bare "Q").provides provideK,
    (bare "A").constructorParameter ⟨"k", .plain "K", none⟩,
    (bare "S").constructorParameter ⟨"k", .plain "K", none⟩,
    (bare "F").constructorParameter ⟨"s", .plain "S", none⟩
      |>.constructorParameter ⟨"u", .plain "U", none⟩]

def caringTable : Table :=
  let signature (name : String) := (caringRegistry.signature? name).getD default
  .ofList [(.plain "K", .provided ⟨signature "Q", .prototype⟩ .prototype none),
    (.plain "S", .build ⟨signature "S", .singleton⟩)]

def copingRegistry : Registry :=
  let provideS : Provide := fun _ _ _ => .lookup (.plain "K") none fun
    | .ok _ => .finish (.error (.internal "there is a K"))
    | .error _ => .finish (.ok nothing)
  let provideK : Provide := fun _ _ _ => .lookup (.plain "S") none fun _ => .finish (.ok nothing)
  .ofClasses [(bare "P").provides provideS, (bare "Q").provides provideK,
    (bare "F").constructorParameter ⟨"k", .plain "K", none⟩
      |>.constructorParameter ⟨"u", .plain "U", none⟩]

def copingTable : Table :=
  let signature (name : String) := (copingRegistry.signature? name).getD default
  .ofList [(.plain "K", .provided ⟨signature "Q", .prototype⟩ .prototype none),
    (.plain "S", .provided ⟨signature "P", .prototype⟩ .singleton none)]

theorem pure_caringRegistry : Registry.Pure 0 caringRegistry := by
  have provides : PureProvide 0 fun _ _ point =>
      if point = some ⟨"A", "new", "k"⟩ then .lookup (.plain "S") none fun found =>
        .finish (found.map .existing)
      else .finish (.ok nothing) := by
    intro β _ o p _ context point
    by_cases told : point = some ⟨"A", "new", "k"⟩
    · simp only [if_pos told]
      exact ⟨rfl, rfl, fun found found' same => same.map id⟩
    · simp only [if_neg told]
      exact Agree.ok rfl
  refine Registry.pure_ofClasses ?_
  intro c member
  simp only [List.mem_cons, List.not_mem_nil, or_false] at member
  rcases member with rfl | rfl | rfl | rfl
  · exact (pure_bare "Q").provides provides
  · exact (pure_bare "A").constructorParameter _
  · exact (pure_bare "S").constructorParameter _
  · exact ((pure_bare "F").constructorParameter _).constructorParameter _

theorem pure_copingRegistry : Registry.Pure 0 copingRegistry := by
  refine Registry.pure_ofClasses ?_
  intro c member
  simp only [List.mem_cons, List.not_mem_nil, or_false] at member
  rcases member with rfl | rfl | rfl
  · refine (pure_bare "P").provides fun _ _ _ _ _ _ => ⟨rfl, rfl, fun found found' same => ?_⟩
    cases same with
    | ok alike => exact Agree.error _
    | error e => exact Agree.ok rfl
  · exact (pure_bare "Q").provides fun _ _ _ _ _ _ => ⟨rfl, rfl, fun _ _ _ => Agree.ok rfl⟩
  · exact ((pure_bare "F").constructorParameter _).constructorParameter _

theorem passes_caringRegistry : caringRegistry.Passes Error.Circular := by
  intro name c found provide provides object context point
  have member := Registry.mem_of_ofClasses found
  simp only [List.mem_cons, List.not_mem_nil, or_false] at member
  rcases member with rfl | rfl | rfl | rfl
  · cases provides
    by_cases told : point = some ⟨"A", "new", "k"⟩
    · simp only [if_pos told]
      exact ⟨fun _ _ => rfl, fun _ => trivial⟩
    · simp only [if_neg told]
      trivial
  all_goals cases provides

theorem blind_copingRegistry : copingRegistry.Blind := by
  intro name c found provide provides object context point
  have member := Registry.mem_of_ofClasses found
  simp only [List.mem_cons, List.not_mem_nil, or_false] at member
  rcases member with rfl | rfl | rfl <;> cases provides <;> rfl

/-- A failed request may show in the outcome of a later one: what it has discovered may not compile, and
a singleton that it has left may be another one than would have been made, or none, if a provider cares
who asks or copes with a key that needs itself. -/
theorem failed_request_may_show :
    (¬ ∀ (registry : Registry) (table : Table) (before later : List Command) (time time' : Instant)
      (failed key : Key) (e : Error), registry.Pure 0 →
      let start : State (MemoryStore .none) := TwoPhase.start table (MemoryStore.start .none)
      ((Interpreter.request registry failed none).runOn (after registry before start).interpreter).1 =
        .error e →
      Agree SameShape
        ((request registry time' key).runOn
          (after registry (before ++ .resolve time failed :: later) start)).1
        ((request registry time' key).runOn (after registry (before ++ later) start)).1) ∧
    (∃ registry table failed key, registry.Pure 0 ∧ registry.Passes Error.Circular ∧
      Interferes registry table failed key) ∧
    ∃ registry table failed key, registry.Pure 0 ∧ registry.Blind ∧
      Interferes registry table failed key := by
  refine ⟨fun unchanged => ?_,
    ⟨caringRegistry, caringTable, .plain "F", .plain "A", pure_caringRegistry, passes_caringRegistry,
      ⟨_, rfl⟩, ⟨_, rfl⟩, ⟨_, rfl⟩⟩,
    copingRegistry, copingTable, .plain "F", .plain "S", pure_copingRegistry, blind_copingRegistry,
    ⟨_, rfl⟩, ⟨_, rfl⟩, ⟨_, rfl⟩⟩
  have same : Agree SameShape (.error (.compilation [(.plain "B", .unbound (.plain "U")
      (some ⟨"B", "new", "u"⟩))])) (.ok (madeC 1 0)) :=
    unchanged needyRegistry oneS [] [] default default (.plain "A") (.plain "C") _ pure_needyRegistry rfl
  cases same

end Wiring.TwoPhase
