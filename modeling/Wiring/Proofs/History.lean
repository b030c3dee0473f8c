import Wiring.Proofs.Deletion

/-! # Answers without history

Over a table without providers nobody is told who asks and no hook runs, so an interpreter resolves a key
as if its classes had no hooks. What it has been asked before then shows in nothing but identities: not in
the table, which grows by what is known anyway, and not in the singletons kept, which are what would be
made anew.
-/
namespace Wiring

def Binding.Direct : Binding → Prop
  | .provided _ _ _ => False
  | _ => True

def Table.Direct (table : Table) : Prop :=
  ∀ key binding, table.get? key = some binding → binding.Direct

/-- A class whose constructor and methods are pure. -/
structure Class.PureCalls (old : Nat) (c : Class) : Prop where
  construct : PureConstructor old c.construct
  method : ∀ {name call}, c.methods.get? name = some call → PureMethod old call

def Registry.PureCalls (old : Nat) (registry : Registry) : Prop :=
  ∀ name c, registry.get? name = some c → c.PureCalls old

theorem Registry.Pure.calls {old : Nat} {registry : Registry} (pure : registry.Pure old) :
    registry.PureCalls old :=
  fun name c found => ⟨(pure name c found).construct, (pure name c found).method⟩

def Class.hookless (c : Class) : Class := { c with provide := none }

def Registry.hookless (registry : Registry) : Registry := registry.map Class.hookless

namespace Registry
variable (registry : Registry)

theorem get?_hookless (name : String) :
    registry.hookless.get? name = (registry.get? name).map Class.hookless :=
  SortedMap.get?_map Class.hookless registry name

theorem signature?_hookless (name : String) : registry.hookless.signature? name = registry.signature? name := by
  unfold signature?
  rw [get?_hookless, Option.map_map]
  rfl

theorem size_hookless : registry.hookless.size = registry.size := List.length_map _

variable {registry} {name : String} {c : Class}

theorem provide_of_hookless (found : registry.hookless.get? name = some c) : c.provide = none := by
  rw [get?_hookless] at found
  obtain ⟨d, -, rfl⟩ := Option.map_eq_some_iff.mp found
  rfl

theorem PureCalls.hookless {old : Nat} (pure : registry.PureCalls old) : registry.hookless.Pure old := by
  intro name c found
  rw [get?_hookless] at found
  obtain ⟨d, member, rfl⟩ := Option.map_eq_some_iff.mp found
  have calls : d.PureCalls old := pure name d member
  exact ⟨calls.construct, calls.method, nofun⟩

end Registry

namespace Dialogue

variable {ι α β ρ : Type}

def unhooked (made : Class × Object) : Class × Object := (made.1.hookless, made.2)

theorem begin_hookless (registry : Registry) (className : String) (arguments : List Value) :
    (begin registry.hookless className arguments : Dialogue ι (Class × Object)) =
      begin registry className arguments >>= fun made => pure (unhooked made) := by
  unfold begin
  rw [Registry.get?_hookless]
  cases registry.get? className with
  | none => rfl
  | some c =>
    refine congrArg (take _) (funext fun made => ?_)
    cases made <;> rfl

theorem assemble_hookless (registry : Registry) (eval : Bool → α → Dialogue ι Value) (className : String)
    (arguments : List α) (steps : List (Runtime.Step α)) (hook : Option String) :
    assemble registry.hookless eval className arguments steps hook =
      assemble registry eval className arguments steps hook >>= fun made => pure (unhooked made) := by
  unfold assemble
  simp only [begin_hookless, bind_assoc, pure_bind]
  refine congrArg _ (funext fun values => congrArg _ (funext fun made => ?_))
  refine congrArg _ (funext fun object => ?_)
  cases hook with
  | none => rfl
  | some method =>
    have same : made.1.hookless.invoke object method [] = made.1.invoke object method [] := rfl
    simp only [finished, unhooked, same]
    cases made.1.invoke object method [] <;> rfl

/-- Answers that agree in the states in which they are asked for make no difference. -/
theorem runOn_congr {answer answer' : ι → Act (Runtime ρ) Value} {I : Runtime ρ → Prop}
    (takes : ∀ made s, I s → I (taken made s))
    (answers : ∀ q s, I s → (answer q).runOn s = (answer' q).runOn s ∧ I ((answer q).runOn s).2)
    (d : Dialogue ι α) {s : Runtime ρ} (h : I s) : d.runOn answer s = d.runOn answer' s := by
  induction d generalizing s with
  | finish outcome => rfl
  | take make next ih => exact ih _ (takes _ s h)
  | ask question next ih =>
    obtain ⟨same, later⟩ := answers question s h
    simp only [runOn, ← same]
    exact ih _ later

end Dialogue

theorem Runtime.runOn_deliver_congr {ρ : Type} {key : Key} {make make' : Act (Runtime ρ) Value}
    {s : Runtime ρ} (same : make.runOn (entered key s) = make'.runOn (entered key s)) (scope : Scope) :
    (deliver key scope make).runOn s = (deliver key scope make').runOn s := by
  unfold entered at same
  simp only [runOn_deliver, runOn_within, same]

namespace Interpreter
open Act Wiring.Runtime

variable (registry : Registry)

theorem known_hookless (table : Table) (key : Key) :
    known registry.hookless table key = known registry table key := by
  simp only [known, Registry.signature?_hookless]

theorem learn_hookless (table : Table) (key : Key) :
    learn registry.hookless table key = learn registry table key := by
  simp only [learn, known_hookless]

variable {registry}

theorem direct_of_known {table : Table} (direct : table.Direct) {key : Key} {binding : Binding}
    (bound : known registry table key = some binding) : binding.Direct := by
  cases found : table.get? key with
  | some b =>
    rw [known_of_get? found, Option.some.injEq] at bound
    exact bound ▸ direct key b found
  | none =>
    simp only [known, found] at bound
    by_cases plain : key.isPlain = true
    · rw [if_pos plain] at bound
      obtain ⟨signature, -, rfl⟩ := Option.map_eq_some_iff.mp bound
      trivial
    · rw [if_neg plain] at bound
      cases bound

theorem Grows.direct {before after : Table} (grows : Grows registry before after)
    (direct : before.Direct) : after.Direct :=
  fun _ _ found => direct_of_known direct (grows.known found)

theorem dialogue_hookless {binding : Binding} (direct : binding.Direct) (point : Option Point) :
    dialogue registry.hookless binding point = dialogue registry binding point := by
  cases binding with
  | literal value => rfl
  | provided recipe scope context => exact direct.elim
  | build recipe =>
    simp only [dialogue, instantiation, Dialogue.assemble_hookless, bind_assoc, pure_bind]
    rfl

theorem resolve_for_nobody {binding : Binding} (direct : binding.Direct) (depth : Nat) (key : Key)
    (point : Option Point) :
    resolve registry depth key binding point = resolve registry depth key binding none := by
  cases depth with
  | zero => rfl
  | succ depth =>
    cases binding with
    | literal value => rfl
    | provided recipe scope context => exact direct.elim
    | build recipe => rfl

/-- Over a table without providers keys are resolved in the same way without hooks. -/
theorem runOn_resolve_hookless (depth : Nat) (key : Key) {binding : Binding} (direct : binding.Direct)
    (point : Option Point) {s : State} (table : s.own.Direct) :
    (resolve registry depth key binding point).runOn s =
      (resolve registry.hookless depth key binding point).runOn s := by
  induction depth generalizing key binding point s with
  | zero => rfl
  | succ depth ih =>
    refine runOn_deliver_congr ?_ binding.scope
    rw [performed_realize registry, performed_realize registry.hookless, dialogue_hookless direct point]
    refine Dialogue.runOn_congr (I := fun u => u.own.Direct) ?_ ?_ _ table
    · rintro (e | object) u h <;> exact h
    · intro q u h
      have grows : Grows registry u.own ((answer registry (resolve registry depth) q).runOn u).2.own :=
        grows_answer (moves_resolve depth) q u
      refine ⟨?_, grows.direct h⟩
      rw [runOn_answer, runOn_answer, known_hookless, learn_hookless]
      cases bound : known registry u.own q.key with
      | none => rfl
      | some found =>
        have learned : Grows registry u.own (learn registry u.own q.key) := grows_learn u.own q.key
        exact ih q.key (direct_of_known h bound) q.point (learned.direct h)

theorem runOn_request_direct (key : Key) (point : Option Point) {s : State} (table : s.own.Direct) :
    (request registry key point).runOn s = match known registry s.own key with
      | some _ => (request registry.hookless key none).runOn s
      | none => (.error (.unbound key point), s) := by
  rw [runOn_request, runOn_request, known_hookless]
  cases bound : known registry s.own key with
  | none => rfl
  | some binding =>
    have direct : binding.Direct := direct_of_known table bound
    have learned : Grows registry s.own (learn registry s.own key) := grows_learn s.own key
    have enough : bindable registry.hookless s = bindable registry s :=
      congrArg (s.own.size + ·) (Registry.size_hookless registry)
    simp only [outermost, Visit.ran, enough, learn_hookless]
    rw [resolve_for_nobody direct]
    exact runOn_resolve_hookless (bindable registry s) key direct none (learned.direct table)

/-- The interpreter once it has been asked for some keys on behalf of some points. -/
def after (registry : Registry) (earlier : List (Key × Option Point)) (s : State) : State :=
  earlier.foldl (fun s asked => ((request registry asked.1 asked.2).runOn s).2) s

namespace Grounds

variable {g : Grounds} {asked asked' : Set Key} {s s' : State} (hooks : g.registry = registry.hookless)
include hooks

theorem Sound.known_eq (sound : g.Sound asked s) (key : Key) :
    Interpreter.known registry s.own key = Interpreter.known registry g.table key := by
  obtain ⟨_, -, knows⟩ := sound
  have same := knows.known_eq key
  rwa [Grounds.known, hooks, known_hookless, known_hookless] at same

variable (direct : g.table.Direct)
include direct

theorem Sound.runOn_eq (sound : g.Sound asked s) (key : Key) (point : Option Point) :
    (request registry key point).runOn s = match Interpreter.known registry g.table key with
      | some _ => (request g.registry key none).runOn s
      | none => (.error (.unbound key point), s) := by
  have table : s.own.Direct := by
    obtain ⟨_, -, knows⟩ := sound
    exact knows.grows.direct direct
  rw [runOn_request_direct key point table, sound.known_eq hooks, hooks]

theorem sound_later (sound : g.Sound asked s) (earlier : List (Key × Option Point)) :
    ∃ asked', g.Sound asked' (after registry earlier s) := by
  induction earlier generalizing asked s with
  | nil => exact ⟨asked, sound⟩
  | cons first rest ih =>
    have next : ∃ asked', g.Sound asked' ((request registry first.1 first.2).runOn s).2 := by
      rw [sound.runOn_eq hooks direct]
      cases Interpreter.known registry g.table first.1 with
      | none => exact ⟨asked, sound⟩
      | some binding => exact ⟨_, (sound_request sound first.1).2⟩
    obtain ⟨asked', sound'⟩ := next
    exact ih sound'

theorem agree_request (sound : g.Sound asked s) (sound' : g.Sound asked' s') (key : Key)
    (point : Option Point) : Agree SameShape ((request registry key point).runOn s).1
      ((request registry key point).runOn s').1 := by
  rw [sound.runOn_eq hooks direct, sound'.runOn_eq hooks direct]
  cases Interpreter.known registry g.table key with
  | none => exact .error _
  | some binding =>
    have answer : g.Answers key ((request g.registry key none).runOn s).1 := (sound_request sound key).1
    have answer' : g.Answers key ((request g.registry key none).runOn s').1 :=
      (sound_request sound' key).1
    exact answer.agree answer'

end Grounds

/-- Let constructors and methods be pure and the table bind no providers. Whatever an interpreter has been
asked before, and whether it could answer or not, it answers as one that has not been asked anything: with
the same error, or with a value of the same shape. -/
theorem answer_independent_of_history {old : Nat} (pure : registry.PureCalls old) {table : Table}
    (direct : table.Direct) {born born' : Nat} (le : old ≤ born) (le' : old ≤ born')
    (earlier : List (Key × Option Point)) (key : Key) (point : Option Point) :
    Agree SameShape
      ((request registry key point).runOn (after registry earlier (Runtime.start born table))).1
      ((request registry key point).runOn (Runtime.start born' table)).1 := by
  obtain ⟨naming, injective, above⟩ := Draft.exists_naming old
  have blind : registry.hookless.Blind := fun _ _ found _ provides =>
    nomatch (Registry.provide_of_hookless found).symm.trans provides
  have passes : registry.hookless.Passes Error.Circular := fun _ _ found _ provides =>
    nomatch (Registry.provide_of_hookless found).symm.trans provides
  let g : Grounds := ⟨registry.hookless, table, naming, old, injective, above, pure.hookless, blind, passes⟩
  have fresh : ∀ {born}, old ≤ born → g.Sound ∅ (Runtime.start born table) := fun le =>
    ⟨_, Grounds.tracks_start le table, Grounds.knows_start g _⟩
  obtain ⟨asked, sound⟩ := Grounds.sound_later rfl direct (fresh le) earlier
  exact Grounds.agree_request rfl direct sound (fresh le') key point

open TwoPhase in
/-- The `A` cannot be made, but the `S` that was made for it stays. The second `C` is given that `S` too; it
has the shape of the `C` that is made first of all. -/
theorem second_C_like_first :
    let asked : List (Key × Option Point) := [(.plain "A", none), (.plain "C", none)]
    let point : Option Point := some ⟨"Main", "new", "c"⟩
    (∃ e, ((request needyRegistry (.plain "A") none).runOn (Runtime.start 0 oneS)).1 = .error e) ∧
    ((request needyRegistry (.plain "C") point).runOn
      (after needyRegistry asked (Runtime.start 0 oneS))).1 = .ok (madeC 3 1) ∧
    ((request needyRegistry (.plain "C") point).runOn (Runtime.start 0 oneS)).1 = .ok (madeC 1 0) ∧
    SameShape (madeC 3 1) (madeC 1 0) := by
  intro asked point
  have direct : oneS.Direct := by
    intro key binding found
    have member : (key, binding) ∈ oneS.entries := SortedMap.mem_entries_iff.mpr found
    cases List.mem_singleton.mp member
    trivial
  have alike : Agree SameShape (.ok (madeC 3 1)) (.ok (madeC 1 0)) :=
    answer_independent_of_history pure_needyRegistry.calls direct (Nat.le_refl 0) (Nat.le_refl 0) asked
      (.plain "C") point
  refine ⟨⟨_, rfl⟩, rfl, rfl, ?_⟩
  cases alike with
  | ok same => exact same

end Interpreter
end Wiring
