import Wiring.Proofs.Compile.Later
import Wiring.Proofs.Compile.Pass
import Wiring.Proofs.Dialogue.Interpreter
import Wiring.Proofs.MemoryStore
import Wiring.TwoPhase

/-! # What a resolution has discovered

A resolution that yields a value has asked for all that its binding cannot do without, and whatever it
asked for is in the table by then. So its binding compiles from the table that the request ends with.
Keys that were only met in failed resolutions may not compile; their failures were left aside on the
way up, by an optional setter or by a hook.
-/
namespace Wiring.Interpreter
open Act Wiring.Runtime Compile Relation

variable {registry : Registry}

theorem satisfied_of_argument {resolve : Resolve}
    (hr : ∀ key binding point, (resolve key binding point).Moves (OnOwn (Grows registry)))
    {p : Parameter} {s t : State} {v : Value}
    (answered : (argument registry resolve p).runOn s = (.ok v, t)) : Satisfied t.own p := by
  have asked := runOn_answer registry resolve (.argument false p) s
  rw [answer, answered] at asked
  cases found : known registry s.own p.key with
  | some binding =>
    simp only [Question.key, found] at asked
    have later : Grows registry _ _ := hr p.key binding (some p.point)
      { s with own := learn registry s.own p.key }
    rw [show some p.point = (Question.argument false p).point from rfl, ← asked] at later
    exact .inl ⟨binding, later.kept (by rw [get?_learn, if_pos rfl, found])⟩
  | none =>
    simp only [Question.key, Question.fallback, found] at asked
    cases default : p.default? with
    | some value => exact .inr ⟨value, default⟩
    | none =>
      rw [default] at asked
      cases asked

theorem satisfied_of_realize {resolve : Resolve}
    (hr : ∀ key binding point, (resolve key binding point).Moves (OnOwn (Grows registry)))
    {binding : Binding} {point : Option Point} {s t : State} {v : Value}
    (made : (realize registry resolve binding point).runOn s = (.ok v, t)) :
    Binding.Satisfied t.own binding := by
  have assembled : ∀ {signature made s t}, (instantiate registry resolve signature).runOn s = (.ok made, t) →
      Signature.Satisfied t.own signature := by
    intro signature made s t ran
    obtain ⟨parameters, setters⟩ := gets_assemble (P := fun p table => Satisfied table p)
      (fun _ _ _ grows h => h.later grows.kept) (moves_argument hr)
      (fun _ _ _ _ answered => satisfied_of_argument hr answered) ran
    exact ⟨parameters, fun setter member => setters _ (List.mem_map_of_mem member)⟩
  cases binding with
  | literal value => trivial
  | build recipe =>
    obtain ⟨done, u, ran, returned⟩ := runOn_bind_eq_ok.mp made
    cases returned
    exact assembled ran
  | provided recipe scope context =>
    obtain ⟨done, u, ran, provided⟩ := runOn_bind_eq_ok.mp made
    have later : Grows registry _ _ := moves_provide (moves_lookup hr) done context point u
    rw [provided] at later
    have satisfied := assembled ran
    exact ⟨fun p member => (satisfied.parameters p member).later later.kept, fun setter member =>
      (satisfied.setters setter member).imp_right fun all p inside => (all p inside).later later.kept⟩

def Sound (s : State) : Prop :=
  ∀ key value, s.singletons.get? key = some value → ∃ p, Planned s.own key p

/-- The table has grown, and singletons are still of keys that it compiles. -/
structure Keeps (registry : Registry) (s t : State) : Prop where
  grows : Grows registry s.own t.own
  sound : Sound s → Sound t

instance : IsPreorder State (Keeps registry) where
  refl s := ⟨refl_of (Grows registry) s.own, id⟩
  trans _ _ _ first later :=
    ⟨trans_of (Grows registry) first.grows later.grows, fun h => later.sound (first.sound h)⟩

theorem Planned.later {past now : Table} {key : Key} {p : Plan} (h : Planned past key p)
    (grows : Grows registry past now) : ∃ p', Planned now key p' := by
  obtain ⟨binding, bound, compiled⟩ := h
  obtain ⟨p', again, -⟩ := planFor_later grows.kept compiled
  exact ⟨p', binding, grows.kept bound, again⟩

theorem keeps_learn (key : Key) (s : State) :
    Keeps registry s { s with own := learn registry s.own key } where
  grows := grows_learn s.own key
  sound sound q value found :=
    let ⟨_, planned⟩ := sound q value found
    Planned.later planned (grows_learn s.own key)

theorem keeps_entered (key : Key) (s : State) : Keeps registry s (entered key s) :=
  ⟨refl_of (Grows registry) s.own, id⟩

theorem keeps_taken (made : Except Error Object) (s : State) :
    Keeps registry s (Dialogue.taken made s) := by
  cases made <;> exact ⟨refl_of (Grows registry) s.own, id⟩

/-- Resolving a key of the table keeps the singletons sound, and if it yields a value the table then
compiles the key. -/
structure Compiles (registry : Registry) (key : Key) (s : State) (ran : Except Error Value × State) :
    Prop where
  keeps : Keeps registry s ran.2
  planned : Sound s → ∀ v, ran.1 = .ok v → ∃ p, Planned ran.2.own key p

theorem compiles_deliver {make : Run Value} {key : Key} {binding : Binding} {s : State}
    (bound : s.own.get? key = some binding) (moves : make.Moves (Keeps registry))
    (made : ∀ s v t, make.runOn s = (.ok v, t) → Binding.Satisfied t.own binding) :
    Compiles registry key s ((deliver key binding.scope make).runOn s) := by
  have inside : Keeps registry s (make.runOn (entered key s)).2 :=
    trans_of (Keeps registry) (keeps_entered key s) (moves (entered key s))
  have delivery := delivery_deliver key binding.scope make s
  generalize (deliver key binding.scope make).runOn s = ran at delivery ⊢
  cases delivery with
  | kept _ found => exact ⟨refl_of (Keeps registry) s, fun sound _ _ => sound key _ found⟩
  | circular _ _ => exact ⟨refl_of (Keeps registry) s, fun _ _ failed => nomatch failed⟩
  | failed _ _ ran =>
    rw [ran] at inside
    exact ⟨⟨inside.grows, inside.sound⟩, fun _ _ failed => nomatch failed⟩
  | @made value u _ _ ran =>
    rw [ran] at inside
    obtain ⟨p, compiled⟩ := exists_planFor (made _ _ _ ran) key
    have planned : Planned u.own key p := ⟨binding, inside.grows.kept bound, compiled⟩
    rw [runOn_keep]
    cases binding.scope with
    | prototype => exact ⟨⟨inside.grows, inside.sound⟩, fun _ _ _ => ⟨p, planned⟩⟩
    | singleton =>
      refine ⟨⟨inside.grows, fun sound q w found => ?_⟩, fun _ _ _ => ⟨p, planned⟩⟩
      rcases SortedMap.get?_of_insertIfNew found with old | ⟨rfl, -⟩
      · exact inside.sound sound q w old
      · exact ⟨p, planned⟩

theorem moves_answer {resolve : Resolve}
    (compiles : ∀ key binding point s, s.own.get? key = some binding →
      Compiles registry key s ((resolve key binding point).runOn s)) (q : Question) :
    (answer registry resolve q).Moves (Keeps registry) := by
  intro s
  rw [runOn_answer]
  cases found : known registry s.own q.key with
  | none => exact refl_of (Keeps registry) s
  | some binding =>
    refine trans_of (Keeps registry) (keeps_learn q.key s) (compiles _ _ _ _ ?_).keeps
    rw [get?_learn, if_pos rfl, found]

theorem compiles_resolve (depth : Nat) (key : Key) (binding : Binding) (point : Option Point) (s : State)
    (bound : s.own.get? key = some binding) :
    Compiles registry key s ((resolve registry depth key binding point).runOn s) := by
  induction depth generalizing key binding point s with
  | zero => exact compiles_deliver bound (moves_of_keeps fun _ => rfl) nofun
  | succ depth ih =>
    refine compiles_deliver bound (fun s => ?_) fun s v t ran =>
      satisfied_of_realize (moves_resolve depth) ran
    rw [performed_realize registry (resolve registry depth) binding point s]
    exact Dialogue.moves_runOn keeps_taken (moves_answer ih) _ s

namespace Visit

variable {v w root : Visit} {q : Question}

def Bound (v : Visit) : Prop := v.state.own.get? v.key = some v.binding

theorem Makes.bound (makes : Makes registry v q w) : w.Bound := by
  obtain ⟨depth, u, -, -, -, -, state, key, known, -⟩ := makes.ran_eq
  rw [Bound, state, key, get?_learn, if_pos rfl, known]

theorem Makes.make_eq (makes : Makes registry v q w) : ∃ depth u,
    v.ran registry = (deliver v.key v.binding.scope
      (realize registry (resolve registry depth) v.binding v.point)).runOn v.state ∧
    Open v.key v.binding.scope v.state ∧ v.key ∉ v.state.active ∧
    Dialogue.Asks (answer registry (resolve registry depth)) q u
      (dialogue registry v.binding v.point) (entered v.key v.state) ∧
    w.state = { u with own := learn registry u.own q.key } ∧
    (answer registry (resolve registry depth) q).runOn u = w.ran registry := by
  obtain ⟨depth, u, deep, isOpen, fresh, asks, state, -, -, ran⟩ := makes.ran_eq
  refine ⟨depth, u, ?_, isOpen, fresh, asks, state, ran⟩
  rw [Visit.ran, deep]
  rfl

theorem Makes.keeps (makes : Makes registry v q w) :
    Keeps registry v.state w.state ∧
      Grows registry (w.ran registry).2.own (v.ran registry).2.own := by
  obtain ⟨depth, u, deep, isOpen, fresh, asks, state, ran⟩ := makes.make_eq
  have answers : ∀ q, (answer registry (resolve registry depth) q).Moves (Keeps registry) :=
    moves_answer (compiles_resolve depth)
  constructor
  · rw [state]
    exact trans_of (Keeps registry) (keeps_entered v.key v.state)
      (trans_of (Keeps registry) (asks.moves keeps_taken answers) (keeps_learn q.key u))
  · have later := (asks.moves_end keeps_taken answers).grows
    rw [ran, ← performed_realize registry (resolve registry depth) v.binding v.point] at later
    rwa [deep, own_deliver_of_open isOpen fresh]

theorem Leads.keeps (leads : Leads registry v w) : Keeps registry v.state w.state ∧
    Grows registry (w.ran registry).2.own (v.ran registry).2.own ∧ (v.Bound → w.Bound) := by
  induction leads with
  | refl => exact ⟨refl_of (Keeps registry) _, refl_of (Grows registry) _, id⟩
  | tail _ makes ih =>
    obtain ⟨q, makes⟩ := makes
    obtain ⟨keeps, grows, -⟩ := ih
    exact ⟨trans_of (Keeps registry) keeps makes.keeps.1,
      trans_of (Grows registry) makes.keeps.2 grows, fun _ => makes.bound⟩

theorem Leads.planned (leads : Leads registry root w) (bound : root.Bound) (sound : Sound root.state)
    {value : Value} (yields : (w.ran registry).1 = .ok value) :
    ∃ p, Planned (root.ran registry).2.own w.key p := by
  obtain ⟨keeps, grows, hereditary⟩ := leads.keeps
  have compiles : Compiles registry w.key w.state (w.ran registry) :=
    compiles_resolve w.depth w.key w.binding w.point w.state (hereditary bound)
  obtain ⟨p, planned⟩ := compiles.planned (keeps.sound sound) value yields
  exact Planned.later planned grows

theorem exists_leads {key : Key} (before : ¬ ∃ binding, v.state.own.get? key = some binding)
    (after : ∃ binding, (v.ran registry).2.own.get? key = some binding) :
    ∃ w, Leads registry v w ∧ w.key = key := by
  obtain ⟨depth, own, binding, point, s⟩ := v
  induction depth generalizing own binding point s with
  | zero =>
    obtain ⟨found, came⟩ := after
    rcases own_deliver own binding.scope tooDeep s with same | ⟨-, -, same⟩ <;>
      exact absurd ⟨found, (congrArg (SortedMap.get? · key) same).symm.trans came⟩ before
  | succ depth ih =>
    obtain ⟨isOpen, fresh, after⟩ : Open own binding.scope s ∧ own ∉ s.active ∧ ∃ found,
        ((dialogue registry binding point).runOn (answer registry (resolve registry depth))
          (entered own s)).2.own.get? key = some found := by
      rw [← performed_realize registry (resolve registry depth) binding point]
      obtain ⟨found, came⟩ := after
      rcases own_deliver own binding.scope (realize registry (resolve registry depth) binding point)
          s with same | ⟨isOpen, fresh, same⟩
      · exact absurd ⟨found, (congrArg (SortedMap.get? · key) same).symm.trans came⟩ before
      · exact ⟨isOpen, fresh, found, (congrArg (SortedMap.get? · key) same).symm.trans came⟩
    -- The table has the key at the end of the dialogue and not at its start, so an answer brought it.
    obtain ⟨q, u, asks, absent, came⟩ := Dialogue.exists_asks
      (P := fun t : State => ∃ found, t.own.get? key = some found) (s := entered own s)
      (fun made t h => by cases made <;> exact h) before after
    rw [runOn_answer] at came
    cases found : known registry u.own q.key with
    | none =>
      rw [found] at came
      exact absurd came absent
    | some inner =>
      rw [found] at came
      have makes := Makes.mk isOpen fresh asks found
      by_cases same : key = q.key
      · exact ⟨_, .single ⟨q, makes⟩, same.symm⟩
      · obtain ⟨w, leads, named⟩ := ih q.key inner q.point { u with own := learn registry u.own q.key }
          (by rwa [get?_learn, if_neg same]) came
        exact ⟨w, .head ⟨q, makes⟩ leads, named⟩

/-- An error that a resolution can do without: an unbound argument of an optional setter, or a failed
look-up, which a hook is told of. -/
def LeftAside (q : Question) (e : Error) : Prop := ¬ Ends (fun _ => False) q e

theorem Makes.leftAside (makes : Makes registry v q w) {value : Value} {e : Error}
    (yields : (v.ran registry).1 = .ok value) (failed : (w.ran registry).1 = .error e) :
    LeftAside q e := by
  obtain ⟨depth, u, deep, isOpen, fresh, asks, -, ran⟩ := makes.make_eq
  intro ending
  have candid : (dialogue registry v.binding v.point).Candid (Ends fun _ => False) :=
    candid_dialogue registry (fun _ _ _ _ _ _ _ _ => Hook.passes_none _) v.binding v.point
  have ends := asks.runOn_eq_error candid (by rw [ran, failed]) ending
  rw [← performed_realize registry (resolve registry depth) v.binding v.point] at ends
  rw [deep] at yields
  rcases deliver_of_open isOpen fresh (realize registry (resolve registry depth) v.binding v.point) with
    ⟨e, t, done, ended⟩ | ⟨value, t, done, ended⟩
  · rw [ended] at yields
    cases yields
  · rw [done] at ends
    cases ends

theorem Leads.leftAside (leads : Leads registry root w) {value : Value} {e : Error}
    (yields : (root.ran registry).1 = .ok value) (failed : (w.ran registry).1 = .error e) :
    ∃ v q inner value e, Leads registry root v ∧ Makes registry v q inner ∧ Leads registry inner w ∧
      (v.ran registry).1 = .ok value ∧ (inner.ran registry).1 = .error e ∧ LeftAside q e := by
  induction leads using ReflTransGen.head_induction_on generalizing value with
  | refl =>
    rw [yields] at failed
    cases failed
  | head step rest ih =>
    rename_i v inner
    obtain ⟨q, makes⟩ := step
    cases outcome : (inner.ran registry).1 with
    | ok value' =>
      obtain ⟨v', q', inner', value'', e', first, found⟩ := ih outcome
      exact ⟨v', q', inner', value'', e', .head ⟨q, makes⟩ first, found⟩
    | error e' =>
      exact ⟨v, q, inner, value, e', .refl, makes, rest, yields, outcome, makes.leftAside yields outcome⟩

end Visit

/-- A key all of whose resolutions within a request failed, each failure being left aside by some
resolution on the way up to the request. -/
structure Absorbed (registry : Registry) (requested : Key) (point : Option Point) (s : State)
    (key : Key) : Prop where
  met : ∃ w, Visited registry requested point s w ∧ w.key = key
  failed : ∀ w, Visited registry requested point s w → w.key = key →
    ∃ e v q inner value e', (w.ran registry).1 = .error e ∧ Visited registry requested point s v ∧
      Visit.Makes registry v q inner ∧ Visit.Leads registry inner w ∧
      (v.ran registry).1 = .ok value ∧ (inner.ran registry).1 = .error e' ∧ Visit.LeftAside q e'

section
variable {key : Key} {point : Option Point} {s t : State} {value : Value}
  (answered : (request registry key point).runOn s = (.ok value, t))
include answered

theorem exists_outermost : ∃ binding, known registry s.own key = some binding ∧
    (outermost registry key binding point s).ran registry = (.ok value, t) := by
  rw [runOn_request] at answered
  cases bound : known registry s.own key with
  | some binding => exact ⟨binding, rfl, by rwa [bound] at answered⟩
  | none =>
    rw [bound] at answered
    cases answered

theorem planned_of_visited (sound : Sound s) {w : Visit} (visited : Visited registry key point s w)
    {value' : Value} (yields : (w.ran registry).1 = .ok value') : ∃ p, Planned t.own w.key p := by
  obtain ⟨binding, bound, leads⟩ := visited
  obtain ⟨binding', bound', ran⟩ := exists_outermost answered
  obtain rfl := Option.some.inj (bound.symm.trans bound')
  have there : (outermost registry key binding point s).Bound := by
    rw [Visit.Bound, outermost, get?_learn, if_pos rfl, bound]
  have planned := leads.planned there ((keeps_learn key s).sound sound) yields
  rwa [ran] at planned

theorem absorbed_of_discovered (sound : Sound s) {found : Key}
    (new : s.own.get? found = none) {binding : Binding} (bound : t.own.get? found = some binding)
    (invalid : ¬ ∃ p, Planned t.own found p) : Absorbed registry key point s found := by
  obtain ⟨outer, known, ran⟩ := exists_outermost answered
  refine ⟨?_, fun w visited named => ?_⟩
  · by_cases same : found = key
    · exact ⟨_, ⟨outer, known, .refl⟩, same.symm⟩
    · have before : ¬ ∃ binding, (outermost registry key outer point s).state.own.get? found =
          some binding := by
        rw [outermost, get?_learn, if_neg same, new]
        nofun
      obtain ⟨w, leads, named⟩ := Visit.exists_leads before (by rw [ran]; exact ⟨binding, bound⟩)
      exact ⟨w, ⟨outer, known, leads⟩, named⟩
  -- Had one of the resolutions yielded a value, the key would compile.
  · cases outcome : (w.ran registry).1 with
    | ok value' => exact absurd (named ▸ planned_of_visited answered sound visited outcome) invalid
    | error e =>
      obtain ⟨_, known', leads⟩ := visited
      obtain rfl := Option.some.inj (known.symm.trans known')
      obtain ⟨v, q, inner, value', e', first, rest⟩ :=
        leads.leftAside (congrArg Prod.fst ran) outcome
      exact ⟨e, v, q, inner, value', e', rfl, ⟨_, known, first⟩, rest⟩

end
end Wiring.Interpreter

namespace Wiring.TwoPhase
open Act Store Compile Interpreter

variable {σ : Type} [Store σ] [LawfulStore σ] {registry : Registry}

theorem runOn_request_of_answered (refuses : Refuses σ .none) (time : Instant) {key : Key}
    {s t : Interpreter.State} {v : Value} (store : σ)
    (answered : (Interpreter.request registry key none).runOn s = (.ok v, t)) :
    ∃ failures stored, (request registry time key).runOn ⟨s, store⟩ =
        (match failures with | [] => .ok v | _ => .error (.compilation failures), ⟨t, stored⟩) ∧
      ∀ found e, (found, e) ∈ failures → ∃ binding, t.own.get? found = some binding ∧
        ((plan .interpreted t.own found binding).runOn store).1 = .error e := by
  obtain ⟨split, stored, accounts, ran, -⟩ :=
    runOn_pass (fixed_interpreted (σ := σ)) refuses t.own time store
  refine ⟨split.failed, stored, ?_, fun found e member => ?_⟩
  · simp only [request, onInterpreter, TwoPhase.compile, onStore, runOn_bind, runOn_onPart, answered,
      runOn_get, ran, Split.result, Refusals.none]
    cases split.failed <;> rfl
  · obtain ⟨-, binding, bound, cause⟩ := (accounts.mem_failed found e).mp member
    rcases cause with failed | ⟨-, refused⟩
    · exact ⟨binding, bound, failed⟩
    · cases refused

/-- When the interpreter answers a request of a new compiler, every key that some resolution gave a
value for compiles from the grown table, and the request fails at most on keys of the configured table
and on discovered ones all of whose resolutions failed, each failure being left aside. -/
theorem discovered_compiles_unless_left_aside (refuses : Refuses σ .none) (registry : Registry)
    (table : Table) (store : σ) (born : Nat) (time : Instant) (key : Key) {v : Value}
    {t : Interpreter.State}
    (answered : (Interpreter.request registry key none).runOn (Runtime.start born table) = (.ok v, t)) :
    (∀ w v', Visited registry key none (Runtime.start born table) w → (w.ran registry).1 = .ok v' →
      ∃ binding p, t.own.get? w.key = some binding ∧
        ((plan .interpreted t.own w.key binding).runOn store).1 = .ok p) ∧
    ∃ failures stored, (request registry time key).runOn ⟨Runtime.start born table, store⟩ =
        (match failures with | [] => .ok v | _ => .error (.compilation failures), ⟨t, stored⟩) ∧
      ∀ found e, (found, e) ∈ failures → (∃ binding, table.get? found = some binding) ∨
        Absorbed registry key none (Runtime.start born table) found := by
  have sound : Sound (Runtime.start born table) := nofun
  refine ⟨fun w v' visited yields => ?_, ?_⟩
  · obtain ⟨p, binding, bound, compiled⟩ := planned_of_visited answered sound visited yields
    exact ⟨binding, p, bound, by rw [runOn_plan fixed_interpreted, compiled]⟩
  · obtain ⟨failures, stored, ran, failed⟩ := runOn_request_of_answered refuses time store answered
    refine ⟨failures, stored, ran, fun found e member => ?_⟩
    cases configured : table.get? found with
    | some binding => exact .inl ⟨binding, rfl⟩
    | none =>
      obtain ⟨binding, bound, invalid⟩ := failed found e member
      refine .inr (absorbed_of_discovered answered sound configured bound ?_)
      rintro ⟨p, binding', bound', compiled⟩
      obtain rfl := Option.some.inj (bound.symm.trans bound')
      rw [runOn_plan fixed_interpreted, compiled] at invalid
      cases invalid

/-- An `A` with an optional setter for a `B`, which needs a key that nothing binds. -/
def optionalRegistry : Registry :=
  let bare (name : String) : Class := .define name name fun _ => .ok []
  .ofClasses [(bare "A").setter true "set_b" [⟨"b", .plain "B", none⟩] fun _ arguments => .ok arguments,
    (bare "B").constructorParameter ⟨"u", .plain "U", none⟩]

def onlyA : Table :=
  .ofList [(.plain "A", Interpreter.discovered ((optionalRegistry.signature? "A").getD default))]

def unboundU : Error := .unbound (.plain "U") (some ⟨"B", "new", "u"⟩)

/-- The setter of the `A` is left out, and the `B` that was looked for does not compile. -/
theorem optional_B_left_aside :
    (∃ s, (request optionalRegistry default (.plain "A")).runOn
      ⟨Runtime.start 0 onlyA, MemoryStore.start .none⟩ =
        (.error (.compilation [(.plain "B", unboundU)]), s)) ∧
      Absorbed optionalRegistry (.plain "A") none (Runtime.start 0 onlyA) (.plain "B") := by
  obtain ⟨-, failures, stored, ran, accounted⟩ := discovered_compiles_unless_left_aside
    MemoryStore.refuses optionalRegistry onlyA (MemoryStore.start .none) 0 default (.plain "A")
    (v := .object 0 "A" "A" [⟨constructorMethod, [], []⟩]) rfl
  have failed : (request optionalRegistry default (.plain "A")).runOn
      (⟨Runtime.start 0 onlyA, MemoryStore.start .none⟩ : State (MemoryStore .none)) =
        (.error (.compilation [(.plain "B", unboundU)]), _) := rfl
  refine ⟨⟨_, failed⟩, ?_⟩
  have same := (congrArg Prod.fst ran).symm.trans (congrArg Prod.fst failed)
  cases failures with
  | nil => cases same
  | cons first rest =>
    cases same
    rcases accounted _ _ List.mem_cons_self with ⟨binding, bound⟩ | absorbed
    · cases bound
    · exact absorbed

/-- Not everything that is discovered on the way to an answer compiles. -/
theorem discovered_may_not_compile : ¬ ∀ (registry : Registry) (table : Table) (key : Key) (v : Value)
    (t : Interpreter.State),
    (Interpreter.request registry key none).runOn (Runtime.start 0 table) = (.ok v, t) →
      ∀ failures s, (request registry default key).runOn
          ⟨Runtime.start 0 table, MemoryStore.start .none⟩ = (.error (.compilation failures), s) →
        ∀ found e, (found, e) ∈ failures → ∃ binding, table.get? found = some binding := by
  intro compiles
  obtain ⟨binding, bound⟩ := compiles optionalRegistry onlyA (.plain "A")
    (.object 0 "A" "A" [⟨constructorMethod, [], []⟩]) _ rfl [(.plain "B", unboundU)] _ rfl (.plain "B")
    unboundU List.mem_cons_self
  cases bound

end Wiring.TwoPhase
