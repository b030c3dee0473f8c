import Wiring.Proofs.Purity
import Wiring.Proofs.Termination
import Mathlib.Data.List.Chain

/-! # Cycles

A key depends on the keys of the parameters that its value is made from. The interpreter finds out whether
a cycle can be reached along these edges without looking for one: it walks them depth first and fails as
soon as it enters a key that is being resolved. So it neither takes a key that is needed twice for a cycle,
nor misses a cycle behind a singleton that it has made before.
-/
namespace Wiring
open Act Wiring.Runtime Relation

section
variable {α : Type} {R : α → α → Prop}

def Acyclic (R : α → α → Prop) (a : α) : Prop := ¬ ∃ c, ReflTransGen R a c ∧ TransGen R c c

/-- A way that ends where it has been once before and meets itself nowhere else. -/
structure Lasso (R : α → α → Prop) (path : List α) : Prop where
  chain : path.IsChain R
  closes : ∃ before last, path = before ++ [last] ∧ before.Nodup ∧ last ∈ before

theorem acyclic_of_next {a : α} (next : ∀ b, R a b → Acyclic R b) : Acyclic R a := by
  rintro ⟨c, reach, cycle⟩
  rcases ReflTransGen.cases_head reach with rfl | ⟨b, edge, rest⟩
  · obtain ⟨b, edge, back⟩ := TransGen.head'_iff.mp cycle
    exact next b edge ⟨a, back, cycle⟩
  · exact next b edge ⟨c, rest, cycle⟩

theorem reaches_of_isChain {a b : α} {rest : List α} (chain : (a :: rest).IsChain R)
    (member : b ∈ a :: rest) : ReflTransGen R a b :=
  chain.induction (ReflTransGen R a) _ (fun _ _ edge reach => reach.tail edge) (fun _ => .refl) b member

theorem Lasso.not_acyclic {path : List α} (lasso : Lasso R path) {a : α} (starts : path.head? = some a) :
    ¬ Acyclic R a := by
  obtain ⟨before, last, rfl, -, member⟩ := lasso.closes
  have reach : ReflTransGen R a last := by
    obtain ⟨rest, same⟩ := List.head?_eq_some_iff.mp starts
    have chain := lasso.chain
    rw [same] at chain
    refine reaches_of_isChain chain ?_
    rw [← same]
    exact List.mem_append_right _ (List.mem_singleton_self last)
  have cycle : TransGen R last last := by
    obtain ⟨first, between, rfl⟩ := List.append_of_mem member
    have chain : (first ++ (last :: (between ++ [last]))).IsChain R := by
      have chain := lasso.chain
      rwa [List.append_assoc] at chain
    have back := chain.right_of_append
    cases between with
    | nil => exact .single (List.isChain_pair.mp back)
    | cons b between =>
      obtain ⟨edge, back⟩ := List.isChain_cons_cons.mp back
      refine .head' edge (reaches_of_isChain back ?_)
      exact List.mem_append_right (b :: between) (List.mem_singleton_self last)
  exact fun acyclic => acyclic ⟨last, reach, cycle⟩

end

def Class.Performs (c : Class) (method : String) : Prop :=
  ∃ call, c.methods.get? method = some call ∧ ∀ object arguments, ∃ kept, call object arguments = .ok kept

/-- The class of a signature is registered, and all calls that the signature names succeed. -/
structure Registry.Carries (registry : Registry) (signature : Signature) (c : Class) : Prop where
  registered : registry.get? signature.className = some c
  constructs : ∀ arguments, ∃ kept, c.construct arguments = .ok kept
  calls : ∀ setter ∈ signature.setters, c.Performs setter.method
  hook : ∀ method, signature.hook = some method → c.Performs method

theorem Class.Performs.invoke {c : Class} {method : String} (performs : c.Performs method) {object : Object}
    (typed : object.type = c.type) (arguments : List Value) :
    ∃ object', c.invoke object method arguments = .ok object' ∧ object'.type = c.type := by
  obtain ⟨call, found, succeeds⟩ := performs
  obtain ⟨kept, called⟩ := succeeds object arguments
  refine ⟨object.record ⟨method, arguments, kept⟩, ?_, typed⟩
  simp only [Class.invoke, found, if_pos typed, called]
  rfl

def Signature.parameters (signature : Signature) : List Parameter :=
  signature.constructor ++ signature.setters.flatMap Setter.parameters

namespace Runtime
variable {ρ α : Type} {I : Runtime ρ → Prop} {E : Error → Prop}
  {eval : α → Act (Runtime ρ) Value} {P : α → Prop}

theorem meets_callSetter (present : ∀ e, E e → e.isUnbound = false) {c : Class} {step : Step α}
    (performs : c.Performs step.method) (each : ∀ a ∈ step.arguments, (eval a).Meets I (fun _ => P a) E)
    {object : Object} (typed : object.type = c.type) :
    (callSetter eval c object step).Meets I
      (fun object => object.type = c.type ∧ ∀ a ∈ step.arguments, P a) E := by
  intro s inv
  rw [runOn_callSetter]
  rcases meets_mapM each s inv with ⟨arguments, t, ran, inv, all⟩ | ⟨e, t, ran, failed⟩
  · obtain ⟨object', called, typed'⟩ := performs.invoke typed arguments
    exact .inl ⟨object', t, by simp only [ran, called], inv, typed', all⟩
  · exact .inr ⟨e, t, by simp [ran, present e failed], failed⟩

theorem meets_assemble (present : ∀ e, E e → e.isUnbound = false)
    (born : ∀ s, I s → I { s with born := s.born + 1 }) {registry : Registry} {signature : Signature}
    {c : Class} (carries : registry.Carries signature c) {arguments : List α} {steps : List (Step α)}
    (performs : ∀ step ∈ steps, c.Performs step.method)
    (constructor : ∀ a ∈ arguments, (eval a).Meets I (fun _ => P a) E)
    (setters : ∀ step ∈ steps, ∀ a ∈ step.arguments, (eval a).Meets I (fun _ => P a) E) :
    (assemble registry eval signature.className arguments steps signature.hook).Meets I
      (fun _ => (∀ a ∈ arguments, P a) ∧ ∀ step ∈ steps, ∀ a ∈ step.arguments, P a) E := by
  refine (meets_mapM constructor).bind fun values first => ?_
  have begun : (begin registry signature.className values : Act (Runtime ρ) _).Meets I
      (fun made => made.1 = c ∧ made.2.type = c.type) E := by
    intro s inv
    obtain ⟨kept, constructed⟩ := carries.constructs values
    let object : Object := ⟨s.born, c.type, c.name, [⟨constructorMethod, values, kept⟩]⟩
    refine .inl ⟨(c, object), { s with born := s.born + 1 }, ?_, born s inv, rfl, rfl⟩
    simp only [runOn_begin, carries.registered, Class.make, constructed]
    rfl
  refine begun.bind ?_
  rintro ⟨c, object⟩ ⟨rfl, typed⟩
  have called := meets_foldlM (f := callSetter eval c) (fun step member object typed =>
    meets_callSetter present (performs step member) (setters step member) typed) typed
  refine called.bind fun object made => ?_
  cases hooked : signature.hook with
  | none => exact meets_pure ⟨first, made.2⟩
  | some method =>
    intro s inv
    obtain ⟨object', called, -⟩ := (carries.hook method hooked).invoke made.1 []
    refine .inl ⟨(c, object'), s, ?_, inv, first, made.2⟩
    simp only [runOn_bind, runOn_liftExcept, called, runOn_pure]

end Runtime

namespace Interpreter
variable {registry : Registry} {table : Table}

/-- A bound key and the key of a parameter that its value is made from, if that is bound too. -/
def Edge (registry : Registry) (table : Table) (a b : Key) : Prop :=
  ∃ recipe, known registry table a = some (.build recipe) ∧
    (∃ p ∈ recipe.signature.parameters, p.key = b) ∧ (known registry table b).isSome = true

/-- The keys being resolved lead from one key to the next, and the innermost one to a further key. -/
structure Trail (registry : Registry) (table : Table) (start : Key) (active : List Key) (key : Key) :
    Prop where
  chain : (active.reverse ++ [key]).IsChain (Edge registry table)
  starts : (active.reverse ++ [key]).head? = some start
  distinct : active.Nodup
  bound : ∀ a ∈ key :: active, (known registry table a).isSome = true

theorem trail_start {key : Key} (bound : (known registry table key).isSome = true) :
    Trail registry table key [] key where
  chain := .singleton key
  starts := rfl
  distinct := .nil
  bound := List.forall_mem_singleton.mpr bound

namespace Trail
variable {start key : Key} {active : List Key} (trail : Trail registry table start active key)
include trail

theorem reached : ReflTransGen (Edge registry table) start key := by
  obtain ⟨rest, same⟩ := List.head?_eq_some_iff.mp trail.starts
  have chain := trail.chain
  rw [same] at chain
  refine reaches_of_isChain chain ?_
  rw [← same]
  exact List.mem_append_right _ (List.mem_singleton_self key)

theorem lasso (member : key ∈ active) : Lasso (Edge registry table) (active.reverse ++ [key]) where
  chain := trail.chain
  closes := ⟨active.reverse, key, rfl, List.nodup_reverse.mpr trail.distinct, List.mem_reverse.mpr member⟩

theorem enter (fresh : key ∉ active) {b : Key} (edge : Edge registry table key b) :
    Trail registry table start (key :: active) b where
  chain := by
    rw [List.reverse_cons]
    refine List.isChain_append.mpr ⟨trail.chain, .singleton b, ?_⟩
    intro x last y head
    rw [List.getLast?_concat, Option.mem_some_iff] at last
    obtain rfl : b = y := Option.mem_some_iff.mp head
    exact last ▸ edge
  starts := by
    obtain ⟨rest, same⟩ := List.head?_eq_some_iff.mp trail.starts
    rw [List.reverse_cons, same]
    rfl
  distinct := List.nodup_cons.mpr ⟨fresh, trail.distinct⟩
  bound := by
    obtain ⟨_, _, _, bound⟩ := edge
    exact List.forall_mem_cons.mpr ⟨bound, trail.bound⟩

theorem length_lt (fresh : key ∉ active) : active.length < (resolvable registry table).card := by
  have inside : ∀ a ∈ key :: active, a ∈ resolvable registry table := by
    intro a member
    obtain ⟨binding, known⟩ := Option.isSome_iff_exists.mp (trail.bound a member)
    exact mem_resolvable known
  exact Machine.length_le_card (List.nodup_cons.mpr ⟨fresh, trail.distinct⟩) inside

end Trail

/-- A state on the way: these keys are being resolved, and from no singleton made so far a cycle can be
reached. -/
structure Searching (registry : Registry) (table : Table) (active : List Key) (s : State) : Prop where
  own : Grows registry table s.own
  active : s.active = active
  singletons : ∀ {key value}, s.singletons.get? key = some value → Acyclic (Edge registry table) key

def Reports (registry : Registry) (table : Table) (start : Key) (e : Error) : Prop :=
  ∃ path, e = .circular path ∧ path.head? = some start ∧ Lasso (Edge registry table) path

theorem Searching.enter {active : List Key} {s : State} (searching : Searching registry table active s)
    (key : Key) : Searching registry table (key :: active) (entered key s) where
  own := searching.own
  active := congrArg (key :: ·) searching.active
  singletons := searching.singletons

theorem Searching.leave {key : Key} {active : List Key} {s : State}
    (searching : Searching registry table (key :: active) s)
    (acyclic : Acyclic (Edge registry table) key) (scope : Scope) (value : Value) :
    ∃ kept t, Runtime.leave key scope (.ok value, s) = (.ok kept, t) ∧ Searching registry table active t := by
  have rest : s.active.erase key = active := erase_innermost searching.active
  simp only [Runtime.leave, runOn_keep]
  cases scope with
  | prototype => exact ⟨_, _, rfl, searching.own, rest, searching.singletons⟩
  | singleton =>
    refine ⟨_, _, rfl, searching.own, rest, fun {q v} found => ?_⟩
    rcases SortedMap.get?_of_insertIfNew found with old | ⟨rfl, -⟩
    · exact searching.singletons old
    · exact acyclic

variable {start : Key}

/-- A key is delivered if no cycle can be reached from it, or else a cycle is reported. -/
theorem meets_deliver {active : List Key} {key : Key} (trail : Trail registry table start active key)
    (scope : Scope) {make : Run Value}
    (made : key ∉ active → make.Meets (Searching registry table (key :: active))
      (fun _ => Acyclic (Edge registry table) key) (Reports registry table start)) :
    (Runtime.deliver key scope make).Meets (Searching registry table active)
      (fun _ => Acyclic (Edge registry table) key) (Reports registry table start) := by
  intro s searching
  rw [runOn_deliver_eq]
  cases arrived : arrive key scope s with
  | some outcome =>
    unfold arrive at arrived
    cases kept : held key scope s with
    | some value =>
      rw [kept] at arrived
      cases arrived
      cases scope with
      | prototype => cases kept
      | singleton => exact .inl ⟨value, s, rfl, searching, searching.singletons kept⟩
    | none =>
      by_cases member : key ∈ s.active
      · rw [kept, if_pos member] at arrived
        cases arrived
        rw [searching.active] at member ⊢
        exact .inr ⟨_, s, rfl, _, rfl, trail.starts, trail.lasso member⟩
      · rw [kept, if_neg member] at arrived
        cases arrived
  | none =>
    have fresh := not_mem_of_arrive arrived
    rw [searching.active] at fresh
    rcases made fresh _ (searching.enter key) with ⟨value, t, ran, searching, acyclic⟩ | ⟨e, t, ran, reports⟩
    · obtain ⟨kept, u, left, searching⟩ := searching.leave acyclic scope value
      exact .inl ⟨kept, u, by simp only [ran, left], searching, acyclic⟩
    · exact .inr ⟨e, exited key t, by simp only [ran, Runtime.leave], reports⟩

/-- What the bindings that can be reached from a key must be for nothing to fail but for a cycle. -/
structure Complete (registry : Registry) (table : Table) (start : Key) : Prop where
  unprovided : ∀ {a recipe scope context}, known registry table a ≠ some (.provided recipe scope context)
  carried : ∀ {a recipe}, known registry table a = some (.build recipe) →
    ∃ c, registry.Carries recipe.signature c
  supplied : ∀ {a recipe}, ReflTransGen (Edge registry table) start a →
    known registry table a = some (.build recipe) → ∀ p ∈ recipe.signature.parameters,
      (known registry table p.key).isSome = true ∨ p.hasDefault = true

theorem meets_bindingFor (active : List Key) (key : Key) (E : Error → Prop) :
    (bindingFor registry key).Meets (Searching registry table active)
      (fun found => found = known registry table key) E := by
  intro s searching
  have grows := trans_of (Grows registry) searching.own (grows_learn s.own key)
  refine .inl ⟨_, _, runOn_bindingFor key s, ?_, searching.own.known_eq key⟩
  exact ⟨grows, searching.active, searching.singletons⟩

section
variable {active : List Key} {key : Key} {recipe : Recipe} {resolve : Resolve}
  (complete : Complete registry table start) (trail : Trail registry table start active key)
  (bound : known registry table key = some (.build recipe))
  (resolves : ∀ {b binding} point, Edge registry table key b → known registry table b = some binding →
    (resolve b binding point).Meets (Searching registry table (key :: active))
      (fun _ => Acyclic (Edge registry table) b) (Reports registry table start))
include complete trail bound resolves

theorem meets_argument {p : Parameter} (member : p ∈ recipe.signature.parameters) :
    (argument registry resolve p).Meets (Searching registry table (key :: active))
      (fun _ => (known registry table p.key).isSome = true → Acyclic (Edge registry table) p.key)
      (Reports registry table start) := by
  refine (meets_bindingFor (key :: active) p.key _).bind fun found same => ?_
  cases found with
  | some binding =>
    have edge : Edge registry table key p.key :=
      ⟨recipe, bound, ⟨p, member, rfl⟩, Option.isSome_iff_exists.mpr ⟨binding, same.symm⟩⟩
    intro s searching
    rcases resolves (some p.point) edge same.symm s searching with
      ⟨value, t, ran, searching, acyclic⟩ | failed
    · exact .inl ⟨value, t, ran, searching, fun _ => acyclic⟩
    · exact .inr failed
  | none =>
    have supplied := complete.supplied trail.reached bound p member
    rw [← same] at supplied ⊢
    have declared : p.default? = some p.defaultValue := if_pos (supplied.resolve_left nofun)
    simp only [declared]
    exact meets_pure nofun

theorem meets_realize (point : Option Point) :
    (realize registry resolve (.build recipe) point).Meets (Searching registry table (key :: active))
      (fun _ => Acyclic (Edge registry table) key) (Reports registry table start) := by
  obtain ⟨c, carries⟩ := complete.carried bound
  have present : ∀ e, Reports registry table start e → e.isUnbound = false := by
    rintro _ ⟨path, rfl, -⟩
    rfl
  have argued := fun p member => meets_argument complete trail bound resolves (p := p) member
  have performs : ∀ s ∈ recipe.signature.setters.map step, c.Performs s.method := by
    intro s member
    obtain ⟨setter, declared, rfl⟩ := List.mem_map.mp member
    exact carries.calls setter declared
  have made := meets_assemble present
    (fun s searching => ⟨searching.own, searching.active, searching.singletons⟩)
    carries performs (fun p member => argued p (List.mem_append_left _ member))
    (fun _ member p inside => by
      obtain ⟨setter, declared, rfl⟩ := List.mem_map.mp member
      exact argued p (List.mem_append_right _ (List.mem_flatMap.mpr ⟨setter, declared, inside⟩)))
  refine made.bind fun _ all => meets_pure (acyclic_of_next ?_)
  rintro b ⟨recipe', built, ⟨p, member, rfl⟩, known⟩
  rw [bound] at built
  cases built
  rcases List.mem_append.mp member with first | later
  · exact all.1 p first known
  · obtain ⟨setter, member, inside⟩ := List.mem_flatMap.mp later
    exact all.2 (step setter) (List.mem_map_of_mem member) p inside known

end

theorem meets_resolve (complete : Complete registry table start) (depth : Nat) {active : List Key} {key : Key}
    {binding : Binding} (point : Option Point) (trail : Trail registry table start active key)
    (bound : known registry table key = some binding)
    (room : (resolvable registry table).card ≤ depth + active.length) :
    (resolve registry depth key binding point).Meets (Searching registry table active)
      (fun _ => Acyclic (Edge registry table) key) (Reports registry table start) := by
  induction depth generalizing active key binding point with
  | zero =>
    refine meets_deliver trail binding.scope fun fresh => ?_
    have shorter := trail.length_lt fresh
    omega
  | succ depth ih =>
    refine meets_deliver trail binding.scope fun fresh => ?_
    have deeper : (resolvable registry table).card ≤ depth + (key :: active).length := by
      rw [List.length_cons]
      omega
    cases binding with
    | provided recipe scope context => exact absurd bound complete.unprovided
    | literal value =>
      refine meets_pure (acyclic_of_next ?_)
      rintro b ⟨recipe, built, -⟩
      rw [bound] at built
      cases built
    | build recipe =>
      exact meets_realize complete trail bound
        (fun point edge known => ih point (trail.enter fresh edge) known deeper) point

theorem get?_of_known_provided {a : Key} {recipe : Recipe} {scope : Scope} {context : Option String}
    (found : known registry table a = some (.provided recipe scope context)) :
    table.get? a = some (.provided recipe scope context) := by
  unfold known at found
  cases there : table.get? a with
  | some binding =>
    rw [there] at found
    exact found
  | none =>
    simp only [there] at found
    by_cases plain : a.isPlain = true
    · rw [if_pos plain] at found
      obtain ⟨signature, -, made⟩ := Option.map_eq_some_iff.mp found
      cases made
    · rw [if_neg plain] at found
      cases found

/-- A new interpreter gives a value for a key if and only if no cycle can be reached from it. Otherwise it
reports one, with the way that leads to it and once around it. -/
theorem request_detects_cycles (registry : Registry) (table : Table) (born : Nat) (key : Key)
    (point : Option Point)
    (unprovided : ∀ a recipe scope context, table.get? a ≠ some (.provided recipe scope context))
    (carried : ∀ a recipe, known registry table a = some (.build recipe) →
      ∃ c, registry.Carries recipe.signature c)
    (bound : (known registry table key).isSome = true)
    (supplied : ∀ a recipe, ReflTransGen (Edge registry table) key a →
      known registry table a = some (.build recipe) → ∀ p ∈ recipe.signature.parameters,
        (known registry table p.key).isSome = true ∨ p.hasDefault = true) :
    let outcome := ((request registry key point).runOn (Runtime.start born table)).1
    ((∃ value, outcome = .ok value) ↔
      ¬ ∃ c, ReflTransGen (Edge registry table) key c ∧ TransGen (Edge registry table) c c) ∧
    ((∃ c, ReflTransGen (Edge registry table) key c ∧ TransGen (Edge registry table) c c) →
      ∃ before last, outcome = .error (.circular (before ++ [last])) ∧
        (before ++ [last]).head? = some key ∧ (before ++ [last]).IsChain (Edge registry table) ∧
        before.Nodup ∧ last ∈ before) := by
  intro outcome
  obtain ⟨binding, known⟩ := Option.isSome_iff_exists.mp bound
  have complete : Complete registry table key :=
    ⟨fun found => unprovided _ _ _ _ (get?_of_known_provided found), carried _ _, supplied _ _⟩
  let s := Runtime.start born table
  have searching : Searching registry table [] { s with own := learn registry table key } :=
    ⟨grows_learn table key, rfl, nofun⟩
  have ran : (request registry key point).runOn s = (resolve registry (bindable registry s) key binding
      point).runOn { s with own := learn registry table key } := by
    have own : s.own = table := rfl
    rw [runOn_request, own, known]
    rfl
  rcases meets_resolve complete (bindable registry s) point (trail_start bound) known
    (card_resolvable_le s) _ searching with ⟨value, t, resolved, -, acyclic⟩ | ⟨e, t, resolved, reports⟩
  · have delivered : outcome = .ok value := congrArg Prod.fst (ran.trans resolved)
    exact ⟨⟨fun _ => acyclic, fun _ => ⟨value, delivered⟩⟩, fun cyclic => absurd cyclic acyclic⟩
  · have failed : outcome = .error e := congrArg Prod.fst (ran.trans resolved)
    obtain ⟨path, rfl, starts, lasso⟩ := reports
    have cyclic := lasso.not_acyclic starts
    obtain ⟨before, last, rfl, distinct, member⟩ := lasso.closes
    refine ⟨⟨?_, fun acyclic => absurd acyclic cyclic⟩, fun _ => ?_⟩
    · rintro ⟨value, delivered⟩
      cases failed.symm.trans delivered
    · exact ⟨before, last, failed, starts, lasso.chain, distinct, member⟩

def needsNext : Class :=
  (Class.define "A" "A" fun _ => .ok []).constructorParameter ⟨"next", .plain "B", none⟩

def needsFirst : Class :=
  (Class.define "B" "B" fun _ => .ok []).setter true "back"
    [⟨"first", .plain "A", none⟩, ⟨"size", .plain "size", some Json.null⟩] fun _ arguments => .ok arguments

def mutualRegistry : Registry := .ofClasses [needsNext, needsFirst]

theorem mutual_need_reported :
    ∃ before last, ((request mutualRegistry (.plain "A") none).runOn (Runtime.start 0 SortedMap.empty)).1 =
        .error (.circular (before ++ [last])) ∧
      (before ++ [last]).head? = some (.plain "A") ∧
      (before ++ [last]).IsChain (Edge mutualRegistry SortedMap.empty) ∧ before.Nodup ∧ last ∈ before := by
  have built : ∀ a recipe, known mutualRegistry SortedMap.empty a = some (.build recipe) →
      recipe.signature = needsNext.signature ∨ recipe.signature = needsFirst.signature := by
    intro a recipe found
    simp only [known, SortedMap.get?_empty] at found
    by_cases plain : a.isPlain = true
    · rw [if_pos plain] at found
      obtain ⟨signature, signed, made⟩ := Option.map_eq_some_iff.mp found
      obtain ⟨c, registered, rfl⟩ := Option.map_eq_some_iff.mp signed
      cases made
      have member := Registry.mem_of_ofClasses registered
      simp only [List.mem_cons, List.not_mem_nil, or_false] at member
      rcases member with rfl | rfl
      · exact .inl rfl
      · exact .inr rfl
    · rw [if_neg plain] at found
      cases found
  have first : Edge mutualRegistry SortedMap.empty (.plain "A") (.plain "B") :=
    ⟨⟨needsNext.signature, .prototype⟩, rfl, ⟨_, List.mem_cons_self, rfl⟩, rfl⟩
  have back : Edge mutualRegistry SortedMap.empty (.plain "B") (.plain "A") :=
    ⟨⟨needsFirst.signature, .prototype⟩, rfl, ⟨_, List.mem_cons_self, rfl⟩, rfl⟩
  have unprovided : ∀ a recipe scope context,
      (SortedMap.empty : Table).get? a ≠ some (.provided recipe scope context) := by
    intro a recipe scope context found
    rw [SortedMap.get?_empty] at found
    cases found
  refine (request_detects_cycles mutualRegistry SortedMap.empty 0 (.plain "A") none unprovided ?_ rfl ?_).2
    ⟨.plain "A", .refl, .head first (.single back)⟩
  · intro a recipe found
    rcases built a recipe found with same | same
    · rw [same]
      refine ⟨needsNext, rfl, fun _ => ⟨[], rfl⟩, fun _ member => absurd member List.not_mem_nil, ?_⟩
      rintro method ⟨⟩
    · rw [same]
      refine ⟨needsFirst, rfl, fun _ => ⟨[], rfl⟩, ?_, ?_⟩
      · intro setter member
        obtain rfl := List.mem_singleton.mp member
        exact ⟨fun _ arguments => .ok arguments, rfl, fun _ arguments => ⟨arguments, rfl⟩⟩
      · rintro method ⟨⟩
  · intro a recipe _ found p member
    rcases built a recipe found with same | same
    · rw [same] at member
      obtain rfl := List.mem_singleton.mp member
      exact .inl rfl
    · have listed : needsFirst.signature.parameters = [⟨.plain "A", false, .null, ⟨"B", "back", "first"⟩⟩,
        ⟨.plain "size", true, .null, ⟨"B", "back", "size"⟩⟩] := rfl
      rw [same, listed] at member
      rcases List.mem_pair.mp member with rfl | rfl
      · exact .inl rfl
      · exact .inr rfl

end Interpreter
end Wiring
