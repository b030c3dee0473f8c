import Wiring.Proofs.History
import Wiring.Proofs.Settling.Skipping

/-! # How a setter shows that is to be skipped

A recipe compiles alike with and without an optional setter one of whose parameters nothing can bind. The
interpreter resolves the parameters before that one nevertheless, so a request for the key of the recipe
shows that it has the setter if one of these fails, and not for want of a binding; otherwise the answer has
the same shape.
-/
namespace Wiring.Interpreter

namespace Grounds

variable {g : Grounds} {key : Key} {binding binding' : Binding}

/-- A key is answered with an error that does not say that a key is unbound, and another one with the same
error, or both with the ways in which they need themselves. -/
def Spoils (inner outer : Except Error Value) : Prop :=
  ∃ e e', inner = .error e ∧ e.isUnbound = false ∧ outer = .error e' ∧ (e' = e ∨ e.Circular ∧ e'.Circular)

section
variable {stall wider : Table} (stuck : ¬ ∃ found k, (g.onTable stall).SettlesOn key found k)
  (exchanged : g.Exchanged stall key) (here : g.known key = some binding) {r r' : Except Error Value}

include stuck exchanged here in
theorem spoils_of_trouble {p : Parameter} (answers : g.Answers key r)
    (trouble : Trouble (g.onTable stall).verdict p
      (g.play (g.onTable stall).verdict (g.dialogue binding) 0)) :
    (∃ found, g.known p.key = some found) ∧ ∀ asked, g.Answers p.key asked → Spoils asked r := by
  generalize played : g.play (g.onTable stall).verdict (g.dialogue binding) 0 = stop at trouble
  cases trouble with
  | @failed _ e k m told bound =>
    have on : g.SettlesOn p.key (.error e) k :=
      SettlesOn.elsewhere_of_unsettled (g := g.onTable stall) exchanged.symm stuck (settlesOn_of_verdict told)
    obtain ⟨found, known⟩ : ∃ found, g.known p.key = some found := on.imp fun _ both => both.1
    have failed : r = .error e :=
      answers.of_failed here ((settlesOn_iff_play exchanged stuck here).mpr played)
    exact ⟨⟨found, known⟩, fun asked answered => ⟨e, e, answered.of_failed known on, bound, failed, .inl rfl⟩⟩
  | halted told =>
    have unsettled : ¬ ∃ found k, g.SettlesOn key found k := by
      rintro ⟨found, k, on⟩
      exact absurd (((settlesOn_iff_play exchanged stuck here).mp on).symm.trans played) nofun
    rw [← verdict_onTable exchanged stuck unsettled] at told
    obtain ⟨⟨found, known⟩, no⟩ := unsettled_of_verdict told
    obtain ⟨path, rfl, -⟩ := answers.of_unsettled here unsettled
    refine ⟨⟨found, known⟩, fun asked answered => ?_⟩
    obtain ⟨path', rfl, -⟩ := answered.of_unsettled known no
    exact ⟨_, _, rfl, rfl, rfl, .inr ⟨⟨path', rfl⟩, path, rfl⟩⟩

variable (widened : g.Exchanged wider key) (there : (g.onTable wider).known key = some binding')
include stuck exchanged here widened there

/-- Two bindings of a key whose dialogues stop at the same place, up to names, are answered alike. -/
theorem agree_of_shifted (scope : binding'.scope = binding.scope) {start more : Nat}
    (shifted : g.Shifted Value.Alike key start more
      (g.play (g.onTable stall).verdict (g.dialogue binding) 0)
      (g.play (g.onTable stall).verdict (g.dialogue binding') 0))
    (answers : g.Answers key r) (answers' : (g.onTable wider).Answers key r') : Agree SameShape r r' := by
  have exchanged' : (g.onTable wider).Exchanged stall key := widened.aside exchanged
  have settles : ∀ {o m}, g.SettlesOn key o m ↔
      g.play (g.onTable stall).verdict (g.dialogue binding) 0 = .settled o m :=
    settlesOn_iff_play exchanged stuck here
  have settles' : ∀ {o m}, (g.onTable wider).SettlesOn key o m ↔
      g.play (g.onTable stall).verdict (g.dialogue binding') 0 = .settled o m := by
    intro o m
    rw [← play_onTable wider]
    exact settlesOn_iff_play exchanged' stuck there
  generalize played : g.play (g.onTable stall).verdict (g.dialogue binding) 0 = stop at shifted settles
  generalize played' : g.play (g.onTable stall).verdict (g.dialogue binding') 0 = stop' at shifted settles'
  cases shifted with
  | settled _ agree =>
    obtain ⟨β, oneToOne, between⟩ := delivered_alike binding.scope agree
    obtain ⟨chart, injective, answered⟩ := answers.of_settled here (settles.mpr rfl)
    obtain ⟨chart', injective', answered'⟩ := answers'.of_settled there (settles'.mpr rfl)
    rw [scope] at answered'
    have first : Agree SameShape r _ := .of_common injective oneToOne answered between
    exact first.trans (answered'.sameShape injective')
  | halted needed =>
    have unsettled : ¬ ∃ found k, g.SettlesOn key found k := fun ⟨_, _, on⟩ => nomatch settles.mp on
    have unsettled' : ¬ ∃ found k, (g.onTable wider).SettlesOn key found k :=
      fun ⟨_, _, on⟩ => nomatch settles'.mp on
    have told : g.verdict = (g.onTable stall).verdict := verdict_onTable exchanged stuck unsettled
    have told' : (g.onTable wider).verdict = (g.onTable stall).verdict :=
      verdict_onTable exchanged' stuck unsettled'
    obtain ⟨path, rfl, circle⟩ := answers.of_unsettled here unsettled
    obtain ⟨path', rfl, circle'⟩ := answers'.of_unsettled there unsettled'
    have stops : g.Halts needed (g.dialogue binding) 0 := halted_iff.mp (told ▸ played)
    have stops' : (g.onTable wider).Halts needed (g.dialogue binding') 0 := by
      refine halted_iff (g := g.onTable wider).mp ?_
      rw [play_onTable, told', played']
    have halts : ∀ {q}, g.Halts q (g.dialogue binding) 0 →
        (g.onTable wider).Halts q (g.dialogue binding') 0 := by
      intro q halted
      obtain rfl := halted.unique stops
      exact stops'
    have carried : (g.onTable wider).Circle [] key path :=
      circle.elsewhere widened (told'.trans told.symm) here there halts
    exact carried.unique circle' ▸ .error _

end

theorem answers_adding (bound : g.table.get? key = some binding) {setter : Setter}
    (optional : setter.optional = true) {before behind : List Parameter} {dead : Parameter}
    (declared : setter.parameters = before ++ dead :: behind) (absent : g.known dead.key = none)
    (bare : dead.hasDefault = false) (i : Nat) {r r' : Except Error Value} (answers : g.Answers key r)
    (answers' : (g.rebind key (binding.adding i setter)).Answers key r') :
    Agree SameShape r r' ∨ ∃ p ∈ before,
      (∃ found, (g.rebind key (binding.adding i setter)).known p.key = some found) ∧
      ∀ asked, (g.rebind key (binding.adding i setter)).Answers p.key asked → Spoils asked r' := by
  -- Both are compared over a table in which the key needs itself, as what settles is found without it there.
  have exchanged := exchanged_insert bound (blocked key)
  have widened := exchanged_insert bound (binding.adding i setter)
  have here : g.known key = some binding := known_of_get? bound
  have there : (g.rebind key (binding.adding i setter)).known key = some (binding.adding i setter) :=
    known_insert g.table key (binding.adding i setter)
  have stuck : ¬ ∃ found k, (g.rebind key (blocked key)).SettlesOn key found k :=
    unsettled_of_blocked (known_insert g.table key (blocked key))
  have told : (g.rebind key (blocked key)).verdict dead.key = .unknown :=
    (Judged.unknown (exchanged.unknown absent)).verdict_eq
  have named : ∀ q, g.Named key q ((g.rebind key (blocked key)).verdict q) :=
    named_verdict (g := g.rebind key (blocked key)) stuck
  rcases play_adding named told bare optional declared i binding with
    ⟨start, more, shifted⟩ | ⟨p, member, trouble⟩
  · exact .inl (agree_of_shifted stuck exchanged here widened there (binding.scope_adding i setter)
      shifted answers answers')
  · rw [← play_onTable (g.table.insert key (binding.adding i setter))] at trouble
    exact .inr ⟨p, member, spoils_of_trouble (g := g.rebind key _) stuck (widened.aside exchanged) there
      answers' trouble⟩

theorem sound_asked {asked : Set Key} {s : State} (sound : g.Sound asked s)
    (earlier : List (Key × Option Point)) : ∃ asked', g.Sound asked' (after g.registry earlier s) := by
  induction earlier generalizing asked s with
  | nil => exact ⟨asked, sound⟩
  | cons first rest ih =>
    have next : ∃ asked', g.Sound asked' ((request g.registry first.1 first.2).runOn s).2 := by
      cases bound : g.known first.1 with
      | some binding => exact ⟨_, (sound_known sound bound first.2).2⟩
      | none =>
        rw [runOn_request_unknown sound bound]
        exact ⟨asked, sound⟩
    obtain ⟨asked', sound'⟩ := next
    exact ih sound'

end Grounds

/-- Adding to a recipe an optional setter with a parameter that nothing can bind and that has no default
changes neither the plan of the recipe nor the error there is instead. Let functions be pure, and let
providers neither care who asks nor keep from others that a key needs itself. Then it changes the answer to a
request for the key of the recipe only if a parameter declared before that one fails, and not for want of a
binding: the request ends with the same error, or both end with the ways in which the keys need themselves.
Otherwise the error is the same as without the setter, or the value has the same shape. -/
theorem dead_setter_shows_only_by_failures {registry : Registry} {table : Table} {key : Key}
    {binding : Binding} (bound : table.get? key = some binding) {setter : Setter}
    (optional : setter.optional = true) {before behind : List Parameter} {dead : Parameter}
    (declared : setter.parameters = before ++ dead :: behind)
    (absent : known registry table dead.key = none) (bare : dead.hasDefault = false) (i : Nat) :
    let wider := table.insert key (binding.adding i setter)
    (∀ (σ : Type) (capability : Compile.Capability σ) (scopes : Key → Option Scope) (I : σ → Prop),
      capability.Steady scopes table I → scopes dead.key = none → ∀ s, I s →
        ((Compile.plan capability wider key (binding.adding i setter)).runOn s).1 =
          ((Compile.plan capability table key binding).runOn s).1) ∧
    ∀ old, registry.Pure old → registry.Blind → registry.Passes Error.Circular →
      ∀ (asked asked' : List (Key × Option Point)) (point point' : Option Point) (born born' : Nat),
      old ≤ born → old ≤ born' →
      let answer := ((request registry key point).runOn
        (after registry asked (Runtime.start born table))).1
      let answer' := ((request registry key point').runOn
        (after registry asked' (Runtime.start born' wider))).1
      Agree SameShape answer answer' ∨ ∃ p ∈ before, Grounds.Spoils
        ((request registry p.key (some p.point)).runOn (Runtime.start born' wider)).1 answer' := by
  intro wider
  constructor
  · intro σ capability scopes I steady unreported s inv
    have member : dead ∈ setter.parameters := by simp [declared]
    have missing : ¬ Compile.Satisfiable scopes table dead := by
      have unbound : table.get? dead.key = none := by
        cases found : table.get? dead.key with
        | none => rfl
        | some b => exact absurd ((known_of_get? found).symm.trans absent) nofun
      simp [Compile.Satisfiable, unbound, unreported, bare]
    exact Compile.plan_adding optional member missing steady inv bound i
  · intro old purity blind passes asked asked' point point' born born' le le' answer answer'
    obtain ⟨naming, injective, above⟩ := Draft.exists_naming old
    let g : Grounds := ⟨registry, table, naming, old, injective, above, purity, blind, passes⟩
    have fresh : ∀ t {b}, old ≤ b → (g.onTable t).Sound ∅ (Runtime.start b t) := fun t _ le =>
      ⟨_, Grounds.tracks_start le t, Grounds.knows_start (g.onTable t) _⟩
    have here : g.known key = some binding := known_of_get? bound
    have there : (g.onTable wider).known key = some (binding.adding i setter) :=
      known_insert table key (binding.adding i setter)
    obtain ⟨_, sound⟩ := Grounds.sound_asked (fresh table le) asked
    obtain ⟨_, sound'⟩ := Grounds.sound_asked (fresh wider le') asked'
    rcases Grounds.answers_adding (g := g) bound optional declared absent bare i
      (Grounds.sound_known sound here point).1 (Grounds.sound_known sound' there point').1 with
      same | ⟨p, member, ⟨found, known⟩, spoils⟩
    · exact .inl same
    · exact .inr ⟨p, member, spoils _ (Grounds.sound_known (fresh wider le') known (some p.point)).1⟩

section
open TwoPhase

def workshop (makeS : Constructor) : Registry :=
  .ofClasses [(bare "A").setter false "use" [⟨"t", .plain "T", none⟩] fun _ _ => .ok [],
    .define "S" "S" makeS, bare "T"]

def setterOfA (method : String) (parameters : List (String × Key)) (optional : Bool) : Setter :=
  ⟨method, parameters.map fun p => ⟨p.2, false, Json.null, ⟨"A", method, p.1⟩⟩, optional⟩

/-- A setter for an `S` and for a key that nothing can bind. -/
def idleSetter : Setter := setterOfA "idle" [("s", .plain "S"), ("u", .plain "U")] true

def bindingA : Binding := .build ⟨⟨"A", [], [setterOfA "use" [("t", .plain "T")] false], none⟩, .prototype⟩

def tableA : Table :=
  .ofList [(.plain "A", bindingA), (.plain "T", .build ⟨⟨"T", [], [], none⟩, .prototype⟩)]

theorem pure_workshop {makeS : Constructor} (h : PureConstructor 0 makeS) :
    Registry.Pure 0 (workshop makeS) := by
  refine Registry.pure_ofClasses ?_
  intro c member
  simp only [List.mem_cons, List.not_mem_nil, or_false] at member
  rcases member with rfl | rfl | rfl
  · exact (pure_bare "A").setter _ _ _ fun _ _ _ _ _ _ _ => .ok .nil
  · exact Class.pure_define "S" "S" h
  · exact pure_bare "T"

theorem no_provider_in_workshop (makeS : Constructor) {name : String} {c : Class}
    (found : (workshop makeS).get? name = some c) : c.provide = none := by
  have member := Registry.mem_of_ofClasses found
  simp only [List.mem_cons, List.not_mem_nil, or_false] at member
  rcases member with rfl | rfl | rfl <;> rfl

theorem blind_workshop (makeS : Constructor) : (workshop makeS).Blind := fun _ _ found _ provides =>
  nomatch (no_provider_in_workshop makeS found).symm.trans provides

theorem passes_workshop (makeS : Constructor) : (workshop makeS).Passes Error.Circular :=
  fun _ _ found _ provides => nomatch (no_provider_in_workshop makeS found).symm.trans provides

def madeA (a t : Nat) : Value :=
  .object a "A" "A" [⟨constructorMethod, [], []⟩,
    ⟨"use", [.object t "T" "T" [⟨constructorMethod, [], []⟩]], []⟩]

/-- For the setter that is not called an `S` is made in vain, before the `T`. The plan of the `A` is the same,
and the `A` has the same shape. -/
theorem S_made_in_vain :
    let registry := workshop fun _ => .ok []
    let wider := tableA.insert (.plain "A") (bindingA.adding 0 idleSetter)
    let plan := Compile.plan (.interpreted : Compile.Capability Unit)
    (∃ p, ((plan tableA (.plain "A") bindingA).runOn ()).1 = .ok p ∧
      ((plan wider (.plain "A") (bindingA.adding 0 idleSetter)).runOn ()).1 = .ok p) ∧
    ((request registry (.plain "A") none).runOn (Runtime.start 0 tableA)).1 = .ok (madeA 0 1) ∧
    ((request registry (.plain "A") none).runOn (Runtime.start 0 wider)).1 = .ok (madeA 0 2) ∧
    SameShape (madeA 0 1) (madeA 0 2) := by
  intro registry wider plan
  have pure : registry.Pure 0 := pure_workshop fun _ _ _ _ => .ok .nil
  have shows := @dead_setter_shows_only_by_failures registry tableA (.plain "A") bindingA rfl idleSetter rfl
    (idleSetter.parameters.take 1) [] _ rfl rfl rfl 0
  have alike : Agree SameShape (.ok (madeA 0 1)) (.ok (madeA 0 2)) ∨ ∃ p ∈ idleSetter.parameters.take 1, _ :=
    shows.2 0 pure (blind_workshop _) (passes_workshop _) [] [] none none 0 0 (Nat.le_refl 0) (Nat.le_refl 0)
  have compiled := shows.1 Unit .interpreted Compile.noScopes (fun _ => True) (fun _ _ _ _ => ⟨trivial, rfl⟩)
    rfl () trivial
  obtain ⟨p, made⟩ : ∃ p, ((plan tableA (.plain "A") bindingA).runOn ()).1 = .ok p := ⟨_, rfl⟩
  refine ⟨⟨p, made, compiled.trans made⟩, rfl, rfl, ?_⟩
  rcases alike with same | ⟨p, member, e, e', failed, -⟩
  · cases same with
    | ok same => exact same
  · obtain rfl := List.mem_singleton.mp member
    exact absurd failed nofun

/-- A request may fail because of a setter that is to be skipped, even if functions are pure and there are no
providers. -/
theorem dead_setter_may_fail :
    ¬ ∀ (registry : Registry) (table : Table) (key : Key) (binding : Binding) (i : Nat) (setter : Setter)
      (dead : Parameter), registry.Pure 0 → registry.Blind → registry.Passes Error.Circular →
      table.get? key = some binding → setter.optional = true → dead ∈ setter.parameters →
      known registry table dead.key = none → dead.hasDefault = false →
      Agree SameShape ((request registry key none).runOn (Runtime.start 0 table)).1
        ((request registry key none).runOn
          (Runtime.start 0 (table.insert key (binding.adding i setter)))).1 := by
  intro unchanged
  have same : Agree SameShape (.ok (madeA 0 1)) (.error (.instantiation "S" "no more")) :=
    unchanged (workshop fun _ => .error (.instantiation "S" "no more")) tableA (.plain "A") bindingA 0
      idleSetter ⟨.plain "U", false, Json.null, ⟨"A", "idle", "u"⟩⟩ (pure_workshop fun _ _ _ _ => .error _)
      (blind_workshop _) (passes_workshop _) rfl rfl (by simp [idleSetter, setterOfA]) rfl rfl
  cases same

end

end Wiring.Interpreter
