import Wiring.Proofs.Settling.Chart
import Mathlib.Data.List.Perm.Subperm
import Mathlib.Data.Set.Insert

/-! # The interpreter finds what keys settle on

Whatever singletons are kept already, resolving a key ends with what the key settles on, or else with the
path by which it needs itself. Either way the interpreter has by then asked for all that the key needs,
directly or not, and for nothing else.
-/
namespace Wiring.Interpreter.Grounds
open Wiring.Runtime Relation

variable (g : Grounds)

def Reaches : Key → Key → Prop := ReflTransGen fun user needed => g.Needs needed user

/-- The table has grown by the keys asked for. Each of them, unless it is being resolved, has asked for
all that it needs. -/
structure Knows (asked : Set Key) (active : List Key) (s : State) : Prop where
  own : ∀ {key binding}, s.own.get? key = some binding ↔
    g.known key = some binding ∧ ((∃ b, g.table.get? key = some b) ∨ key ∈ asked)
  kept : ∀ {key v}, s.singletons.get? key = some v → key ∈ asked
  covered : ∀ {user}, user ∈ asked → user ∉ active → ∀ {needed}, g.Needs needed user → needed ∈ asked

structure Adds (before after : Set Key) (keys : Set Key) : Prop where
  sub : before ⊆ after
  all : keys ⊆ after
  reached : ∀ needed ∈ after, needed ∈ before ∨ ∃ key ∈ keys, g.Reaches key needed

variable {g} {asked asked' keys : Set Key} {active : List Key} {s t u : State} {key : Key}

theorem adds_none (asked : Set Key) : g.Adds asked asked ∅ :=
  ⟨subset_rfl, Set.empty_subset _, fun _ => .inl⟩

theorem Adds.trans {later keys' : Set Key} (first : g.Adds asked asked' keys)
    (next : g.Adds asked' later keys') : g.Adds asked later (keys ∪ keys') where
  sub := first.sub.trans next.sub
  all := Set.union_subset (first.all.trans next.sub) next.all
  reached needed member := by
    rcases next.reached needed member with early | ⟨key, among, reaches⟩
    · exact (first.reached needed early).imp_right fun ⟨key, among, reaches⟩ => ⟨key, .inl among, reaches⟩
    · exact .inr ⟨key, .inr among, reaches⟩

theorem knows_start (g : Grounds) (born : Nat) : g.Knows ∅ [] (Runtime.start born g.table) where
  own := by
    intro key binding
    refine ⟨fun found => ⟨known_of_get? found, .inl ⟨binding, found⟩⟩, ?_⟩
    rintro ⟨known, ⟨b, found⟩ | none⟩
    · exact found.trans ((known_of_get? found).symm.trans known)
    · exact none.elim
  kept := nofun
  covered := nofun

theorem Knows.grows (knows : g.Knows asked active s) : Grows g.registry g.table s.own where
  kept found := knows.own.mpr ⟨known_of_get? found, .inl ⟨_, found⟩⟩
  known found := (knows.own.mp found).1

theorem Knows.known_eq (knows : g.Knows asked active s) (key : Key) :
    Interpreter.known g.registry s.own key = g.known key := knows.grows.known_eq key

theorem Knows.of_taken (knows : g.Knows asked active s) (made : Except Error Object) :
    g.Knows asked active (Dialogue.taken made s) := by
  cases made <;> exact ⟨knows.own, knows.kept, knows.covered⟩

def asking (g : Grounds) (key : Key) (s : State) : State :=
  { s with own := learn g.registry s.own key }

theorem Knows.ask (knows : g.Knows asked active s) (key : Key) (idle : key ∈ asked ∨ key ∈ active) :
    g.Knows (insert key asked) active (g.asking key s) where
  own {q binding} := by
    simp only [asking, get?_learn]
    by_cases same : q = key
    · subst same
      simp only [if_true, knows.known_eq, Set.mem_insert_iff, true_or, or_true, and_true]
    · rw [if_neg same, knows.own, Set.mem_insert_iff, or_iff_right same]
  kept found := .inr (knows.kept found)
  covered {user} member outside {needed} needs := by
    rcases Set.mem_insert_iff.mp member with rfl | early
    · exact .inr (knows.covered (idle.resolve_right outside) outside needs)
    · exact .inr (knows.covered early outside needs)

theorem Knows.unknown (knows : g.Knows asked active s) (absent : g.known key = none) :
    g.Knows (insert key asked) active s where
  own {q binding} := by
    rw [knows.own]
    refine and_congr_right fun bound => or_congr_right ⟨.inr, fun member => ?_⟩
    rcases member with rfl | early
    · exact absurd (bound.symm.trans absent) nofun
    · exact early
  kept found := .inr (knows.kept found)
  covered {user} member outside {needed} needs := by
    rcases member with rfl | early
    · exact absurd (needs.choose_spec.1.symm.trans absent) nofun
    · exact .inr (knows.covered early outside needs)

theorem Knows.enter (knows : g.Knows asked active s) (key : Key) :
    g.Knows (insert key asked) (key :: active) (entered key (g.asking key s)) := by
  have inner : g.Knows asked (key :: active) (entered key s) :=
    ⟨knows.own, knows.kept, fun member outside => knows.covered member fun inside =>
      outside (List.mem_cons_of_mem key inside)⟩
  exact inner.ask key (.inr List.mem_cons_self)

theorem Knows.exit (knows : g.Knows asked (key :: active) u) (own : t.own = u.own)
    (kept : ∀ {q v}, t.singletons.get? q = some v → q ∈ asked)
    (all : ∀ {needed}, g.Needs needed key → needed ∈ asked) : g.Knows asked active t where
  own := own ▸ knows.own
  kept := kept
  covered {user} member outside {needed} needs := by
    by_cases same : user = key
    · exact all (same ▸ needs)
    · exact knows.covered member (fun inside => (List.mem_cons.mp inside).elim same outside) needs

variable {chart chart' : Matching} {n n' : Nat} {d d' : Dialogue Question Value}
  {binding : Binding}

variable (g) in
/-- The end of a resolution, or of a part of one, given what it may settle on with how many names, by
which paths it may come to a halt, and which keys it asks for. -/
inductive Ends (asked : Set Key) (active : List Key) (chart : Matching) (s : State)
    (settles : Except Error Value → Nat → Prop) (halts : List Key → Prop) (keys : Set Key) :
    Except Error Value × State → Prop
  | settled {asked' : Set Key} {chart' : Matching} {outcome found : Except Error Value} {m : Nat}
    {t : State} : g.Adds asked asked' keys → g.Knows asked' active t → g.Tracks active chart' m t →
      Extends active chart s chart' t → settles outcome m → Agree (Value.Alike chart') outcome found →
      Ends asked active chart s settles halts keys (found, t)
  | halted {asked' : Set Key} {chart' : Matching} {path : List Key} {t : State} :
      g.Adds asked asked' keys → g.Knows asked' active t → g.Tracks active chart' 0 t → halts path →
      Ends asked active chart s settles halts keys (.error (.circular path), t)

variable (g) in
/-- A dialogue is held as it settles, or up to where it comes to a halt. -/
def Follows (asked : Set Key) (active : List Key) (chart : Matching) (s : State)
    (d : Dialogue Question Value) (n : Nat) : Except Error Value × State → Prop :=
  g.Ends asked active chart s (g.Settles d n)
    (fun path => ∃ needed, g.Halts needed d n ∧ g.Circle active needed path) {key | g.Meets key d n}

variable (g) in
/-- A key is delivered to a user as it settles, or not at all. -/
def Delivers (asked : Set Key) (active : List Key) (chart : Matching) (n : Nat) (s : State) (key : Key)
    (binding : Binding) : Except Error Value × State → Prop :=
  g.Ends asked active chart s
    (fun outcome m => ∃ found k, g.SettlesOn key found k ∧
      outcome = g.carried binding.scope key n found ∧ m = n + k)
    (fun path => (¬ ∃ found k, g.SettlesOn key found k) ∧ g.Circle active key path) {key}

def Asks (g : Grounds) (key : Key) : Dialogue Question Value → Prop
  | .ask q _ => q.key = key ∧ ∃ binding, g.known q.key = some binding
  | _ => False

theorem meets_iff_of_step (step : g.Step d n d' n') :
    g.Meets key d n ↔ g.Asks key d ∨ g.Meets key d' n' := by
  refine ⟨fun meets => ?_, fun either => ?_⟩
  · cases meets with
    | here bound named => exact .inl ⟨named, _, bound⟩
    | step taken meets =>
      obtain ⟨rfl, rfl⟩ := step.unique taken
      exact .inr meets
  · rcases either with now | meets
    · cases d with
      | ask q next => exact .here now.2.choose_spec now.1
      | finish outcome | take make next => exact now.elim
    · exact .step step meets

theorem Follows.step {r : Except Error Value × State} (step : g.Step d n d' n')
    (adds : g.Adds asked asked' {key | g.Asks key d}) (grown : Extends active chart s chart' t)
    (h : g.Follows asked' active chart' t d' n' r) : g.Follows asked active chart s d n r := by
  have keys : {key | g.Meets key d n} = {key | g.Asks key d} ∪ {key | g.Meets key d' n'} :=
    Set.ext fun _ => meets_iff_of_step step
  unfold Follows
  rw [keys]
  cases h with
  | settled more knows tracks grown' settles agree =>
    exact .settled (adds.trans more) knows tracks (grown.trans grown') (.step step settles) agree
  | halted more knows tracks halts =>
    obtain ⟨needed, halts, circle⟩ := halts
    exact .halted (adds.trans more) knows tracks ⟨needed, .step step halts, circle⟩

theorem alike_fallback (β : Matching) (q : Question) :
    Agree (Value.Alike β) q.fallback q.fallback := by
  cases q with
  | lookup key point => exact .error _
  | argument optional p =>
    simp only [Question.fallback]
    cases p.default? with
    | some value => exact .ok rfl
    | none => exact .error _

theorem asks_of_known {q : Question} {next : Except Error Value → Dialogue Question Value}
    (bound : g.known q.key = some binding) : {key | g.Asks key (.ask q next)} = {q.key} :=
  Set.ext fun _ => ⟨fun now => now.1.symm, fun same => ⟨same.symm, binding, bound⟩⟩

theorem asks_of_unknown {q : Question} {next : Except Error Value → Dialogue Question Value}
    (absent : g.known q.key = none) : {key | g.Asks key (.ask q next)} = ∅ :=
  Set.eq_empty_of_forall_notMem fun _ now => nomatch now.2.choose_spec.symm.trans absent

theorem meets_of_unsettled {q : Question} {next : Except Error Value → Dialogue Question Value}
    (bound : g.known q.key = some binding) (unsettled : ¬ ∃ found k, g.SettlesOn q.key found k) :
    {key | g.Meets key (.ask q next) n} = {q.key} := by
  refine Set.ext fun key => ⟨fun meets => ?_, fun same => .here bound same.symm⟩
  cases meets with
  | here _ named => exact named.symm
  | step taken _ => exact absurd (taken.settlesOn bound) unsettled

theorem follows_finish {outcome found : Except Error Value} (tracks : g.Tracks active chart n s)
    (knows : g.Knows asked active s) (agree : Agree (Value.Alike chart) outcome found) :
    g.Follows asked active chart s (.finish outcome) n (found, s) := by
  have none : {key | g.Meets key (.finish outcome) n} = ∅ := by
    refine Set.eq_empty_of_forall_notMem fun key meets => ?_
    cases meets with
    | step taken _ => cases taken
  exact .settled (none ▸ adds_none asked) knows tracks (.refl active chart s) .finish agree

/-- A key that a dialogue asks for is delivered, and the rest follows from there; or it comes to a halt,
which the dialogue passes on. -/
theorem follows_known {resolve : Resolve} {q : Question}
    {next next' : Except Error Value → Dialogue Question Value} {r : Except Error Value × State}
    (bound : g.known q.key = some binding) (done : g.Delivers asked active chart n s q.key binding r)
    (candid : (Dialogue.ask q next').Candid (Interpreter.Ends Error.Circular))
    (rest : ∀ {outcome found asked' chart' n' t}, g.Step (.ask q next) n (next outcome) n' →
      Extends active chart s chart' t → Agree (Value.Alike chart') outcome found →
      g.Tracks active chart' n' t → g.Knows asked' active t → g.Follows asked' active chart' t
        (next outcome) n' ((next' found).runOn (answer g.registry resolve) t)) :
    g.Follows asked active chart s (.ask q next) n
      ((next' r.1).runOn (answer g.registry resolve) r.2) := by
  cases done with
  | settled adds knows' tracks' grown settles agree =>
    obtain ⟨found, k, ⟨binding', bound', settles⟩, rfl, rfl⟩ := settles
    obtain rfl := Option.some.inj (bound.symm.trans bound')
    have step : g.Step (.ask q next) n _ (n + k) := .known bound settles
    exact Follows.step step (asks_of_known bound ▸ adds) grown (rest step grown agree tracks' knows')
  | @halted _ _ path t adds knows' tracks' halts =>
    obtain ⟨unsettled, circle⟩ := halts
    have ending : Interpreter.Ends Error.Circular q (.circular path) := by
      cases q with
      | argument optional p => rfl
      | lookup key point => exact ⟨path, rfl⟩
    simp only [candid.1 _ ending]
    exact .halted (meets_of_unsettled bound unsettled ▸ adds) knows' tracks'
      ⟨q.key, .here bound rfl unsettled, circle⟩

theorem follows_runOn {resolve : Resolve}
    (delivers : ∀ {asked chart n s key binding} point, g.known key = some binding →
      (∀ user ∈ active, TransGen g.Needs key user) → g.Tracks active chart n s →
      g.Knows asked active s → g.Delivers asked active chart n s key binding
        ((resolve key binding point).runOn (g.asking key s)))
    {held : Dialogue Question Value}
    (alike : ∀ γ : Matching, (∀ i j, chart i j → γ i j) → γ.Fixes g.old →
      d.Alike γ (Value.Alike γ) held)
    (candid : held.Candid (Interpreter.Ends Error.Circular))
    (users : ∀ {key}, g.Meets key d n → ∀ user ∈ active, TransGen g.Needs key user)
    (tracks : g.Tracks active chart n s) (knows : g.Knows asked active s) :
    g.Follows asked active chart s d n (held.runOn (answer g.registry resolve) s) := by
  -- The two dialogues are alike in every chart yet to come, so they go on alike once it has grown.
  induction d generalizing held n chart asked s with
  | finish outcome =>
    have here := alike chart (fun _ _ => id) tracks.fixes
    cases held with
    | take make next => exact here.elim
    | ask q next => exact here.elim
    | finish outcome' => exact follows_finish tracks knows here
  | take make next ih =>
    have here := alike chart (fun _ _ => id) tracks.fixes
    cases held with
    | finish outcome => exact here.elim
    | ask q next => exact here.elim
    | take make' next' =>
      have step : g.Step (.take make next) n (next (make (g.passing n))) (n + 1) := .take
      have named := (alike (g.charted chart n s) (fun _ _ => .inl) tracks.take.fixes).1 _ _
        (.inr ⟨rfl, rfl⟩)
      obtain ⟨chart', grown, tracks', made⟩ := tracks.taken named
      refine Follows.step step (adds_none asked) grown ?_
      refine ih _ (fun γ le fixes => ?_) (candid _) (fun meets => users (.step step meets)) tracks'
        (knows.of_taken (make' s.born))
      exact (alike γ (fun i j h => le i j (grown.sub i j h)) fixes).2 _ _
        (made.imp fun objects => Value.Alike.mono le objects)
  | ask q next ih =>
    have here := alike chart (fun _ _ => id) tracks.fixes
    cases held with
    | finish outcome => exact here.elim
    | take make next => exact here.elim
    | ask q' next' =>
      obtain ⟨rfl, -⟩ := here
      have rest : ∀ {outcome found asked' chart' n' t}, g.Step (.ask q next) n (next outcome) n' →
          Extends active chart s chart' t → Agree (Value.Alike chart') outcome found →
          g.Tracks active chart' n' t → g.Knows asked' active t → g.Follows asked' active chart' t
            (next outcome) n' ((next' found).runOn (answer g.registry resolve) t) := by
        intro outcome found asked' chart' n' t step grown agree tracks' knows'
        refine ih _ (fun γ le fixes => ?_) (candid.2 _) (fun meets => users (.step step meets))
          tracks' knows'
        exact (alike γ (fun i j h => le i j (grown.sub i j h)) fixes).2 _ _ (agree.mono le)
      have answered := runOn_answer g.registry resolve q s
      rw [knows.known_eq] at answered
      change g.Follows asked active chart s _ n
        ((next' ((answer g.registry resolve q).runOn s).1).runOn (answer g.registry resolve)
          ((answer g.registry resolve q).runOn s).2)
      cases bound : g.known q.key with
      | none =>
        have step : g.Step (.ask q next) n (next q.fallback) n := .unknown bound
        rw [answered, bound]
        exact Follows.step step (asks_of_unknown bound ▸ adds_none asked) (.refl active chart s)
          (rest step (.refl active chart s) (alike_fallback chart q) tracks knows)
      | some binding =>
        have done := delivers q.point bound (users (.here bound rfl)) tracks knows
        rw [answered, bound]
        exact follows_known bound done candid rest

theorem adds_one (g : Grounds) (asked : Set Key) (key : Key) :
    g.Adds asked (insert key asked) {key} where
  sub := Set.subset_insert key asked
  all := Set.singleton_subset_iff.mpr (Set.mem_insert key asked)
  reached needed member := by
    rcases member with rfl | early
    · exact .inr ⟨needed, rfl, .refl⟩
    · exact .inl early

theorem Adds.needed (bound : g.known key = some binding)
    (adds : g.Adds (insert key asked) asked' {needed | g.Meets needed (g.dialogue binding) 0}) :
    g.Adds asked asked' {key} where
  sub := (Set.subset_insert key asked).trans adds.sub
  all := Set.singleton_subset_iff.mpr (adds.sub (Set.mem_insert key asked))
  reached needed member := by
    rcases adds.reached needed member with (rfl | early) | ⟨first, meets, reaches⟩
    · exact .inr ⟨needed, rfl, .refl⟩
    · exact .inl early
    · exact .inr ⟨key, rfl, .head ⟨binding, bound, meets⟩ reaches⟩

theorem Adds.all_needed (bound : g.known key = some binding)
    (adds : g.Adds (insert key asked) asked' {needed | g.Meets needed (g.dialogue binding) 0})
    {needed : Key} (needs : g.Needs needed key) : needed ∈ asked' := by
  obtain ⟨binding', bound', meets⟩ := needs
  obtain rfl := Option.some.inj (bound.symm.trans bound')
  exact adds.all meets

theorem extends_asking (grown : Extends active chart (g.asking key s) chart' t) :
    Extends active chart s chart' t where
  __ := grown

section
variable (bound : g.known key = some binding) (fresh : key ∉ active)
  (isOpen : Open key binding.scope (g.asking key s)) (tracks : g.Tracks active chart n (g.asking key s))
include bound fresh isOpen tracks

/-- What has been made in vain is left out of the chart; singletons kept on the way stay. -/
theorem delivers_failed {e : Error} (followed : g.Follows (insert key asked) (key :: active)
    (g.enduring chart) (entered key (g.asking key s)) (g.dialogue binding) 0 (.error e, u)) :
    g.Delivers asked active chart n s key binding (.error e, exited key u) := by
  cases followed with
  | @halted asked' inner path _ adds knows made halts =>
    obtain ⟨needed, halts, circle⟩ := halts
    refine .halted (adds.needed bound) (knows.exit rfl knows.kept (adds.all_needed bound)) made.exit
      ⟨?_, .enters fresh bound halts circle⟩
    rintro ⟨_, _, binding', bound', settles⟩
    obtain rfl := Option.some.inj (bound.symm.trans bound')
    exact halts.not_settles settles
  | @settled asked' inner outcome _ m _ adds knows made grown settles agree =>
    cases agree
    have lasting : Extends (key :: active) (g.enduring chart) (entered key (g.asking key s))
        (g.enduring inner) u :=
      { grown with
        sub := fun i j h => ⟨grown.sub i j h, h.2⟩
        fresh := fun h => grown.fresh h.1 }
    obtain ⟨tracks, grown⟩ := tracks.join (t := exited key u) isOpen made.forget lasting fresh rfl
      made.exit.stack id (fun m below => absurd below (Nat.not_lt_zero m)) .inl
    exact .settled (adds.needed bound) (knows.exit rfl knows.kept (adds.all_needed bound))
      (tracks.later (Nat.le_add_right n m)) (extends_asking grown)
      ⟨.error e, m, ⟨binding, bound, settles⟩, rfl, rfl⟩ (.error e)

theorem delivers_made {v : Value} (followed : g.Follows (insert key asked) (key :: active)
    (g.enduring chart) (entered key (g.asking key s)) (g.dialogue binding) 0 (.ok v, u)) :
    g.Delivers asked active chart n s key binding ((keep key binding.scope v).runOn (exited key u)) := by
  cases followed with
  | @settled asked' inner outcome _ m _ adds knows made grown settles agree =>
    cases agree with
    | @ok v' _ alike =>
    have on : g.SettlesOn key (.ok v') m := ⟨binding, bound, settles⟩
    have carried : Agree (Value.Alike (g.join chart inner binding.scope key n))
        (g.carried binding.scope key n (.ok v')) (.ok v) :=
      .ok (alike.rename fun i j h => .inr ⟨i, h, rfl⟩)
    rw [runOn_keep]
    cases scope : binding.scope with
    | prototype =>
      obtain ⟨tracks, grown⟩ := tracks.join (t := exited key u) isOpen made grown fresh rfl
        made.exit.stack id (fun l below => .inr ⟨n + l, Nat.add_lt_add_left below n, by rw [scope]; rfl⟩)
        .inl
      exact .settled (adds.needed bound) (knows.exit rfl knows.kept (adds.all_needed bound)) tracks
        (extends_asking grown) ⟨.ok v', m, on, rfl, rfl⟩ carried
    | singleton =>
      -- Nothing within has kept the singleton, as its key was being resolved all along.
      have absent : u.singletons.get? key = none := open_of_extends isOpen grown scope
      have value : ((exited key u).singletons.get? key).getD v = v := by
        rw [show (exited key u).singletons.get? key = none from absent, Option.getD_none]
      have since : ∀ {q w}, (Scene.keeping u key v).singletons.get? q = some w →
          u.singletons.get? q = some w ∨ q = key ∧ w = v := SortedMap.get?_of_insertIfNew
      have kept : (Scene.keeping u key v).singletons.get? key = some v := by
        rw [Scene.get?_keeping absent, if_pos rfl]
      obtain ⟨tracks, grown⟩ := tracks.join (t := Scene.keeping u key v) isOpen made grown fresh rfl
        made.exit.stack (Scene.get?_keeping_of_some absent v)
        (fun l _ => .inl (.inr ⟨key, l, ⟨v, kept⟩, by rw [scope]; rfl⟩))
        fun found => (since found).imp_right fun ⟨same, value⟩ => ⟨scope, same, v', m, on, value.symm ▸ alike⟩
      have all : ∀ {q w}, (Scene.keeping u key v).singletons.get? q = some w → q ∈ asked' := fun found =>
        (since found).elim knows.kept fun ⟨same, _⟩ => same ▸ adds.sub (Set.mem_insert key asked)
      simp only [value]
      exact .settled (adds.needed bound) (knows.exit rfl all (adds.all_needed bound)) tracks
        (extends_asking grown) ⟨.ok v', m, on, rfl, rfl⟩ carried

end

/-- A key is delivered as it settles if it is made as its dialogue settles. -/
theorem delivers_deliver {make : Run Value} (bound : g.known key = some binding)
    (users : ∀ user ∈ active, TransGen g.Needs key user) (tracks : g.Tracks active chart n s)
    (knows : g.Knows asked active s)
    (inside : key ∉ active → g.Follows (insert key asked) (key :: active) (g.enduring chart)
      (entered key (g.asking key s)) (g.dialogue binding) 0
      (make.runOn (entered key (g.asking key s)))) :
    g.Delivers asked active chart n s key binding
      ((deliver key binding.scope make).runOn (g.asking key s)) := by
  have stack : (g.asking key s).active = active := tracks.stack
  have tracks' : g.Tracks active chart n (g.asking key s) := tracks.of_own _
  have delivery := delivery_deliver key binding.scope make (g.asking key s)
  generalize (deliver key binding.scope make).runOn (g.asking key s) = ran at delivery ⊢
  cases delivery with
  | @kept v single found =>
    obtain ⟨v', k, on, alike⟩ := tracks.singletons found
    refine .settled (adds_one g asked key) (knows.ask key (.inl (knows.kept found)))
      (tracks'.later (Nat.le_add_right n k)) (extends_asking (.refl active chart _))
      ⟨.ok v', k, on, rfl, rfl⟩ ?_
    rw [single]
    exact .ok (alike.mono fun _ _ h => h.1)
  | circular _ member =>
    rw [stack] at member ⊢
    exact .halted (adds_one g asked key) (knows.ask key (.inr member)) tracks'.forget
      ⟨fun ⟨_, _, on⟩ => on.not_needs_self (users key member), .closes member⟩
  | failed isOpen fresh ran =>
    rw [stack] at fresh
    exact delivers_failed bound fresh isOpen tracks' (ran ▸ inside fresh)
  | made isOpen fresh ran =>
    rw [stack] at fresh
    exact delivers_made bound fresh isOpen tracks' (ran ▸ inside fresh)

variable (g) in
structure Room (depth : Nat) (active : List Key) : Prop where
  nodup : active.Nodup
  known : ∀ key ∈ active, ∃ binding, g.known key = some binding
  enough : ∀ keys : List Key, keys.Nodup → (∀ key ∈ keys, ∃ binding, g.known key = some binding) →
    keys.length ≤ depth + active.length

theorem Room.push {depth : Nat} (room : g.Room depth active) (bound : g.known key = some binding)
    (fresh : key ∉ active) : ∃ left, depth = left + 1 ∧ g.Room left (key :: active) := by
  have nodup : (key :: active).Nodup := List.nodup_cons.mpr ⟨fresh, room.nodup⟩
  have known : ∀ q ∈ key :: active, ∃ binding, g.known q = some binding :=
    List.forall_mem_cons.mpr ⟨⟨binding, bound⟩, room.known⟩
  have fits := room.enough (key :: active) nodup known
  rw [List.length_cons] at fits
  obtain ⟨left, rfl⟩ : ∃ left, depth = left + 1 := ⟨depth - 1, by omega⟩
  refine ⟨left, rfl, nodup, known, fun keys nodup known => ?_⟩
  have := room.enough keys nodup known
  rw [List.length_cons]
  omega

theorem room_start (knows : g.Knows asked active s) : g.Room (bindable g.registry s) [] := by
  refine ⟨List.nodup_nil, nofun, fun keys nodup known => ?_⟩
  let names := g.registry.keys.map Key.plain
  have covers : keys ⊆ s.own.keys ++ names := by
    intro key member
    obtain ⟨binding, bound⟩ := known key member
    rw [← knows.known_eq] at bound
    refine List.mem_append.mpr ?_
    cases found : s.own.get? key with
    | some b => exact .inl (SortedMap.mem_keys_iff.mpr ⟨b, found⟩)
    | none =>
      simp only [Interpreter.known, found] at bound
      by_cases plain : key.isPlain = true
      · rw [if_pos plain] at bound
        obtain ⟨signature, signed, -⟩ := Option.map_eq_some_iff.mp bound
        obtain ⟨c, registered, -⟩ := Option.map_eq_some_iff.mp signed
        refine .inr (List.mem_map.mpr ⟨key.interface, SortedMap.mem_keys_iff.mpr ⟨c, registered⟩, ?_⟩)
        obtain ⟨interface, name⟩ := key
        exact congrArg (Key.mk interface) (of_decide_eq_true plain).symm
      · rw [if_neg plain] at bound
        cases bound
  have fits := (nodup.subperm covers).length_le
  simp only [List.length_append, names, List.length_map, SortedMap.keys] at fits
  exact fits

theorem delivers_resolve {depth : Nat} (room : g.Room depth active) {asked : Set Key}
    {chart : Matching} {n : Nat} {s : State} {key : Key} {binding : Binding} (point : Option Point)
    (bound : g.known key = some binding) (users : ∀ user ∈ active, TransGen g.Needs key user)
    (tracks : g.Tracks active chart n s) (knows : g.Knows asked active s) :
    g.Delivers asked active chart n s key binding
      ((resolve g.registry depth key binding point).runOn (g.asking key s)) := by
  induction depth generalizing active asked chart n s key binding point with
  | zero =>
    refine delivers_deliver bound users tracks knows fun fresh => ?_
    obtain ⟨left, none, -⟩ := room.push bound fresh
    cases none
  | succ depth ih =>
    refine delivers_deliver bound users tracks knows fun fresh => ?_
    obtain ⟨left, same, inner⟩ := room.push bound fresh
    obtain rfl : depth = left := Nat.succ.inj same
    rw [performed_realize]
    refine follows_runOn (ih inner) (fun γ _ fixes => ?_) ?_ ?_ ((tracks.of_own _).enter key)
      (knows.enter key)
    · exact alike_dialogue fixes g.purity g.blind binding point
    · exact candid_dialogue g.registry g.passes binding point
    · intro needed meets user member
      have needs : g.Needs needed key := ⟨binding, bound, meets⟩
      rcases List.mem_cons.mp member with rfl | above
      · exact .single needs
      · exact .head needs (users user above)

variable (g) in
def Sound (asked : Set Key) (s : State) : Prop :=
  ∃ chart, g.Tracks [] chart 0 s ∧ g.Knows asked [] s

variable (g) in
/-- What a request for a key is answered, up to identities. -/
inductive Answers (key : Key) : Except Error Value → Prop
  | unbound : g.known key = none → Answers key (.error (.unbound key none))
  | settled {binding : Binding} {found : Except Error Value} {k : Nat} {chart : Matching}
    {outcome : Except Error Value} : g.known key = some binding → g.SettlesOn key found k →
      chart.OneToOne → Agree (Value.Alike chart) (g.carried binding.scope key 0 found) outcome →
      Answers key outcome
  | circular {path : List Key} : (∃ binding, g.known key = some binding) →
      (¬ ∃ found k, g.SettlesOn key found k) → g.Circle [] key path →
      Answers key (.error (.circular path))

theorem Answers.agree {r r' : Except Error Value} (h : g.Answers key r) (h' : g.Answers key r') :
    Agree SameShape r r' := by
  cases h with
  | unbound none =>
    cases h' with
    | unbound _ => exact .error _
    | settled bound _ _ _ => exact absurd (bound.symm.trans none) nofun
    | circular bound _ _ => exact absurd (bound.choose_spec.symm.trans none) nofun
  | settled bound on oneToOne agree =>
    cases h' with
    | unbound none => exact absurd (bound.symm.trans none) nofun
    | settled bound' on' oneToOne' agree' =>
      obtain rfl := Option.some.inj (bound.symm.trans bound')
      obtain ⟨rfl, rfl⟩ := on.unique on'
      exact .of_common oneToOne oneToOne' agree agree'
    | circular _ unsettled _ => exact absurd ⟨_, _, on⟩ unsettled
  | circular bound unsettled circle =>
    cases h' with
    | unbound none => exact absurd (bound.choose_spec.symm.trans none) nofun
    | settled _ on _ _ => exact absurd ⟨_, _, on⟩ unsettled
    | circular _ _ circle' => exact circle.unique circle' ▸ .error _

section
variable {found r : Except Error Value} {k : Nat} (bound : g.known key = some binding)
include bound

theorem Answers.of_settled (answers : g.Answers key r) (on : g.SettlesOn key found k) :
    ∃ chart : Matching, chart.OneToOne ∧
      Agree (Value.Alike chart) (g.carried binding.scope key 0 found) r := by
  cases answers with
  | unbound absent => exact absurd (bound.symm.trans absent) nofun
  | circular _ unsettled _ => exact absurd ⟨_, _, on⟩ unsettled
  | settled bound' on' oneToOne agree =>
    obtain rfl := Option.some.inj (bound.symm.trans bound')
    obtain ⟨rfl, rfl⟩ := on.unique on'
    exact ⟨_, oneToOne, agree⟩

theorem Answers.of_failed (answers : g.Answers key r) {e : Error} (on : g.SettlesOn key (.error e) k) :
    r = .error e := by
  obtain ⟨chart, -, agree⟩ := answers.of_settled bound on
  cases agree
  rfl

theorem Answers.of_unsettled (answers : g.Answers key r) (unsettled : ¬ ∃ found k, g.SettlesOn key found k) :
    ∃ path, r = .error (.circular path) ∧ g.Circle [] key path := by
  cases answers with
  | unbound absent => exact absurd (bound.symm.trans absent) nofun
  | settled _ on _ _ => exact absurd ⟨_, _, on⟩ unsettled
  | circular _ _ circle => exact ⟨_, rfl, circle⟩

end

theorem Adds.eq_reached {after : Set Key} (adds : g.Adds asked after {key})
    (knows : g.Knows after [] t) : after = asked ∪ {needed | g.Reaches key needed} := by
  have reached : ∀ {needed}, g.Reaches key needed → needed ∈ after := by
    intro needed reaches
    induction reaches with
    | refl => exact adds.all rfl
    | tail _ needs ih => exact knows.covered ih nofun needs
  refine Set.Subset.antisymm (fun needed member => ?_) (Set.union_subset adds.sub fun _ => reached)
  exact (adds.reached needed member).imp_right fun ⟨_, same, reaches⟩ => same ▸ reaches

/-- Whatever has been asked of an interpreter, it answers a request for a key that can be bound as the key
settles, whoever asks, and goes on in the same way. -/
theorem sound_known (sound : g.Sound asked s) (bound : g.known key = some binding) (point : Option Point) :
    g.Answers key ((request g.registry key point).runOn s).1 ∧
      g.Sound (asked ∪ {needed | g.Reaches key needed}) ((request g.registry key point).runOn s).2 := by
  obtain ⟨chart, tracks, knows⟩ := sound
  rw [runOn_request, knows.known_eq, bound]
  have delivered := delivers_resolve (room_start knows) point bound nofun tracks knows
  change g.Answers key ((resolve g.registry (bindable g.registry s) key binding point).runOn
    (g.asking key s)).1 ∧ g.Sound _ ((resolve g.registry (bindable g.registry s) key binding point).runOn
      (g.asking key s)).2
  generalize (resolve g.registry (bindable g.registry s) key binding point).runOn (g.asking key s) = r
    at delivered ⊢
  cases delivered with
  | settled adds knows' tracks' grown settles agree =>
    obtain ⟨found, k, on, rfl, rfl⟩ := settles
    exact ⟨.settled bound on tracks'.fixes.oneToOne agree, _, tracks'.forget,
      adds.eq_reached knows' ▸ knows'⟩
  | halted adds knows' tracks' halts =>
    exact ⟨.circular ⟨binding, bound⟩ halts.1 halts.2, _, tracks', adds.eq_reached knows' ▸ knows'⟩

theorem runOn_request_unknown (sound : g.Sound asked s) (absent : g.known key = none)
    (point : Option Point) : (request g.registry key point).runOn s = (.error (.unbound key point), s) := by
  obtain ⟨_, -, knows⟩ := sound
  rw [runOn_request, knows.known_eq, absent]

theorem sound_request (sound : g.Sound asked s) (key : Key) :
    g.Answers key ((request g.registry key none).runOn s).1 ∧
      g.Sound (asked ∪ {needed | g.Reaches key needed}) ((request g.registry key none).runOn s).2 := by
  cases bound : g.known key with
  | some binding => exact sound_known sound bound none
  | none =>
    rw [runOn_request_unknown sound bound none]
    obtain ⟨chart, tracks, knows⟩ := sound
    have knows' := knows.unknown bound
    exact ⟨.unbound bound, chart, tracks, (adds_one g asked key).eq_reached knows' ▸ knows'⟩

end Wiring.Interpreter.Grounds
