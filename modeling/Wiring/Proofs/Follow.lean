import Wiring.Proofs.Draft
import Wiring.Proofs.Purity
import Wiring.Proofs.Runtime
import Wiring.Proofs.SortedMap

/-! # Injectors that follow a draft

An injector makes what the draft says, with identities of its own. The chart of a run matches the
names of the draft with the identities taken for them. It grows as objects are made; objects made in
vain drop out of it again, and their names with them, so the names to come are always free.
-/
namespace Wiring.Runtime
open Act Filter

variable {ρ α δ α' δ' : Type}

/-- What drafts are made with: pure classes, and names for the objects they make. -/
structure Stage where
  registry : Registry
  naming : Draft.Naming
  old : Nat
  /-- Names do not repeat. -/
  injective : ∀ {o n o' n'}, naming o n = naming o' n' → o = o' ∧ n = n'
  /-- Names are none of the old identities. -/
  above : ∀ o n, old ≤ naming o n
  purity : registry.Pure old
  quiet : registry.Quiet

/-- The plans that an injector follows the drafts of, and what is assumed of its own part. -/
structure Scene (ρ : Type) extends Stage where
  plans : Key → Option Plan
  /-- What holds of an injector's own part all along. -/
  good : ρ → Prop
  /-- What must hold of an injector's own part in the end. -/
  limit : ρ → Prop
  /-- Whether all failures are failures of the draft too. -/
  strict : Prop

namespace Scene
variable (scene : Scene ρ)

def draft (owner : Option Key) (key : Key) (depth : Nat) : Draft Value :=
  Draft.value scene.registry scene.naming scene.plans depth owner key

def deliverDraft (owner : Option Key) (key : Key) (scope : Scope) (depth : Nat) : Draft Value :=
  Draft.deliver (fun owner key => scene.draft owner key depth) owner key scope

def operandDraft (owner : Option Key) (o : Operand) (depth : Nat) : Draft Value :=
  Draft.operand (fun owner key => scene.draft owner key depth) owner o

theorem draft_succ {key : Key} {p : Plan} (planned : scene.plans key = some p) (owner : Option Key)
    (depth : Nat) : scene.draft owner key (depth + 1) = Draft.evaluate scene.registry scene.naming
      (fun o => scene.operandDraft owner o depth) owner p.body := by
  change (liftM (scene.plans key) >>= fun plan => _) = _
  rw [planned]
  rfl

/-- An old identity, or a name that belongs to a singleton kept by now. -/
def Kept (s : Runtime ρ) (i : Nat) : Prop :=
  i < scene.old ∨ ∃ key n, (∃ v, s.singletons.get? key = some v) ∧ i = scene.naming (some key) n

def settled (chart : Matching) (s : Runtime ρ) : Matching := fun i j => chart i j ∧ scene.Kept s i

/-- How far a run has followed a draft: it has charted the names given out so far, it is resolving the
active keys, and each singleton that it keeps is as drafted. -/
structure Tracks (owner : Option Key) (active : List Key) (chart : Matching) (n : Nat)
    (s : Runtime ρ) : Prop where
  fixes : chart.Fixes scene.old
  born : ∀ {i j}, chart i j → j < s.born
  named : ∀ {i j}, chart i j → scene.Kept s i ∨ ∃ m < n, i = scene.naming owner m
  stack : s.active = active
  unsettled : ∀ {key}, owner = some key → key ∈ active ∧ s.singletons.get? key = none
  singletons : ∀ {key v}, s.singletons.get? key = some v → ∃ v' m,
    (∀ᶠ depth in atTop, (scene.draft (some key) key depth).run 0 = some (v', m)) ∧
      Value.Alike (scene.settled chart s) v' v
  own : scene.good s.own

theorem tracks_start {born : Nat} (le : scene.old ≤ born) {own : ρ} (good : scene.good own) :
    scene.Tracks none [] (fun i j => i = j ∧ i < scene.old) 0 (Runtime.start born own) where
  fixes := by
    refine ⟨?_, fun i below => ⟨rfl, below⟩⟩
    rintro i j i' j' ⟨rfl, -⟩ ⟨rfl, -⟩
    exact Iff.rfl
  born := by
    rintro i j ⟨rfl, below⟩
    exact Nat.lt_of_lt_of_le below le
  named h := .inl (.inl h.2)
  stack := rfl
  unsettled := nofun
  singletons := nofun
  own := good

end Scene

/-- What a run leaves as it was when it goes on. -/
structure Extends (active : List Key) (chart : Matching) (s : Runtime ρ) (chart' : Matching)
    (t : Runtime ρ) : Prop where
  sub : ∀ i j, chart i j → chart' i j
  fresh : ∀ {i j}, chart' i j → chart i j ∨ s.born ≤ j
  born : s.born ≤ t.born
  kept : ∀ {key v}, s.singletons.get? key = some v → t.singletons.get? key = some v
  idle : ∀ key ∈ active, s.singletons.get? key = none → t.singletons.get? key = none

theorem Extends.refl (active : List Key) (chart : Matching) (s : Runtime ρ) :
    Extends active chart s chart s :=
  ⟨fun _ _ => id, .inl, Nat.le_refl _, id, fun _ _ => id⟩

theorem Extends.trans {active : List Key} {chart chart' chart'' : Matching} {s t u : Runtime ρ}
    (first : Extends active chart s chart' t) (later : Extends active chart' t chart'' u) :
    Extends active chart s chart'' u where
  sub i j h := later.sub i j (first.sub i j h)
  fresh h := by
    rcases later.fresh h with h | above
    · exact first.fresh h
    · exact .inr (Nat.le_trans first.born above)
  born := Nat.le_trans first.born later.born
  kept h := later.kept (first.kept h)
  idle key member none := later.idle key member (first.idle key member none)

namespace Scene

def Backward (scene : Scene ρ) (a b : ρ) : Prop := scene.limit b → scene.limit a

instance (scene : Scene ρ) : IsPreorder ρ scene.Backward where
  refl _ := id
  trans _ _ _ first later h := first (later h)

section
variable (scene : Scene ρ) (owner : Option Key) (active : List Key)

def Ends (chart : Matching) (n : Nat) (s : Runtime ρ) (R : Matching → α' → α → Prop)
    (draft : Nat → Draft α') : Except Error α × Runtime ρ → Prop
  | (.ok a, t) => ∃ chart' a' m, (∀ᶠ depth in atTop, (draft depth).run n = some (a', m)) ∧ n ≤ m ∧
    scene.Tracks owner active chart' m t ∧ Extends active chart s chart' t ∧ R chart' a' a
  | (.error e, _) =>
    e.isUnbound = false ∧ (scene.strict → ∃ᶠ depth in atTop, (draft depth).run n = none)

/-- An action that follows a draft whatever has been charted so far, as long as it is no less than a
given chart. It fails only with errors other than unbound keys. -/
def Follows (least : Matching) (R : Matching → α' → α → Prop) (x : Act (Runtime ρ) α)
    (draft : Nat → Draft α') : Prop :=
  ∀ chart n s, (∀ i j, least i j → chart i j) → scene.Tracks owner active chart n s →
    scene.limit (x.runOn s).2.own → scene.Ends owner active chart n s R draft (x.runOn s)

end

variable {scene : Scene ρ} {owner : Option Key} {active : List Key} {least : Matching}

section
variable {R : Matching → α' → α → Prop} {S : Matching → δ' → δ → Prop}

theorem Follows.weaken {x : Act (Runtime ρ) α} {draft : Nat → Draft α'} {more : Matching}
    (h : scene.Follows owner active least R x draft) (sub : ∀ i j, least i j → more i j) :
    scene.Follows owner active more R x draft :=
  fun chart n s le => h chart n s fun i j hij => le i j (sub i j hij)

theorem Ends.of_own {chart : Matching} {n : Nat} {s : Runtime ρ} {own : ρ} {draft : Nat → Draft α'}
    {r : Except Error α × Runtime ρ}
    (h : scene.Ends owner active chart n { s with own := own } R draft r) :
    scene.Ends owner active chart n s R draft r := by
  obtain ⟨e | a, t⟩ := r
  · exact h
  · obtain ⟨chart', a', m, drafted, counted, tracks, grown, related⟩ := h
    exact ⟨chart', a', m, drafted, counted, tracks,
      ⟨grown.sub, grown.fresh, grown.born, grown.kept, grown.idle⟩, related⟩

theorem follows_pure {a : α} {a' : α'}
    (h : ∀ {chart : Matching}, (∀ i j, least i j → chart i j) → R chart a' a) :
    scene.Follows owner active least R (pure a) fun _ => pure a' :=
  fun chart n s le tracks _ => ⟨chart, a', n, .of_forall fun _ => rfl, Nat.le_refl n, tracks,
    .refl active chart s, h le⟩

theorem Follows.bind {x : Act (Runtime ρ) α} {draft : Nat → Draft α'} {f : α → Act (Runtime ρ) δ}
    {later : Nat → α' → Draft δ'} (hx : scene.Follows owner active least R x draft)
    (moves : ∀ a, (f a).Moves (OnOwn scene.Backward))
    (hf : ∀ {chart : Matching} {a a'}, (∀ i j, least i j → chart i j) → R chart a' a →
      scene.Follows owner active chart S (f a) fun depth => later depth a') :
    scene.Follows owner active least S (x >>= f) fun depth => draft depth >>= later depth := by
  intro chart n s le tracks limit
  have first := hx chart n s le tracks
  rw [runOn_bind] at limit ⊢
  rcases ran : x.runOn s with ⟨_ | a, t⟩
  · rw [ran] at limit first
    -- What fails at a depth has no draft at that depth, whatever was to come after it.
    obtain ⟨bound, fails⟩ := first limit
    refine ⟨bound, fun strict => (fails strict).mono fun depth none => ?_⟩
    rw [StateT.run_bind, none]
    rfl
  · rw [ran] at limit first
    obtain ⟨chart', a', m, drafted, counted, tracks', grown, related⟩ := first (moves a t limit)
    have second :=
      hf (fun i j h => grown.sub i j (le i j h)) related chart' m t (fun _ _ => id) tracks' limit
    simp only
    rcases ran' : (f a).runOn t with ⟨_ | b, u⟩
    · rw [ran'] at second
      obtain ⟨bound, fails⟩ := second
      refine ⟨bound, fun strict => ((fails strict).and_eventually drafted).mono fun depth both => ?_⟩
      rw [StateT.run_bind, both.2]
      exact both.1
    · rw [ran'] at second
      obtain ⟨chart'', b', k, drafted', counted', tracks'', grown', related'⟩ := second
      refine ⟨chart'', b', k, ?_, Nat.le_trans counted counted', tracks'', grown.trans grown', related'⟩
      filter_upwards [drafted, drafted'] with depth here there
      rw [StateT.run_bind, here]
      exact there

theorem follows_lift {x : Except Error α} {x' : Except Error α'}
    (agree : ∀ {chart : Matching}, (∀ i j, least i j → chart i j) → chart.Fixes scene.old →
      Agree (R chart) x' x) (bound : ∀ {e}, x = .error e → e.isUnbound = false) :
    scene.Follows owner active least R (liftM x) fun _ => liftM x'.toOption := by
  intro chart n s le tracks _
  have same := agree le tracks.fixes
  cases same with
  | ok related =>
    exact ⟨chart, _, n, .of_forall fun _ => rfl, Nat.le_refl n, tracks, .refl active chart s, related⟩
  | error e => exact ⟨bound rfl, fun _ => Eventually.frequently (.of_forall fun _ => rfl)⟩

theorem follows_mapM {f : δ → Act (Runtime ρ) Value} {drafts : δ' → Nat → Draft Value}
    (moves : ∀ x, (f x).Moves (OnOwn scene.Backward)) {xs : List δ} {ys : List δ'}
    (each : List.Forall₂ (fun x y => scene.Follows owner active least Value.Alike (f x) (drafts y)) xs ys) :
    scene.Follows owner active least (fun chart => List.Forall₂ (Value.Alike chart)) (xs.mapM f)
      fun depth => ys.mapM fun y => drafts y depth := by
  induction each with
  | nil => exact follows_pure fun _ => .nil
  | @cons x y xs ys first _ ih =>
    have others : (xs.mapM f).Moves (OnOwn scene.Backward) := Moves.mapM moves xs
    simp only [List.mapM_cons]
    refine first.bind (fun _ => others.bind fun _ => moves_of_keeps fun _ => rfl) fun le alike => ?_
    refine (ih.weaken le).bind (fun _ => moves_of_keeps fun _ => rfl) fun le' alikes => ?_
    exact follows_pure fun le'' =>
      .cons (alike.mono fun i j h => le'' i j (le' i j h)) (alikes.imp fun _ _ h => h.mono le'')

end

def charted (scene : Scene ρ) (owner : Option Key) (chart : Matching) (n : Nat) (s : Runtime ρ) :
    Matching :=
  fun i j => chart i j ∨ i = scene.naming owner n ∧ j = s.born

/-- A name of the owner's own is not among those that are settled. -/
theorem Tracks.not_kept {chart : Matching} {n : Nat} {s : Runtime ρ}
    (tracks : scene.Tracks owner active chart n s) (m : Nat) : ¬ scene.Kept s (scene.naming owner m) := by
  rintro (old | ⟨key, k, ⟨v, found⟩, same⟩)
  · have := scene.above owner m
    omega
  · obtain ⟨rfl, -⟩ := scene.injective same
    rw [(tracks.unsettled rfl).2] at found
    cases found

theorem Tracks.next_free {chart : Matching} {n : Nat} {s : Runtime ρ}
    (tracks : scene.Tracks owner active chart n s) (j : Nat) : ¬ chart (scene.naming owner n) j := by
  intro taken
  rcases tracks.named taken with kept | ⟨m, below, same⟩
  · exact tracks.not_kept n kept
  · obtain ⟨-, rfl⟩ := scene.injective same
    omega

theorem sub_charted {chart : Matching} {n : Nat} {s : Runtime ρ} (i j : Nat) (h : chart i j) :
    scene.charted owner chart n s i j := .inl h

theorem Tracks.oneToOne_charted {chart : Matching} {n : Nat} {s : Runtime ρ}
    (tracks : scene.Tracks owner active chart n s) : (scene.charted owner chart n s).OneToOne := by
  have apart : ∀ {i j}, chart i j → (i = scene.naming owner n ↔ j = s.born) := by
    intro i j h
    have below := tracks.born h
    constructor
    · rintro rfl
      exact absurd h (tracks.next_free j)
    · intro same
      omega
  rintro i j i' j' (h | ⟨rfl, rfl⟩) (h' | ⟨rfl, rfl⟩)
  · exact tracks.fixes.oneToOne h h'
  · exact apart h
  · exact eq_comm.trans ((apart h').trans eq_comm)
  · exact ⟨fun _ => rfl, fun _ => rfl⟩

theorem Tracks.take {chart : Matching} {n : Nat} {s : Runtime ρ}
    (tracks : scene.Tracks owner active chart n s) :
    scene.Tracks owner active (scene.charted owner chart n s) (n + 1) { s with born := s.born + 1 } where
  fixes := ⟨tracks.oneToOne_charted, fun i below => sub_charted i i (tracks.fixes.fixed i below)⟩
  born := by
    rintro i j (h | ⟨rfl, rfl⟩)
    · exact Nat.lt_succ_of_lt (tracks.born h)
    · exact Nat.lt_succ_self _
  named := by
    rintro i j (h | ⟨rfl, rfl⟩)
    · refine (tracks.named h).imp_right ?_
      rintro ⟨m, below, same⟩
      exact ⟨m, Nat.lt_succ_of_lt below, same⟩
    · exact .inr ⟨n, Nat.lt_succ_self n, rfl⟩
  stack := tracks.stack
  unsettled := tracks.unsettled
  singletons found := by
    obtain ⟨v', m, drafted, alike⟩ := tracks.singletons found
    exact ⟨v', m, drafted, alike.mono fun i j h => ⟨sub_charted i j h.1, h.2⟩⟩
  own := tracks.own

theorem extends_charted (scene : Scene ρ) (owner : Option Key) (active : List Key) (chart : Matching) (n : Nat)
    (s : Runtime ρ) :
    Extends active chart s (scene.charted owner chart n s) { s with born := s.born + 1 } where
  sub := sub_charted
  fresh := by
    rintro i j (h | ⟨rfl, rfl⟩)
    · exact .inl h
    · exact .inr (Nat.le_refl _)
  born := Nat.le_succ _
  kept := id
  idle _ _ := id

/-- The chart without the owner's own names from a count on. -/
def upTo (scene : Scene ρ) (owner : Option Key) (n : Nat) (chart : Matching) : Matching :=
  fun i j => chart i j ∧ ∀ m, i = scene.naming owner m → m < n

theorem Tracks.early_of_kept {chart : Matching} {n : Nat} {s : Runtime ρ}
    (tracks : scene.Tracks owner active chart n s) {i : Nat} (kept : scene.Kept s i) (count m : Nat)
    (same : i = scene.naming owner m) : m < count := by
  subst same
  exact absurd kept (tracks.not_kept m)

/-- What has been made in vain since a count of names can be forgotten. -/
theorem Tracks.rollback {chart : Matching} {n : Nat} {s : Runtime ρ}
    (tracks : scene.Tracks owner active chart n s) (count : Nat) :
    scene.Tracks owner active (scene.upTo owner count chart) count s where
  fixes := by
    refine ⟨fun h h' => tracks.fixes.oneToOne h.1 h'.1, fun i below => ?_⟩
    exact ⟨tracks.fixes.fixed i below, tracks.early_of_kept (.inl below) count⟩
  born h := tracks.born h.1
  named := by
    rintro i j ⟨h, early⟩
    refine (tracks.named h).imp_right ?_
    rintro ⟨k, -, rfl⟩
    exact ⟨k, early k rfl, rfl⟩
  stack := tracks.stack
  unsettled := tracks.unsettled
  singletons found := by
    obtain ⟨v', k, drafted, alike⟩ := tracks.singletons found
    refine ⟨v', k, drafted, alike.mono ?_⟩
    rintro i j ⟨h, kept⟩
    exact ⟨⟨h, tracks.early_of_kept kept count⟩, kept⟩
  own := tracks.own

theorem Tracks.extends_upTo {chart chart' : Matching} {n : Nat} {s t : Runtime ρ}
    (tracks : scene.Tracks owner active chart n s) (grown : Extends active chart s chart' t) :
    Extends active chart s (scene.upTo owner n chart') t where
  sub i j h := by
    refine ⟨grown.sub i j h, fun k same => ?_⟩
    rcases tracks.named h with kept | ⟨k', below, same'⟩
    · exact tracks.early_of_kept kept n k same
    · obtain ⟨-, rfl⟩ := scene.injective (same.symm.trans same')
      exact below
  fresh h := grown.fresh h.1
  born := grown.born
  kept := grown.kept
  idle := grown.idle

theorem follows_begin (className : String) {vs ws : List Value}
    (arguments : List.Forall₂ (Value.Alike least) vs ws) :
    scene.Follows owner active least (MadeAlike scene.registry) (begin scene.registry className ws)
      fun _ => Draft.begin scene.registry scene.naming owner className vs := by
  intro chart n s le tracks _
  rw [runOn_begin]
  cases found : scene.registry.get? className with
  | none =>
    refine ⟨rfl, fun _ => Eventually.frequently (.of_forall fun _ => ?_)⟩
    rw [Draft.run_begin, found]
    rfl
  | some c =>
    have tracks' := tracks.take
    have grown := extends_charted scene owner active chart n s
    have arguments' : List.Forall₂ (Value.Alike (scene.charted owner chart n s)) vs ws :=
      arguments.imp fun _ _ h => h.mono fun i j hij => grown.sub i j (le i j hij)
    have quiet : ∀ {e}, c.make s.born ws = .error e → e.isUnbound = false := (scene.quiet _ _ found).make
    have made := (scene.purity _ _ found).make tracks'.fixes (.inr ⟨rfl, rfl⟩) arguments'
    have begun : (Draft.begin scene.registry scene.naming owner className vs).run n =
        (c.make (scene.naming owner n) vs).toOption.map fun object => ((c, object), n + 1) := by
      rw [Draft.run_begin, found, Option.bind_some]
    simp only
    generalize c.make (scene.naming owner n) vs = drafted at made begun
    generalize c.make s.born ws = done at made quiet ⊢
    cases made with
    | error e => exact ⟨quiet rfl, fun _ => Eventually.frequently (.of_forall fun _ => begun)⟩
    | ok objects =>
      exact ⟨_, _, n + 1, .of_forall fun _ => begun, Nat.le_succ n, tracks', grown, rfl,
        ⟨className, found⟩, objects⟩

theorem follows_accept {offer offer' : Offer} (alike : Offer.Alike least offer' offer) :
    scene.Follows owner active least Value.Alike (accept offer)
      fun _ => Draft.accept scene.naming owner offer' := by
  intro chart n s le tracks _
  cases offer with
  | existing v =>
    cases offer' with
    | existing w =>
      exact ⟨chart, w, n, .of_forall fun _ => rfl, Nat.le_refl n, tracks, .refl active chart s,
        alike.mono le⟩
    | fresh type className arguments => exact alike.elim
  | fresh type className arguments =>
    cases offer' with
    | existing w => exact alike.elim
    | fresh type' className' arguments' =>
      obtain ⟨rfl, rfl, arguments⟩ := alike
      have tracks' := tracks.take
      have grown := extends_charted scene owner active chart n s
      have values := valuesAlike_iff.mpr <|
        arguments.imp fun _ _ h => h.mono fun i j hij => grown.sub i j (le i j hij)
      exact ⟨_, _, n + 1, .of_forall fun _ => rfl, Nat.le_succ n, tracks', grown, .inr ⟨rfl, rfl⟩, rfl, rfl,
        rfl, values, trivial, trivial⟩

theorem follows_invoke {c : Class} (known : ∃ name, scene.registry.get? name = some c) {o' o : Object}
    (objects : Object.Alike least o' o) (method : String) {vs ws : List Value}
    (arguments : List.Forall₂ (Value.Alike least) vs ws) :
    scene.Follows owner active least Object.Alike (liftM (c.invoke o method ws))
      fun _ => liftM (c.invoke o' method vs).toOption := by
  obtain ⟨name, found⟩ := known
  refine follows_lift (fun le fixes => ?_) (scene.quiet _ _ found).invoke
  exact (scene.purity _ _ found).invoke fixes (objects.mono le) method
    (arguments.imp fun _ _ h => h.mono le)

section
variable {f : δ → Act (Runtime ρ) Value} {drafts : δ' → Nat → Draft Value}
  (moves : ∀ x, (f x).Moves (OnOwn scene.Backward))
include moves

theorem follows_callSetter {drafts : Operand → Nat → Draft Value} {c : Class}
    (known : ∃ name, scene.registry.get? name = some c) {step : Step δ} {call : Call}
    (same : step.method = call.method)
    (each : List.Forall₂ (fun x y => scene.Follows owner active least Value.Alike (f x) (drafts y))
      step.arguments call.operands) {o' o : Object} (objects : Object.Alike least o' o) :
    scene.Follows owner active least Object.Alike (callSetter f c o step)
      fun depth => Draft.call (fun y => drafts y depth) c o' call := by
  have required : scene.Follows owner active least Object.Alike
      (do let arguments ← step.arguments.mapM f; liftM (c.invoke o step.method arguments))
      fun depth => Draft.call (fun y => drafts y depth) c o' call := by
    refine (follows_mapM moves each).bind (fun _ => moves_of_keeps fun _ => rfl) fun le arguments => ?_
    rw [same]
    exact follows_invoke known (objects.mono le) call.method arguments
  intro chart n s le tracks limit
  have called := required chart n s le tracks
  rw [runOn_bind] at called
  rw [runOn_callSetter] at limit ⊢
  generalize (step.arguments.mapM f).runOn s = ran at called limit ⊢
  obtain ⟨e | arguments, t⟩ := ran
  · have bound := (called limit).1
    simp only [bound, Bool.false_and]
    exact called limit
  · exact called limit

theorem follows_assemble {drafts : Operand → Nat → Draft Value} {arguments : List δ}
    {steps : List (Step δ)} {a : Assembly}
    (first : List.Forall₂ (fun x y => scene.Follows owner active least Value.Alike (f x) (drafts y))
      arguments a.operands)
    (later : ∀ {chart : Matching} {c : Class} {o' o : Object}, (∀ i j, least i j → chart i j) →
      (∃ name, scene.registry.get? name = some c) → Object.Alike chart o' o →
      scene.Follows owner active chart Object.Alike (steps.foldlM (callSetter f c) o)
        fun depth => a.calls.foldlM (Draft.call (fun y => drafts y depth) c) o') :
    scene.Follows owner active least (MadeAlike scene.registry)
      (assemble scene.registry f a.className arguments steps a.hook)
      fun depth => Draft.assemble scene.registry scene.naming (fun y => drafts y depth) owner a := by
  have calls := fun made => moves_calls moves made steps a.hook
  refine (follows_mapM moves first).bind (fun values =>
    (moves_of_own (own_begin scene.registry a.className values)).bind calls) fun le arguments => ?_
  refine (follows_begin a.className arguments).bind calls fun {chart made made'} le' begun => ?_
  obtain ⟨c, o⟩ := made
  obtain ⟨c', o'⟩ := made'
  obtain ⟨rfl, known, objects⟩ := begun
  refine (later (fun i j h => le' i j (le i j h)) known objects).bind (fun object =>
    moves_finish (c', object) a.hook) fun le'' called => ?_
  cases a.hook with
  | none => exact follows_pure fun more => ⟨rfl, known, called.mono more⟩
  | some method =>
    refine (follows_invoke known called method .nil).bind (fun _ => moves_of_keeps fun _ => rfl)
      fun _ finished => ?_
    exact follows_pure fun more => ⟨rfl, known, finished.mono more⟩

end

theorem follows_provide {answer : Key → Option Point → Act (Runtime ρ) Value}
    {made' made : Class × Object} (alike : MadeAlike scene.registry least made' made)
    (context : Option String) (point : Option Point) :
    scene.Follows owner active least Value.Alike (provide answer made context point)
      fun _ => Draft.provide scene.naming owner made' context := by
  obtain ⟨c', o'⟩ := made'
  obtain ⟨c, o⟩ := made
  obtain ⟨rfl, ⟨name, found⟩, objects⟩ := alike
  intro chart n s le tracks limit
  have same := (scene.purity _ _ found).hookOf tracks.fixes (objects.mono le) context none
  unfold Draft.provide
  simp only [provide, runOn_bind, runOn_liftExcept] at limit ⊢
  rcases (scene.quiet _ _ found).hookOf o context with
    ⟨e, bound, fails⟩ | ⟨e, bound, fails⟩ | ⟨offer, offers⟩
  · rw [fails none] at same
    rw [fails point]
    generalize c'.hookOf o' context none = drafted at same ⊢
    cases same
    exact ⟨bound, fun _ => Eventually.frequently (.of_forall fun _ => rfl)⟩
  · rw [fails none] at same
    rw [fails point]
    generalize c'.hookOf o' context none = drafted at same ⊢
    cases same with
    | @ok hook _ alike =>
      cases hook with
      | lookup key point next => exact alike.elim
      | finish outcome =>
        cases (alike : Agree (Offer.Alike chart) outcome (.error e))
        exact ⟨bound, fun _ => Eventually.frequently (.of_forall fun _ => rfl)⟩
  · rw [offers none] at same
    rw [offers point] at limit ⊢
    generalize c'.hookOf o' context none = drafted at same ⊢
    cases same with
    | @ok hook _ alike =>
      cases hook with
      | lookup key point next => exact alike.elim
      | finish outcome =>
        cases (alike : Agree (Offer.Alike chart) outcome (.ok offer)) with
        | ok offers => exact follows_accept offers chart n s (fun _ _ => id) tracks limit

/-- When one run has followed a draft to its end, so does any strict run, and the answers have the same
shape. -/
theorem sameShape_of_ends {ρ' : Type} {scene' : Scene ρ'} {owner' : Option Key} {active' : List Key}
    {chart chart' : Matching} {n : Nat} {s t : Runtime ρ} {s' : Runtime ρ'} {draft : Nat → Draft Value}
    {v : Value} (ends : scene.Ends owner active chart n s Value.Alike draft (.ok v, t))
    (strict : scene'.strict) {r : Except Error Value × Runtime ρ'}
    (ends' : scene'.Ends owner' active' chart' n s' Value.Alike draft r) :
    ∃ w t', r = (.ok w, t') ∧ SameShape v w := by
  obtain ⟨charted, a, m, drafted, -, tracks, -, alike⟩ := ends
  obtain ⟨e | w, t'⟩ := r
  · obtain ⟨depth, none, some⟩ := ((ends'.2 strict).and_eventually drafted).exists
    rw [none] at some
    cases some
  · obtain ⟨charted', a', m', drafted', -, tracks', -, alike'⟩ := ends'
    obtain ⟨depth, here, there⟩ := (drafted.and drafted').exists
    rw [here] at there
    cases there
    exact ⟨w, t', rfl, .of_common tracks.fixes.oneToOne tracks'.fixes.oneToOne alike alike'⟩

end Scene
end Wiring.Runtime
