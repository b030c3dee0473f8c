import Wiring.Proofs.Moments
import Wiring.Proofs.Journal.Interpreter
import Wiring.Proofs.Journal.Runner
import Wiring.Proofs.MemoryStore

/-! # The stack of keys being resolved

A key that has been resolved is looked for on the stack and taken out. It is always the innermost one, so the
stack is after each answer what it was before, and at every moment it holds the keys whose values are being
made, each one asked for directly while a value for the one before it is made. A cycle that is reported is
such a way that comes back to one of its keys.
-/
namespace Wiring
open Act Wiring.Runtime

variable {ι ρ α β : Type}

theorem Dialogue.Asks.of_andThen {answer : ι → Act (Runtime ρ) Value} {q : ι} {u s : Runtime ρ}
    {d : Dialogue ι α} {rest : Except Error α → Dialogue ι β} (asks : Asks answer q u (d.andThen rest) s) :
    Asks answer q u d s ∨ Asks answer q u (rest (d.runOn answer s).1) (d.runOn answer s).2 := by
  induction d generalizing s with
  | finish outcome => exact .inr asks
  | take make next ih =>
    cases asks with
    | taken asks => exact (ih _ asks).imp_left .taken
  | ask question next ih =>
    cases asks with
    | now => exact .inl .now
    | later asks => exact (ih _ asks).imp_left .later

theorem Dialogue.Asks.of_bind {answer : ι → Act (Runtime ρ) Value} {q : ι} {u s : Runtime ρ}
    {d : Dialogue ι α} {f : α → Dialogue ι β} (asks : Asks answer q u (d >>= f) s) :
    Asks answer q u d s ∨ ∃ a t, d.runOn answer s = (.ok a, t) ∧ Asks answer q u (f a) t := by
  rcases asks.of_andThen with first | rest
  · exact .inl first
  · rcases ran : d.runOn answer s with ⟨e | a, t⟩
    · rw [ran] at rest
      cases rest
    · rw [ran] at rest
      exact .inr ⟨a, t, rfl, rest⟩

/-- While a job is done a question is asked in some state, directly: for an argument of the constructor or of
a setter, or by the hook of the provider that has been built. -/
inductive Finder.Requests (F : Finder ι ρ) (answer : ι → Act (Runtime ρ) Value) (job : Job ι)
    (point : Option Point) (s : Runtime ρ) (q : ι) (u : Runtime ρ) : Prop
  | constructor {b : Blueprint ι} : job.blueprint? = some b → .question q ∈ b.arguments →
    F.Requests answer job point s q u
  | setter {b : Blueprint ι} {step : Step (Need ι)} : job.blueprint? = some b → step ∈ b.steps →
    .question q ∈ step.arguments → F.Requests answer job point s q u
  | hook {b : Blueprint ι} {context : Option String} {made : Class × Object} {t : Runtime ρ} {hook : Hook} :
    job = .provide b context → (b.dialogue F.registry).runOn answer s = (.ok made, t) →
    made.1.hookOf made.2 context point = .ok hook → Dialogue.Asks answer q u (.ofHook F.lookup hook) t →
    F.Requests answer job point s q u

theorem Blueprint.asksOnly_dialogue (registry : Registry) (b : Blueprint ι) :
    (b.dialogue registry).AsksOnly fun q =>
      .question q ∈ b.arguments ∨ ∃ step ∈ b.steps, .question q ∈ step.arguments := by
  refine Dialogue.asksOnly_assemble registry b.className b.hook (fun need member => ?_)
    fun step listed need member => ?_
  · cases need with
    | literal value => trivial
    | question q => exact ⟨.inl member, fun _ => trivial⟩
  · cases need with
    | literal value => trivial
    | question q => exact ⟨.inr ⟨step, listed, member⟩, fun _ => trivial⟩

theorem Finder.requests_of_asks {F : Finder ι ρ} {answer : ι → Act (Runtime ρ) Value} {job : Job ι}
    {point : Option Point} {s u : Runtime ρ} {q : ι}
    (asks : Dialogue.Asks answer q u (F.dialogue job point) s) : F.Requests answer job point s q u := by
  have built : ∀ {b : Blueprint ι}, job.blueprint? = some b →
      Dialogue.Asks answer q u (b.dialogue F.registry) s → F.Requests answer job point s q u := by
    intro b same asks
    rcases asks.of_asksOnly (b.asksOnly_dialogue F.registry) with member | ⟨step, listed, member⟩
    · exact .constructor same member
    · exact .setter same listed member
  cases job with
  | literal value => cases asks
  | build b =>
    rcases asks.of_bind with asks | ⟨made, t, -, asks⟩
    · exact built rfl asks
    · cases asks
  | provide b context =>
    rcases asks.of_bind with asks | ⟨made, t, ran, asks⟩
    · exact built rfl asks
    · unfold Dialogue.provide at asks
      cases hooked : made.1.hookOf made.2 context point with
      | error e =>
        rw [hooked] at asks
        cases asks
      | ok hook =>
        rw [hooked] at asks
        exact .hook rfl ran hooked asks

namespace Injector
variable (I : Injector ι ρ)

/-- The question of one moment is asked directly while a value is made at the other one. -/
def Requests (m m' : Moment ι ρ) : Prop :=
  ∃ job started, I.Makes m m'.depth job started ∧
    I.toFinder.Requests (I.answer m'.depth) job (I.point m.question) started m'.question m'.state

/-- A value for the key is due, but none is made. -/
def Raises (m : Moment ι ρ) : Prop :=
  ∃ scope job t, I.Due m scope job t ∧ ∀ depth started, ¬ I.Makes m depth job started

/-- In a run a cycle is raised, at the end of a way through the values being made. -/
def Circles (errands : List (Errand ι ρ)) (s : Runtime ρ) (path : List Key) : Prop :=
  ∃ users m, I.Way errands s users m ∧ I.Raises m ∧ users.map I.keyAt ++ [I.keyAt m] = path

/-- What holds of the stack in a run: it is after each answer what it was before, at every moment it holds the
keys whose values are being made, each of which is asked for directly by the one before it, and a cycle is
reported by the stack and a key that is on it once. -/
structure Stacked (errands : List (Errand ι ρ)) (s : Runtime ρ) : Prop where
  balanced : ∀ depth q t, ((I.answer depth q).runOn t).2.active = t.active
  stack : ∀ {users m}, I.Way errands s users m → m.state.active.reverse = users.map I.keyAt
  direct : ∀ {users m}, I.Way errands s users m → (users ++ [m]).IsChain I.Requests
  circular : ∀ {users m}, I.Way errands s users m → I.Raises m →
    I.outcome m = .error (.circular (users.map I.keyAt ++ [I.keyAt m])) ∧
      (users.map I.keyAt).count (I.keyAt m) = 1

variable {I}

theorem Due.raises {m : Moment ι ρ} {scope : Scope} {job : Job ι} {t : Runtime ρ} (due : I.Due m scope job t)
    (member : I.keyAt m ∈ t.active) : I.Raises m := by
  refine ⟨scope, job, t, due, ?_⟩
  rintro depth started ⟨-, scope', t', due', absent, -⟩
  obtain rfl : t = t' := congrArg Prod.snd (due.found.symm.trans due'.found)
  exact absent member

abbrev SameStack : Runtime ρ → Runtime ρ → Prop := fun s t => t.active = s.active

instance : IsPreorder (Runtime ρ) SameStack where
  refl _ := rfl
  trans _ _ _ first later := later.trans first

theorem active_taken (made : Except Error Object) (s : Runtime ρ) : SameStack s (Dialogue.taken made s) := by
  cases made <;> rfl

theorem active_found (ownOnly : I.OwnOnly) {q : ι} {s t : Runtime ρ} {lead : Lead ι}
    (found : I.find q s = (lead, t)) : t.active = s.active := by
  rw [ownOnly.eq found]

/-- What is taken out when a key has been resolved is what was put on top of the stack for it. -/
theorem active_answer (ownOnly : I.OwnOnly) (depth : Nat) (q : ι) : (I.answer depth q).Moves SameStack := by
  have takenUp : ∀ depth, (∀ body, (Machine.making I.answer depth body).Moves SameStack) →
      ∀ q, (I.answer depth q).Moves SameStack := by
    intro depth makes q s
    have same : SameStack s (I.find q s).2 := active_found ownOnly rfl
    rw [I.bounded depth q s, Finder.opens]
    generalize I.find q s = found at same
    obtain ⟨outcome | ⟨scope, job⟩, t⟩ := found
    · exact same
    · refine trans_of SameStack same ?_
      simp only [runOn_deliver_eq]
      cases arrive (I.key q) scope t with
      | some outcome => rfl
      | none =>
        have made := makes (I.dialogue job (I.point q)) (entered (I.key q) t)
        exact (active_leave _ _ _).trans (erase_innermost made)
  induction depth generalizing q with
  | zero => exact takenUp 0 (fun _ _ => rfl) q
  | succ depth ih => exact takenUp (depth + 1) (Dialogue.moves_runOn active_taken ih) q

theorem active_after (ownOnly : I.OwnOnly) (errands : List (Errand ι ρ)) (s : Runtime ρ) :
    (I.after errands s).active = s.active := by
  induction errands generalizing s with
  | nil => rfl
  | cons errand rest ih => exact (ih _).trans (active_answer ownOnly _ _ _)

/-- While a value is made at a moment, its key is on top of the stack there was. -/
theorem Nests.active (ownOnly : I.OwnOnly) {m m' : Moment ι ρ} (nests : I.Nests m m') :
    m'.state.active = I.keyAt m :: m.state.active := by
  obtain ⟨job, started, makes, asks⟩ := nests
  obtain ⟨scope, t, due, -, rfl⟩ := makes.due
  have same : SameStack (entered (I.keyAt m) t) m'.state :=
    asks.moves active_taken (active_answer ownOnly m'.depth)
  exact same.trans (congrArg (I.keyAt m :: ·) (active_found ownOnly due.found))

theorem Way.active (ownOnly : I.OwnOnly) {errands : List (Errand ι ρ)} {s : Runtime ρ} (idle : s.active = [])
    {users : List (Moment ι ρ)} {m : Moment ι ρ} (way : I.Way errands s users m) :
    m.state.active.reverse = users.map I.keyAt := by
  induction way with
  | request _ => exact congrArg List.reverse ((active_after ownOnly _ s).trans idle)
  | nests _ nests ih => rw [nests.active ownOnly, List.reverse_cons, ih, List.map_append, List.map_singleton]

theorem Nests.requests {m m' : Moment ι ρ} (nests : I.Nests m m') : I.Requests m m' := by
  obtain ⟨job, started, makes, asks⟩ := nests
  exact ⟨job, started, makes, Finder.requests_of_asks asks⟩

theorem opens_of_found {q : ι} {s t : Runtime ρ} {scope : Scope} {job : Job ι}
    (found : I.find q s = (.does scope job, t)) :
    I.opens q s = (.delivers (I.key q) scope (I.dialogue job (I.point q)), t) := by
  rw [Finder.opens, found]

section
variable {opened : ρ → Prop} {keys : Finset Key} (confined : Machine.Confined I.opens opened keys)
  (ownOnly : I.OwnOnly)
include confined ownOnly

omit ownOnly in
theorem Confined.finds (q : ι) (s : Runtime ρ) (here : opened s.own) : opened (I.find q s).2.own := by
  have kept : opened (I.opens q s).2.own := confined.keeps here
  have same : (I.opens q s).2 = (I.find q s).2 := by
    unfold Finder.opens
    rcases I.find q s with ⟨outcome | ⟨scope, job⟩, t⟩ <;> rfl
  rwa [same] at kept

theorem Due.fits {m : Moment ι ρ} {scope : Scope} {job : Job ι} {t : Runtime ρ}
    (due : I.Due m scope job t) (fits : Fits opened keys m.depth m.state) (absent : I.keyAt m ∉ t.active) :
    ∃ left, m.depth = left + 1 ∧ Fits opened keys left (entered (I.keyAt m) t) := by
  have own : opened t.own := by
    have kept := Confined.finds confined m.question m.state fits.own
    rwa [due.found] at kept
  have member : I.keyAt m ∈ keys := confined.delivers fits.own (congrArg Prod.fst (opens_of_found due.found))
  exact (fits.of_active (active_found ownOnly due.found) own).entered member absent

theorem Nests.fits {m m' : Moment ι ρ} (nests : I.Nests m m') (fits : Fits opened keys m.depth m.state) :
    Fits opened keys m'.depth m'.state := by
  obtain ⟨job, started, makes, asks⟩ := nests
  obtain ⟨scope, t, due, absent, rfl⟩ := makes.due
  obtain ⟨left, deep, inside⟩ := due.fits confined ownOnly fits absent
  obtain rfl : left = m'.depth := Nat.succ.inj (deep.symm.trans makes.deeper)
  have own : OnOwn (Preserves opened) (entered (I.keyAt m) t) m'.state :=
    asks.moves Dialogue.own_taken (moves_answer (Confined.finds confined) m'.depth)
  exact inside.of_active (asks.moves active_taken (active_answer ownOnly m'.depth)) (own inside.own)

end

section
variable {inv : ρ → Prop} (finds : ∀ q s, inv s.own → inv (I.find q s).2.own) (ownOnly : I.OwnOnly)
  (room : ∀ s : Runtime ρ, inv s.own → ∃ (opened : ρ → Prop) (keys : Finset Key),
    Machine.Confined I.opens opened keys ∧ opened s.own ∧ keys.card ≤ I.bound s)
  {errands : List (Errand ι ρ)} (meanwhile : ∀ errand ∈ errands, ∀ own, inv own → inv (errand.meanwhile own))
  {s : Runtime ρ} (start : inv s.own) (idle : s.active = [])
include finds ownOnly room meanwhile start idle

theorem Way.fits {users : List (Moment ι ρ)} {m : Moment ι ρ} (way : I.Way errands s users m) :
    ∃ (opened : ρ → Prop) (keys : Finset Key), Machine.Confined I.opens opened keys ∧
      Fits opened keys m.depth m.state := by
  induction way with
  | @request earlier errand rest same =>
    have first : inv (I.first errand (I.after earlier s)).state.own :=
      Way.kept finds meanwhile start (.request same)
    obtain ⟨opened, keys, confined, own, enough⟩ := room _ first
    have empty : (I.first errand (I.after earlier s)).state.active = [] :=
      (active_after ownOnly earlier s).trans idle
    refine ⟨opened, keys, confined, ?_, ?_, ?_, own⟩ <;> rw [empty]
    · exact .nil
    · exact nofun
    · exact enough
  | nests _ nests ih =>
    obtain ⟨opened, keys, confined, fits⟩ := ih
    exact ⟨opened, keys, confined, nests.fits confined ownOnly fits⟩

/-- If no value is made though one is due, its key is being resolved, since nesting is not at its end. -/
theorem Raises.outcome {users : List (Moment ι ρ)} {m : Moment ι ρ} (way : I.Way errands s users m)
    (raises : I.Raises m) : I.keyAt m ∈ m.state.active ∧ m.state.active.Nodup ∧
      I.outcome m = .error (.circular (m.state.active.reverse ++ [I.keyAt m])) := by
  obtain ⟨opened, keys, confined, fits⟩ := way.fits finds ownOnly room meanwhile start idle
  obtain ⟨scope, job, t, due, never⟩ := raises
  have same : t.active = m.state.active := active_found ownOnly due.found
  have member : I.keyAt m ∈ t.active := by
    by_contra absent
    obtain ⟨left, deep, -⟩ := due.fits confined ownOnly fits absent
    exact never left _ ⟨deep, scope, t, due, absent, rfl⟩
  refine ⟨same ▸ member, fits.distinct, ?_⟩
  have arrived : arrive (I.keyAt m) scope t = some (.error (.circular (t.active.reverse ++ [I.keyAt m]))) := by
    rw [arrive, due.vacant]
    exact if_pos member
  rw [Injector.outcome, I.bounded, opens_of_found due.found]
  simp only [runOn_deliver_eq]
  rw [show arrive (I.key m.question) scope t = _ from arrived, same]

theorem stacked_of_room : I.Stacked errands s where
  balanced depth q := active_answer ownOnly depth q
  stack way := way.active ownOnly idle
  direct way := way.isChain.imp fun _ _ nests => nests.requests
  circular {users m} way raises := by
    obtain ⟨member, distinct, raised⟩ := Raises.outcome finds ownOnly room meanwhile start idle way raises
    have stack := way.active ownOnly idle
    rw [← stack]
    refine ⟨raised, List.count_eq_one_of_mem (List.nodup_reverse.mpr distinct) (List.mem_reverse.mpr member)⟩

end

end Injector

/-- Whatever is requested of an interpreter, or of a runner whose store others may change in between, the stack
is balanced, and cycles are reported by the way that leads to them. -/
theorem stack_balanced {σ : Type} [Store σ] {I : σ → Prop} (orderly : Store.Orderly I) (registry : Registry)
    (born : Nat) (table : Table) (requests : List (Key × Option Point)) {store : σ} (inv : I store)
    {requests' : List ((σ → σ) × Key × Option Point)}
    (keeps : ∀ asked ∈ requests', ∀ store, I store → I (asked.1 store)) :
    (Interpreter.injector registry).Stacked (requests.map Interpreter.errand) (.start born table) ∧
      (Runner.injector registry).Stacked (requests'.map Runner.errand) (Runner.start born store) := by
  have ownOnly := (Interpreter.lawful_injector registry).ownOnly
  have room := fun s (_ : True) => Interpreter.room_injector registry s
  have lawful' : (Runner.injector registry).Lawful (fun m => I m.store) Runner.Retains Runner.Law :=
    Runner.lawful_injector orderly
  have harmless := Runner.harmless_errands keeps
  refine ⟨@Injector.stacked_of_room _ _ _ (fun _ => True) (fun _ _ => id) ownOnly room _ (fun _ _ _ => id) _
      trivial rfl, ?_⟩
  exact Injector.stacked_of_room (fun q s => lawful'.keeps) lawful'.ownOnly
    (fun s inv => Runner.room_injector orderly s inv)
    (fun errand member own inv => (harmless errand member own inv).1) inv rfl

def hen : Class :=
  (Class.define "Hen" "Hen" fun _ => .ok []).constructorParameter ⟨"egg", .plain "Egg", none⟩

def nest : Class :=
  (Class.define "Nest" "Nest" fun _ => .ok []).provides fun _ _ _ =>
    .lookup (.plain "Hen") none fun outcome => .finish (outcome.map .existing)

def farm : Registry := .ofClasses [hen, nest]

def farmTable : Table :=
  SortedMap.ofList [(.plain "Egg", .provided ⟨nest.signature, .prototype⟩ .prototype none)]

def farmStore : MemoryStore .none where
  plans := SortedMap.ofList [
    (.plain "Hen", ⟨Plan.currentVersion, .plain "Hen", .prototype,
      .construct { className := "Hen", operands := [.reference .prototype (.plain "Egg")] }⟩),
    (.plain "Egg", ⟨Plan.currentVersion, .plain "Egg", .prototype,
      .provide { className := "Nest", operands := [] } none⟩)]
  snapshot := none

def henRequest : Errand Interpreter.Question Table := Interpreter.errand (.plain "Hen", none)

def henRun : Errand Runner.Question (Runner.Memory (MemoryStore .none)) := Runner.errand (id, .plain "Hen", none)

/-- For a hen an egg is needed, and for an egg a hen is looked up, which both injectors find out. -/
theorem hen_needs_hen :
    (Interpreter.injector farm).Circles [henRequest] (.start 0 farmTable)
        [.plain "Hen", .plain "Egg", .plain "Hen"] ∧
      (Interpreter.injector farm).Stacked [henRequest] (.start 0 farmTable) ∧
      (Runner.injector farm).Circles [henRun] (Runner.start 0 farmStore)
        [.plain "Hen", .plain "Egg", .plain "Hen"] ∧
      (Runner.injector farm).Stacked [henRun] (Runner.start 0 farmStore) := by
  have filed : MemoryStore.Filed farmStore := MemoryStore.filed_of_entries (by decide)
  have alone : ∀ asked ∈ [((id : MemoryStore .none → MemoryStore .none), Key.plain "Hen", (none : Option Point))],
      ∀ store, MemoryStore.Filed store → MemoryStore.Filed (asked.1 store) := by
    rw [List.forall_mem_singleton]
    exact fun _ filed => filed
  obtain ⟨stacked, stacked'⟩ := stack_balanced MemoryStore.orderly_filed farm 0 farmTable
    [(.plain "Hen", none)] filed alone
  refine ⟨?_, stacked, ?_, stacked'⟩
  · have asked := Injector.Way.head (I := Interpreter.injector farm) henRequest [] (.start 0 farmTable)
    have egg := asked.nest rfl ⟨rfl, rfl⟩ (by decide) .now
    have again := egg.nest rfl ⟨rfl, rfl⟩ (by decide) (.taken .now)
    exact ⟨_, _, again, Injector.Due.raises ⟨rfl, rfl⟩ (by decide), rfl⟩
  · have asked := Injector.Way.head (I := Runner.injector farm) henRun [] (Runner.start 0 farmStore)
    have egg := asked.nest rfl ⟨rfl, rfl⟩ (by decide) .now
    have again := egg.nest rfl ⟨rfl, rfl⟩ (by decide) (.taken .now)
    exact ⟨_, _, again, Injector.Due.raises ⟨rfl, rfl⟩ (by decide), rfl⟩

end Wiring
