import Wiring.Proofs.History
import Wiring.Proofs.Journal.Identities
import Wiring.Proofs.Journal.Interpreter
import Wiring.Proofs.Journal.Runner
import Wiring.Proofs.Journal.Seen

/-! # No object is seen half made

Whatever an injector returns, keeps as a singleton, hands on as an argument or asks to provide a value has
been through all the calls of its blueprint. An object that does not get that far is never seen, and whoever
is next to ask for its key has another one made. A runner may instead give them a singleton that it has been
keeping all along, since references decide the scope of what they refer to.
-/
namespace Wiring
open Wiring.Runtime

variable {ι ρ : Type}

def Seen (xs : List (Event ι)) (t : Runtime ρ) (v : Value) : Prop :=
  (∃ e ∈ xs, v ∈ e.shown) ∨ ∃ key, t.singletons.get? key = some v

/-- An object that was there before a run, that a hook has made, or that has been completed. -/
def Object.Whole (old : Nat) (xs : List (Event ι)) (o : Object) : Prop :=
  o.id < old ∨ .owns o ∈ xs ∨ ∃ key b given, .completes key b given o ∈ xs

/-- A run in which nobody sees an object that is not whole. -/
structure Wholesome (I : Injector ι ρ) (law : Key → Scope → Job ι → Prop) (old : Nat)
    (errands : List (Errand ι ρ)) (s : Runtime ρ) : Prop where
  /-- Whatever a request returns is among the answers. -/
  told : ∀ earlier errand later, errands = earlier ++ errand :: later →
    .answers errand.question (I.serve errand (I.after earlier s)).1 ∈ I.chronicle errands s
  /-- Objects are built from the blueprints of their keys, of what has been answered. -/
  built : ∀ key b given o, .completes key b given o ∈ I.chronicle errands s →
    (∃ scope job, law key scope job ∧ job.blueprint? = some b) ∧ (∃ c, Built I.registry b c given o) ∧
      ∀ q outcome, (q, outcome) ∈ given → .answers q outcome ∈ I.chronicle errands s
  /-- They have been through the call of the constructor, those of the setters that are not left out, and the
  one of the hook. -/
  history : ∀ key b given o, .completes key b given o ∈ I.chronicle errands s →
    ∃ early late arguments calls, given = early ++ late ∧ Met b.arguments early (.ok arguments) ∧
      Called b.steps late calls ∧
      o.history.map Invocation.call = (constructorMethod, arguments) :: (calls ++ b.finale)
  whole : ∀ v, Seen (I.chronicle errands s) (I.after errands s) v →
    v.Each (Object.Whole old (I.chronicle errands s))
  /-- The identity of an object that is given up is never seen. -/
  dropped : ∀ key b begun e, .abandons key b begun e ∈ I.chronicle errands s → ∀ i ∈ begun, ∀ v,
    Seen (I.chronicle errands s) (I.after errands s) v → v.Each fun o => o.id ≠ i
  accounted : Accounted s (I.chronicle errands s) (I.after errands s)

theorem Wholesome.imp {I : Injector ι ρ} {law law' : Key → Scope → Job ι → Prop} {old : Nat}
    {errands : List (Errand ι ρ)} {s : Runtime ρ} (wholesome : Wholesome I law old errands s)
    (implies : ∀ {key scope job}, law key scope job → law' key scope job) :
    Wholesome I law' old errands s := by
  refine { wholesome with built := fun key b given o member => ?_ }
  obtain ⟨⟨scope, job, known, made⟩, rest⟩ := wholesome.built key b given o member
  exact ⟨⟨scope, job, implies known, made⟩, rest⟩

namespace Injector
variable {I : Injector ι ρ}

theorem told_chronicle (I : Injector ι ρ) (earlier later : List (Errand ι ρ)) (errand : Errand ι ρ)
    (s : Runtime ρ) : .answers errand.question (I.serve errand (I.after earlier s)).1 ∈
      I.chronicle (earlier ++ errand :: later) s := by
  induction earlier generalizing s with
  | nil => exact List.mem_append_left _ (I.supplied_journal _ errand.question _).1
  | cons first rest ih => exact List.mem_append_right _ (ih (I.serve first s).2)

variable {inv : ρ → Prop} {R : ρ → ρ → Prop} {law : ρ → Key → Scope → Job ι → Prop} [IsPreorder ρ R]
  (lawful : I.Lawful inv R law) {errands : List (Errand ι ρ)}
  (harmless : ∀ errand ∈ errands, errand.Harmless inv R)
  {s : Runtime ρ} (start : inv s.own) (bare : s.singletons = SortedMap.empty)
include lawful harmless start bare

theorem wholesome {old : Nat} (discreet : I.registry.Discreet old) (before : old ≤ s.born) :
    Wholesome I (law (I.after errands s).own) old errands s := by
  obtain ⟨-, -, follow⟩ := I.follows_chronicle lawful harmless s start
  have accounted := I.accounted_chronicle lawful.ownOnly errands s
  have built : ∀ key b given o, .completes key b given o ∈ I.chronicle errands s →
      (∃ scope job, law (I.after errands s).own key scope job ∧ job.blueprint? = some b) ∧
        ∃ c, Built I.registry b c given o := fun key b given o member => (follow.mem member).choose_spec
  have whole : ∀ v, Seen (I.chronicle errands s) (I.after errands s) v →
      v.Each (Object.Whole old (I.chronicle errands s)) := by
    have keeps : s.Keeps (Object.Whole old (I.chronicle errands s)) := by
      intro key v kept
      rw [bare] at kept
      cases kept
    have granted : ∀ e ∈ I.chronicle errands s, e.Grants (Object.Whole old (I.chronicle errands s)) := by
      intro e member
      cases e with
      | completes key b given o => exact .inr (.inr ⟨key, b, given, member⟩)
      | owns o => exact .inr (.inl member)
      | _ => trivial
    obtain ⟨seen, kept⟩ :=
      I.shows_chronicle lawful.ownOnly discreet (fun o older => .inl older) errands s granted keeps
    rintro v (⟨e, member, shown⟩ | ⟨key, held⟩)
    · exact seen e member v shown
    · exact kept key v held
  refine ⟨fun earlier errand later split => ?_, fun key b given o member => ?_,
    fun key b given o member => ?_, whole, fun key b begun e member i inside v seen => ?_, accounted⟩
  · rw [split]
    exact I.told_chronicle earlier later errand s
  · obtain ⟨known, assembled⟩ := built key b given o member
    exact ⟨known, assembled, I.supplied_chronicle errands s key b given o member⟩
  · obtain ⟨-, c, assembled⟩ := built key b given o member
    exact assembled.history
  · refine (whole v seen).imp fun o entire same => ?_
    subst same
    -- An object with the identity would have come to two ends.
    have apart : ∀ x ∈ I.chronicle errands s, o.id ∈ x.identities → x = .abandons key b begun e :=
      fun x there named => accounted.eq_of_mem there member named inside
    rcases entire with older | owned | ⟨key', b', given, completed⟩
    · have later := accounted.mem (List.mem_flatMap.mpr ⟨_, member, inside⟩)
      omega
    · cases apart _ owned (List.mem_singleton.mpr rfl)
    · cases apart _ completed (List.mem_singleton.mpr rfl)

end Injector

def Event.StartsOver (key : Key) (b : Blueprint ι) (x : Event ι) (later : List (Event ι)) : Prop :=
  (∃ scope, x = .starts key scope) ∧ ∃ y ∈ later, y.Judges key b

/-- Once an object for a key has been given up, another one is made for whoever is next to ask for the key. -/
def Restarts (xs : List (Event ι)) : Prop :=
  ∀ earlier key b begun e between x later,
    xs = earlier ++ .abandons key b begun e :: (between ++ x :: later) → (∀ y ∈ between, ¬ y.Takes key) →
    x.Takes key → x.StartsOver key b later

/-- Once an object for a key has been given up, another one is made for whoever is next to ask for the key,
unless the object was to be a prototype, and a singleton had been made for the key before. -/
def Resumes (xs : List (Event ι)) : Prop :=
  ∀ earlier key b begun e between x later,
    xs = earlier ++ .abandons key b begun e :: (between ++ x :: later) → (∀ y ∈ between, ¬ y.Takes key) →
    x.Takes key → x.StartsOver key b later ∨
      ∃ value, x = .recalls key value ∧ .ends key .prototype (.error e) ∈ between ∧
        .ends key .singleton (.ok value) ∈ earlier

theorem Injector.resumes {I : Injector ι ρ} {inv : ρ → Prop} {R : ρ → ρ → Prop}
    {law : ρ → Key → Scope → Job ι → Prop} [IsPreorder ρ R] (lawful : I.Lawful inv R law)
    (room : ∀ s : Runtime ρ, inv s.own → ∃ (opened : ρ → Prop) (keys : Finset Key),
      Machine.Confined I.opens opened keys ∧ opened s.own ∧ keys.card ≤ I.bound s)
    {errands : List (Errand ι ρ)}
    (harmless : ∀ errand ∈ errands, errand.Harmless inv R)
    {s : Runtime ρ} (start : inv s.own) (bare : s.singletons = SortedMap.empty) (idle : s.active = []) :
    Resumes (I.chronicle errands s) := by
  intro earlier key b begun e between x later split quiet takes
  obtain ⟨-, -, follow⟩ := I.follows_chronicle lawful harmless s start
  have given := follow
  rw [split] at given
  obtain ⟨⟨scope', job, known, made⟩, scope, rest, ended⟩ := given.split
  -- The first event between is the end of the making, so nobody asks for the key before it.
  cases between with
  | nil =>
    cases ended
    exact takes.elim
  | cons y between =>
    cases ended
    have whole : I.chronicle errands s = (earlier ++ [.abandons key b begun e]) ++
        .ends key scope (.error e) :: (between ++ x :: later) := by
      rw [split, List.append_assoc]
      rfl
    have sees : Sees inv law key {} s := by
      refine ⟨start, ?_, ?_, nofun⟩
      · rw [bare]
        rfl
      · rw [idle]
        simp
    obtain ⟨reads, -⟩ := (I.readable_chronicle lawful key harmless s).2 {} sees
    rw [whole] at reads
    have sound : View.Sound {} := ⟨nofun, fun busy => absurd rfl busy⟩
    rcases View.retried sound rfl reads (List.forall_mem_cons.mp quiet).2 takes with
      rfl | ⟨scope'', rfl⟩ | ⟨value, rfl, rfl, kept⟩
    · refine absurd ?_ (I.no_stops lawful room harmless start idle key)
      rw [whole]
      simp
    · rw [whole, ← List.cons_append, ← List.append_assoc] at follow
      obtain ⟨job', known', judged⟩ := follow.split
      exact .inl ⟨⟨scope'', rfl⟩, judged b (lawful.sole known known' ▸ made)⟩
    · refine .inr ⟨value, rfl, List.mem_cons_self, ?_⟩
      simpa using kept

/-- If the values of each key are made in one scope only, nothing but another object is given. -/
theorem Resumes.restarts {xs : List (Event ι)} (resumes : Resumes xs)
    (one : ∀ {key scope scope' outcome outcome'}, .ends key scope outcome ∈ xs →
      .ends key scope' outcome' ∈ xs → scope = scope') : Restarts xs := by
  intro earlier key b begun e between x later split quiet takes
  rcases resumes earlier key b begun e between x later split quiet takes with anew | ⟨value, -, failed, kept⟩
  · exact anew
  · have first : .ends key .singleton (.ok value) ∈ xs := by
      rw [split]
      exact List.mem_append_left _ kept
    have second : .ends key .prototype (.error e) ∈ xs := by
      rw [split]
      simp [failed]
    cases one first second

namespace Interpreter
variable (registry : Registry) (born : Nat) (table : Table) (requests : List (Key × Option Point))

theorem follows_requests :
    Follows registry (fun _ => True) (Grows registry) (Law registry) (Runtime.start born table)
      ((injector registry).chronicle (requests.map errand) (Runtime.start born table))
      ((injector registry).after (requests.map errand) (Runtime.start born table)) :=
  Injector.follows_chronicle (lawful_injector registry) (harmless_errands registry requests) _

variable {registry} in
theorem wholesome_requests {old : Nat} (discreet : registry.Discreet old) (older : old ≤ born) :
    Wholesome (injector registry) (Law registry table) old (requests.map errand)
      (Runtime.start born table) := by
  obtain ⟨-, grows, -⟩ := follows_requests registry born table requests trivial
  have wholesome := Injector.wholesome (lawful_injector registry) (harmless_errands registry requests)
    (s := Runtime.start born table) trivial rfl discreet older
  refine wholesome.imp ?_
  rintro key scope job ⟨binding, bound, same⟩
  exact ⟨binding, (grows.known_eq key).symm.trans bound, same⟩

theorem restarts_requests :
    Restarts ((injector registry).chronicle (requests.map errand) (Runtime.start born table)) := by
  obtain ⟨-, -, follow⟩ := follows_requests registry born table requests trivial
  have resumes := Injector.resumes (lawful_injector registry) (fun s _ => room_injector registry s)
    (harmless_errands registry requests) (s := Runtime.start born table) trivial rfl rfl
  refine resumes.restarts fun first second => ?_
  -- The binding of the key says in which scope its value is made.
  obtain ⟨_, job, binding, bound, rfl, -⟩ := follow.mem first
  obtain ⟨_, job', binding', bound', rfl, -⟩ := follow.mem second
  cases bound.symm.trans bound'
  rfl

end Interpreter

/-- Whatever an interpreter or a runner is asked for, the objects that are returned, kept, handed on or asked
to provide have been built whole, from the blueprints of their keys, and those that could not be are never
seen. Whoever is next to ask for the key of such an object has another one made, but a runner may instead
recall a singleton, if it was made before the object, and the object was to be a prototype. -/
theorem objects_seen_whole (registry : Registry) {old born : Nat} (older : old ≤ born)
    (discreet : registry.Discreet old) :
    (∀ (table : Table) (requests : List (Key × Option Point)),
      let interpreter := Interpreter.injector registry
      let errands := requests.map Interpreter.errand
      let start : Interpreter.State := Runtime.start born table
      (∀ asked s, interpreter.serve (Interpreter.errand asked) s =
        (Interpreter.request registry asked.1 asked.2).runOn s) ∧
      Wholesome interpreter (Interpreter.Law registry table) old errands start ∧
      Restarts (interpreter.chronicle errands start)) ∧
    ∀ {σ : Type} [Store σ] {I : σ → Prop}, Store.Orderly I → ∀ store, I store →
      ∀ requests : List ((σ → σ) × Key × Option Point),
      (∀ asked ∈ requests, ∀ store, I store → I (asked.1 store)) →
      let runner : Injector Runner.Question (Runner.Memory σ) := Runner.injector registry
      let errands := requests.map Runner.errand
      let start := Runner.start born store
      (∀ asked s, runner.serve (Runner.errand asked) s = (Runner.request registry asked.2.1 asked.2.2).runOn
        { s with own := { s.own with store := asked.1 s.own.store } }) ∧
      Wholesome runner (Runner.Law (runner.after errands start).own) old errands start ∧
      Resumes (runner.chronicle errands start) := by
  constructor
  · intro table requests interpreter errands start
    exact ⟨Interpreter.serve_errand registry,
      Interpreter.wholesome_requests born table requests discreet older,
      Interpreter.restarts_requests registry born table requests⟩
  · intro σ _ I orderly store inv requests keeps runner errands start
    have lawful : runner.Lawful (fun m => I m.store) Runner.Retains Runner.Law :=
      Runner.lawful_injector orderly
    have harmless := Runner.harmless_errands keeps
    exact ⟨Runner.serve_errand, Injector.wholesome lawful harmless inv rfl discreet older,
      Injector.resumes lawful (Runner.room_injector orderly) harmless inv rfl rfl⟩

def askingReader : Class :=
  (Class.define "Asking" "Asking" fun _ => .ok []).provides fun _ _ _ =>
    .lookup (.plain "Reader") none fun _ => .finish (.ok (.existing default))

def hubRegistry : Registry :=
  .ofClasses [askingReader,
    (Class.define "Hub" "Hub" fun _ => .ok []).constructorParameter ⟨"tap", .plain "Tap", none⟩,
    (Class.define "Reader" "Reader" fun _ => .ok []).constructorParameter ⟨"hub", .plain "Hub", none⟩]

theorem discreet_hubRegistry : hubRegistry.Discreet 0 := by
  intro name c found
  have member : (name, c) ∈ hubRegistry.entries := SortedMap.mem_entries_iff.mpr found
  have plain : ∀ {P : Object → Prop} {kept : List Value}, (.ok [] : Except Error _) = .ok kept →
      valuesEach P kept := by
    rintro P kept ⟨⟩
    trivial
  rcases List.mem_cons.mp member with same | member
  · cases same
    refine ⟨fun {_} _ {_ _} _ => plain, nofun, ?_⟩
    rintro _ ⟨⟩ P _ o _ context point outcome _ offer ⟨⟩
    trivial
  · rcases List.mem_cons.mp member with same | member
    · cases same
      exact ⟨fun {_} _ {_ _} _ => plain, nofun, nofun⟩
    · cases List.mem_singleton.mp member
      exact ⟨fun {_} _ {_ _} _ => plain, nofun, nofun⟩

def hubTable : Table :=
  let signature (name : String) := (hubRegistry.signature? name).getD default
  .ofList [(.plain "Hub", .build ⟨signature "Hub", .singleton⟩),
    (.plain "Tap", .provided ⟨signature "Asking", .prototype⟩ .prototype none)]

def hubStore : MemoryStore .none where
  plans := .ofList [
    (.plain "Hub", .current (.plain "Hub") .singleton
      (.construct ⟨"Hub", [.reference .prototype (.plain "Tap")], [], none⟩)),
    (.plain "Reader", .current (.plain "Reader") .prototype
      (.construct ⟨"Reader", [.reference .prototype (.plain "Hub")], [], none⟩)),
    (.plain "Tap", .current (.plain "Tap") .prototype (.provide ⟨"Asking", [], [], none⟩ none))]
  snapshot := none

theorem filed_hubStore : MemoryStore.Filed hubStore := MemoryStore.filed_of_entries (by decide)

def hubRequests : List (Key × Option Point) :=
  [(.plain "Hub", none), (.plain "Tap", none), (.plain "Hub", none)]

def interpretedJournal : List (Event Interpreter.Question) :=
  (Interpreter.injector hubRegistry).chronicle (hubRequests.map Interpreter.errand) (Runtime.start 0 hubTable)

def runRequests : List ((MemoryStore .none → MemoryStore .none) × Key × Option Point) :=
  hubRequests.map fun asked => (id, asked)

def runJournal : List (Event Runner.Question) :=
  (Runner.injector hubRegistry).chronicle (runRequests.map Runner.errand) (Runner.start 0 hubStore)

/-- A hub is made, and a reader is given up, since it needs the hub that is being made. -/
theorem hub_seen_whole :
    (∃ b given o, .completes (.plain "Hub") b given o ∈ interpretedJournal) ∧
    (∃ b begun e, .abandons (.plain "Reader") b begun e ∈ interpretedJournal) ∧
    Wholesome (Interpreter.injector hubRegistry) (Interpreter.Law hubRegistry hubTable) 0
      (hubRequests.map Interpreter.errand) (Runtime.start 0 hubTable) ∧
    Restarts interpretedJournal ∧
    (∃ b given o, .completes (.plain "Hub") b given o ∈ runJournal) ∧
    (∃ b begun e, .abandons (.plain "Hub") b begun e ∈ runJournal) ∧
    Wholesome (Runner.injector hubRegistry) (Runner.Law ((Runner.injector hubRegistry).after
      (runRequests.map Runner.errand) (Runner.start 0 hubStore)).own) 0
      (runRequests.map Runner.errand) (Runner.start 0 hubStore) ∧
    Resumes runJournal := by
  obtain ⟨interpreted, run⟩ := objects_seen_whole hubRegistry le_rfl discreet_hubRegistry
  obtain ⟨-, wholesome, restarts⟩ := interpreted hubTable hubRequests
  have keeps : ∀ asked ∈ runRequests, ∀ store,
      MemoryStore.Filed store → MemoryStore.Filed (asked.1 store) := by
    intro asked member store filed
    obtain ⟨_, -, rfl⟩ := List.mem_map.mp member
    exact filed
  obtain ⟨-, wholesome', resumes⟩ := run MemoryStore.orderly_filed hubStore filed_hubStore runRequests keeps
  have made : interpretedJournal[12]? = some (.completes (.plain "Hub") _ _ _) := rfl
  have dropped : interpretedJournal[7]? = some (.abandons (.plain "Reader") _ _ _) := rfl
  have made' : runJournal[12]? = some (.completes (.plain "Hub") _ _ _) := rfl
  have dropped' : runJournal[22]? = some (.abandons (.plain "Hub") _ _ _) := rfl
  exact ⟨⟨_, _, _, List.mem_of_getElem? made⟩, ⟨_, _, _, List.mem_of_getElem? dropped⟩, wholesome, restarts,
    ⟨_, _, _, List.mem_of_getElem? made'⟩, ⟨_, _, _, List.mem_of_getElem? dropped'⟩, wholesome', resumes⟩

/-- A runner that keeps a hub fails to make another one as a prototype for a reader. The next request for the
hub is answered by the one that it keeps. -/
theorem hub_recalled_after_failure : ¬ Restarts runJournal := by
  intro restarts
  have quiet : ∀ y ∈ (runJournal.drop 23).take 7, ¬ y.Takes (.plain "Hub") := by decide
  obtain ⟨⟨scope, starts⟩, -⟩ := restarts (runJournal.take 22) (.plain "Hub") _ _ _
    ((runJournal.drop 23).take 7) (.recalls (.plain "Hub") _) (runJournal.drop 31) rfl quiet rfl
  cases starts

end Wiring
