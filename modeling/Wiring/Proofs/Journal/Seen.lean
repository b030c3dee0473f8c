import Wiring.Proofs.Journal.Recipes

/-! # What others get to see

The functions of a class hand on what they are given and what an object holds, but never the object that they
work on. So whatever an injector answers, keeps or asks to provide, to any depth, has been completed before
anyone sees it, unless it was there before the run or a hook has made it.
-/
namespace Wiring
open Wiring.Runtime

variable {ι ρ α : Type}

mutual
/-- A value all of whose objects, to any depth, have a property. -/
def Value.Each (P : Object → Prop) : Value → Prop
  | .literal _ => True
  | .object id type className history => P ⟨id, type, className, history⟩ ∧ callsEach P history

def callsEach (P : Object → Prop) : List (Invocation Value) → Prop
  | [] => True
  | ⟨_, arguments, kept⟩ :: rest => valuesEach P arguments ∧ valuesEach P kept ∧ callsEach P rest

def valuesEach (P : Object → Prop) : List Value → Prop
  | [] => True
  | v :: rest => v.Each P ∧ valuesEach P rest
end

variable {P P' : Object → Prop}

mutual
theorem Value.Each.imp (implies : ∀ o, P o → P' o) : ∀ {v : Value}, v.Each P → v.Each P'
  | .literal _, _ => trivial
  | .object _ _ _ _, ⟨outer, inner⟩ => ⟨implies _ outer, callsEach_imp implies inner⟩

theorem callsEach_imp (implies : ∀ o, P o → P' o) :
    ∀ {calls : List (Invocation Value)}, callsEach P calls → callsEach P' calls
  | [], _ => trivial
  | ⟨_, _, _⟩ :: _, ⟨arguments, kept, rest⟩ =>
    ⟨valuesEach_imp implies arguments, valuesEach_imp implies kept, callsEach_imp implies rest⟩

theorem valuesEach_imp (implies : ∀ o, P o → P' o) :
    ∀ {vs : List Value}, valuesEach P vs → valuesEach P' vs
  | [], _ => trivial
  | _ :: _, ⟨first, rest⟩ => ⟨first.imp implies, valuesEach_imp implies rest⟩
end

theorem callsEach_append {calls more : List (Invocation Value)} :
    callsEach P (calls ++ more) ↔ callsEach P calls ∧ callsEach P more := by
  induction calls with
  | nil => simp [callsEach]
  | cons call rest ih => simp only [List.cons_append, callsEach, ih, and_assoc]

def Offer.Each (P : Object → Prop) : Offer → Prop
  | .existing v => v.Each P
  | .fresh _ _ arguments => valuesEach P arguments

def Hook.Each (P : Object → Prop) : Hook → Prop
  | .finish outcome => ∀ offer, outcome = .ok offer → offer.Each P
  | .lookup _ _ next => ∀ outcome, (∀ v, outcome = .ok v → v.Each P) → (next outcome).Each P

/-- Whatever property the objects from before the run have, the functions of such a class hand on values with
it if they are given values with it. A constructor and a method get to see what is inside of the object they
work on, but not the object itself. -/
structure Class.Discreet (old : Nat) (c : Class) : Prop where
  construct : ∀ {P : Object → Prop}, (∀ o, o.id < old → P o) → ∀ {arguments kept}, valuesEach P arguments →
    c.construct arguments = .ok kept → valuesEach P kept
  method : ∀ {name call}, c.methods.get? name = some call → ∀ {P : Object → Prop},
    (∀ o, o.id < old → P o) → ∀ {o arguments kept}, callsEach P o.history → valuesEach P arguments →
      call o arguments = .ok kept → valuesEach P kept
  provide : ∀ {provide}, c.provide = some provide → ∀ {P : Object → Prop}, (∀ o, o.id < old → P o) →
    ∀ {o}, o.value.Each P → ∀ context point, (provide o context point).Each P

def Registry.Discreet (old : Nat) (registry : Registry) : Prop :=
  ∀ name c, registry.get? name = some c → c.Discreet old

section
variable {old : Nat} {c : Class} (discreet : c.Discreet old) (before : ∀ o, o.id < old → P o)
include discreet before

theorem Class.Discreet.invokeAll {calls : List (String × List Value)} {o done : Object}
    (inside : callsEach P o.history) (given : ∀ call ∈ calls, valuesEach P call.2)
    (invoked : c.invokeAll o calls = .ok done) : callsEach P done.history := by
  induction calls generalizing o with
  | nil =>
    cases invoked
    exact inside
  | cons call calls ih =>
    obtain ⟨first, others⟩ := List.forall_mem_cons.mp given
    obtain ⟨method, kept, found, called, rest⟩ := Class.invokeAll_cons_eq_ok invoked
    have keeps : valuesEach P kept := discreet.method found before inside first called
    have last : callsEach P [⟨call.1, call.2, kept⟩] := ⟨first, keeps, trivial⟩
    exact ih (callsEach_append.mpr ⟨inside, last⟩) others rest

theorem Class.Discreet.perform {id : Nat} {arguments : List Value} {calls : List (String × List Value)}
    {done : Object} (given : valuesEach P arguments) (later : ∀ call ∈ calls, valuesEach P call.2)
    (performed : c.perform id arguments calls = .ok done) : callsEach P done.history := by
  unfold Class.perform at performed
  cases made : c.make id arguments with
  | error e =>
    rw [made] at performed
    cases performed
  | ok o =>
    rw [made] at performed
    obtain ⟨kept, constructed, rfl⟩ := Class.make_eq_ok made
    have keeps : valuesEach P kept := discreet.construct before given constructed
    have first : callsEach P [⟨constructorMethod, arguments, kept⟩] := ⟨given, keeps, trivial⟩
    exact discreet.invokeAll before first later performed

end

section
variable {given : List (ι × Except Error Value)}

theorem Met.each {needs : List (Need ι)} {outcome : Except Error (List Value)}
    (met : Met needs given outcome) (each : ∀ q v, (q, .ok v) ∈ given → v.Each P) {vs : List Value}
    (done : outcome = .ok vs) : valuesEach P vs := by
  induction met generalizing vs with
  | nil =>
    cases done
    trivial
  | literal value _ ih =>
    obtain ⟨rest, met, rfl⟩ := map_eq_ok_iff.mp done
    exact ⟨trivial, ih each met⟩
  | answered q value _ ih =>
    obtain ⟨rest, met, rfl⟩ := map_eq_ok_iff.mp done
    refine ⟨each q value List.mem_cons_self, ih (fun q v member => ?_) met⟩
    exact each q v (List.mem_cons_of_mem _ member)
  | failed q e => cases done

theorem Called.each {steps : List (Runtime.Step (Need ι))} {calls : List (String × List Value)}
    (called : Called steps given calls) (each : ∀ q v, (q, .ok v) ∈ given → v.Each P) :
    ∀ call ∈ calls, valuesEach P call.2 := by
  induction called with
  | nil => simp
  | made met _ ih =>
    have first := met.each (fun q v member => each q v (List.mem_append_left _ member)) rfl
    exact List.forall_mem_cons.mpr ⟨first, ih fun q v member => each q v (List.mem_append_right _ member)⟩
  | dropped _ _ _ _ ih => exact ih fun q v member => each q v (List.mem_append_right _ member)

theorem Built.each {registry : Registry} {old : Nat} (discreet : registry.Discreet old)
    (before : ∀ o, o.id < old → P o) {b : Blueprint ι} {c : Class} {o : Object}
    (built : Built registry b c given o) (each : ∀ q v, (q, .ok v) ∈ given → v.Each P) (itself : P o) :
    o.value.Each P := by
  cases built with
  | mk found met called performed =>
    refine ⟨itself, (discreet _ c found).perform before
      (met.each (fun q v member => each q v (List.mem_append_left _ member)) rfl) (fun call member => ?_)
      performed⟩
    rcases List.mem_append.mp member with set | last
    · exact called.each (fun q v member => each q v (List.mem_append_right _ member)) call set
    · obtain ⟨method, -, rfl⟩ := List.mem_map.mp last
      trivial

end

def Event.shown : Event ι → List Value
  | .ends _ _ (.ok v) => [v]
  | .recalls _ v => [v]
  | .answers _ (.ok v) => [v]
  | .consults o => [o.value]
  | _ => []

theorem Event.each_shown {outcome : Except Error Value} (each : ∀ v, outcome = .ok v → v.Each P)
    (key : Key) (scope : Scope) (q : ι) :
    (∀ v ∈ (Event.ends key scope outcome : Event ι).shown, v.Each P) ∧
      ∀ v ∈ (Event.answers q outcome).shown, v.Each P := by
  cases outcome with
  | error e => exact ⟨nofun, nofun⟩
  | ok v => exact ⟨List.forall_mem_singleton.mpr (each v rfl), List.forall_mem_singleton.mpr (each v rfl)⟩

/-- The object that an event introduces, if it does, has a property. -/
def Event.Grants (P : Object → Prop) : Event ι → Prop
  | .completes _ _ _ o => P o
  | .owns o => P o
  | _ => True

def Runtime.Keeps (P : Object → Prop) (s : Runtime ρ) : Prop :=
  ∀ key v, s.singletons.get? key = some v → v.Each P

/-- If the objects that are introduced have a property, then whatever is seen has it. -/
def Shows (P : Object → Prop) (s : Runtime ρ) (xs : List (Event ι)) (t : Runtime ρ) : Prop :=
  (∀ e ∈ xs, e.Grants P) → s.Keeps P → (∀ e ∈ xs, ∀ v ∈ e.shown, v.Each P) ∧ t.Keeps P

theorem Shows.of_kept {s t : Runtime ρ} {xs : List (Event ι)} (same : t.singletons = s.singletons)
    (seen : s.Keeps P → ∀ e ∈ xs, ∀ v ∈ e.shown, v.Each P) : Shows P s xs t := by
  intro _ keeps
  refine ⟨seen keeps, fun key v kept => keeps key v ?_⟩
  rwa [same] at kept

theorem stretch_shows : Stretch (Shows (ι := ι) (ρ := ρ) P) where
  nil _ := .of_kept rfl fun _ => nofun
  append first later granted keeps := by
    obtain ⟨granted, granted'⟩ := List.forall_mem_append.mp granted
    obtain ⟨seen, keeps⟩ := first granted keeps
    obtain ⟨seen', keeps⟩ := later granted' keeps
    exact ⟨List.forall_mem_append.mpr ⟨seen, seen'⟩, keeps⟩

section
variable {answer : ι → Act (Runtime ρ) Value} {within : ι → Runtime ρ → List (Event ι)}
  (told : ∀ q s, .answers q ((answer q).runOn s).1 ∈ within q s)
  (shows : ∀ q s, Shows P s (within q s) ((answer q).runOn s).2)
include told shows

theorem shows_blueprint {old : Nat} {registry : Registry} (discreet : registry.Discreet old)
    (before : ∀ o, o.id < old → P o) (key : Key) (b : Blueprint ι) (s : Runtime ρ)
    (granted : ∀ e ∈ b.journal answer within registry key s, e.Grants P) (keeps : s.Keeps P) :
    (∀ e ∈ b.journal answer within registry key s, ∀ v ∈ e.shown, v.Each P) ∧
      ((b.dialogue registry).runOn answer s).2.Keeps P ∧
      ∀ made, ((b.dialogue registry).runOn answer s).1 = .ok made → made.2.value.Each P := by
  obtain ⟨granted, verdict⟩ := List.forall_mem_append.mp granted
  obtain ⟨seen, keeps⟩ := stretch_shows.turns shows (fun _ => .of_kept rfl fun _ => nofun)
    (b.dialogue registry) s granted keeps
  have given : ∀ q v, (q, .ok v) ∈ Turn.given ((b.dialogue registry).turns answer s) → v.Each P :=
    fun q v member => seen _ (answers_mem_journal told member) v (List.mem_singleton.mpr rfl)
  refine ⟨List.forall_mem_append.mpr ⟨seen, ?_⟩, keeps, fun made ran => ?_⟩
  · rw [List.forall_mem_singleton]
    cases ((b.dialogue registry).runOn answer s).1 <;> exact nofun
  · have built := (Blueprint.built_of_dialogue (t := ((b.dialogue registry).runOn answer s).2)
      (Prod.ext ran rfl)).1
    rw [ran] at verdict
    exact built.each discreet before given (verdict _ (List.mem_singleton.mpr rfl))

theorem shows_hook (question : Key → Option Point → ι) {hook : Hook} (each : hook.Each P) (s : Runtime ρ)
    (granted : ∀ e ∈ hook.journal answer within question s, e.Grants P) (keeps : s.Keeps P) :
    (∀ e ∈ hook.journal answer within question s, ∀ v ∈ e.shown, v.Each P) ∧
      ((Dialogue.ofHook question hook).runOn answer s).2.Keeps P ∧
      ∀ v, ((Dialogue.ofHook question hook).runOn answer s).1 = .ok v → v.Each P := by
  induction hook generalizing s with
  | finish outcome =>
    rcases outcome with e | ⟨value⟩ | ⟨type, className, arguments⟩
    · exact ⟨nofun, keeps, nofun⟩
    · refine ⟨nofun, keeps, ?_⟩
      rintro v ⟨⟩
      exact each _ rfl
    · refine ⟨by simp [Hook.journal, Event.shown], keeps, ?_⟩
      rintro v ⟨⟩
      have itself : P _ := granted _ (List.mem_singleton.mpr rfl)
      exact ⟨itself, each _ rfl, trivial, trivial⟩
  | lookup key point next ih =>
    obtain ⟨granted, later⟩ := List.forall_mem_append.mp granted
    obtain ⟨seen, keeps⟩ := shows (question key point) s granted keeps
    have answered : ∀ v, ((answer (question key point)).runOn s).1 = .ok v → v.Each P := by
      intro v ran
      have member := told (question key point) s
      rw [ran] at member
      exact seen _ member v (List.mem_singleton.mpr rfl)
    obtain ⟨seen', rest⟩ := ih _ (each _ answered) _ later keeps
    exact ⟨List.forall_mem_append.mpr ⟨seen, seen'⟩, rest⟩

theorem shows_consultation {old : Nat} {F : Finder ι ρ} (discreet : F.registry.Discreet old)
    (before : ∀ o, o.id < old → P o) {name : String} {made : Class × Object}
    (found : F.registry.get? name = some made.1) (whole : made.2.value.Each P) (context : Option String)
    (point : Option Point) (s : Runtime ρ)
    (granted : ∀ e ∈ F.consultation answer within context point (.ok made, s), e.Grants P)
    (keeps : s.Keeps P) :
    (∀ e ∈ F.consultation answer within context point (.ok made, s), ∀ v ∈ e.shown, v.Each P) ∧
      ((Dialogue.provide F.lookup made context point).runOn answer s).2.Keeps P ∧
      ∀ v, ((Dialogue.provide F.lookup made context point).runOn answer s).1 = .ok v → v.Each P := by
  have itself : ∀ v ∈ (Event.consults made.2 : Event ι).shown, v.Each P := List.forall_mem_singleton.mpr whole
  have later := (List.forall_mem_cons.mp granted).2
  rw [Finder.consultation_ok, Dialogue.provide]
  cases asked : made.1.hookOf made.2 context point with
  | error e => exact ⟨List.forall_mem_singleton.mpr itself, keeps, nofun⟩
  | ok hook =>
    rw [asked] at later
    obtain ⟨provide, provides, rfl⟩ := Class.hookOf_eq_ok asked
    have each := (discreet _ _ found).provide provides before whole context point
    obtain ⟨seen, rest⟩ := shows_hook told shows F.lookup each s later keeps
    exact ⟨List.forall_mem_cons.mpr ⟨itself, seen⟩, rest⟩

theorem shows_work {old : Nat} {F : Finder ι ρ} (discreet : F.registry.Discreet old)
    (before : ∀ o, o.id < old → P o) (key : Key) (job : Job ι) (point : Option Point) (s : Runtime ρ)
    (granted : ∀ e ∈ F.work answer within key job point s, e.Grants P) (keeps : s.Keeps P) :
    (∀ e ∈ F.work answer within key job point s, ∀ v ∈ e.shown, v.Each P) ∧
      ((F.dialogue job point).runOn answer s).2.Keeps P ∧
      ∀ v, ((F.dialogue job point).runOn answer s).1 = .ok v → v.Each P := by
  cases job with
  | literal value =>
    refine ⟨List.forall_mem_nil _, keeps, ?_⟩
    rintro v ⟨⟩
    trivial
  | build b =>
    obtain ⟨seen, keeps, made⟩ := shows_blueprint told shows discreet before key b s granted keeps
    rw [Finder.dialogue, Dialogue.runOn_map]
    refine ⟨seen, keeps, fun v done => ?_⟩
    obtain ⟨object, ran, rfl⟩ := map_eq_ok_iff.mp done
    exact made object ran
  | provide b context =>
    obtain ⟨granted, later⟩ := List.forall_mem_append.mp granted
    obtain ⟨seen, keeps, made⟩ := shows_blueprint told shows discreet before key b s granted keeps
    rw [Finder.dialogue, Dialogue.bind_eq, Dialogue.runOn_andThen, Finder.work]
    cases ran : (b.dialogue F.registry).runOn answer s with
    | mk outcome t =>
      rw [ran] at later keeps made
      cases outcome with
      | error e =>
        refine ⟨List.forall_mem_append.mpr ⟨seen, List.forall_mem_nil _⟩, keeps, ?_⟩
        rintro v ⟨⟩
      | ok object =>
        have found := (Blueprint.built_of_dialogue ran).1.known
        obtain ⟨seen', rest⟩ := shows_consultation told shows discreet before found (made object rfl) context
          point t later keeps
        exact ⟨List.forall_mem_append.mpr ⟨seen, seen'⟩, rest⟩

end

theorem Runtime.keeps_leave (key : Key) (scope : Scope) {made : Except Error Value × Runtime ρ}
    (keeps : made.2.Keeps P) (each : ∀ v, made.1 = .ok v → v.Each P) :
    (leave key scope made).2.Keeps P ∧ ∀ v, (leave key scope made).1 = .ok v → v.Each P := by
  obtain ⟨e | value, s⟩ := made
  · exact ⟨keeps, nofun⟩
  · have whole : value.Each P := each value rfl
    cases scope with
    | prototype => exact ⟨keeps, each⟩
    | singleton =>
      simp only [leave, runOn_keep]
      refine ⟨fun key' v kept => ?_, ?_⟩
      · rcases SortedMap.get?_of_insertIfNew kept with earlier | ⟨-, rfl⟩
        · exact keeps key' v earlier
        · exact whole
      · rintro v ⟨⟩
        change ((s.singletons.get? key).getD value).Each P
        cases kept : s.singletons.get? key with
        | none => exact whole
        | some v => exact keeps key v kept

theorem Injector.shows_journal {I : Injector ι ρ} (ownOnly : I.OwnOnly) {old : Nat}
    (discreet : I.registry.Discreet old) (before : ∀ o, o.id < old → P o) (depth : Nat) (q : ι)
    (s : Runtime ρ) : Shows P s (I.journal depth q s) ((I.answer depth q).runOn s).2 := by
  have found : ∀ {q s lead t}, I.find q s = (lead, t) → t.singletons = s.singletons := by
    intro q s lead t found
    rw [ownOnly.eq found]
  have carried : I.Carried fun _ _ s xs r => Shows P s xs r.2 := {
    missed := fun {_ q s outcome t} taken => by
      refine .of_kept (found taken) fun keeps => ?_
      cases outcome <;> simp [Event.shown, Value.Each, Except.map]
    recalled := fun {_ q s scope job t value} taken kept => by
      refine .of_kept (found taken) fun keeps => ?_
      have whole : value.Each P := keeps (I.key q) value (found taken ▸ get?_of_held kept)
      simpa [Event.shown] using whole
    circular := fun taken _ => .of_kept (found taken) fun keeps => by simp [Event.shown]
    stopped := fun _ taken _ _ => .of_kept (found taken) fun keeps => by simp [Event.shown]
    made := fun {depth q s scope job t} taken _ _ inner ran making granted keeps => by
      obtain ⟨-, granted⟩ := List.forall_mem_cons.mp granted
      obtain ⟨granted, -⟩ := List.forall_mem_append.mp granted
      have keeps : t.Keeps P := by
        unfold Runtime.Keeps
        rwa [found taken]
      have worked := shows_work (fun q s => (I.supplied_journal depth q s).1) inner discreet before (I.key q)
        job (I.point q) (entered (I.key q) t) granted keeps
      rw [making] at worked
      obtain ⟨seen, keeps, each⟩ := worked
      obtain ⟨keeps, told⟩ := Runtime.keeps_leave (I.key q) scope keeps each
      refine ⟨List.forall_mem_cons.mpr ⟨nofun, List.forall_mem_append.mpr ⟨seen, ?_⟩⟩, keeps⟩
      exact List.forall_mem_cons.mpr ⟨(Event.each_shown each (I.key q) scope q).1,
        List.forall_mem_singleton.mpr (Event.each_shown told (I.key q) scope q).2⟩ }
  exact carried.journal depth q s

theorem Injector.shows_chronicle {I : Injector ι ρ} (ownOnly : I.OwnOnly) {old : Nat}
    (discreet : I.registry.Discreet old) (before : ∀ o, o.id < old → P o) (errands : List (Errand ι ρ))
    (s : Runtime ρ) : Shows P s (I.chronicle errands s) (I.after errands s) :=
  stretch_shows.chronicle (fun q s => I.shows_journal ownOnly discreet before _ q s)
    (fun _ _ _ => .of_kept rfl fun _ => nofun) s

end Wiring
