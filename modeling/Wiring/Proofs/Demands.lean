import Wiring.Proofs.Moments

/-! # What is demanded of classes

While a job is done, the registry is asked for a class, and the class for a constructor, for methods and for
what a provider offers. A demand that the registry or the class does not know of, or that is made of an object
of another type, ends with an error that no function of the class has raised. If the class of a blueprint is
registered and has the methods that the blueprint names, there is no such demand.
-/
namespace Wiring
open Wiring.Runtime

variable {ι ρ : Type}

/-- A registry is asked for a class, or a class is asked to call a method of an object or to tell what an
object provides. -/
inductive Demand where
  | construct (className : String)
  | call (c : Class) (object : Object) (method : String)
  | provide (c : Class) (object : Object)

/-- The errors with which demands end that no function of a class gets to see. -/
inductive Demand.Raises (registry : Registry) : Demand → Error → Prop
  | unknownClass {className : String} : registry.get? className = none →
    Raises registry (.construct className) (.unknownClass className)
  | noMethod {c : Class} {object : Object} {method : String} : c.methods.get? method = none →
    Raises registry (.call c object method) (.instantiation c.name ("no injectable method " ++ method))
  | otherTarget {c : Class} {object : Object} {method : String} {call : Method} :
    c.methods.get? method = some call → object.type ≠ c.type →
    Raises registry (.call c object method) (.instantiation c.name "target has a different type")
  | otherProvider {c : Class} {object : Object} {provide : Provide} : c.provide = some provide →
    object.type ≠ c.type →
    Raises registry (.provide c object) (.instantiation c.name "provider has a different type")

theorem runOn_begin_eq_error {registry : Registry} {className : String} {arguments : List Value}
    {s : Runtime ρ} {e : Error} : ((begin registry className arguments).runOn s).1 = .error e ↔
      (Demand.construct className).Raises registry e ∨
        ∃ c, registry.get? className = some c ∧ c.construct arguments = .error e := by
  rw [runOn_begin]
  constructor
  · intro failed
    cases found : registry.get? className with
    | none =>
      rw [found] at failed
      cases failed
      exact .inl (.unknownClass found)
    | some c =>
      refine .inr ⟨c, rfl, ?_⟩
      simp only [found, Class.make] at failed
      cases constructed : c.construct arguments with
      | error e' =>
        rw [constructed] at failed
        cases failed
        rfl
      | ok kept =>
        rw [constructed] at failed
        cases failed
  · rintro (raised | ⟨c, found, failed⟩)
    · cases raised with
      | unknownClass absent => simp only [absent]
    · simp only [found, Class.make, failed]
      rfl

theorem Class.invoke_eq_error {registry : Registry} {c : Class} {object : Object} {method : String}
    {arguments : List Value} {e : Error} : c.invoke object method arguments = .error e ↔
      (Demand.call c object method).Raises registry e ∨ ∃ call, c.methods.get? method = some call ∧
        object.type = c.type ∧ call object arguments = .error e := by
  unfold Class.invoke
  constructor
  · intro failed
    cases found : c.methods.get? method with
    | none =>
      rw [found] at failed
      cases failed
      exact .inl (.noMethod found)
    | some call =>
      simp only [found] at failed
      by_cases typed : object.type = c.type
      · refine .inr ⟨call, rfl, typed, ?_⟩
        rw [if_pos typed] at failed
        cases called : call object arguments with
        | error e' =>
          rw [called] at failed
          cases failed
          rfl
        | ok kept =>
          rw [called] at failed
          cases failed
      · rw [if_neg typed] at failed
        cases failed
        exact .inl (.otherTarget found typed)
  · rintro (raised | ⟨call, found, typed, failed⟩)
    · cases raised with
      | noMethod absent => simp only [absent]
      | otherTarget found other => simp only [found, if_neg other]
    · simp only [found, if_pos typed, failed]
      rfl

theorem Class.hookOf_eq_error {registry : Registry} {c : Class} {object : Object}
    {context : Option String} {point : Option Point} {e : Error} :
    c.hookOf object context point = .error e ↔ (Demand.provide c object).Raises registry e ∨
      c.provide = none ∧ e = .instantiation c.name "class is not a provider" := by
  unfold Class.hookOf
  constructor
  · intro failed
    cases provides : c.provide with
    | none =>
      rw [provides] at failed
      cases failed
      exact .inr ⟨rfl, rfl⟩
    | some provide =>
      simp only [provides] at failed
      by_cases typed : object.type = c.type
      · rw [if_pos typed] at failed
        cases failed
      · rw [if_neg typed] at failed
        cases failed
        exact .inl (.otherProvider provides typed)
  · rintro (raised | ⟨none, rfl⟩)
    · cases raised with
      | otherProvider provides other => simp only [provides, if_neg other]
    · simp only [none]

/-- What is demanded while a job is done: the class of its blueprint, each setter once the object has been
through the setters before it, the hook once it has been through all of them, and at last what it provides. -/
inductive Finder.Demands (F : Finder ι ρ) (answer : ι → Act (Runtime ρ) Value) (job : Job ι)
    (s : Runtime ρ) : Demand → Prop
  | construct {b : Blueprint ι} : job.blueprint? = some b → F.Demands answer job s (.construct b.className)
  | setter {b : Blueprint ι} {before after : List (Step (Need ι))} {step : Step (Need ι)} {c : Class}
    {o : Object} {t : Runtime ρ} : job.blueprint? = some b → b.steps = before ++ step :: after →
    ({ b with steps := before, hook := none }.dialogue F.registry).runOn answer s = (.ok (c, o), t) →
    F.Demands answer job s (.call c o step.method)
  | hook {b : Blueprint ι} {method : String} {c : Class} {o : Object} {t : Runtime ρ} :
    job.blueprint? = some b → b.hook = some method →
    ({ b with hook := none }.dialogue F.registry).runOn answer s = (.ok (c, o), t) →
    F.Demands answer job s (.call c o method)
  | provide {b : Blueprint ι} {context : Option String} {c : Class} {o : Object} {t : Runtime ρ} :
    job = .provide b context → (b.dialogue F.registry).runOn answer s = (.ok (c, o), t) →
    F.Demands answer job s (.provide c o)

/-- The class of a blueprint is registered and has the methods that the blueprint names. -/
structure Blueprint.Backed (registry : Registry) (b : Blueprint ι) (c : Class) : Prop where
  registered : registry.get? b.className = some c
  setters : ∀ step ∈ b.steps, c.Has step.method
  hook : ∀ method, b.hook = some method → c.Has method

theorem Blueprint.typed_of_dialogue {registry : Registry} {b : Blueprint ι}
    {answer : ι → Act (Runtime ρ) Value} {s t : Runtime ρ} {c : Class} {o : Object}
    (ran : (b.dialogue registry).runOn answer s = (.ok (c, o), t)) :
    registry.get? b.className = some c ∧ o.type = c.type :=
  let built := (built_of_dialogue ran).1
  ⟨built.known, built.typed⟩

theorem Demand.not_raises_call {registry : Registry} {c : Class} {o : Object} {method : String}
    (has : c.Has method) (typed : o.type = c.type) (e : Error) :
    ¬ (Demand.call c o method).Raises registry e := by
  obtain ⟨call, found⟩ := has
  intro raised
  cases raised with
  | noMethod absent => cases found.symm.trans absent
  | otherTarget _ other => exact other typed

theorem Finder.Demands.not_raises {F : Finder ι ρ} {answer : ι → Act (Runtime ρ) Value} {job : Job ι}
    {s : Runtime ρ} {demand : Demand} (demands : F.Demands answer job s demand)
    (backed : ∀ b, job.blueprint? = some b → ∃ c, b.Backed F.registry c) (e : Error) :
    ¬ demand.Raises F.registry e := by
  cases demands with
  | construct made =>
    obtain ⟨c, backed⟩ := backed _ made
    intro raised
    cases raised with
    | unknownClass absent => cases backed.registered.symm.trans absent
  | @setter b before after step c o t made split ran =>
    obtain ⟨c', backed⟩ := backed b made
    obtain ⟨known, typed⟩ := Blueprint.typed_of_dialogue ran
    obtain rfl : c' = c := Option.some.inj (backed.registered.symm.trans known)
    have member : step ∈ b.steps := split ▸ List.mem_append_right before List.mem_cons_self
    exact Demand.not_raises_call (backed.setters step member) typed e
  | @hook b method c o t made named ran =>
    obtain ⟨c', backed⟩ := backed b made
    obtain ⟨known, typed⟩ := Blueprint.typed_of_dialogue ran
    obtain rfl : c' = c := Option.some.inj (backed.registered.symm.trans known)
    exact Demand.not_raises_call (backed.hook method named) typed e
  | provide made ran =>
    obtain ⟨-, typed⟩ := Blueprint.typed_of_dialogue ran
    intro raised
    cases raised with
    | otherProvider _ other => exact other typed

namespace Dialogue
variable {α β : Type} {answer : ι → Act (Runtime ρ) Value} {q : ι} {u s : Runtime ρ} {e : Error}

theorem Asks.andThen {d : Dialogue ι α} (asks : Asks answer q u d s) (rest : Except Error α → Dialogue ι β) :
    Asks answer q u (d.andThen rest) s := by
  induction asks with
  | now => exact .now
  | later _ ih => exact .later ih
  | taken _ ih => exact .taken ih

theorem Asks.of_rest {d : Dialogue ι α} {rest : Except Error α → Dialogue ι β}
    (asks : Asks answer q u (rest (d.runOn answer s).1) (d.runOn answer s).2) :
    Asks answer q u (d.andThen rest) s := by
  induction d generalizing s with
  | finish outcome => exact asks
  | take make next ih => exact .taken (ih _ asks)
  | ask question next ih => exact .later (ih _ asks)

theorem exists_asks_of_mapM {needs : List (Need ι)} {t : Runtime ρ}
    (ran : (needs.mapM Need.dialogue).runOn answer s = (.error e, t)) :
    ∃ q u, Asks answer q u (needs.mapM Need.dialogue) s ∧ ((answer q).runOn u).1 = .error e := by
  induction needs generalizing s with
  | nil => cases ran
  | cons need needs ih =>
    rw [List.mapM_cons, bind_eq] at ran ⊢
    rw [runOn_andThen] at ran
    cases first : need.dialogue.runOn answer s with
    | mk outcome u =>
      rw [first] at ran
      cases outcome with
      | error e' =>
        cases ran
        cases need with
        | literal value => cases first
        | question q => exact ⟨q, s, .now, congrArg Prod.fst first⟩
      | ok value =>
        have rest : (needs.mapM Need.dialogue).runOn answer u = (.error e, t) := by
          simp only [unlessFailed, bind_eq, runOn_andThen] at ran
          rcases others : (needs.mapM Need.dialogue).runOn answer u with ⟨e' | values, t'⟩
          · rw [others] at ran
            exact ran
          · rw [others] at ran
            cases ran
        obtain ⟨q, v, asks, failed⟩ := ih rest
        refine ⟨q, v, .of_rest ?_, failed⟩
        rw [first]
        exact asks.andThen _

theorem callSetter_eq_error {c : Class} {o : Object} {step : Step (Need ι)} {t : Runtime ρ}
    (ran : (callSetter (fun _ => Need.dialogue) c o step).runOn answer s = (.error e, t)) :
    (∃ q u, Asks answer q u (callSetter (fun _ => Need.dialogue) c o step) s ∧
      ((answer q).runOn u).1 = .error e) ∨
    ∃ arguments, c.invoke o step.method arguments = .error e := by
  unfold callSetter at ran ⊢
  rw [runOn_andThen] at ran
  rcases evaluated : (step.arguments.mapM Need.dialogue).runOn answer s with ⟨e' | arguments, u⟩
  · obtain ⟨q, u, asks, failed⟩ := exists_asks_of_mapM evaluated
    rw [evaluated] at ran
    by_cases skipped : (e'.isUnbound && step.optional) = true
    · simp only [skipped, if_true] at ran
      cases ran
    · simp only [skipped] at ran
      cases ran
      exact .inl ⟨q, u, asks.andThen _, failed⟩
  · rw [evaluated] at ran
    exact .inr ⟨arguments, congrArg Prod.fst ran⟩

end Dialogue

/-- An error with which a job ends that is not the registry's: it is the answer to a question, or a function
of a class has returned it, or the class provides nothing at all. -/
inductive Finder.Given (F : Finder ι ρ) (answer : ι → Act (Runtime ρ) Value) (job : Job ι)
    (point : Option Point) (s : Runtime ρ) (e : Error) : Prop
  | answer {q : ι} {u : Runtime ρ} : Dialogue.Asks answer q u (F.dialogue job point) s →
    ((answer q).runOn u).1 = .error e → F.Given answer job point s e
  | constructor {b : Blueprint ι} {c : Class} {arguments : List Value} : job.blueprint? = some b →
    F.registry.get? b.className = some c → c.construct arguments = .error e → F.Given answer job point s e
  | method {c : Class} {o : Object} {method : String} {call : Method} {arguments : List Value} :
    F.Demands answer job s (.call c o method) → c.methods.get? method = some call → o.type = c.type →
    call o arguments = .error e → F.Given answer job point s e
  | noProvider {c : Class} {o : Object} : F.Demands answer job s (.provide c o) → c.provide = none →
    e = .instantiation c.name "class is not a provider" → F.Given answer job point s e
  | hook {b : Blueprint ι} {context : Option String} {c : Class} {o : Object} {t : Runtime ρ} {hook : Hook} :
    job = .provide b context → (b.dialogue F.registry).runOn answer s = (.ok (c, o), t) →
    c.hookOf o context point = .ok hook →
    ((Dialogue.ofHook F.lookup hook).runOn answer t).1 = .error e → F.Given answer job point s e

namespace Finder
variable {F : Finder ι ρ} {answer : ι → Act (Runtime ρ) Value} {job : Job ι} {point : Option Point}
  {s : Runtime ρ} {b : Blueprint ι}

def GivenOrRaised (F : Finder ι ρ) (answer : ι → Act (Runtime ρ) Value) (job : Job ι) (point : Option Point)
    (s : Runtime ρ) (e : Error) : Prop :=
  F.Given answer job point s e ∨ ∃ demand, F.Demands answer job s demand ∧ demand.Raises F.registry e

theorem asks_of_blueprint (made : job.blueprint? = some b) {q : ι} {u : Runtime ρ}
    (asks : Dialogue.Asks answer q u (b.dialogue F.registry) s) :
    Dialogue.Asks answer q u (F.dialogue job point) s := by
  cases job with
  | literal value => cases made
  | build b' | provide b' context =>
    cases made
    exact asks.andThen _

theorem givenOrRaised_of_invoke {c : Class} {o : Object} {method : String} {arguments : List Value} {e : Error}
    (demands : F.Demands answer job s (.call c o method))
    (failed : c.invoke o method arguments = .error e) : F.GivenOrRaised answer job point s e := by
  rcases Class.invoke_eq_error.mp failed with raised | ⟨call, found, typed, called⟩
  · exact .inr ⟨_, demands, raised⟩
  · exact .inl (.method demands found typed called)

theorem givenOrRaised_of_equip (made : job.blueprint? = some b) {before after : List (Step (Need ι))}
    {c : Class} {o : Object} {t u : Runtime ρ} {e : Error} (split : b.steps = before ++ after)
    (ran : ({ b with steps := before, hook := none }.dialogue F.registry).runOn answer s = (.ok (c, o), u))
    (failed : (Dialogue.equip (fun _ => Need.dialogue) after b.hook (c, o)).runOn answer u = (.error e, t)) :
    F.GivenOrRaised answer job point s e := by
  induction after generalizing before o u with
  | nil =>
    obtain rfl : b.steps = before := split.trans (List.append_nil before)
    have ended : Dialogue.finished (c, o) b.hook = .error e := congrArg Prod.fst failed
    cases hook : b.hook with
    | none =>
      rw [hook] at ended
      cases ended
    | some method =>
      rw [hook] at ended
      cases invoked : c.invoke o method [] with
      | ok done =>
        rw [Dialogue.finished, invoked] at ended
        cases ended
      | error e' =>
        rw [Dialogue.finished, invoked] at ended
        cases ended
        exact givenOrRaised_of_invoke (.hook made hook ran) invoked
  | cons step after ih =>
    have whole : b.dialogue F.registry = { b with steps := before, hook := none }.dialogue F.registry >>=
        Dialogue.equip (fun _ => Need.dialogue) (step :: after) b.hook := by
      rw [Blueprint.dialogue, split]
      exact Dialogue.assemble_append ..
    rw [Dialogue.equip_cons, Dialogue.bind_eq, Dialogue.runOn_andThen] at failed
    rcases called : (Dialogue.callSetter (fun _ => Need.dialogue) c o step).runOn answer u with ⟨e' | o', v⟩
    · rw [called] at failed
      cases failed
      rcases Dialogue.callSetter_eq_error called with ⟨q, w, asks, unanswered⟩ | ⟨arguments, invoked⟩
      · refine .inl (.answer (asks_of_blueprint made ?_) unanswered)
        rw [whole]
        refine .of_rest ?_
        rw [ran, Dialogue.unlessFailed, Dialogue.equip_cons]
        exact asks.andThen _
      · exact givenOrRaised_of_invoke (.setter made split ran) invoked
    · rw [called] at failed
      have moved : b.steps = (before ++ [step]) ++ after := split.trans (List.append_cons before step after)
      refine ih moved ?_ failed
      have longer : { b with steps := before ++ [step], hook := none }.dialogue F.registry =
          { b with steps := before, hook := none }.dialogue F.registry >>=
            Dialogue.equip (fun _ => Need.dialogue) [step] none := Dialogue.assemble_append ..
      rw [longer, Dialogue.bind_eq, Dialogue.runOn_andThen, ran, Dialogue.unlessFailed, Dialogue.equip_cons,
        Dialogue.bind_eq, Dialogue.runOn_andThen, called]
      rfl

theorem givenOrRaised_of_blueprint (made : job.blueprint? = some b) {t : Runtime ρ} {e : Error}
    (failed : (b.dialogue F.registry).runOn answer s = (.error e, t)) :
    F.GivenOrRaised answer job point s e := by
  have whole : b.dialogue F.registry = { b with steps := [], hook := none }.dialogue F.registry >>=
      Dialogue.equip (fun _ => Need.dialogue) b.steps b.hook :=
    Dialogue.assemble_append F.registry _ b.className b.arguments [] b.steps b.hook
  have bare : { b with steps := [], hook := none }.dialogue F.registry =
      b.arguments.mapM Need.dialogue >>= Dialogue.begin F.registry b.className :=
    congrArg (_ >>= ·) (funext fun values => bind_pure (Dialogue.begin F.registry b.className values))
  rcases begun : ({ b with steps := [], hook := none }.dialogue F.registry).runOn answer s with
    ⟨e' | ⟨c, o⟩, u⟩
  · rw [whole, Dialogue.bind_eq, Dialogue.runOn_andThen, begun] at failed
    cases failed
    rw [bare, Dialogue.bind_eq, Dialogue.runOn_andThen] at begun
    rcases evaluated : (b.arguments.mapM Need.dialogue).runOn answer s with ⟨e'' | arguments, v⟩
    · rw [evaluated] at begun
      cases begun
      obtain ⟨q, w, asks, unanswered⟩ := Dialogue.exists_asks_of_mapM evaluated
      refine .inl (.answer (asks_of_blueprint made ?_) unanswered)
      rw [whole, bare]
      exact (asks.andThen _).andThen _
    · rw [evaluated] at begun
      have ended := (Dialogue.performed_begin F.registry b.className arguments v).trans begun
      rcases runOn_begin_eq_error.mp (congrArg Prod.fst ended) with raised | ⟨c, found, constructed⟩
      · exact .inr ⟨_, .construct made, raised⟩
      · exact .inl (.constructor made found constructed)
  · rw [whole, Dialogue.bind_eq, Dialogue.runOn_andThen, begun] at failed
    exact givenOrRaised_of_equip made (List.nil_append b.steps).symm begun failed

/-- Every error with which a job ends is given, or something that is demanded raises it. -/
theorem givenOrRaised_of_job {t : Runtime ρ} {e : Error}
    (failed : (F.dialogue job point).runOn answer s = (.error e, t)) :
    F.GivenOrRaised answer job point s e := by
  cases job with
  | literal value => cases failed
  | build b =>
    rw [dialogue, Dialogue.bind_eq, Dialogue.runOn_andThen] at failed
    rcases built : (b.dialogue F.registry).runOn answer s with ⟨e' | made, u⟩
    · rw [built] at failed
      cases failed
      exact givenOrRaised_of_blueprint rfl built
    · rw [built] at failed
      cases failed
  | provide b context =>
    rw [dialogue, Dialogue.bind_eq, Dialogue.runOn_andThen] at failed
    rcases built : (b.dialogue F.registry).runOn answer s with ⟨e' | ⟨c, o⟩, u⟩
    · rw [built] at failed
      cases failed
      exact givenOrRaised_of_blueprint rfl built
    · rw [built] at failed
      cases hooked : c.hookOf o context point with
      | error e' =>
        simp only [Dialogue.unlessFailed, Dialogue.provide, hooked] at failed
        cases failed
        rcases Class.hookOf_eq_error.mp hooked with raised | ⟨none, same⟩
        · exact .inr ⟨_, .provide rfl built, raised⟩
        · exact .inl (.noProvider (.provide rfl built) none same)
      | ok hook =>
        simp only [Dialogue.unlessFailed, Dialogue.provide, hooked] at failed
        exact .inl (.hook rfl built hooked (congrArg Prod.fst failed))

end Finder

/-- In a run whatever is demanded is met by the functions of a class, and a job ends with no other errors than
those it has been given. -/
structure Injector.CarriesOut (I : Injector ι ρ) (errands : List (Errand ι ρ)) (s : Runtime ρ) : Prop where
  met : ∀ {users m depth job started demand}, I.Way errands s users m → I.Makes m depth job started →
    I.Demands (I.answer depth) job started demand → ∀ e, ¬ demand.Raises I.registry e
  given : ∀ {users m depth job started e t}, I.Way errands s users m → I.Makes m depth job started →
    (I.dialogue job (I.point m.question)).runOn (I.answer depth) started = (.error e, t) →
    I.Given (I.answer depth) job (I.point m.question) started e

theorem Injector.carriesOut_of_backed {I : Injector ι ρ} {P : ρ → Prop}
    (finds : ∀ q s, P s.own → P (I.find q s).2.own)
    (backed : ∀ {q s scope job t}, P s.own → I.find q s = (.does scope job, t) →
      ∀ b, job.blueprint? = some b → ∃ c, b.Backed I.registry c)
    {errands : List (Errand ι ρ)} (meanwhile : ∀ errand ∈ errands, ∀ own, P own → P (errand.meanwhile own))
    {s : Runtime ρ} (start : P s.own) : I.CarriesOut errands s := by
  have met : ∀ {users m depth job started demand}, I.Way errands s users m → I.Makes m depth job started →
      I.Demands (I.answer depth) job started demand → ∀ e, ¬ demand.Raises I.registry e := by
    intro users m depth job started demand way makes demands
    obtain ⟨scope, t, due, -, -⟩ := makes.due
    exact demands.not_raises (backed (way.kept finds meanwhile start) due.found)
  refine ⟨met, fun way makes failed => ?_⟩
  rcases Finder.givenOrRaised_of_job failed with given | ⟨demand, demands, raised⟩
  · exact given
  · exact absurd raised (met way makes demands _)

end Wiring
