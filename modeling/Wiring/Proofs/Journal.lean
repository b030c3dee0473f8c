import Wiring.Proofs.Blueprint
import Wiring.Proofs.Machine

/-! # Journals

An injector that keeps a journal writes down what it does: for which keys it starts and ends making a value,
what it remembers, what it answers, which objects have been built and which have been given up, and which
providers it asks. Whatever holds of the journal of one answer, given that it holds of the answers within,
holds of all journals.
-/
namespace Wiring
open Wiring.Runtime

variable {ι ρ α : Type}

theorem Runtime.get?_of_held {key : Key} {scope : Scope} {s : Runtime ρ} {value : Value}
    (kept : held key scope s = some value) : s.singletons.get? key = some value := by
  cases scope with
  | singleton => exact kept
  | prototype => cases kept

inductive Event (ι : Type) where
  /-- The value of a key is going to be made. -/
  | starts (key : Key) (scope : Scope)
  /-- The making of a key's value is over. -/
  | ends (key : Key) (scope : Scope) (outcome : Except Error Value)
  /-- The singleton that is kept for a key is there to answer. -/
  | recalls (key : Key) (value : Value)
  /-- No value is made for a key, since nobody says how or it is being made already. -/
  | refuses (key : Key)
  /-- No value is made for a key, since the nesting is too deep. -/
  | stops (key : Key)
  /-- Whoever asks is told an outcome. -/
  | answers (question : ι) (outcome : Except Error Value)
  /-- An object for a key has been through all the calls of its blueprint, by such answers. -/
  | completes (key : Key) (b : Blueprint ι) (given : List (ι × Except Error Value)) (object : Object)
  /-- An object for a key is given up, whether or not it has got an identity. -/
  | abandons (key : Key) (b : Blueprint ι) (begun : List Nat) (e : Error)
  /-- An object is asked for what it provides. -/
  | consults (object : Object)
  /-- A hook makes an object of its own. -/
  | owns (object : Object)

/-- What is done for a key: a literal is at hand, an object is built, or an object is built and asked. -/
inductive Job (ι : Type) where
  | literal (value : Json)
  | build (b : Blueprint ι)
  | provide (b : Blueprint ι) (context : Option String)

def Job.blueprint? : Job ι → Option (Blueprint ι)
  | literal _ => none
  | build b => some b
  | provide b _ => some b

/-- How a question is taken up: it is answered at once, by a literal at most, or there is something to do for
its key. -/
inductive Lead (ι : Type) where
  | answered (outcome : Except Error Json)
  | does (scope : Scope) (job : Job ι)

/-- How questions are taken up. -/
structure Finder (ι ρ : Type) where
  registry : Registry
  lookup : Key → Option Point → ι
  key : ι → Key
  point : ι → Option Point
  find : ι → Runtime ρ → Lead ι × Runtime ρ

namespace Finder
variable (F : Finder ι ρ)

def dialogue (job : Job ι) (point : Option Point) : Dialogue ι Value :=
  match job with
  | .literal value => pure (.literal value)
  | .build b => b.dialogue F.registry >>= fun made => pure made.2.value
  | .provide b context => b.dialogue F.registry >>= fun made => Dialogue.provide F.lookup made context point

def opens : Opens ι ρ := fun q s =>
  match F.find q s with
  | (.answered outcome, t) => (.answered (outcome.map .literal), t)
  | (.does scope job, t) => (.delivers (F.key q) scope (F.dialogue job (F.point q)), t)

def OwnOnly : Prop := ∀ q s, Runner.OwnOnly s (F.find q s).2

variable {F}

theorem OwnOnly.eq (ownOnly : F.OwnOnly) {q : ι} {s t : Runtime ρ} {lead : Lead ι}
    (found : F.find q s = (lead, t)) : t = { s with own := t.own } := by
  have only := ownOnly q s
  rw [found] at only
  exact only

end Finder

/-- An injector answers with so many levels of nesting left, of which it has enough at the outset. -/
structure Injector (ι ρ : Type) extends Finder ι ρ where
  answer : Nat → ι → Act (Runtime ρ) Value
  bound : Runtime ρ → Nat
  bounded : Machine.Bounded toFinder.opens answer

section
variable (answer : ι → Act (Runtime ρ) Value) (within : ι → Runtime ρ → List (Event ι))

def Turn.journal (turns : List (Turn ι ρ)) : List (Event ι) :=
  turns.flatMap fun
    | .took _ _ => []
    | .asked q s _ => within q s

def Hook.journal (question : Key → Option Point → ι) : Hook → Runtime ρ → List (Event ι)
  | .finish (.ok (.fresh type className arguments)), s =>
    [.owns ⟨s.born, type, className, [⟨constructorMethod, arguments, []⟩]⟩]
  | .finish _, _ => []
  | .lookup key point next, s =>
    let answered := (answer (question key point)).runOn s
    within (question key point) s ++ (next answered.1).journal question answered.2

namespace Blueprint
variable (registry : Registry) (key : Key) (b : Blueprint ι)

def verdict (turns : List (Turn ι ρ)) : Except Error (Class × Object) → Event ι
  | .ok made => .completes key b (Turn.given turns) made.2
  | .error e => .abandons key b (Turn.identities turns) e

def journal (s : Runtime ρ) : List (Event ι) :=
  Turn.journal within ((b.dialogue registry).turns answer s) ++
    [b.verdict key ((b.dialogue registry).turns answer s) ((b.dialogue registry).runOn answer s).1]

end Blueprint

namespace Finder
variable (F : Finder ι ρ)

def consultation (context : Option String) (point : Option Point) :
    Except Error (Class × Object) × Runtime ρ → List (Event ι)
  | (.ok made, s) => .consults made.2 :: match made.1.hookOf made.2 context point with
    | .ok hook => hook.journal answer within F.lookup s
    | .error _ => []
  | (.error _, _) => []

theorem consultation_ok (context : Option String) (point : Option Point) (made : Class × Object)
    (s : Runtime ρ) : F.consultation answer within context point (.ok made, s) =
      .consults made.2 :: match made.1.hookOf made.2 context point with
        | .ok hook => hook.journal answer within F.lookup s
        | .error _ => [] := rfl

def work (key : Key) (job : Job ι) (point : Option Point) (s : Runtime ρ) : List (Event ι) :=
  match job with
  | .literal _ => []
  | .build b => b.journal answer within F.registry key s
  | .provide b context => b.journal answer within F.registry key s ++
    F.consultation answer within context point ((b.dialogue F.registry).runOn answer s)

/-- What is written down when a question is taken up, given what is when a value is made. -/
def uptake (made : Scope → Job ι → Runtime ρ → List (Event ι)) (q : ι) (s : Runtime ρ) : List (Event ι) :=
  match F.find q s with
  | (.answered _, _) => [.refuses (F.key q)]
  | (.does scope job, t) => match held (F.key q) scope t with
    | some value => [.recalls (F.key q) value]
    | none => if F.key q ∈ t.active then [.refuses (F.key q)] else made scope job (entered (F.key q) t)

end Finder
end

/-- A request, and what others have done by then to what the injector relies on. -/
structure Errand (ι ρ : Type) where
  meanwhile : ρ → ρ
  question : ι

def Errand.Harmless (inv : ρ → Prop) (R : ρ → ρ → Prop) (errand : Errand ι ρ) : Prop :=
  ∀ m, inv m → inv (errand.meanwhile m) ∧ R m (errand.meanwhile m)

namespace Injector
variable (I : Injector ι ρ)

def journal : Nat → ι → Runtime ρ → List (Event ι)
  | 0, q, s => I.uptake (fun _ _ _ => [.stops (I.key q)]) q s ++ [.answers q ((I.answer 0 q).runOn s).1]
  | depth + 1, q, s =>
    I.uptake (fun scope job t =>
      .starts (I.key q) scope :: I.work (I.answer depth) (journal depth) (I.key q) job (I.point q) t ++
        [.ends (I.key q) scope ((I.dialogue job (I.point q)).runOn (I.answer depth) t).1]) q s ++
      [.answers q ((I.answer (depth + 1) q).runOn s).1]

def serve (errand : Errand ι ρ) (s : Runtime ρ) : Except Error Value × Runtime ρ :=
  let s := { s with own := errand.meanwhile s.own }
  (I.answer (I.bound s) errand.question).runOn s

/-- The journal of a run, one request after another. -/
def chronicle : List (Errand ι ρ) → Runtime ρ → List (Event ι)
  | [], _ => []
  | errand :: rest, s =>
    let t := { s with own := errand.meanwhile s.own }
    I.journal (I.bound t) errand.question t ++ chronicle rest (I.serve errand s).2

/-- The state after a run. -/
def after : List (Errand ι ρ) → Runtime ρ → Runtime ρ
  | [], s => s
  | errand :: rest, s => after rest (I.serve errand s).2

/-- A property of answers and their journals that every way of taking up a question has, as long as answers
with one level of nesting less have it. -/
structure Carried (T : Nat → ι → Runtime ρ → List (Event ι) → Except Error Value × Runtime ρ → Prop) :
    Prop where
  missed : ∀ {depth q s outcome t}, I.find q s = (.answered outcome, t) →
    T depth q s [.refuses (I.key q), .answers q (outcome.map .literal)] (outcome.map .literal, t)
  recalled : ∀ {depth q s scope job t value}, I.find q s = (.does scope job, t) →
    held (I.key q) scope t = some value →
    T depth q s [.recalls (I.key q) value, .answers q (.ok value)] (.ok value, t)
  circular : ∀ {depth q s scope job t}, I.find q s = (.does scope job, t) → I.key q ∈ t.active →
    T depth q s [.refuses (I.key q), .answers q (.error (.circular (t.active.reverse ++ [I.key q])))]
      (.error (.circular (t.active.reverse ++ [I.key q])), t)
  stopped : ∀ {q s scope job t} e, I.find q s = (.does scope job, t) →
    held (I.key q) scope t = none → I.key q ∉ t.active →
    T 0 q s [.stops (I.key q), .answers q (.error e)] (.error e, t)
  made : ∀ {depth q s scope job t}, I.find q s = (.does scope job, t) →
    held (I.key q) scope t = none → I.key q ∉ t.active →
    (∀ q s, T depth q s (I.journal depth q s) ((I.answer depth q).runOn s)) →
    ∀ ran, (I.dialogue job (I.point q)).runOn (I.answer depth) (entered (I.key q) t) = ran →
    T (depth + 1) q s (.starts (I.key q) scope ::
        (I.work (I.answer depth) (I.journal depth) (I.key q) job (I.point q) (entered (I.key q) t) ++
          [.ends (I.key q) scope ran.1, .answers q (leave (I.key q) scope ran).1]))
      (leave (I.key q) scope ran)

variable {I}

section
variable {T : Nat → ι → Runtime ρ → List (Event ι) → Except Error Value × Runtime ρ → Prop}
  (carried : I.Carried T)
include carried

theorem Carried.uptake {depth : Nat} {made : Scope → Job ι → Runtime ρ → List (Event ι)} {q : ι}
    {s : Runtime ρ} (makes : ∀ {scope job t}, I.find q s = (.does scope job, t) →
      held (I.key q) scope t = none → I.key q ∉ t.active → ∀ ran,
      (Machine.making I.answer depth (I.dialogue job (I.point q))).runOn (entered (I.key q) t) = ran →
      T depth q s (made scope job (entered (I.key q) t) ++ [.answers q (leave (I.key q) scope ran).1])
        (leave (I.key q) scope ran)) :
    T depth q s (I.uptake made q s ++ [.answers q ((I.answer depth q).runOn s).1])
      ((I.answer depth q).runOn s) := by
  rw [I.bounded depth q s, Finder.uptake, Finder.opens]
  cases found : I.find q s with
  | mk lead t =>
    cases lead with
    | answered outcome => exact carried.missed found
    | does scope job =>
      simp only [runOn_deliver_eq, arrive]
      cases kept : held (I.key q) scope t with
      | some value => exact carried.recalled found kept
      | none =>
        by_cases member : I.key q ∈ t.active
        · simp only [if_pos member]
          exact carried.circular found member
        · simp only [if_neg member]
          exact makes found kept member _ rfl

theorem Carried.journal (depth : Nat) (q : ι) (s : Runtime ρ) :
    T depth q s (I.journal depth q s) ((I.answer depth q).runOn s) := by
  -- The answers within a value that is made have one level of nesting less.
  induction depth generalizing q s with
  | zero =>
    refine carried.uptake fun found kept absent ran making => ?_
    subst making
    rw [Machine.making, leave_tooDeep]
    exact carried.stopped _ found kept absent
  | succ depth ih =>
    refine carried.uptake fun found kept absent ran making => ?_
    subst making
    rw [List.cons_append, List.cons_append, List.append_assoc]
    exact carried.made found kept absent ih _ rfl

end

end Injector

structure Stretch (Q : Runtime ρ → List (Event ι) → Runtime ρ → Prop) : Prop where
  nil : ∀ s, Q s [] s
  append : ∀ {s xs t ys u}, Q s xs t → Q t ys u → Q s (xs ++ ys) u

namespace Stretch
variable {Q : Runtime ρ → List (Event ι) → Runtime ρ → Prop} (stretch : Stretch Q)
include stretch

theorem around {s t u v : Runtime ρ} {e : Event ι} {xs ys : List (Event ι)} (before : Q s [e] t)
    (between : Q t xs u) (later : Q u ys v) : Q s (e :: (xs ++ ys)) v :=
  stretch.append before (stretch.append between later)

section
variable {answer : ι → Act (Runtime ρ) Value} {within : ι → Runtime ρ → List (Event ι)}
  (answers : ∀ q s, Q s (within q s) ((answer q).runOn s).2)
include answers

theorem turns (takes : ∀ s, Q s [] { s with born := s.born + 1 }) (d : Dialogue ι α) (s : Runtime ρ) :
    Q s (Turn.journal within (d.turns answer s)) (d.runOn answer s).2 := by
  induction d generalizing s with
  | finish outcome => exact stretch.nil s
  | take make next ih =>
    have later := ih (make s.born) (Dialogue.taken (make s.born) s)
    rw [Dialogue.turns, Dialogue.runOn]
    generalize make s.born = made at later ⊢
    cases made with
    | error e => exact later
    | ok o => exact stretch.append (takes s) later
  | ask question next ih => exact stretch.append (answers question s) (ih _ _)

variable (owns : ∀ s type className arguments,
  Q s [.owns ⟨s.born, type, className, [⟨constructorMethod, arguments, []⟩]⟩] { s with born := s.born + 1 })
include owns

theorem hook (question : Key → Option Point → ι) (hook : Hook) (s : Runtime ρ) :
    Q s (hook.journal answer within question s) ((Dialogue.ofHook question hook).runOn answer s).2 := by
  induction hook generalizing s with
  | finish outcome =>
    rcases outcome with e | ⟨value⟩ | ⟨type, className, arguments⟩
    · exact stretch.nil s
    · exact stretch.nil s
    · exact owns s type className arguments
  | lookup key point next ih => exact stretch.append (answers (question key point) s) (ih _ _)

theorem consultation {F : Finder ι ρ} (consults : ∀ o s, Q s [.consults o] s) (context : Option String)
    (point : Option Point) (made : Class × Object) (s : Runtime ρ) :
    Q s (F.consultation answer within context point (.ok made, s))
      ((Dialogue.provide F.lookup made context point).runOn answer s).2 := by
  refine stretch.append (consults made.2 s) ?_
  unfold Dialogue.provide
  cases made.1.hookOf made.2 context point with
  | error e => exact stretch.nil s
  | ok hook => exact stretch.hook answers owns F.lookup hook s

theorem work {F : Finder ι ρ} {key : Key} (consults : ∀ o s, Q s [.consults o] s) {job : Job ι}
    (built : ∀ b, job.blueprint? = some b → ∀ s,
      Q s (b.journal answer within F.registry key s) ((b.dialogue F.registry).runOn answer s).2)
    (point : Option Point) (s : Runtime ρ) :
    Q s (F.work answer within key job point s) ((F.dialogue job point).runOn answer s).2 := by
  cases job with
  | literal value => exact stretch.nil s
  | build b =>
    have first := built b rfl s
    rw [Finder.dialogue, Dialogue.runOn_map]
    exact first
  | provide b context =>
    have first := built b rfl s
    rw [Finder.dialogue, Dialogue.bind_eq, Dialogue.runOn_andThen, Finder.work]
    refine stretch.append first ?_
    rcases (b.dialogue F.registry).runOn answer s with ⟨e | made, t⟩
    · exact stretch.nil t
    · exact stretch.consultation answers owns consults context point made t

end

theorem chronicle {I : Injector ι ρ}
    (answers : ∀ q s, Q s (I.journal (I.bound s) q s) ((I.answer (I.bound s) q).runOn s).2)
    {errands : List (Errand ι ρ)}
    (meanwhile : ∀ errand ∈ errands, ∀ s, Q s [] { s with own := errand.meanwhile s.own }) (s : Runtime ρ) :
    Q s (I.chronicle errands s) (I.after errands s) := by
  induction errands generalizing s with
  | nil => exact stretch.nil s
  | cons errand rest ih =>
    obtain ⟨before, later⟩ := List.forall_mem_cons.mp meanwhile
    exact stretch.append (stretch.append (before s) (answers _ _)) (ih later _)

end Stretch
end Wiring
