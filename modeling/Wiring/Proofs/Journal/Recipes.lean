import Wiring.Proofs.Journal

/-! # Journals and recipes

Whenever a journal says that an object has been completed, the object has been built from the blueprint that
the injector has for the key, by answers that are in the journal as well. Whenever it says that the value of a
key is going to be made, an object is completed or given up if there is a blueprint for the key, and whenever
an object is given up, the making of the value is over.
-/
namespace Wiring
open Wiring.Runtime

variable {ι ρ α : Type}

/-- What is known, by what an injector keeps for itself, to be done for keys. It is known once a key has been
found, it stays known, and then the key is always found. -/
structure Finder.Lawful (F : Finder ι ρ) (inv : ρ → Prop) (R : ρ → ρ → Prop)
    (law : ρ → Key → Scope → Job ι → Prop) : Prop where
  keeps : ∀ {q s}, inv s.own → inv (F.find q s).2.own
  moves : ∀ q s, R s.own (F.find q s).2.own
  ownOnly : F.OwnOnly
  stable : ∀ {m m' key scope job}, R m m' → law m key scope job → law m' key scope job
  sole : ∀ {m key scope scope' job job'}, law m key scope job → law m key scope' job' → job = job'
  found : ∀ {q s scope job t}, inv s.own → F.find q s = (.does scope job, t) → law t.own (F.key q) scope job
  certain : ∀ {q s scope job outcome t}, law s.own (F.key q) scope job →
    F.find q s ≠ (.answered outcome, t)

def Event.Judges (key : Key) (b : Blueprint ι) : Event ι → Prop
  | .completes k b' _ _ => k = key ∧ b' = b
  | .abandons k b' _ _ => k = key ∧ b' = b
  | _ => False

/-- What an event says about a key is what is done for the key, and completed objects have been built. The
events that come later say what becomes of the object, and that an object that is given up is the end. -/
def Event.Follows (registry : Registry) (law : Key → Scope → Job ι → Prop) : Event ι → List (Event ι) → Prop
  | .starts key scope, later =>
    ∃ job, law key scope job ∧ ∀ b, job.blueprint? = some b → ∃ x ∈ later, x.Judges key b
  | .ends key scope _, _ => ∃ job, law key scope job
  | .recalls key _, _ => ∃ job, law key .singleton job
  | .completes key b given o, _ =>
    (∃ scope job, law key scope job ∧ job.blueprint? = some b) ∧ ∃ c, Built registry b c given o
  | .abandons key b _ e, later => (∃ scope job, law key scope job ∧ job.blueprint? = some b) ∧
    ∃ scope rest, later = .ends key scope (.error e) :: rest
  | _, _ => True

def AllFollow (registry : Registry) (law : Key → Scope → Job ι → Prop) : List (Event ι) → Prop
  | [] => True
  | e :: rest => e.Follows registry law rest ∧ AllFollow registry law rest

section
variable {registry : Registry} {law law' : Key → Scope → Job ι → Prop} {e : Event ι}
  {xs ys earlier later : List (Event ι)}

theorem Event.Follows.imp (implies : ∀ {key scope job}, law key scope job → law' key scope job)
    (follows : e.Follows registry law later) : e.Follows registry law' later := by
  cases e with
  | starts _ _ =>
    obtain ⟨job, known, judged⟩ := follows
    exact ⟨job, implies known, judged⟩
  | ends _ _ _ | recalls _ _ => exact Exists.imp (fun _ => implies) follows
  | completes _ _ _ _ | abandons _ _ _ _ =>
    obtain ⟨⟨scope, job, known, same⟩, rest⟩ := follows
    exact ⟨⟨scope, job, implies known, same⟩, rest⟩
  | refuses _ | stops _ | answers _ _ | consults _ | owns _ => trivial

theorem Event.Follows.append (follows : e.Follows registry law later) (ys : List (Event ι)) :
    e.Follows registry law (later ++ ys) := by
  cases e with
  | starts _ _ =>
    obtain ⟨job, known, judged⟩ := follows
    refine ⟨job, known, fun b made => ?_⟩
    obtain ⟨x, member, judges⟩ := judged b made
    exact ⟨x, List.mem_append_left ys member, judges⟩
  | abandons _ _ _ _ =>
    obtain ⟨known, scope, rest, rfl⟩ := follows
    exact ⟨known, scope, rest ++ ys, rfl⟩
  | ends _ _ _ | recalls _ _ | completes _ _ _ _ => exact follows
  | refuses _ | stops _ | answers _ _ | consults _ | owns _ => trivial

theorem AllFollow.imp (implies : ∀ {key scope job}, law key scope job → law' key scope job)
    (follow : AllFollow registry law xs) : AllFollow registry law' xs := by
  induction xs with
  | nil => trivial
  | cons e rest ih => exact ⟨follow.1.imp implies, ih follow.2⟩

theorem AllFollow.append (first : AllFollow registry law xs) (last : AllFollow registry law ys) :
    AllFollow registry law (xs ++ ys) := by
  induction xs with
  | nil => exact last
  | cons e rest ih => exact ⟨first.1.append ys, ih first.2⟩

theorem AllFollow.split (follow : AllFollow registry law (earlier ++ e :: later)) :
    e.Follows registry law later := by
  induction earlier with
  | nil => exact follow.1
  | cons _ _ ih => exact ih follow.2

theorem AllFollow.mem (follow : AllFollow registry law xs) (member : e ∈ xs) :
    ∃ later, e.Follows registry law later := by
  obtain ⟨earlier, later, rfl⟩ := List.append_of_mem member
  exact ⟨later, follow.split⟩

end

section
variable {inv : ρ → Prop} {R : ρ → ρ → Prop} [IsPreorder ρ R] {law : ρ → Key → Scope → Job ι → Prop}

def Follows (registry : Registry) (inv : ρ → Prop) (R : ρ → ρ → Prop)
    (law : ρ → Key → Scope → Job ι → Prop) (s : Runtime ρ) (xs : List (Event ι)) (t : Runtime ρ) : Prop :=
  inv s.own → inv t.own ∧ R s.own t.own ∧ AllFollow registry (law t.own) xs

theorem Follows.of_own {registry : Registry} {s t : Runtime ρ} (same : t.own = s.own) {xs : List (Event ι)}
    (follow : inv s.own → AllFollow registry (law s.own) xs) : Follows registry inv R law s xs t := by
  intro start
  rw [same]
  exact ⟨start, refl_of R s.own, follow start⟩

theorem Finder.Lawful.stretch {F : Finder ι ρ} (lawful : F.Lawful inv R law) (registry : Registry) :
    Stretch (Follows registry inv R law) where
  nil s := .of_own rfl fun _ => trivial
  append first later start := by
    obtain ⟨middle, moved, follow⟩ := first start
    obtain ⟨finish, moved', follow'⟩ := later middle
    exact ⟨finish, trans_of R moved moved', (follow.imp (lawful.stable moved')).append follow'⟩

/-- From one state to another, events follow what is known at the end, if what is done for a key is known at
the start. -/
def FollowsKnown (registry : Registry) (inv : ρ → Prop) (R : ρ → ρ → Prop)
    (law : ρ → Key → Scope → Job ι → Prop) (key : Key) (scope : Scope) (job : Job ι) (s : Runtime ρ)
    (xs : List (Event ι)) (t : Runtime ρ) : Prop :=
  law s.own key scope job → Follows registry inv R law s xs t

theorem Finder.Lawful.stretch_known {F : Finder ι ρ} (lawful : F.Lawful inv R law) (registry : Registry)
    (key : Key) (scope : Scope) (job : Job ι) : Stretch (FollowsKnown registry inv R law key scope job) where
  nil s _ := (lawful.stretch registry).nil s
  append first later known start := by
    have here := first known start
    exact (lawful.stretch registry).append (fun _ => here) (later (lawful.stable here.2.1 known)) start

section
variable {answer : ι → Act (Runtime ρ) Value} {within : ι → Runtime ρ → List (Event ι)} {key : Key}

variable (answer within key) in
theorem Finder.judged_work (F : Finder ι ρ) {job : Job ι} {b : Blueprint ι} (made : job.blueprint? = some b)
    (point : Option Point) (s : Runtime ρ) :
    ∃ x ∈ F.work answer within key job point s, x.Judges key b := by
  have verdict : ∃ x ∈ b.journal answer within F.registry key s, x.Judges key b := by
    refine ⟨_, List.mem_append_right _ (List.mem_singleton.mpr rfl), ?_⟩
    cases ((b.dialogue F.registry).runOn answer s).1 <;> exact ⟨rfl, rfl⟩
  cases job with
  | literal value => cases made
  | build b =>
    cases made
    exact verdict
  | provide b context =>
    cases made
    obtain ⟨x, member, judges⟩ := verdict
    exact ⟨x, List.mem_append_left _ member, judges⟩

/-- The work on a key, up to its end, follows what is known if the answers do. -/
theorem Finder.Lawful.work {F : Finder ι ρ} (lawful : F.Lawful inv R law)
    (answers : ∀ q s, Follows F.registry inv R law s (within q s) ((answer q).runOn s).2) {scope : Scope}
    {job : Job ι} (point : Option Point) {s : Runtime ρ} (known : law s.own key scope job) (q : ι)
    (outcome : Except Error Value) :
    Follows F.registry inv R law s (F.work answer within key job point s ++
        [.ends key scope ((F.dialogue job point).runOn answer s).1, .answers q outcome])
      ((F.dialogue job point).runOn answer s).2 := by
  let Q := FollowsKnown F.registry inv R law key scope job
  have stretch : Stretch Q := lawful.stretch_known F.registry key scope job
  have closing : ∀ (ended : Except Error Value) t, Q t [.ends key scope ended, .answers q outcome] t :=
    fun _ _ known => .of_own rfl fun _ => ⟨⟨job, known⟩, trivial, trivial⟩
  have whole : ∀ {b : Blueprint ι} {given o c t}, job.blueprint? = some b → Built F.registry b c given o →
      Q t [.completes key b given o] t :=
    fun made built known => .of_own rfl fun _ => ⟨⟨⟨scope, job, known, made⟩, _, built⟩, trivial⟩
  have broken : ∀ {b : Blueprint ι} {begun e t}, job.blueprint? = some b →
      Q t [.abandons key b begun e, .ends key scope (.error e), .answers q outcome] t :=
    fun made known => .of_own rfl fun _ =>
      ⟨⟨⟨scope, job, known, made⟩, scope, _, rfl⟩, ⟨job, known⟩, trivial, trivial⟩
  have asked : ∀ q s, Q s (within q s) ((answer q).runOn s).2 := fun q s _ => answers q s
  have silent : ∀ {s t : Runtime ρ}, t.own = s.own → Q s [] t := fun same _ => .of_own same fun _ => trivial
  have turned : ∀ b : Blueprint ι, Q s (Turn.journal within ((b.dialogue F.registry).turns answer s))
      ((b.dialogue F.registry).runOn answer s).2 :=
    fun b => stretch.turns asked (fun _ => silent rfl) (b.dialogue F.registry) s
  refine (?_ : Q s _ _) known
  cases job with
  | literal value => exact closing _ s
  | build b =>
    have first := turned b
    rw [Finder.work, Finder.dialogue, Blueprint.journal, Dialogue.runOn_map, List.append_assoc]
    refine stretch.append first ?_
    cases ran : (b.dialogue F.registry).runOn answer s with
    | mk made t =>
      cases made with
      | error e => exact broken rfl
      | ok made =>
        exact stretch.append (whole rfl (Blueprint.built_of_dialogue ran).1) (closing _ t)
  | provide b context =>
    have first := turned b
    rw [Finder.work, Finder.dialogue, Blueprint.journal, Dialogue.bind_eq, Dialogue.runOn_andThen,
      List.append_assoc, List.append_assoc]
    refine stretch.append first ?_
    cases ran : (b.dialogue F.registry).runOn answer s with
    | mk made t =>
      cases made with
      | error e => exact broken rfl
      | ok made =>
        refine stretch.append (whole rfl (Blueprint.built_of_dialogue ran).1) (stretch.append ?_ (closing _ _))
        exact stretch.consultation asked (fun _ _ _ _ _ => .of_own rfl fun _ => ⟨trivial, trivial⟩)
          (fun _ _ _ => .of_own rfl fun _ => ⟨trivial, trivial⟩) context point made t

end

omit [IsPreorder ρ R] in
theorem Finder.Lawful.find {F : Finder ι ρ} (lawful : F.Lawful inv R law) {q : ι} {s t : Runtime ρ}
    {lead : Lead ι} (found : F.find q s = (lead, t)) {xs : List (Event ι)}
    (follow : (∀ scope job, lead = .does scope job → law t.own (F.key q) scope job) →
      AllFollow F.registry (law t.own) xs) : Follows F.registry inv R law s xs t := by
  intro start
  have kept := lawful.keeps (q := q) start
  have moved := lawful.moves q s
  rw [found] at kept moved
  refine ⟨kept, moved, follow fun scope job does => ?_⟩
  subst does
  exact lawful.found start found

theorem Injector.follows_journal {I : Injector ι ρ} (lawful : I.Lawful inv R law) (depth : Nat) (q : ι)
    (s : Runtime ρ) :
    Follows I.registry inv R law s (I.journal depth q s) ((I.answer depth q).runOn s).2 := by
  have carried : I.Carried fun _ _ s xs r => Follows I.registry inv R law s xs r.2 := {
    missed := fun found => lawful.find found fun _ => ⟨trivial, trivial, trivial⟩
    recalled := fun {_ q _ scope job _ value} found kept => lawful.find found fun known => by
      have single : scope = .singleton := by
        cases scope with
        | singleton => rfl
        | prototype => cases kept
      subst single
      exact ⟨⟨job, known _ job rfl⟩, trivial, trivial⟩
    circular := fun found _ => lawful.find found fun _ => ⟨trivial, trivial, trivial⟩
    stopped := fun _ found _ _ => lawful.find found fun _ => ⟨trivial, trivial, trivial⟩
    made := fun {depth q s scope job t} found _ _ inner ran making start => by
      have taken : Follows I.registry inv R law s [] t := lawful.find found fun _ => trivial
      obtain ⟨here, moved, -⟩ := taken start
      have known : law t.own (I.key q) scope job := lawful.found start found
      have worked := lawful.work inner (I.point q) (s := entered (I.key q) t) known q
        (leave (I.key q) scope ran).1 here
      rw [making] at worked
      obtain ⟨finish, moved', follow⟩ := worked
      have judged : ∀ b, job.blueprint? = some b → ∃ x ∈ I.work (I.answer depth) (I.journal depth) (I.key q)
          job (I.point q) (entered (I.key q) t) ++ [.ends (I.key q) scope ran.1,
            .answers q (leave (I.key q) scope ran).1], x.Judges (I.key q) b := by
        intro b made
        obtain ⟨x, member, judges⟩ := I.judged_work (I.answer depth) (I.journal depth) (I.key q) made
          (I.point q) (entered (I.key q) t)
        exact ⟨x, List.mem_append_left _ member, judges⟩
      rw [own_leave]
      exact ⟨finish, trans_of R moved moved', ⟨job, lawful.stable moved' known, judged⟩, follow⟩ }
  exact carried.journal depth q s

theorem Injector.follows_chronicle {I : Injector ι ρ} (lawful : I.Lawful inv R law)
    {errands : List (Errand ι ρ)}
    (harmless : ∀ errand ∈ errands, errand.Harmless inv R)
    (s : Runtime ρ) : Follows I.registry inv R law s (I.chronicle errands s) (I.after errands s) := by
  refine (lawful.stretch I.registry).chronicle (fun q s => I.follows_journal lawful _ q s) ?_ s
  intro errand member s start
  obtain ⟨kept, moved⟩ := harmless errand member s.own start
  exact ⟨kept, moved, trivial⟩

end

/-- Objects are completed by answers of the journal. -/
def Supplied (xs : List (Event ι)) : Prop :=
  ∀ key b given o, Event.completes key b given o ∈ xs → ∀ q outcome, (q, outcome) ∈ given →
    .answers q outcome ∈ xs

theorem Supplied.append {xs ys : List (Event ι)} (first : Supplied xs) (later : Supplied ys) :
    Supplied (xs ++ ys) := by
  intro key b given o member q outcome supplied
  rcases List.mem_append.mp member with earlier | now
  · exact List.mem_append_left _ (first key b given o earlier q outcome supplied)
  · exact List.mem_append_right _ (later key b given o now q outcome supplied)

theorem supplied_of_forall {xs : List (Event ι)} (none : ∀ key b given o, .completes key b given o ∉ xs) :
    Supplied xs := fun key b given o member => absurd member (none key b given o)

theorem stretch_supplied : Stretch fun (_ : Runtime ρ) (xs : List (Event ι)) _ => Supplied xs where
  nil _ := supplied_of_forall (by simp)
  append := Supplied.append

section
variable {answer : ι → Act (Runtime ρ) Value} {within : ι → Runtime ρ → List (Event ι)}
  (told : ∀ q s, .answers q ((answer q).runOn s).1 ∈ within q s)
include told

theorem answers_mem_journal {d : Dialogue ι α} {s : Runtime ρ} {q : ι} {outcome : Except Error Value}
    (given : (q, outcome) ∈ Turn.given (d.turns answer s)) :
    .answers q outcome ∈ Turn.journal within (d.turns answer s) := by
  induction d generalizing s with
  | finish outcome => cases given
  | take make next ih =>
    rw [Dialogue.turns] at given ⊢
    cases made : make s.born with
    | error e =>
      rw [made] at given
      exact ih (.error e) given
    | ok o =>
      rw [made] at given
      exact ih (.ok o) given
  | ask question next ih =>
    rcases List.mem_cons.mp given with same | later
    · cases same
      exact List.mem_append_left _ (told q s)
    · exact List.mem_append_right _ (ih _ later)

theorem Blueprint.supplied_journal (inner : ∀ q s, Supplied (within q s)) (registry : Registry) (key : Key)
    (b : Blueprint ι) (s : Runtime ρ) : Supplied (b.journal answer within registry key s) := by
  have turns : Supplied (Turn.journal within ((b.dialogue registry).turns answer s)) :=
    @Stretch.turns ι ρ (Class × Object) _ stretch_supplied answer within inner
      (fun _ => supplied_of_forall (by simp)) (b.dialogue registry) s
  intro key' b' given o member q outcome supplied
  refine List.mem_append_left _ ?_
  rcases List.mem_append.mp member with earlier | last
  · exact turns key' b' given o earlier q outcome supplied
  · have verdict := List.mem_singleton.mp last
    cases ran : ((b.dialogue registry).runOn answer s).1 with
    | error e =>
      rw [ran] at verdict
      cases verdict
    | ok made =>
      rw [ran] at verdict
      cases verdict
      exact answers_mem_journal told supplied

end

theorem Injector.supplied_journal (I : Injector ι ρ) (depth : Nat) (q : ι) (s : Runtime ρ) :
    .answers q ((I.answer depth q).runOn s).1 ∈ I.journal depth q s ∧ Supplied (I.journal depth q s) := by
  have carried : I.Carried fun _ q _ xs r => .answers q r.1 ∈ xs ∧ Supplied xs := {
    missed := fun _ => ⟨by simp, supplied_of_forall (by simp)⟩
    recalled := fun _ _ => ⟨by simp, supplied_of_forall (by simp)⟩
    circular := fun _ _ => ⟨by simp, supplied_of_forall (by simp)⟩
    stopped := fun _ _ _ _ => ⟨by simp, supplied_of_forall (by simp)⟩
    made := fun {depth q s scope job t} _ _ _ inner ran _ => by
      have started : Supplied [(.starts (I.key q) scope : Event ι)] := supplied_of_forall (by simp)
      have worked : Supplied
          (I.work (I.answer depth) (I.journal depth) (I.key q) job (I.point q) (entered (I.key q) t)) :=
        stretch_supplied.work (fun q s => (inner q s).2) (fun s _ _ _ => supplied_of_forall (by simp))
          (fun o s => supplied_of_forall (by simp)) (fun b _ s => Blueprint.supplied_journal
            (fun q s => (inner q s).1) (fun q s => (inner q s).2) I.registry (I.key q) b s) (I.point q) _
      exact ⟨by simp, started.append (worked.append (supplied_of_forall (by simp)))⟩ }
  exact carried.journal depth q s

theorem Injector.supplied_chronicle (I : Injector ι ρ) (errands : List (Errand ι ρ)) (s : Runtime ρ) :
    Supplied (I.chronicle errands s) :=
  stretch_supplied.chronicle (fun q s => (I.supplied_journal (I.bound s) q s).2)
    (fun _ _ _ => supplied_of_forall (by simp)) s

end Wiring
