import Wiring.Proofs.Journal.Recipes

/-! # What follows a failure

Someone who reads a journal from the start can tell at every event which singleton is kept for a key and
whether its value is being made. Events fit that. In particular, once the making of a key's value has failed,
the next who asks for the key has it made again, or gets a singleton that was kept before.
-/
namespace Wiring
open Wiring.Runtime

variable {ι ρ α : Type}

/-- What a reader knows of a key: the singleton that is kept for it, the scope in which its value is being
made, and whether it is settled how. -/
structure View where
  kept : Option Value := none
  progress : Option Scope := none
  settled : Bool := false

namespace View

def keeping (v : View) : Scope → Except Error Value → Option Value
  | .singleton, .ok value => some (v.kept.getD value)
  | _, _ => v.kept

variable (key : Key)

def next (v : View) : Event ι → View
  | .starts k scope => if k = key then { v with progress := some scope, settled := true } else v
  | .ends k scope outcome =>
    if k = key then { v with progress := none, kept := v.keeping scope outcome } else v
  | _ => v

/-- An event that fits what is known of a key. -/
def Fits (v : View) : Event ι → Prop
  | .starts k scope => k = key → v.progress = none ∧ (scope = .singleton → v.kept = none)
  | .ends k scope _ => k = key → v.progress = some scope
  | .recalls k value => k = key → v.kept = some value
  | .refuses k => k = key → v.progress ≠ none ∨ v.settled = false
  | _ => True

def Reads : View → List (Event ι) → Prop
  | _, [] => True
  | v, e :: rest => v.Fits key e ∧ Reads (v.next key e) rest

def after (v : View) (xs : List (Event ι)) : View := xs.foldl (next key) v

variable {key} {v : View} {xs ys : List (Event ι)} {k : Key} {scope : Scope} {outcome : Except Error Value}

theorem next_starts : v.next key (.starts key scope : Event ι) =
    { v with progress := some scope, settled := true } := if_pos rfl

theorem next_starts_of_ne (other : k ≠ key) : v.next key (.starts k scope : Event ι) = v := if_neg other

theorem next_ends : v.next key (.ends key scope outcome : Event ι) =
    { v with progress := none, kept := v.keeping scope outcome } := if_pos rfl

theorem next_ends_of_ne (other : k ≠ key) : v.next key (.ends k scope outcome : Event ι) = v := if_neg other

theorem reads_append : v.Reads key (xs ++ ys) ↔ v.Reads key xs ∧ (v.after key xs).Reads key ys := by
  induction xs generalizing v with
  | nil => simp [Reads, after]
  | cons e rest ih => simp only [List.cons_append, Reads, ih, after, List.foldl_cons, and_assoc]

theorem after_append : v.after key (xs ++ ys) = (v.after key xs).after key ys := List.foldl_append

theorem reads_around {e e' : Event ι} {q : ι} (first : v.Fits key e) (between : (v.next key e).Reads key xs)
    (last : ((v.next key e).after key xs).Fits key e') :
    v.Reads key (e :: (xs ++ [e', .answers q outcome])) :=
  ⟨first, reads_append.mpr ⟨between, last, trivial, trivial⟩⟩

theorem after_around {e e' : Event ι} {q : ι} : v.after key (e :: (xs ++ [e', .answers q outcome])) =
    ((v.next key e).after key xs).next key e' := by
  change (v.next key e).after key (xs ++ _) = _
  rw [after_append]
  rfl

/-- While a singleton is being made, none is kept, and what is being made is settled. -/
structure Sound (v : View) : Prop where
  apart : v.progress = some .singleton → v.kept = none
  settled : v.progress ≠ none → v.settled = true

theorem Sound.next (sound : v.Sound) {e : Event ι} (fits : v.Fits key e) : (v.next key e).Sound := by
  cases e with
  | starts k scope =>
    by_cases same : k = key
    · obtain rfl := same
      rw [next_starts]
      exact ⟨fun single => (fits rfl).2 (Option.some.inj single), fun _ => rfl⟩
    · rwa [next_starts_of_ne same]
  | ends k scope outcome =>
    by_cases same : k = key
    · obtain rfl := same
      rw [next_ends]
      exact ⟨nofun, fun none => absurd rfl none⟩
    · rwa [next_ends_of_ne same]
  | _ => exact sound

theorem Sound.after (sound : v.Sound) (reads : v.Reads key xs) : (v.after key xs).Sound := by
  induction xs generalizing v with
  | nil => exact sound
  | cons e rest ih => exact ih (sound.next reads.1) reads.2

theorem kept_of_keeping {w : Value} (kept : v.keeping scope outcome = some w) :
    v.kept = some w ∨ scope = .singleton ∧ outcome = .ok w := by
  cases scope with
  | prototype => exact .inl kept
  | singleton =>
    cases outcome with
    | error e => exact .inl kept
    | ok value =>
      cases held : v.kept with
      | some old =>
        rw [keeping, held] at kept
        exact .inl kept
      | none =>
        rw [keeping, held] at kept
        cases kept
        exact .inr ⟨rfl, rfl⟩

theorem kept_next {e : Event ι} {w : Value} (kept : (v.next key e).kept = some w) :
    v.kept = some w ∨ e = .ends key .singleton (.ok w) := by
  cases e with
  | starts k scope =>
    by_cases same : k = key
    · obtain rfl := same
      rw [next_starts] at kept
      exact .inl kept
    · rw [next_starts_of_ne same] at kept
      exact .inl kept
  | ends k scope outcome =>
    by_cases same : k = key
    · obtain rfl := same
      rw [next_ends] at kept
      rcases kept_of_keeping kept with earlier | ⟨rfl, rfl⟩
      · exact .inl earlier
      · exact .inr rfl
    · rw [next_ends_of_ne same] at kept
      exact .inl kept
  | _ => exact .inl kept

theorem kept_after {w : Value} (kept : (v.after key xs).kept = some w) :
    v.kept = some w ∨ .ends key .singleton (.ok w) ∈ xs := by
  induction xs generalizing v with
  | nil => exact .inl kept
  | cons e rest ih =>
    rcases ih kept with now | later
    · rcases kept_next now with earlier | rfl
      · exact .inl earlier
      · exact .inr List.mem_cons_self
    · exact .inr (List.mem_cons_of_mem e later)

end View

/-- An event that says how someone who asks for a key is dealt with. -/
def Event.Takes (key : Key) : Event ι → Prop
  | .starts k _ => k = key
  | .recalls k _ => k = key
  | .refuses k => k = key
  | .stops k => k = key
  | _ => False

instance (key : Key) : DecidablePred (Event.Takes (ι := ι) key)
  | .starts k _ | .recalls k _ | .refuses k | .stops k => inferInstanceAs (Decidable (k = key))
  | .ends _ _ _ | .answers _ _ | .completes _ _ _ _ | .abandons _ _ _ _ | .consults _ | .owns _ =>
    inferInstanceAs (Decidable False)

namespace View
variable {key : Key} {v : View} {xs : List (Event ι)}

/-- Nothing gets known of a key that is not being made while nobody asks for it. -/
theorem after_of_quiet (idle : v.progress = none) (reads : v.Reads key xs)
    (quiet : ∀ e ∈ xs, ¬ e.Takes key) : v.after key xs = v := by
  induction xs with
  | nil => rfl
  | cons e rest ih =>
    obtain ⟨first, others⟩ := List.forall_mem_cons.mp quiet
    have same : v.next key e = v := by
      cases e with
      | starts k scope => exact next_starts_of_ne first
      | ends k scope outcome =>
        refine next_ends_of_ne fun same => ?_
        have progress : v.progress = some scope := reads.1 same
        rw [idle] at progress
        cases progress
      | _ => rfl
    have reads := reads.2
    rw [same] at reads
    change (v.next key e).after key rest = v
    rw [same]
    exact ih reads others

/-- Whoever is next to ask for a key that could not be made has it made again, unless a singleton was kept
before, which is only possible if the key was being made as a prototype. -/
theorem retried {earlier between later : List (Event ι)} {scope : Scope} {e : Error} {x : Event ι}
    (sound : v.Sound) (blank : v.kept = none)
    (reads : v.Reads key (earlier ++ .ends key scope (.error e) :: (between ++ x :: later)))
    (quiet : ∀ y ∈ between, ¬ y.Takes key) (takes : x.Takes key) :
    x = .stops key ∨ (∃ scope', x = .starts key scope') ∨
      ∃ value, x = .recalls key value ∧ scope = .prototype ∧ .ends key .singleton (.ok value) ∈ earlier := by
  obtain ⟨before, fits, reads⟩ := reads_append.mp reads
  obtain ⟨reads, fits', -⟩ := reads_append.mp reads
  have sound' : (v.after key earlier).Sound := sound.after before
  have progress : (v.after key earlier).progress = some scope := fits rfl
  have left : (v.after key earlier).next key (.ends key scope (.error e) : Event ι) =
      { v.after key earlier with progress := none } := by
    rw [next_ends]
    cases scope <;> rfl
  rw [left] at reads fits'
  -- Nobody asks in between, so what fits the key's next event is what was known at the failure.
  rw [after_of_quiet rfl reads quiet] at fits'
  cases x with
  | starts k scope' =>
    obtain rfl : k = key := takes
    exact .inr (.inl ⟨scope', rfl⟩)
  | stops k =>
    obtain rfl : k = key := takes
    exact .inl rfl
  | refuses k =>
    have settled : (v.after key earlier).settled = true := sound'.settled (by rw [progress]; exact nofun)
    rcases fits' takes with busy | unsettled
    · exact absurd rfl busy
    · cases settled.symm.trans unsettled
  | recalls k value =>
    obtain rfl : k = key := takes
    have kept : (v.after k earlier).kept = some value := fits' rfl
    refine .inr (.inr ⟨value, rfl, ?_, ?_⟩)
    · cases scope with
      | prototype => rfl
      | singleton => cases kept.symm.trans (sound'.apart progress)
    · rcases kept_after kept with old | made
      · cases blank.symm.trans old
      · exact made
  | _ => exact takes.elim

end View

theorem Runtime.get?_leave (key : Key) (scope : Scope) (made : Except Error Value × Runtime ρ) {v : View}
    (kept : made.2.singletons.get? key = v.kept) :
    (leave key scope made).2.singletons.get? key = v.keeping scope made.1 := by
  obtain ⟨e | value, s⟩ := made
  · cases scope <;> exact kept
  · cases scope with
    | prototype => exact kept
    | singleton =>
      simp only [leave, runOn_keep, SortedMap.get?_insertIfNew, if_true, View.keeping]
      exact congrArg (fun old => some (Option.getD old value)) kept

theorem Runtime.get?_leave_of_ne {key k : Key} (other : k ≠ key) (scope : Scope)
    (made : Except Error Value × Runtime ρ) :
    (leave k scope made).2.singletons.get? key = made.2.singletons.get? key := by
  obtain ⟨e | value, s⟩ := made
  · rfl
  · cases scope with
    | prototype => rfl
    | singleton =>
      simp only [leave, runOn_keep, SortedMap.get?_insertIfNew, if_neg (Ne.symm other)]
      rfl

section
variable {inv : ρ → Prop} {R : ρ → ρ → Prop} {law : ρ → Key → Scope → Job ι → Prop} {key : Key}

structure Sees (inv : ρ → Prop) (law : ρ → Key → Scope → Job ι → Prop) (key : Key) (v : View)
    (s : Runtime ρ) : Prop where
  inv : inv s.own
  kept : s.singletons.get? key = v.kept
  progress : v.progress ≠ none ↔ key ∈ s.active
  settled : v.settled = true → ∃ scope job, law s.own key scope job

/-- Events that fit what a reader knows at the start, who then knows what is so at the end. -/
def Readable (inv : ρ → Prop) (law : ρ → Key → Scope → Job ι → Prop) (key : Key) (s : Runtime ρ)
    (xs : List (Event ι)) (t : Runtime ρ) : Prop :=
  t.active = s.active ∧ ∀ v, Sees inv law key v s →
    v.Reads key xs ∧ Sees inv law key (v.after key xs) t ∧ (v.after key xs).progress = v.progress

theorem stretch_readable : Stretch (Readable inv law key) where
  nil s := ⟨rfl, fun v sees => ⟨trivial, sees, rfl⟩⟩
  append first later := by
    refine ⟨later.1.trans first.1, fun v sees => ?_⟩
    obtain ⟨reads, middle, same⟩ := first.2 v sees
    obtain ⟨reads', finish, same'⟩ := later.2 _ middle
    rw [View.after_append]
    exact ⟨View.reads_append.mpr ⟨reads, reads'⟩, finish, same'.trans same⟩

theorem View.reads_of_idle {v : View} {xs : List (Event ι)} (idle : ∀ e ∈ xs, v.next key e = v)
    (fits : ∀ e ∈ xs, v.Fits key e) : v.Reads key xs ∧ v.after key xs = v := by
  induction xs with
  | nil => exact ⟨trivial, rfl⟩
  | cons e rest ih =>
    obtain ⟨same, idle⟩ := List.forall_mem_cons.mp idle
    obtain ⟨fit, fits⟩ := List.forall_mem_cons.mp fits
    obtain ⟨reads, after⟩ := ih idle fits
    refine ⟨⟨fit, same.symm ▸ reads⟩, ?_⟩
    change (v.next key e).after key rest = v
    rw [same, after]

theorem Readable.of_idle {s t : Runtime ρ} {xs : List (Event ι)} (active : t.active = s.active)
    (sees : ∀ v, Sees inv law key v s → Sees inv law key v t)
    (idle : ∀ v : View, ∀ e ∈ xs, v.next key e = v)
    (fits : ∀ v : View, Sees inv law key v s → ∀ e ∈ xs, v.Fits key e) : Readable inv law key s xs t := by
  refine ⟨active, fun v start => ?_⟩
  obtain ⟨reads, after⟩ := View.reads_of_idle (idle v) (fits v start)
  rw [after]
  exact ⟨reads, sees v start, rfl⟩

theorem Sees.of_eq {s t : Runtime ρ} {v : View} (sees : Sees inv law key v s) (active : t.active = s.active)
    (singletons : t.singletons = s.singletons) (own : t.own = s.own) : Sees inv law key v t where
  inv := own ▸ sees.inv
  kept := singletons ▸ sees.kept
  progress := active ▸ sees.progress
  settled := own ▸ sees.settled

theorem Readable.of_eq {s t : Runtime ρ} {xs : List (Event ι)} (active : t.active = s.active)
    (singletons : t.singletons = s.singletons) (own : t.own = s.own)
    (idle : ∀ v : View, ∀ e ∈ xs, v.next key e = v ∧ v.Fits key e) : Readable inv law key s xs t :=
  .of_idle active (fun _ sees => sees.of_eq active singletons own) (fun v e member => (idle v e member).1)
    fun v _ e member => (idle v e member).2

theorem readable_work {F : Finder ι ρ} {answer : ι → Act (Runtime ρ) Value}
    {within : ι → Runtime ρ → List (Event ι)}
    (answers : ∀ q s, Readable inv law key s (within q s) ((answer q).runOn s).2) (k : Key) (job : Job ι)
    (point : Option Point) (s : Runtime ρ) : Readable inv law key s (F.work answer within k job point s)
      ((F.dialogue job point).runOn answer s).2 := by
  refine stretch_readable.work answers (fun s _ _ _ => .of_eq rfl rfl rfl (by simp [View.next, View.Fits]))
    (fun o s => .of_eq rfl rfl rfl (by simp [View.next, View.Fits])) (fun b _ s => ?_) point s
  have silent : ∀ s : Runtime ρ, Readable inv law key s [] { s with born := s.born + 1 } :=
    fun s => .of_eq rfl rfl rfl (by simp)
  refine stretch_readable.append (stretch_readable.turns answers silent (b.dialogue F.registry) s) ?_
  refine .of_eq rfl rfl rfl fun v => List.forall_mem_singleton.mpr ?_
  cases ((b.dialogue F.registry).runOn answer s).1 <;> exact ⟨rfl, trivial⟩

theorem Sees.found {F : Finder ι ρ} (lawful : F.Lawful inv R law) {q : ι} {lead : Lead ι} {s t : Runtime ρ}
    (found : F.find q s = (lead, t)) {v : View} (sees : Sees inv law key v s) : Sees inv law key v t := by
  have kept := lawful.keeps (q := q) sees.inv
  have moved := lawful.moves q s
  rw [found] at kept moved
  have same := lawful.ownOnly.eq found
  refine ⟨kept, ?_, ?_, fun settled => ?_⟩
  · rw [same]
    exact sees.kept
  · rw [same]
    exact sees.progress
  · obtain ⟨scope, job, known⟩ := sees.settled settled
    exact ⟨scope, job, lawful.stable moved known⟩

theorem Sees.starts {k : Key} {scope : Scope} {job : Job ι} {s : Runtime ρ} {v : View}
    (sees : Sees inv law key v s) (known : law s.own k scope job) :
    Sees inv law key (v.next key (.starts k scope : Event ι)) (entered k s) := by
  by_cases same : k = key
  · obtain rfl := same
    rw [View.next_starts]
    exact ⟨sees.inv, sees.kept, ⟨fun _ => List.mem_cons_self, fun _ => nofun⟩, fun _ => ⟨scope, job, known⟩⟩
  · rw [View.next_starts_of_ne same]
    refine ⟨sees.inv, sees.kept, sees.progress.trans ?_, sees.settled⟩
    exact (List.mem_cons.trans (or_iff_right (Ne.symm same))).symm

theorem Sees.ends {k : Key} (scope : Scope) {s : Runtime ρ} {made : Except Error Value × Runtime ρ}
    {v : View} (sees : Sees inv law key v made.2) (active : made.2.active = k :: s.active)
    (absent : k ∉ s.active) :
    Sees inv law key (v.next key (.ends k scope made.1 : Event ι)) (leave k scope made).2 := by
  have own : (leave k scope made).2.own = made.2.own := own_leave k scope made
  have left : (leave k scope made).2.active = s.active := by
    rw [active_leave, erase_innermost active]
  by_cases same : k = key
  · obtain rfl := same
    rw [View.next_ends]
    refine ⟨own ▸ sees.inv, get?_leave k scope made sees.kept, ?_, own ▸ sees.settled⟩
    rw [left]
    exact ⟨fun busy => absurd rfl busy, fun member => absurd member absent⟩
  · rw [View.next_ends_of_ne same]
    refine ⟨own ▸ sees.inv, (get?_leave_of_ne same scope made).trans sees.kept, ?_, own ▸ sees.settled⟩
    rw [left]
    refine sees.progress.trans ?_
    rw [active]
    exact List.mem_cons.trans (or_iff_right (Ne.symm same))

end

theorem Injector.readable_journal {I : Injector ι ρ} {inv : ρ → Prop} {R : ρ → ρ → Prop}
    {law : ρ → Key → Scope → Job ι → Prop} (lawful : I.Lawful inv R law) (key : Key) (depth : Nat) (q : ι)
    (s : Runtime ρ) : Readable inv law key s (I.journal depth q s) ((I.answer depth q).runOn s).2 := by
  have active : ∀ {q s lead t}, I.find q s = (lead, t) → t.active = s.active := by
    intro q s lead t found
    rw [lawful.ownOnly.eq found]
  have carried : I.Carried fun _ _ s xs r => Readable inv law key s xs r.2 := {
    missed := fun {_ q s outcome t} found => by
      refine .of_idle (active found) (fun v => Sees.found lawful found) (fun v => by simp [View.next])
        fun v sees => List.forall_mem_cons.mpr ⟨fun same => .inr ?_, by simp [View.Fits]⟩
      cases settled : v.settled with
      | false => rfl
      | true =>
        obtain ⟨scope, job, known⟩ := sees.settled settled
        exact absurd found (lawful.certain (same ▸ known))
    recalled := fun {_ q s scope job t value} found kept => by
      refine .of_idle (active found) (fun v => Sees.found lawful found) (fun v => by simp [View.next])
        fun v sees => List.forall_mem_cons.mpr ⟨fun same => ?_, by simp [View.Fits]⟩
      exact (Sees.found lawful found sees).kept.symm.trans (same ▸ get?_of_held kept)
    circular := fun {_ q s scope job t} found member => by
      refine .of_idle (active found) (fun v => Sees.found lawful found) (fun v => by simp [View.next])
        fun v sees => List.forall_mem_cons.mpr ⟨fun same => .inl ?_, by simp [View.Fits]⟩
      exact (Sees.found lawful found sees).progress.mpr (same ▸ member)
    stopped := fun e found _ _ => .of_idle (active found) (fun v => Sees.found lawful found)
      (fun v => by simp [View.next]) fun v sees => by simp [View.Fits]
    made := fun {depth q s scope job t} found vacant absent inner ran making => by
      have worked := readable_work (F := I.toFinder) inner (I.key q) job (I.point q) (entered (I.key q) t)
      rw [making] at worked
      obtain ⟨same, reads⟩ := worked
      have left : (leave (I.key q) scope ran).2.active = s.active := by
        rw [active_leave, erase_innermost same, active found]
      refine ⟨left, fun v sees => ?_⟩
      have taken := Sees.found lawful found sees
      have known := lawful.found sees.inv found
      obtain ⟨reads, middle, progress⟩ := reads _ (Sees.starts (ι := ι) taken known)
      have ended := Sees.ends (ι := ι) scope middle same absent
      have idle : (I.key q = key) → v.progress = none := by
        rintro rfl
        by_contra busy
        exact absent (taken.progress.mp busy)
      have begins : v.Fits key (.starts (I.key q) scope : Event ι) := by
        refine fun same => ⟨idle same, ?_⟩
        rintro rfl
        exact taken.kept.symm.trans (same ▸ vacant)
      have under : I.key q = key →
          (v.next key (.starts (I.key q) scope : Event ι)).progress = some scope := by
        rintro rfl
        rw [View.next_starts]
      rw [View.after_around]
      refine ⟨View.reads_around begins reads fun same => progress.trans (under same), ended, ?_⟩
      by_cases same : I.key q = key
      · rw [idle same, same, View.next_ends]
      · rw [View.next_ends_of_ne same, progress, View.next_starts_of_ne same] }
  exact carried.journal depth q s

theorem Injector.readable_chronicle {I : Injector ι ρ} {inv : ρ → Prop} {R : ρ → ρ → Prop}
    {law : ρ → Key → Scope → Job ι → Prop} (lawful : I.Lawful inv R law) (key : Key)
    {errands : List (Errand ι ρ)}
    (harmless : ∀ errand ∈ errands, errand.Harmless inv R)
    (s : Runtime ρ) : Readable inv law key s (I.chronicle errands s) (I.after errands s) := by
  refine stretch_readable.chronicle (fun q s => I.readable_journal lawful key _ q s) ?_ s
  refine fun errand member s => .of_idle rfl (fun v sees => ?_) (by simp) (by simp)
  obtain ⟨kept, moved⟩ := harmless errand member s.own sees.inv
  refine ⟨kept, sees.kept, sees.progress, fun settled => ?_⟩
  obtain ⟨scope, job, known⟩ := sees.settled settled
  exact ⟨scope, job, lawful.stable moved known⟩

end Wiring
