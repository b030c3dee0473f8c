import Wiring.Proofs.Settling.Interpreter

/-! # How far dialogues get

Given a verdict on each key, a dialogue can be played: it gets to an outcome, or to a key that settles on
nothing. With the verdicts that are true this is how it settles or halts. What has been named before a
dialogue is played shows in its outcome only by the names.
-/
namespace Wiring.Interpreter.Grounds
open Relation

/-- Of a key it is known that nothing binds it, or that it settles on nothing, or on what it settles in
which scope, with so many objects of its own. -/
inductive Verdict
  | unknown
  | unsettled
  | settled (scope : Scope) (found : Except Error Value) (names : Nat)

/-- Where a dialogue stops: at its outcome, with so many objects named, or at a key that settles on
nothing. -/
inductive Stop (α : Type)
  | settled (outcome : Except Error α) (names : Nat)
  | halted (key : Key)

variable (g : Grounds) {α β : Type}

noncomputable def play (verdicts : Key → Verdict) : Dialogue Question α → Nat → Stop α
  | .finish outcome, n => .settled outcome n
  | .take make next, n => play verdicts (next (make (g.passing n))) (n + 1)
  | .ask q next, n => match verdicts q.key with
    | .unknown => play verdicts (next q.fallback) n
    | .unsettled => .halted q.key
    | .settled scope found k => play verdicts (next (g.carried scope q.key n found)) (n + k)

def Stop.andThen (rest : Except Error α → Nat → Stop β) : Stop α → Stop β
  | .settled outcome n => rest outcome n
  | .halted key => .halted key

theorem play_andThen (verdicts : Key → Verdict) (d : Dialogue Question α)
    (rest : Except Error α → Dialogue Question β) (n : Nat) : g.play verdicts (d.andThen rest) n =
      (g.play verdicts d n).andThen fun outcome => g.play verdicts (rest outcome) := by
  induction d generalizing n with
  | finish outcome => rfl
  | take make next ih => exact ih _ _
  | ask q next ih =>
    simp only [Dialogue.andThen, play]
    cases verdicts q.key with
    | unknown => exact ih _ _
    | unsettled => rfl
    | settled scope found k => exact ih _ _

/-- What is true of a key. -/
inductive Judged (key : Key) : Verdict → Prop
  | unknown : g.known key = none → Judged key .unknown
  | unsettled {binding : Binding} : g.known key = some binding → (¬ ∃ found k, g.SettlesOn key found k) →
      Judged key .unsettled
  | settled {binding : Binding} {found : Except Error Value} {k : Nat} : g.known key = some binding →
      g.SettlesOn key found k → Judged key (.settled binding.scope found k)

variable {g}

theorem Judged.unique {key : Key} {v w : Verdict} (h : g.Judged key v) (h' : g.Judged key w) : v = w := by
  cases h with
  | unknown absent =>
    cases h' with
    | unknown _ => rfl
    | unsettled bound _ | settled bound _ => exact absurd (bound.symm.trans absent) nofun
  | unsettled bound unsettled =>
    cases h' with
    | unknown absent => exact absurd (bound.symm.trans absent) nofun
    | unsettled _ _ => rfl
    | settled _ on => exact absurd ⟨_, _, on⟩ unsettled
  | settled bound on =>
    cases h' with
    | unknown absent => exact absurd (bound.symm.trans absent) nofun
    | unsettled _ unsettled => exact absurd ⟨_, _, on⟩ unsettled
    | settled bound' on' =>
      obtain rfl := Option.some.inj (bound.symm.trans bound')
      obtain ⟨rfl, rfl⟩ := on.unique on'
      rfl

variable (g) in
theorem exists_judged (key : Key) : ∃ v, g.Judged key v := by
  cases bound : g.known key with
  | none => exact ⟨_, .unknown bound⟩
  | some binding =>
    by_cases on : ∃ found k, g.SettlesOn key found k
    · obtain ⟨found, k, on⟩ := on
      exact ⟨_, .settled bound on⟩
    · exact ⟨_, .unsettled bound on⟩

variable (g) in
noncomputable def verdict (key : Key) : Verdict := (g.exists_judged key).choose

variable (g) in
theorem judged (key : Key) : g.Judged key (g.verdict key) := (g.exists_judged key).choose_spec

theorem Judged.verdict_eq {key : Key} {v : Verdict} (h : g.Judged key v) : g.verdict key = v :=
  (g.judged key).unique h

theorem settlesOn_of_verdict {key : Key} {scope : Scope} {found : Except Error Value} {k : Nat}
    (told : g.verdict key = .settled scope found k) : g.SettlesOn key found k := by
  have judged := g.judged key
  rw [told] at judged
  cases judged with
  | settled _ on => exact on

theorem unsettled_of_verdict {key : Key} (told : g.verdict key = .unsettled) :
    (∃ binding, g.known key = some binding) ∧ ¬ ∃ found k, g.SettlesOn key found k := by
  have judged := g.judged key
  rw [told] at judged
  cases judged with
  | unsettled bound no => exact ⟨⟨_, bound⟩, no⟩

variable (g) in
def StopsAt (d : Dialogue Question Value) (n : Nat) : Stop Value → Prop
  | .settled outcome m => g.Settles d n outcome m
  | .halted key => g.Halts key d n

theorem StopsAt.step {d d' : Dialogue Question Value} {n n' : Nat} {stop : Stop Value}
    (step : g.Step d n d' n') (h : g.StopsAt d' n' stop) : g.StopsAt d n stop := by
  cases stop with
  | settled outcome m => exact Settles.step step h
  | halted key => exact Halts.step step h

theorem StopsAt.unique {d : Dialogue Question Value} {n : Nat} {stop stop' : Stop Value}
    (h : g.StopsAt d n stop) (h' : g.StopsAt d n stop') : stop = stop' := by
  cases stop with
  | settled outcome m =>
    cases stop' with
    | settled outcome' m' =>
      obtain ⟨rfl, rfl⟩ := Settles.unique h h'
      rfl
    | halted key => exact absurd h (Halts.not_settles h')
  | halted key =>
    cases stop' with
    | settled outcome m => exact absurd h' (Halts.not_settles h)
    | halted key' => exact congrArg Stop.halted (Halts.unique h h')

theorem stopsAt_play (d : Dialogue Question Value) (n : Nat) :
    g.StopsAt d n (g.play g.verdict d n) := by
  induction d generalizing n with
  | finish outcome => exact .finish
  | take make next ih => exact (ih _ (n + 1)).step .take
  | ask q next ih =>
    have judged := g.judged q.key
    unfold play
    generalize g.verdict q.key = v at judged
    cases judged with
    | unknown absent => exact (ih _ n).step (.unknown absent)
    | unsettled bound unsettled => exact Halts.here bound rfl unsettled
    | @settled binding found k bound on =>
      obtain ⟨binding', bound', settles⟩ := on
      obtain rfl := Option.some.inj (bound.symm.trans bound')
      exact (ih _ (n + k)).step (.known bound settles)

/-- By true verdicts a dialogue is played as it settles or halts. -/
theorem play_eq_iff {d : Dialogue Question Value} {n : Nat} {stop : Stop Value} :
    g.play g.verdict d n = stop ↔ g.StopsAt d n stop :=
  ⟨fun same => same ▸ stopsAt_play d n, (stopsAt_play d n).unique⟩

theorem halted_iff {d : Dialogue Question Value} {n : Nat} {key : Key} :
    g.play g.verdict d n = .halted key ↔ g.Halts key d n := play_eq_iff

variable (g) in
def Foreign (spot : Key) (i : Nat) : Prop := ∀ a, i ≠ g.passing a ∧ i ≠ g.lasting spot a

variable (g) in
/-- Identities that a dialogue may come across, without a certain key, when so many objects have been
named, matched with those in another one, which has named some more objects from a certain one on. -/
def shifted (spot : Key) (start more n : Nat) : Matching := fun i j =>
  (i = j ∧ g.Foreign spot i) ∨
    ∃ a < n, i = g.passing a ∧ j = g.passing (if a < start then a else a + more)

section
variable {spot : Key} {start more n m : Nat}

theorem Foreign.not_passing {i : Nat} (foreign : g.Foreign spot i) (a : Nat) : i ≠ g.passing a :=
  (foreign a).1

theorem foreign_lasting {key : Key} (other : key ≠ spot) (a : Nat) : g.Foreign spot (g.lasting key a) :=
  fun b => ⟨g.lasting_ne_passing key a b, fun same => other (Option.some.inj (g.injective same).1)⟩

theorem shifted_mono (le : n ≤ m) {i j : Nat} (h : g.shifted spot start more n i j) :
    g.shifted spot start more m i j :=
  h.imp_right fun ⟨a, below, same⟩ => ⟨a, below.trans_le le, same⟩

theorem shifted_passing (le : start ≤ n) (below : n < m) :
    g.shifted spot start more m (g.passing n) (g.passing (n + more)) :=
  .inr ⟨n, below, rfl, by rw [if_neg (by omega)]⟩

variable (g spot start more n) in
theorem fixes_shifted : (g.shifted spot start more n).Fixes g.old where
  oneToOne := by
    rintro i j i' j' (⟨rfl, foreign⟩ | ⟨a, -, rfl, rfl⟩) (⟨rfl, foreign'⟩ | ⟨a', -, rfl, rfl⟩)
    · exact Iff.rfl
    · exact iff_of_false (foreign.not_passing a') (foreign.not_passing _)
    · exact iff_of_false (foreign'.not_passing a).symm (foreign'.not_passing _).symm
    · rw [g.passing_injective.eq_iff, g.passing_injective.eq_iff]
      split <;> split <;> omega
  fixed i below := .inl ⟨rfl, fun a => ⟨fun same => absurd below (not_lt.mpr (same ▸ g.above none a)),
    fun same => absurd below (not_lt.mpr (same ▸ g.above (some spot) a))⟩⟩

theorem shifted_carry {k : Nat} (le : start ≤ n) {scope : Scope} {key : Key}
    (other : key ≠ spot) {i j : Nat} (h : g.shifted spot 0 0 k i j) :
    g.shifted spot start more (n + k) (g.carry scope key n i) (g.carry scope key (n + more) j) := by
  rcases h with ⟨rfl, foreign⟩ | ⟨a, below, rfl, rfl⟩
  · rw [g.carry_of_settled foreign.not_passing, g.carry_of_settled foreign.not_passing]
    exact .inl ⟨rfl, foreign⟩
  · rw [if_neg (Nat.not_lt_zero a), Nat.add_zero, carry_passing, carry_passing]
    cases scope with
    | prototype =>
      have here : g.shifted spot start more (n + k) (g.passing (n + a)) (g.passing (n + a + more)) :=
        shifted_passing (by omega) (by omega)
      rwa [Nat.add_right_comm] at here
    | singleton => exact .inl ⟨rfl, foreign_lasting other a⟩

theorem agree_carried {k : Nat} (le : start ≤ n) {scope : Scope} {key : Key} (other : key ≠ spot)
    {found found' : Except Error Value} (h : Agree (Value.Alike (g.shifted spot 0 0 k)) found found') :
    Agree (Value.Alike (g.shifted spot start more (n + k))) (g.carried scope key n found)
      (g.carried scope key (n + more) found') :=
  h.map fun alike => alike.renamed fun _ _ ids => shifted_carry le other ids

theorem carry_inj_of_shifted {scope : Scope} {i i' : Nat}
    (among : g.Foreign spot i ∨ ∃ a, i = g.passing a) (among' : g.Foreign spot i' ∨ ∃ a, i' = g.passing a)
    (same : g.carry scope spot 0 i = g.carry scope spot 0 i') : i = i' := by
  have apart : ∀ {i a}, g.Foreign spot i →
      g.carry scope spot 0 i ≠ g.carry scope spot 0 (g.passing a) := by
    intro i a foreign
    rw [g.carry_of_settled foreign.not_passing, carry_passing]
    cases scope with
    | prototype => exact foreign.not_passing _
    | singleton => exact (foreign a).2
  rcases among with foreign | ⟨a, rfl⟩ <;> rcases among' with foreign' | ⟨a', rfl⟩
  · rwa [g.carry_of_settled foreign.not_passing, g.carry_of_settled foreign'.not_passing] at same
  · exact absurd same (apart foreign)
  · exact absurd same.symm (apart foreign')
  · rw [carry_passing, carry_passing] at same
    exact congrArg _ (delivered_injective g scope spot 0 same)

theorem delivered_alike (scope : Scope) {found found' : Except Error Value}
    (h : Agree (Value.Alike (g.shifted spot start more n)) found found') :
    ∃ β : Matching, β.OneToOne ∧
      Agree (Value.Alike β) (g.carried scope spot 0 found) (g.carried scope spot 0 found') := by
  have among : ∀ {i j}, g.shifted spot start more n i j →
      (g.Foreign spot i ∨ ∃ a, i = g.passing a) ∧ (g.Foreign spot j ∨ ∃ a, j = g.passing a) := by
    rintro i j (⟨rfl, foreign⟩ | ⟨a, -, rfl, rfl⟩)
    · exact ⟨.inl foreign, .inl foreign⟩
    · exact ⟨.inr ⟨_, rfl⟩, .inr ⟨_, rfl⟩⟩
  refine ⟨fun i j => ∃ a b, g.shifted spot start more n a b ∧ i = g.carry scope spot 0 a ∧
    j = g.carry scope spot 0 b, ?_, ?_⟩
  · rintro _ _ _ _ ⟨a, b, ids, rfl, rfl⟩ ⟨a', b', ids', rfl, rfl⟩
    have same : a = a' ↔ b = b' := (g.fixes_shifted spot start more n).oneToOne ids ids'
    constructor
    · exact fun carried => congrArg _ (same.mp (carry_inj_of_shifted (among ids).1 (among ids').1 carried))
    · exact fun carried => congrArg _ (same.mpr (carry_inj_of_shifted (among ids).2 (among ids').2 carried))
  · exact h.map fun alike => alike.renamed fun a b ids => ⟨a, b, ids, rfl, rfl⟩

end

/-- Two stops at the same place, up to names. -/
inductive Shifted {α α' : Type} (R : Matching → α → α' → Prop) (spot : Key) (start more : Nat) :
    Stop α → Stop α' → Prop
  | settled {outcome : Except Error α} {outcome' : Except Error α'} {m : Nat} : start ≤ m →
      Agree (R (g.shifted spot start more m)) outcome outcome' →
      Shifted R spot start more (.settled outcome m) (.settled outcome' (m + more))
  | halted (key : Key) : Shifted R spot start more (.halted key) (.halted key)

variable (g) in
def Named (spot key : Key) : Verdict → Prop
  | .settled _ found k => key ≠ spot ∧ Agree (Value.Alike (g.shifted spot 0 0 k)) found found
  | _ => True

/-- Dialogues that are alike stop alike, however many objects have been named before. -/
theorem shifted_play {α α' : Type} {verdicts : Key → Verdict} {spot : Key}
    (named : ∀ key, g.Named spot key (verdicts key)) {R : Matching → α → α' → Prop} {start more n : Nat}
    {d : Dialogue Question α} {d' : Dialogue Question α'} (le : start ≤ n)
    (alike : ∀ γ : Matching, (∀ i j, g.shifted spot start more n i j → γ i j) → γ.Fixes g.old →
      d.Alike γ (R γ) d') :
    g.Shifted R spot start more (g.play verdicts d n) (g.play verdicts d' (n + more)) := by
  -- The dialogues are alike in every larger matching, so they go on alike once more has been named.
  induction d generalizing n d' with
  | finish outcome =>
    have here := alike _ (fun _ _ => id) (g.fixes_shifted spot start more n)
    cases d' with
    | take make next | ask q next => exact here.elim
    | finish outcome' => exact .settled le here
  | take make next ih =>
    have here := alike _ (fun _ _ => id) (g.fixes_shifted spot start more n)
    cases d' with
    | finish outcome | ask q next => exact here.elim
    | take make' next' =>
      have later : g.Shifted R spot start more (g.play verdicts (next (make (g.passing n))) (n + 1))
          (g.play verdicts (next' (make' (g.passing (n + more)))) (n + 1 + more)) := by
        refine ih _ (le.trans (Nat.le_succ n)) fun γ sub fixes => ?_
        obtain ⟨made, goes⟩ := alike γ (fun i j h => sub i j (shifted_mono (Nat.le_succ n) h)) fixes
        exact goes _ _ (made _ _ (sub _ _ (shifted_passing le (Nat.lt_succ_self n))))
      rwa [Nat.add_right_comm] at later
  | ask q next ih =>
    have here := alike _ (fun _ _ => id) (g.fixes_shifted spot start more n)
    cases d' with
    | finish outcome | take make next => exact here.elim
    | ask q' next' =>
      obtain ⟨rfl, -⟩ := here
      have told := named q.key
      unfold play
      cases judged : verdicts q.key with
      | unknown =>
        exact ih _ le fun γ sub fixes => (alike γ sub fixes).2 _ _ (alike_fallback γ q)
      | unsettled => exact .halted q.key
      | settled scope found k =>
        rw [judged] at told
        have later : g.Shifted R spot start more
            (g.play verdicts (next (g.carried scope q.key n found)) (n + k))
            (g.play verdicts (next' (g.carried scope q.key (n + more) found)) (n + k + more)) := by
          refine ih _ (by omega) fun γ sub fixes => ?_
          have goes := (alike γ (fun i j h => sub i j (shifted_mono (Nat.le_add_right n k) h)) fixes).2
          exact goes _ _ ((agree_carried le told.1 told.2).mono sub)
        rwa [Nat.add_right_comm] at later

open Classical in
variable (g) in
noncomputable def cautious (spot key : Key) : Verdict :=
  if g.Named spot key (g.verdict key) then g.verdict key else .unsettled

theorem named_cautious (spot key : Key) : g.Named spot key (g.cautious spot key) := by
  unfold cautious
  split
  · assumption
  · trivial

theorem alike_self (γ : Matching) (fixes : γ.Fixes g.old) (binding : Binding) :
    (g.dialogue binding).Alike γ (Value.Alike γ) (g.dialogue binding) :=
  alike_dialogue fixes g.purity g.blind binding none

section
variable {spot : Key}

theorem agree_of_play {binding : Binding} {found : Except Error Value} {k : Nat}
    (played : g.play (g.cautious spot) (g.dialogue binding) 0 = .settled found k) :
    Agree (Value.Alike (g.shifted spot 0 0 k)) found found := by
  have both : g.Shifted Value.Alike spot 0 0 (g.play (g.cautious spot) (g.dialogue binding) 0)
      (g.play (g.cautious spot) (g.dialogue binding) 0) :=
    shifted_play (named_cautious spot) (Nat.le_refl 0) fun γ _ fixes => alike_self γ fixes binding
  rw [played] at both
  cases both with
  | settled _ agree => exact agree

variable (stuck : ¬ ∃ found k, g.SettlesOn spot found k)
include stuck

/-- Playing cautiously is enough, since whatever is asked for on the way has settled before. -/
theorem play_cautious {d : Dialogue Question Value} {n m : Nat} {outcome : Except Error Value}
    (h : g.Settles d n outcome m) : g.play (g.cautious spot) d n = .settled outcome m := by
  induction h with
  | finish => rfl
  | take _ ih => exact ih
  | @unknown q next n outcome m absent _ ih =>
    have told : g.cautious spot q.key = .unknown := by
      unfold cautious
      rw [(Judged.unknown absent).verdict_eq, if_pos (show g.Named spot q.key .unknown from trivial)]
    simp only [play, told, ih]
  | @known q next n binding found k outcome m bound settles _ ihFound ih =>
    have on : g.SettlesOn q.key found k := ⟨binding, bound, settles⟩
    have other : q.key ≠ spot := fun same => stuck ⟨found, k, same ▸ on⟩
    have named : g.Named spot q.key (.settled binding.scope found k) := ⟨other, agree_of_play ihFound⟩
    have told : g.cautious spot q.key = .settled binding.scope found k := by
      unfold cautious
      rw [(Judged.settled bound on).verdict_eq, if_pos named]
    simp only [play, told, ih]

/-- Nothing that settles has to do with a key that does not. -/
theorem named_verdict (key : Key) : g.Named spot key (g.verdict key) := by
  have judged := g.judged key
  generalize g.verdict key = v at judged
  cases judged with
  | unknown _ | unsettled _ _ => trivial
  | @settled _ found k _ on =>
    refine ⟨fun same => stuck ⟨found, k, same ▸ on⟩, ?_⟩
    obtain ⟨binding, -, settles⟩ := on
    exact agree_of_play (play_cautious stuck settles)

end

end Wiring.Interpreter.Grounds
