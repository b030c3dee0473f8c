import Wiring.Proofs.Follow.Deliver
import Wiring.Proofs.Settling

/-! # Charts of resolutions

The chart of a resolution matches names with the identities that have been taken. What a key settles on
is named apart from any user, so a resolution starts from the names that last, and once it is done its
user takes over what it charted, with the names that the user has for it.
-/
namespace Wiring.Interpreter.Grounds
open Wiring.Runtime

variable (g : Grounds)

/-- An old identity, or a name that belongs to a singleton kept by now. -/
def Kept (s : State) (i : Nat) : Prop :=
  i < g.old ∨ ∃ key n, (∃ v, s.singletons.get? key = some v) ∧ i = g.lasting key n

def enduring (chart : Matching) : Matching := fun i j => chart i j ∧ ∀ m, i ≠ g.passing m

/-- How far a resolution has come: so many names are charted for what it makes, all other names last,
and each singleton that is kept is what its key settles on. -/
structure Tracks (active : List Key) (chart : Matching) (n : Nat) (s : State) : Prop where
  fixes : chart.Fixes g.old
  born : ∀ {i j}, chart i j → j < s.born
  named : ∀ {i j}, chart i j → g.Kept s i ∨ ∃ m < n, i = g.passing m
  stack : s.active = active
  singletons : ∀ {key v}, s.singletons.get? key = some v → ∃ found k, g.SettlesOn key (.ok found) k ∧
    Value.Alike (g.enduring chart) (found.rename (g.carry .singleton key 0)) v

variable {g} {active : List Key} {chart : Matching} {n : Nat} {s : State} {key : Key}

theorem Kept.ne_passing {i : Nat} (kept : g.Kept s i) (m : Nat) : i ≠ g.passing m := by
  rcases kept with old | ⟨key, n, -, rfl⟩
  · have above := g.above none m
    exact Nat.ne_of_lt (Nat.lt_of_lt_of_le old above)
  · exact g.lasting_ne_passing key n m

theorem Kept.mono {t : State} {i : Nat} (h : g.Kept s i)
    (kept : ∀ {q v}, s.singletons.get? q = some v → t.singletons.get? q = some v) : g.Kept t i :=
  h.imp_right fun ⟨q, l, ⟨v, found⟩, same⟩ => ⟨q, l, ⟨v, kept found⟩, same⟩

theorem tracks_start {born : Nat} (le : g.old ≤ born) (own : Table) :
    g.Tracks [] (fun i j => i = j ∧ i < g.old) 0 (Runtime.start born own) where
  fixes := by
    refine ⟨?_, fun i below => ⟨rfl, below⟩⟩
    rintro i j i' j' ⟨rfl, -⟩ ⟨rfl, -⟩
    exact Iff.rfl
  born := by
    rintro i j ⟨rfl, below⟩
    exact Nat.lt_of_lt_of_le below le
  named h := .inl (.inl h.2)
  stack := rfl
  singletons := nofun

theorem Tracks.later (tracks : g.Tracks active chart n s) {m : Nat} (le : n ≤ m) :
    g.Tracks active chart m s where
  __ := tracks
  named h := (tracks.named h).imp_right fun ⟨l, below, same⟩ => ⟨l, Nat.lt_of_lt_of_le below le, same⟩

theorem Tracks.of_own (tracks : g.Tracks active chart n s) (own : Table) :
    g.Tracks active chart n { s with own := own } where
  __ := tracks

theorem Tracks.forget (tracks : g.Tracks active chart n s) :
    g.Tracks active (g.enduring chart) 0 s where
  fixes := ⟨fun h h' => tracks.fixes.oneToOne h.1 h'.1,
    fun i below => ⟨tracks.fixes.fixed i below, Kept.ne_passing (s := s) (.inl below)⟩⟩
  born h := tracks.born h.1
  named h := by
    rcases tracks.named h.1 with kept | ⟨m, -, same⟩
    · exact .inl kept
    · exact absurd same (h.2 m)
  stack := tracks.stack
  singletons found := by
    obtain ⟨v', k, settles, alike⟩ := tracks.singletons found
    exact ⟨v', k, settles, alike.mono fun i j h => ⟨h, h.2⟩⟩

variable (g) in
def charted (chart : Matching) (n : Nat) (s : State) : Matching :=
  fun i j => chart i j ∨ i = g.passing n ∧ j = s.born

theorem Tracks.oneToOne_charted (tracks : g.Tracks active chart n s) :
    (g.charted chart n s).OneToOne := by
  have apart : ∀ {i j}, chart i j → (i = g.passing n ↔ j = s.born) := by
    intro i j h
    have below := tracks.born h
    constructor
    · rintro rfl
      rcases tracks.named h with kept | ⟨m, less, same⟩
      · exact absurd rfl (kept.ne_passing n)
      · have := g.passing_injective same
        omega
    · intro same
      omega
  rintro i j i' j' (h | ⟨rfl, rfl⟩) (h' | ⟨rfl, rfl⟩)
  · exact tracks.fixes.oneToOne h h'
  · exact apart h
  · exact eq_comm.trans ((apart h').trans eq_comm)
  · exact ⟨fun _ => rfl, fun _ => rfl⟩

theorem Tracks.take (tracks : g.Tracks active chart n s) :
    g.Tracks active (g.charted chart n s) (n + 1) { s with born := s.born + 1 } where
  fixes := ⟨tracks.oneToOne_charted, fun i below => .inl (tracks.fixes.fixed i below)⟩
  born := by
    rintro i j (h | ⟨rfl, rfl⟩)
    · exact Nat.lt_succ_of_lt (tracks.born h)
    · exact Nat.lt_succ_self _
  named := by
    rintro i j (h | ⟨rfl, rfl⟩)
    · exact (tracks.named h).imp_right fun ⟨m, below, same⟩ => ⟨m, Nat.lt_succ_of_lt below, same⟩
    · exact .inr ⟨n, Nat.lt_succ_self n, rfl⟩
  stack := tracks.stack
  singletons found := by
    obtain ⟨v', k, settles, alike⟩ := tracks.singletons found
    exact ⟨v', k, settles, alike.mono fun i j h => ⟨.inl h.1, h.2⟩⟩

theorem extends_charted (g : Grounds) (active : List Key) (chart : Matching) (n : Nat) (s : State) :
    Extends active chart s (g.charted chart n s) { s with born := s.born + 1 } where
  sub _ _ := .inl
  fresh := by
    rintro i j (h | ⟨rfl, rfl⟩)
    · exact .inl h
    · exact .inr (Nat.le_refl _)
  born := Nat.le_succ _
  kept := id
  idle _ _ := id

theorem Tracks.taken (tracks : g.Tracks active chart n s) {named made : Except Error Object}
    (agree : Agree (Object.Alike (g.charted chart n s)) named made) :
    ∃ chart', Extends active chart s chart' (Dialogue.taken made s) ∧
      g.Tracks active chart' (n + 1) (Dialogue.taken made s) ∧
      Agree (Object.Alike chart') named made := by
  cases agree with
  | ok objects => exact ⟨_, extends_charted g active chart n s, tracks.take, .ok objects⟩
  | error e => exact ⟨_, .refl active chart s, tracks.later (Nat.le_succ n), .error e⟩

theorem Tracks.enter (tracks : g.Tracks active chart n s) (key : Key) :
    g.Tracks (key :: active) (g.enduring chart) 0 (entered key s) where
  __ := tracks.forget
  stack := congrArg (key :: ·) tracks.stack

theorem Tracks.exit (tracks : g.Tracks (key :: active) chart n s) :
    g.Tracks active chart n (exited key s) where
  __ := tracks
  stack := erase_innermost tracks.stack

variable (g) in
/-- The chart of a user joined with that of a key in its scope. -/
def join (chart inner : Matching) (scope : Scope) (key : Key) (n : Nat) : Matching :=
  fun i j => chart i j ∨ ∃ i', inner i' j ∧ i = g.carry scope key n i'

theorem Kept.ne_delivered {scope : Scope} {i : Nat} (kept : g.Kept s i) (isOpen : Open key scope s)
    (n m : Nat) : i ≠ g.delivered scope key n m := by
  cases scope with
  | prototype => exact kept.ne_passing (n + m)
  | singleton =>
    rintro rfl
    rcases kept with old | ⟨q, l, ⟨v, found⟩, same⟩
    · exact absurd (g.above (some key) m) (Nat.not_le.mpr old)
    · obtain ⟨same, -⟩ := g.injective same
      cases same
      exact absurd (found.symm.trans (isOpen rfl)) nofun

theorem Tracks.ne_delivered {scope : Scope} (tracks : g.Tracks active chart n s)
    (isOpen : Open key scope s) {i j : Nat} (h : chart i j) (m : Nat) :
    i ≠ g.delivered scope key n m := by
  rcases tracks.named h with kept | ⟨l, below, rfl⟩
  · exact kept.ne_delivered isOpen n m
  · cases scope with
    | prototype =>
      intro same
      have := g.passing_injective same
      omega
    | singleton => exact (g.lasting_ne_passing key m l).symm

theorem delivered_injective (g : Grounds) (scope : Scope) (key : Key) (n : Nat) :
    Function.Injective (g.delivered scope key n) := by
  intro m m' same
  cases scope with
  | prototype => exact Nat.add_left_cancel (g.passing_injective same)
  | singleton => exact (g.injective same).2

section
variable {inner : Matching} {k : Nat} {u t : State} {scope : Scope}
  (tracks : g.Tracks active chart n s) (isOpen : Open key scope s)
  (tracks' : g.Tracks (key :: active) inner k u)
  (grown : Extends (key :: active) (g.enduring chart) (entered key s) inner u)

include isOpen grown in
theorem open_of_extends : Open key scope u := fun single =>
  grown.idle key List.mem_cons_self (isOpen single)

include isOpen tracks' grown in
theorem carry_inj {i j i' j' : Nat} (h : inner i j) (h' : inner i' j')
    (same : g.carry scope key n i = g.carry scope key n i') : i = i' := by
  have isOpen' := open_of_extends isOpen grown
  have apart : ∀ {i j m}, inner i j → (∀ m, i ≠ g.passing m) →
      g.carry scope key n i ≠ g.carry scope key n (g.passing m) := by
    intro i j m h settled same
    rw [carry_of_settled g settled, carry_passing] at same
    rcases tracks'.named h with kept | ⟨l, -, passing⟩
    · exact kept.ne_delivered isOpen' n m same
    · exact settled l passing
  by_cases passing : ∃ m, i = g.passing m <;> by_cases passing' : ∃ m, i' = g.passing m
  · obtain ⟨m, rfl⟩ := passing
    obtain ⟨m', rfl⟩ := passing'
    rw [carry_passing, carry_passing] at same
    exact congrArg _ (delivered_injective g scope key n same)
  · obtain ⟨m, rfl⟩ := passing
    exact absurd same.symm (apart h' fun m same => passing' ⟨m, same⟩)
  · obtain ⟨m, rfl⟩ := passing'
    exact absurd same (apart h fun m same => passing ⟨m, same⟩)
  · rwa [carry_of_settled g fun m same => passing ⟨m, same⟩,
      carry_of_settled g fun m same => passing' ⟨m, same⟩] at same

/-- A singleton that is made of charted objects is made of names that last once they are joined. -/
theorem enduring_join {i j : Nat} {q : Key} (h : inner i j) :
    g.enduring (g.join chart inner .singleton q n) (g.carry .singleton q 0 i) j := by
  refine ⟨.inr ⟨i, h, rfl⟩, fun m same => ?_⟩
  by_cases passing : ∃ m, i = g.passing m
  · obtain ⟨m', rfl⟩ := passing
    rw [carry_passing] at same
    exact g.lasting_ne_passing q m' m same
  · rw [carry_of_settled g fun m same => passing ⟨m, same⟩] at same
    exact passing ⟨m, same⟩

section
include tracks isOpen tracks' grown

theorem oneToOne_join : (g.join chart inner scope key n).OneToOne := by
  have mixed : ∀ {i j i' j'}, chart i j → inner i' j' → (i = g.carry scope key n i' ↔ j = j') := by
    intro i j i' j' h h'
    constructor
    · intro same
      by_cases passing : ∃ m, i' = g.passing m
      · obtain ⟨m, rfl⟩ := passing
        rw [carry_passing] at same
        exact absurd same (tracks.ne_delivered isOpen h m)
      · have settled : ∀ m, i' ≠ g.passing m := fun m same => passing ⟨m, same⟩
        rw [carry_of_settled g settled] at same
        subst same
        exact (tracks'.fixes.oneToOne (grown.sub i j ⟨h, settled⟩) h').mp rfl
    · rintro rfl
      rcases grown.fresh h' with ⟨early, settled⟩ | above
      · rw [carry_of_settled g settled]
        exact (tracks.fixes.oneToOne h early).mpr rfl
      · exact absurd (tracks.born h) (Nat.not_lt.mpr above)
  rintro i j i' j' (h | ⟨i, h, rfl⟩) (h' | ⟨i', h', rfl⟩)
  · exact tracks.fixes.oneToOne h h'
  · exact mixed h h'
  · exact eq_comm.trans ((mixed h' h).trans eq_comm)
  · rw [← tracks'.fixes.oneToOne h h']
    exact ⟨carry_inj isOpen tracks' grown h h', fun same => congrArg _ same⟩

/-- The user goes on with the joined chart from a state with the same identities and the singletons
kept by then, and perhaps the one that has been made. -/
theorem Tracks.join (fresh : key ∉ active) (born : t.born = u.born) (stack : t.active = active)
    (kept : ∀ {q v}, u.singletons.get? q = some v → t.singletons.get? q = some v)
    (lands : ∀ m < k, g.Kept t (g.delivered scope key n m) ∨
      ∃ l < n + k, g.delivered scope key n m = g.passing l)
    (singletons : ∀ {q v}, t.singletons.get? q = some v → u.singletons.get? q = some v ∨
      scope = .singleton ∧ q = key ∧ ∃ found l, g.SettlesOn key (.ok found) l ∧ Value.Alike inner found v) :
    g.Tracks active (g.join chart inner scope key n) (n + k) t ∧
      Extends active chart s (g.join chart inner scope key n) t := by
  refine ⟨⟨⟨oneToOne_join tracks isOpen tracks' grown, fun i below => .inl (tracks.fixes.fixed i below)⟩,
    ?_, ?_, stack, ?_⟩, ⟨fun _ _ => .inl, ?_, ?_, fun found => kept (grown.kept found), ?_⟩⟩
  · rintro i j (h | ⟨i, h, rfl⟩)
    · exact born ▸ Nat.lt_of_lt_of_le (tracks.born h) grown.born
    · exact born ▸ tracks'.born h
  · rintro i j (h | ⟨i, h, rfl⟩)
    · rcases tracks.named h with early | ⟨l, below, same⟩
      · exact .inl (early.mono fun found => kept (grown.kept found))
      · exact .inr ⟨l, Nat.lt_add_right k below, same⟩
    · rcases tracks'.named h with early | ⟨m, below, rfl⟩
      · rw [carry_of_settled g early.ne_passing]
        exact .inl (early.mono kept)
      · rw [carry_passing]
        exact lands m below
  · intro q v found
    rcases singletons found with early | ⟨rfl, rfl, found, l, on, alike⟩
    · obtain ⟨v', l, on, alike⟩ := tracks'.singletons early
      refine ⟨v', l, on, alike.mono fun i j h => ⟨.inr ⟨i, h.1, ?_⟩, h.2⟩⟩
      exact (carry_of_settled g h.2 scope key n).symm
    · exact ⟨found, l, on, alike.rename fun i j h => enduring_join h⟩
  · rintro i j (h | ⟨i, h, rfl⟩)
    · exact .inl h
    · rcases grown.fresh h with ⟨early, lasts⟩ | above
      · rw [carry_of_settled g lasts]
        exact .inl early
      · exact .inr above
  · exact born ▸ grown.born
  · intro q member none
    cases found : t.singletons.get? q with
    | none => rfl
    | some v =>
      rcases singletons found with early | ⟨-, rfl, -⟩
      · have idle := grown.idle q (List.mem_cons_of_mem key member) none
        exact absurd (idle.symm.trans early) nofun
      · exact absurd member fresh

end

end

end Wiring.Interpreter.Grounds
