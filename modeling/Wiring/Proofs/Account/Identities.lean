import Wiring.Proofs.Account
import Wiring.Proofs.Dialogue.Identities
import Mathlib.Data.List.Pairwise

/-! # Singletons and prototypes

Two accounts of deliveries. What is delivered for a singleton is what is kept for it, and that never
changes. What is delivered for a prototype has an identity that was taken while it was made and that
nobody else has met before.
-/
namespace Wiring

variable {scopeOf : Key → Scope} {fresh : Key → Prop} {key : Key} {v : Value} {c c' c'' : Core}
  {xs ys : List (Key × Value)}

namespace Core

@[simp] theorem born_keep (key : Key) (scope : Scope) (v : Value) (c : Core) :
    (c.keep key scope v).2.born = c.born := by
  cases scope <;> rfl

theorem get?_keep_of_some {q : Key} {w : Value} (found : c.singletons.get? q = some w) (key : Key)
    (scope : Scope) (v : Value) : (c.keep key scope v).2.singletons.get? q = some w := by
  cases scope with
  | prototype => exact found
  | singleton =>
    simp only [keep, SortedMap.get?_insertIfNew]
    by_cases here : q = key
    · rw [if_pos here, ← here, found]
      rfl
    · rwa [if_neg here]

theorem get?_keep_singleton (key : Key) (v : Value) (c : Core) :
    (c.keep key .singleton v).2.singletons.get? key = some (c.keep key .singleton v).1 := by
  simp only [keep, SortedMap.get?_insertIfNew, if_true]

end Core

structure Core.Keeps (scopeOf : Key → Scope) (c : Core) (xs : List (Key × Value)) (c' : Core) : Prop where
  stays : ∀ {key v}, c.singletons.get? key = some v → c'.singletons.get? key = some v
  delivered : ∀ {key v}, (key, v) ∈ xs → scopeOf key = .singleton → c'.singletons.get? key = some v

namespace Core.Keeps

theorem unique {w : Value} (keeps : c.Keeps scopeOf xs c') (single : scopeOf key = .singleton)
    (first : (key, v) ∈ xs) (second : (key, w) ∈ xs) : v = w :=
  Option.some.inj ((keeps.delivered first single).symm.trans (keeps.delivered second single))

theorem append (first : c.Keeps scopeOf xs c') (later : c'.Keeps scopeOf ys c'') :
    c.Keeps scopeOf (xs ++ ys) c'' where
  stays found := later.stays (first.stays found)
  delivered member single := by
    rcases List.mem_append.mp member with earlier | now
    · exact later.stays (first.delivered earlier single)
    · exact later.delivered now single

theorem found (kept : c.singletons.get? key = some v) : c.Keeps scopeOf [(key, v)] c where
  stays := id
  delivered member _ := by
    cases List.mem_singleton.mp member
    exact kept

theorem keep (key : Key) (v : Value) (c : Core) :
    c.Keeps scopeOf [(key, (c.keep key (scopeOf key) v).1)] (c.keep key (scopeOf key) v).2 where
  stays kept := get?_keep_of_some kept key (scopeOf key) v
  delivered {q w} member single := by
    cases List.mem_singleton.mp member
    rw [single]
    exact get?_keep_singleton key v c

end Core.Keeps

def Account.singletons (scopeOf : Key → Scope) (fresh : Key → Prop) :
    Account .anything scopeOf fresh where
  inv _ _ := True
  covers _ c xs _ c' := c.Keeps scopeOf xs c'
  nothing _ _ := ⟨id, nofun⟩
  append first later := first.append later
  take _ := ⟨trivial, id, nofun⟩
  inside w := w
  inv_inside _ := trivial
  kept _ _ found := ⟨trivial, .found found⟩
  failed _ _ keeps := ⟨_, le_refl _, trivial, keeps⟩
  made {w _ _ c' _ key v} _ _ keeps _ _ := ⟨w, le_refl w, trivial, trivial, keeps.append (.keep key v c')⟩

variable {old : Nat} {w w' w'' : Names}

theorem Value.Over.sameObject_eq_false {ids : Set Nat} (named : v.Over ids) {o : Object} (new : o.id ∉ ids) :
    v.sameObject o.value = false := by
  cases v with
  | literal value => rfl
  | object i type className history =>
    have member : i ∈ ids := named.1.2
    exact decide_eq_false fun same => new (same ▸ member)

namespace Names

/-- No identity is known that has not been taken, those of the object being made are known to nobody else,
and the singletons are known to all. -/
structure Sound (old : Nat) (w : Names) (c : Core) : Prop where
  old_le : old ≤ c.born
  taken : ∀ i ∈ w.all old, i < c.born
  secret : ∀ i ∈ w.own, i ∉ w.shared old
  kept : ∀ {key v}, c.singletons.get? key = some v → v.Over (w.shared old)

/-- New names stand for identities taken meanwhile. What is delivered is known to all from then on, and if
it is to be made anew, then nobody else has known it, nor was it delivered before. -/
structure Covers (old : Nat) (fresh : Key → Prop) (w : Names) (c : Core) (xs : List (Key × Value))
    (w' : Names) (c' : Core) : Prop where
  born : c.born ≤ c'.born
  known : w.known ⊆ w'.known
  new : ∀ i ∈ w'.all old, i ∈ w.all old ∨ c.born ≤ i
  named : ∀ x ∈ xs, x.2.Over (w'.shared old)
  made : ∀ x ∈ xs, fresh x.1 → ∃ o : Object, o.value = x.2 ∧ o.id ∉ w.shared old
  apart : xs.Pairwise fun x y => fresh y.1 → x.2.sameObject y.2 = false

/-- The names once an object with names of its own has been made, or could not be made. -/
def publish (w w' : Names) : Names := ⟨w'.known ∪ w'.own, w.own⟩

def inside (w : Names) : Names := ⟨w.known, ∅⟩

theorem shared_publish (w w' : Names) : (w.publish w').shared old = w'.all old :=
  (Set.union_assoc (Set.Iio old) w'.known w'.own).symm

theorem all_inside (w : Names) : w.inside.all old = w.shared old := Set.union_empty _

theorem Sound.inside (sound : w.Sound old c) : w.inside.Sound old c where
  __ := sound
  taken i member := sound.taken i (.inl (all_inside w ▸ member))
  secret _ member := member.elim

theorem Sound.take (sound : w.Sound old c) :
    ((Protocol.identities old).take w c.born).Sound old c.next where
  old_le := Nat.le_succ_of_le sound.old_le
  taken i member := by
    rcases member with shared | rfl | own
    · exact Nat.lt_succ_of_lt (sound.taken i (.inl shared))
    · exact Nat.lt_succ_self c.born
    · exact Nat.lt_succ_of_lt (sound.taken i (.inr own))
  secret i member := by
    rcases member with rfl | own
    · exact fun shared => Nat.lt_irrefl _ (sound.taken _ (.inl shared))
    · exact sound.secret i own
  kept := sound.kept

namespace Covers

theorem nothing (w : Names) (c : Core) : Covers old fresh w c [] w c :=
  ⟨le_refl c.born, subset_rfl, fun _ => .inl, nofun, nofun, .nil⟩

theorem shared_sub (covers : Covers old fresh w c xs w' c') : w.shared old ⊆ w'.shared old :=
  Set.union_subset_union_right _ covers.known

theorem append (first : Covers old fresh w c xs w' c') (later : Covers old fresh w' c' ys w'' c'') :
    Covers old fresh w c (xs ++ ys) w'' c'' where
  born := first.born.trans later.born
  known := first.known.trans later.known
  new i member := by
    rcases later.new i member with earlier | taken
    · exact first.new i earlier
    · exact .inr (first.born.trans taken)
  named x member := by
    rcases List.mem_append.mp member with earlier | now
    · exact (first.named x earlier).mono later.shared_sub
    · exact later.named x now
  made x member calls := by
    rcases List.mem_append.mp member with earlier | now
    · exact first.made x earlier calls
    · obtain ⟨o, same, unknown⟩ := later.made x now calls
      exact ⟨o, same, fun shared => unknown (first.shared_sub shared)⟩
  apart := by
    refine List.pairwise_append.mpr ⟨first.apart, later.apart, fun x earlier y now calls => ?_⟩
    obtain ⟨o, same, unknown⟩ := later.made y now calls
    rw [← same]
    exact (first.named x earlier).sameObject_eq_false unknown

theorem take (w : Names) (c : Core) :
    Covers old fresh w c [] ((Protocol.identities old).take w c.born) c.next where
  born := Nat.le_succ c.born
  known := subset_rfl
  new i member := by
    rcases member with shared | rfl | own
    · exact .inl (.inl shared)
    · exact .inr (le_refl c.born)
    · exact .inl (.inr own)
  named := nofun
  made := nofun
  apart := .nil

section
variable (covers : Covers old fresh w.inside c xs w' c')
include covers

theorem le_publish : w ≤ w.publish w' := ⟨covers.known.trans Set.subset_union_left, subset_rfl⟩

theorem publish : Covers old fresh w c xs (w.publish w') c' where
  born := covers.born
  known := covers.known.trans Set.subset_union_left
  new i member := by
    rcases member with shared | own
    · rw [shared_publish] at shared
      rcases covers.new i shared with earlier | taken
      · exact .inl (.inl (all_inside w ▸ earlier))
      · exact .inr taken
    · exact .inl (.inr own)
  named x member := by
    rw [shared_publish]
    exact (covers.named x member).mono Set.subset_union_left
  made := covers.made
  apart := covers.apart

theorem sound_publish (sound : w.Sound old c) (sound' : w'.Sound old c') :
    (w.publish w').Sound old c' where
  old_le := sound'.old_le
  taken i member := by
    rcases member with shared | own
    · exact sound'.taken i (shared_publish w w' ▸ shared)
    · exact (sound.taken i (.inr own)).trans_le covers.born
  secret i own shared := by
    -- What the inner object leaves behind was known before or is new, so it is not the outer object's own.
    rw [shared_publish] at shared
    rcases covers.new i shared with earlier | taken
    · exact sound.secret i own (all_inside w ▸ earlier)
    · exact absurd (sound.taken i (.inr own)) (Nat.not_lt.mpr taken)
  kept found := by
    rw [shared_publish]
    exact (sound'.kept found).mono Set.subset_union_left

end

theorem snoc (covers : Covers old fresh w c xs w' c') (named : v.Over (w'.shared old))
    (made : fresh key → ∃ o : Object, o.value = v ∧ o.id ∉ w.shared old ∧
      ∀ x ∈ xs, x.2.sameObject v = false) (same : c''.born = c'.born) :
    Covers old fresh w c (xs ++ [(key, v)]) w' c'' where
  born := same ▸ covers.born
  known := covers.known
  new := covers.new
  named x member := by
    rcases List.mem_append.mp member with earlier | now
    · exact covers.named x earlier
    · exact List.mem_singleton.mp now ▸ named
  made x member calls := by
    rcases List.mem_append.mp member with earlier | now
    · exact covers.made x earlier calls
    · obtain rfl := List.mem_singleton.mp now
      obtain ⟨o, value, unknown, -⟩ := made calls
      exact ⟨o, value, unknown⟩
  apart := by
    refine List.pairwise_append.mpr ⟨covers.apart, List.pairwise_singleton _ _, fun x earlier y now calls => ?_⟩
    obtain rfl := List.mem_singleton.mp now
    obtain ⟨-, -, -, apart⟩ := made calls
    exact apart x earlier

end Covers

theorem Sound.keep (sound : w.Sound old c) (named : v.Over (w.shared old)) (key : Key) (scope : Scope) :
    w.Sound old (c.keep key scope v).2 ∧ (c.keep key scope v).1.Over (w.shared old) := by
  cases scope with
  | prototype => exact ⟨sound, named⟩
  | singleton =>
    refine ⟨{ sound with kept := fun found => ?_ }, ?_⟩
    · rcases SortedMap.get?_of_insertIfNew found with earlier | ⟨-, rfl⟩
      · exact sound.kept earlier
      · exact named
    · cases found : c.singletons.get? key with
      | none => simpa [Core.keep, found] using named
      | some kept => simpa [Core.keep, found] using sound.kept found

end Names

/-- The account of prototypes. -/
def Account.prototypes (old : Nat) (scopeOf : Key → Scope) (fresh : Key → Prop)
    (prototype : ∀ key, fresh key → scopeOf key = .prototype) :
    Account (.identities old) scopeOf fresh where
  inv w c := w.Sound old c
  covers w c xs w' c' := Names.Covers old fresh w c xs w' c'
  nothing := .nothing
  append first later := first.append later
  take sound := ⟨sound.take, .take _ _⟩
  inside := Names.inside
  inv_inside sound := sound.inside
  kept {w c key v} sound single found := by
    have named : v.Over (w.shared old) := sound.kept found
    have stale : ¬ fresh key := fun calls => nomatch single.symm.trans (prototype key calls)
    refine ⟨named.mono Set.subset_union_left, ?_⟩
    exact (Names.Covers.nothing w c).snoc named (fun calls => absurd calls stale) rfl
  failed sound sound' covers :=
    ⟨_, covers.le_publish, covers.sound_publish sound sound', covers.publish⟩
  made {w w' c c' xs key v} sound sound' covers named crafted := by
    have later : (w.publish w').Sound old c' := covers.sound_publish sound sound'
    have shared : v.Over ((w.publish w').shared old) := by
      rw [Names.shared_publish]
      exact named
    obtain ⟨kept, delivered⟩ := later.keep shared key (scopeOf key)
    refine ⟨_, covers.le_publish, kept, delivered.mono Set.subset_union_left, ?_⟩
    refine covers.publish.snoc delivered (fun calls => ?_) (Core.born_keep key _ v c')
    obtain ⟨o, rfl, own⟩ := crafted calls
    -- Until now only its own functions know the object, whereas all that was delivered is known to all.
    have unknown : o.id ∉ w'.shared old := sound'.secret o.id own
    rw [prototype key calls]
    refine ⟨o, rfl, fun earlier => unknown (covers.shared_sub earlier), fun x member => ?_⟩
    exact (covers.named x member).sameObject_eq_false unknown

end Wiring
