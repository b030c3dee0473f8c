import Wiring.Proofs.Follow

/-! # Following the draft of a key

A prototype is made on the chart of what it is made for. A singleton is made on the settled part of the
chart, under its own names; once it is kept, what it charted joins the chart of its user. No user in the
making is kept before it is done, so the two charts have only settled names in common.
-/
namespace Wiring.Runtime
open Act Filter

variable {ρ : Type}

theorem Extends.pop {active : List Key} {key : Key} {chart chart' : Matching} {s t : Runtime ρ}
    (grown : Extends (key :: active) chart { s with active := key :: s.active } chart' t) :
    Extends active chart s chart' { t with active := t.active.erase key } where
  __ := grown
  idle q member := grown.idle q (List.mem_cons_of_mem key member)

namespace Scene

variable {scene : Scene ρ} {owner : Option Key} {active : List Key} {chart : Matching} {n : Nat}
  {s : Runtime ρ} {key : Key}

theorem Tracks.push (tracks : scene.Tracks owner active chart n s) (key : Key) :
    scene.Tracks owner (key :: active) chart n { s with active := key :: s.active } where
  __ := tracks
  stack := congrArg _ tracks.stack
  unsettled same := ⟨List.mem_cons_of_mem key (tracks.unsettled same).1, (tracks.unsettled same).2⟩

theorem Tracks.pop (tracks : scene.Tracks owner active chart n s) {chart' : Matching} {m : Nat}
    {t : Runtime ρ} (tracks' : scene.Tracks owner (key :: active) chart' m t) :
    scene.Tracks owner active chart' m { t with active := t.active.erase key } where
  __ := tracks'
  stack := erase_innermost tracks'.stack
  unsettled same := ⟨(tracks.unsettled same).1, (tracks'.unsettled same).2⟩

/-- The making of a singleton starts from what is settled. -/
theorem Tracks.enter (tracks : scene.Tracks owner active chart n s)
    (absent : s.singletons.get? key = none) :
    scene.Tracks (some key) (key :: active) (scene.settled chart s) 0
      { s with active := key :: s.active } where
  fixes := ⟨fun h h' => tracks.fixes.oneToOne h.1 h'.1,
    fun i below => ⟨tracks.fixes.fixed i below, .inl below⟩⟩
  born h := tracks.born h.1
  named h := .inl h.2
  stack := congrArg _ tracks.stack
  unsettled same := Option.some.inj same ▸ ⟨List.mem_cons_self, absent⟩
  singletons found := by
    obtain ⟨v', m, drafted, alike⟩ := tracks.singletons found
    exact ⟨v', m, drafted, alike.mono fun i j h => ⟨h, h.2⟩⟩
  own := tracks.own

def keeping (t : Runtime ρ) (key : Key) (v : Value) : Runtime ρ :=
  { t with active := t.active.erase key, singletons := t.singletons.insertIfNew key v }

section
variable {t : Runtime ρ} (absent : t.singletons.get? key = none) (v : Value)
include absent

theorem get?_keeping (q : Key) :
    (keeping t key v).singletons.get? q = if q = key then some v else t.singletons.get? q := by
  unfold keeping
  rw [SortedMap.get?_insertIfNew, absent, Option.getD_none]

theorem get?_keeping_of_some {q : Key} {w : Value} (found : t.singletons.get? q = some w) :
    (keeping t key v).singletons.get? q = some w := by
  rw [get?_keeping absent, if_neg, found]
  rintro rfl
  rw [absent] at found
  cases found

theorem kept_keeping {i : Nat} (kept : scene.Kept t i) : scene.Kept (keeping t key v) i := by
  rcases kept with old | ⟨q, k, ⟨w, found⟩, rfl⟩
  · exact .inl old
  · exact .inr ⟨q, k, ⟨w, get?_keeping_of_some absent v found⟩, rfl⟩

end

section
variable (tracks : scene.Tracks owner active chart n s) (fresh : key ∉ active) {chart' : Matching}
  {m : Nat} {t : Runtime ρ} (tracks' : scene.Tracks (some key) (key :: active) chart' m t)
  (grown : Extends (key :: active) (scene.settled chart s) { s with active := key :: s.active } chart' t)

section
include tracks fresh tracks' grown

/-- What is charted for the singleton and for its user belongs to both only if it is settled. -/
theorem apart_of_enter {i j j' : Nat} (h : chart i j) (h' : chart' i j') : chart' i j := by
  rcases tracks.named h with kept | ⟨k, -, rfl⟩
  · exact grown.sub i j ⟨h, kept⟩
  -- A name of the user's own: the user is active, so it is not among the singletons kept.
  · rcases tracks'.named h' with (old | ⟨q, k', ⟨v, found⟩, same⟩) | ⟨k', -, same⟩
    · have := scene.above owner k
      omega
    · obtain ⟨rfl, -⟩ := scene.injective same
      obtain ⟨member, absent⟩ := tracks.unsettled rfl
      rw [grown.idle q (List.mem_cons_of_mem key member) absent] at found
      cases found
    · obtain ⟨rfl, -⟩ := scene.injective same
      exact absurd (tracks.unsettled rfl).1 fresh

theorem oneToOne_leave : Matching.OneToOne fun i j => chart i j ∨ chart' i j := by
  have mixed : ∀ {i j i' j'}, chart i j → chart' i' j' → (i = i' ↔ j = j') := by
    intro i j i' j' h h'
    constructor
    · rintro rfl
      exact (tracks'.fixes.oneToOne (apart_of_enter tracks fresh tracks' grown h h') h').mp rfl
    · rintro rfl
      rcases grown.fresh h' with settled | above
      · exact (tracks.fixes.oneToOne h settled.1).mpr rfl
      · exact absurd (tracks.born h) (Nat.not_lt.mpr above)
  rintro i j i' j' (h | h) (h' | h')
  · exact tracks.fixes.oneToOne h h'
  · exact mixed h h'
  · exact eq_comm.trans ((mixed h' h).trans eq_comm)
  · exact tracks'.fixes.oneToOne h h'

end

include tracks' in
theorem Tracks.kept_of_keeping (v : Value) {i j : Nat} (h : chart' i j) :
    scene.Kept (keeping t key v) i := by
  have absent : t.singletons.get? key = none := (tracks'.unsettled rfl).2
  rcases tracks'.named h with settled | ⟨k, -, rfl⟩
  · exact kept_keeping absent v settled
  · exact .inr ⟨key, k, ⟨v, by rw [get?_keeping absent, if_pos rfl]⟩, rfl⟩

include fresh tracks' grown in
theorem idle_keeping (v : Value) {q : Key} (member : q ∈ active) (none : s.singletons.get? q = none) :
    (keeping t key v).singletons.get? q = Option.none := by
  rw [get?_keeping (tracks'.unsettled rfl).2, if_neg, grown.idle q (List.mem_cons_of_mem key member) none]
  rintro rfl
  exact fresh member

include fresh tracks' grown in
theorem extends_leave (v : Value) :
    Extends active chart s (fun i j => chart i j ∨ chart' i j) (keeping t key v) where
  sub _ _ := .inl
  fresh := by
    rintro i j (h | h)
    · exact .inl h
    · exact (grown.fresh h).imp_left And.left
  born := grown.born
  kept found := get?_keeping_of_some (tracks'.unsettled rfl).2 v (grown.kept found)
  idle _ := idle_keeping fresh tracks' grown v

include tracks fresh tracks' grown in
theorem Tracks.leave {v' v : Value}
    (drafted : ∀ᶠ depth in atTop, (scene.draft (some key) key depth).run 0 = some (v', m))
    (alike : Value.Alike chart' v' v) :
    scene.Tracks owner active (fun i j => chart i j ∨ chart' i j) n (keeping t key v) where
  fixes := ⟨oneToOne_leave tracks fresh tracks' grown, fun i below => .inl (tracks.fixes.fixed i below)⟩
  born := by
    rintro i j (h | h)
    · exact Nat.lt_of_lt_of_le (tracks.born h) grown.born
    · exact tracks'.born h
  named := by
    rintro i j (h | h)
    · refine (tracks.named h).imp_left fun kept => kept_keeping (tracks'.unsettled rfl).2 v ?_
      rcases kept with old | ⟨q, k, ⟨w, found⟩, rfl⟩
      · exact .inl old
      · exact .inr ⟨q, k, ⟨w, grown.kept found⟩, rfl⟩
    · exact .inl (tracks'.kept_of_keeping v h)
  stack := erase_innermost tracks'.stack
  unsettled same := by
    obtain ⟨member, none⟩ := tracks.unsettled same
    exact ⟨member, idle_keeping fresh tracks' grown v member none⟩
  singletons {q w} found := by
    have absent : t.singletons.get? key = none := (tracks'.unsettled rfl).2
    rw [get?_keeping absent] at found
    by_cases hq : q = key
    · rw [if_pos hq] at found
      cases found
      subst hq
      exact ⟨v', m, drafted, alike.mono fun i j h => ⟨.inr h, tracks'.kept_of_keeping v h⟩⟩
    · rw [if_neg hq] at found
      obtain ⟨w', k, made, same⟩ := tracks'.singletons found
      exact ⟨w', k, made, same.mono fun i j h => ⟨.inr h.1, kept_keeping absent v h.2⟩⟩
  own := tracks'.own

end

theorem eventually_of_succ {p : Nat → Prop} (h : ∀ᶠ depth in atTop, p (depth + 1)) :
    ∀ᶠ depth in atTop, p depth := by
  obtain ⟨least, all⟩ := eventually_atTop.mp h
  refine eventually_atTop.mpr ⟨least + 1, fun depth above => ?_⟩
  obtain ⟨below, rfl⟩ : ∃ below, depth = below + 1 := ⟨depth - 1, by omega⟩
  exact all below (by omega)

theorem frequently_of_succ {p : Nat → Prop} (h : ∃ᶠ depth in atTop, p (depth + 1)) :
    ∃ᶠ depth in atTop, p depth := by
  refine frequently_atTop.mpr fun least => ?_
  obtain ⟨depth, above, holds⟩ := frequently_atTop.mp h least
  exact ⟨depth + 1, by omega, holds⟩

variable {least : Matching} {make : Act (Runtime ρ) Value} {body : Option Key → Nat → Draft Value}

/-- A key is made as its plan is drafted, one level deeper, unless it is being made already. -/
structure Makes (scene : Scene ρ) (active : List Key) (key : Key) (make : Act (Runtime ρ) Value)
    (body : Option Key → Nat → Draft Value) : Prop where
  drafts : ∀ owner depth, scene.draft owner key (depth + 1) = body owner depth
  follows : key ∉ active → ∀ owner,
    scene.Follows owner (key :: active) (fun _ _ => False) Value.Alike make (body owner)
  cycle : key ∈ active → scene.strict → ∀ owner depth n, (scene.draft owner key depth).run n = none

theorem follows_prototype (makes : Makes scene active key make body) :
    scene.Follows owner active least Value.Alike (within key make) (scene.draft owner key) := by
  intro chart n s le tracks limit
  obtain rfl := tracks.stack
  rw [runOn_within] at limit ⊢
  by_cases member : key ∈ s.active
  · rw [if_pos member]
    exact ⟨rfl, fun strict => Eventually.frequently (.of_forall fun depth =>
      makes.cycle member strict owner depth n)⟩
  · rw [if_neg member] at limit ⊢
    have made := makes.follows member owner chart n _ (fun _ _ => False.elim) (tracks.push key) limit
    generalize make.runOn { s with active := key :: s.active } = ran at made ⊢
    obtain ⟨e | v, t⟩ := ran
    · refine ⟨made.1, fun strict => frequently_of_succ ?_⟩
      simp only [makes.drafts]
      exact made.2 strict
    · obtain ⟨chart', v', m, drafted, counted, tracks', grown, alike⟩ := made
      refine ⟨chart', v', m, eventually_of_succ ?_, counted, tracks.pop tracks', grown.pop, alike⟩
      simp only [makes.drafts]
      exact drafted

theorem follows_singleton (makes : Makes scene active key make body) :
    scene.Follows owner active least Value.Alike (deliver key .singleton make)
      (scene.deliverDraft owner key .singleton) := by
  intro chart n s le tracks limit
  obtain rfl := tracks.stack
  have delivered : ∀ depth, (scene.deliverDraft owner key .singleton depth).run n =
      ((scene.draft (some key) key depth).run 0).map fun drafted => (drafted.1, n) := fun _ => rfl
  rw [runOn_deliver] at limit ⊢
  cases present : s.singletons.get? key with
  | some v =>
    obtain ⟨v', m, drafted, alike⟩ := tracks.singletons present
    refine ⟨chart, v', n, drafted.mono fun depth made => ?_, Nat.le_refl n, tracks, .refl _ chart s,
      alike.mono fun i j h => h.1⟩
    rw [delivered, made]
    rfl
  | none =>
    simp only [present, runOn_within] at limit ⊢
    by_cases member : key ∈ s.active
    · rw [if_pos member]
      refine ⟨rfl, fun strict => Eventually.frequently (.of_forall fun depth => ?_)⟩
      rw [delivered, makes.cycle member strict]
      rfl
    · rw [if_neg member] at limit ⊢
      have made := makes.follows member (some key) _ 0 _ (fun _ _ => False.elim) (tracks.enter present)
      generalize make.runOn { s with active := key :: s.active } = ran at made limit ⊢
      obtain ⟨e | v, t⟩ := ran
      · obtain ⟨bound, fails⟩ := made limit
        refine ⟨bound, fun strict => frequently_of_succ ((fails strict).mono fun depth none => ?_)⟩
        rw [delivered, makes.drafts, none]
        rfl
      · obtain ⟨chart', v', m, drafted, -, tracks', grown, alike⟩ := made limit
        have deep : ∀ᶠ depth in atTop, (scene.draft (some key) key depth).run 0 = some (v', m) := by
          refine eventually_of_succ ?_
          simp only [makes.drafts]
          exact drafted
        have absent : t.singletons.get? key = none := (tracks'.unsettled rfl).2
        simp only [absent, Option.getD_none]
        refine ⟨_, v', n, deep.mono fun depth made => ?_, Nat.le_refl n,
          tracks.leave member tracks' grown deep alike, extends_leave member tracks' grown v,
          alike.mono fun i j h => .inr h⟩
        rw [delivered, made]
        rfl

theorem follows_deliver (makes : Makes scene active key make body) (scope : Scope) :
    scene.Follows owner active least Value.Alike (deliver key scope make)
      (scene.deliverDraft owner key scope) := by
  cases scope with
  | singleton => exact follows_singleton makes
  | prototype =>
    intro chart n s le tracks
    rw [runOn_deliver]
    exact follows_prototype makes chart n s le tracks

end Scene
end Wiring.Runtime
