import Wiring.Act
import Mathlib.Control.Basic
import Mathlib.Data.List.Forall2
import Mathlib.Order.Defs.Unbundled

/-! # Running actions

What an action does to a state, read off its parts. A failure skips what comes after it and keeps
the state. A preorder on states that the parts respect is respected by the whole.
-/
namespace Wiring.Act

variable {σ τ α β : Type}

@[simp] theorem runOn_pure (a : α) (s : σ) : (pure a : Act σ α).runOn s = (.ok a, s) := rfl

@[simp] theorem runOn_throw (e : Error) (s : σ) : (throw e : Act σ α).runOn s = (.error e, s) := rfl

@[simp] theorem runOn_get (s : σ) : (get : Act σ σ).runOn s = (.ok s, s) := rfl

@[simp] theorem runOn_modify (f : σ → σ) (s : σ) :
    (modify f : Act σ PUnit).runOn s = (.ok ⟨⟩, f s) := rfl

@[simp] theorem runOn_attempt (x : Act σ α) (s : σ) :
    x.attempt.runOn s = (.ok (x.runOn s).1, (x.runOn s).2) := rfl

@[simp] theorem runOn_onPart (part : τ → σ) (put : σ → τ → τ) (x : Act σ α) (t : τ) :
    (x.onPart part put).runOn t = ((x.runOn (part t)).1, put (x.runOn (part t)).2 t) := rfl

@[simp] theorem runOn_liftExcept (x : Except Error α) (s : σ) :
    (liftM x : Act σ α).runOn s = (x, s) := rfl

@[simp] theorem runOn_liftState (x : StateM σ α) (s : σ) :
    (liftM x : Act σ α).runOn s = (.ok (x s).1, (x s).2) := rfl

theorem runOn_bind (x : Act σ α) (f : α → Act σ β) (s : σ) :
    (x >>= f).runOn s = match x.runOn s with
      | (.ok a, t) => (f a).runOn t
      | (.error e, t) => (.error e, t) := by
  change (ExceptT.bindCont f (x s).1) (x s).2 = _
  unfold runOn
  rcases x s with ⟨_ | a, t⟩ <;> rfl

theorem runOn_bind_eq_ok {x : Act σ α} {f : α → Act σ β} {s t : σ} {b : β} :
    (x >>= f).runOn s = (.ok b, t) ↔ ∃ a u, x.runOn s = (.ok a, u) ∧ (f a).runOn u = (.ok b, t) := by
  rw [runOn_bind]
  rcases x.runOn s with ⟨e | a, u⟩ <;> simp

/-- Wherever an action starts, it ends above that state, also when it fails. -/
def Moves (R : σ → σ → Prop) (x : Act σ α) : Prop := ∀ s, R s (x.runOn s).2

section
variable {R : σ → σ → Prop} [IsPreorder σ R]

omit [IsPreorder σ R] in
theorem Moves.of_eq {x : Act σ α} (hx : x.Moves R) {s t : σ} {r : Except Error α}
    (ran : x.runOn s = (r, t)) : R s t := by
  have moved := hx s
  rwa [ran] at moved

theorem moves_of_keeps {x : Act σ α} (h : ∀ s, (x.runOn s).2 = s) : x.Moves R :=
  fun s => (h s).symm ▸ refl_of R s

theorem moves_after {x : Act σ α} {f : α → Act σ β} (hf : ∀ a, (f a).Moves R) (s : σ) :
    R (x.runOn s).2 ((x >>= f).runOn s).2 := by
  rw [runOn_bind]
  rcases x.runOn s with ⟨e | a, t⟩
  · exact refl_of R t
  · exact hf a t

theorem Moves.bind {x : Act σ α} {f : α → Act σ β} (hx : x.Moves R) (hf : ∀ a, (f a).Moves R) :
    (x >>= f).Moves R := by
  exact fun s => trans_of R (hx s) (moves_after hf s)

omit [IsPreorder σ R] in
theorem Moves.attempt {x : Act σ α} (hx : x.Moves R) : x.attempt.Moves R := hx

theorem Moves.mapM {f : α → Act σ β} (hf : ∀ a, (f a).Moves R) (xs : List α) :
    (xs.mapM f).Moves R := by
  induction xs with
  | nil => exact moves_of_keeps fun _ => rfl
  | cons a rest ih =>
    rw [List.mapM_cons]
    exact (hf a).bind fun _ => ih.bind fun _ => moves_of_keeps fun _ => rfl

theorem Moves.foldlM {f : β → α → Act σ β} (hf : ∀ b a, (f b a).Moves R) (xs : List α) (b : β) :
    (xs.foldlM f b).Moves R := by
  induction xs generalizing b with
  | nil => exact moves_of_keeps fun _ => rfl
  | cons a rest ih =>
    rw [List.foldlM_cons]
    exact (hf b a).bind ih

end

def Yields (P : α → Prop) (x : Act σ α) : Prop := ∀ s a t, x.runOn s = (.ok a, t) → P a

section
variable {P : α → Prop} {Q : β → Prop}

theorem yields_pure {a : α} (h : P a) : (pure a : Act σ α).Yields P := by
  rintro s b t ⟨⟩
  exact h

theorem yields_throw (e : Error) : (throw e : Act σ α).Yields P := nofun

theorem yields_any (x : Act σ α) : x.Yields fun _ => True := fun _ _ _ _ => trivial

theorem Yields.bind {x : Act σ α} {f : α → Act σ β} (first : x.Yields P)
    (later : ∀ a, P a → (f a).Yields Q) : (x >>= f).Yields Q := by
  intro s b t ran
  obtain ⟨a, u, h, ran⟩ := runOn_bind_eq_ok.mp ran
  exact later a (first s a u h) u b t ran

theorem Yields.attempt {x : Act σ α} (h : x.Yields P) :
    x.attempt.Yields fun outcome => ∀ a, outcome = .ok a → P a := by
  intro s outcome t ran a ok
  rw [runOn_attempt, Prod.mk.injEq, Except.ok.injEq] at ran
  exact h s a t (Prod.ext (ran.1.trans ok) ran.2)

theorem yields_mapM {f : α → Act σ β} (each : ∀ a, (f a).Yields Q) (xs : List α) :
    (xs.mapM f).Yields fun ys => ∀ y ∈ ys, Q y := by
  induction xs with
  | nil => exact yields_pure nofun
  | cons x xs ih =>
    rw [List.mapM_cons]
    exact (each x).bind fun y hy => ih.bind fun ys hys =>
      yields_pure (List.forall_mem_cons.mpr ⟨hy, hys⟩)

end

/-- From a state with an invariant an action ends in such a state, and its result has a property if there
is one. -/
def Ensures (I : σ → Prop) (P : α → Prop) (x : Act σ α) : Prop :=
  ∀ s, I s → I (x.runOn s).2 ∧ ∀ a, (x.runOn s).1 = .ok a → P a

/-- Where an invariant holds it keeps holding. -/
def Preserves (I : σ → Prop) (s t : σ) : Prop := I s → I t

instance {I : σ → Prop} : IsPreorder σ (Preserves I) where
  refl _ := id
  trans _ _ _ first later h := later (first h)

section
variable {I : σ → Prop} {P : α → Prop} {Q : β → Prop}

theorem Ensures.moves {x : Act σ α} (ensures : x.Ensures I P) : x.Moves (Preserves I) :=
  fun s inv => (ensures s inv).1

theorem Ensures.of_eq {x : Act σ α} (ensures : x.Ensures I P) {s t : σ} {r : Except Error α} (inv : I s)
    (ran : x.runOn s = (r, t)) : I t ∧ ∀ a, r = .ok a → P a := by
  have ended := ensures s inv
  rwa [ran] at ended

theorem ensures_pure {a : α} (h : P a) : (pure a : Act σ α).Ensures I P := by
  refine fun s inv => ⟨inv, fun b same => ?_⟩
  cases same
  exact h

theorem ensures_throw (e : Error) : (throw e : Act σ α).Ensures I P := fun _ inv => ⟨inv, nofun⟩

theorem Ensures.imp {Q : α → Prop} {x : Act σ α} (h : x.Ensures I P) (weaker : ∀ a, P a → Q a) :
    x.Ensures I Q :=
  fun s inv => (h s inv).imp_right fun all a same => weaker a (all a same)

theorem Ensures.bind {x : Act σ α} {f : α → Act σ β} (first : x.Ensures I P)
    (later : ∀ a, P a → (f a).Ensures I Q) : (x >>= f).Ensures I Q := by
  intro s inv
  have ended := first s inv
  rw [runOn_bind]
  generalize x.runOn s = ran at ended
  obtain ⟨e | a, t⟩ := ran
  · exact ⟨ended.1, nofun⟩
  · exact later a (ended.2 a rfl) t ended.1

theorem Ensures.attempt {x : Act σ α} (h : x.Ensures I P) :
    x.attempt.Ensures I fun outcome => ∀ a, outcome = .ok a → P a := by
  refine fun s inv => ⟨(h s inv).1, fun outcome same a ok => (h s inv).2 a ?_⟩
  rw [runOn_attempt, Except.ok.injEq] at same
  exact same.trans ok

theorem ensures_mapM {f : α → Act σ β} (each : ∀ a, (f a).Ensures I Q) (xs : List α) :
    (xs.mapM f).Ensures I fun ys => ∀ y ∈ ys, Q y := by
  induction xs with
  | nil => exact ensures_pure nofun
  | cons x xs ih =>
    rw [List.mapM_cons]
    exact (each x).bind fun y hy => ih.bind fun ys hys =>
      ensures_pure (List.forall_mem_cons.mpr ⟨hy, hys⟩)

end

/-- From a state with an invariant an action ends in such a state with a result that has a property, or it
fails with an error that has another. -/
def Meets (I : σ → Prop) (P : α → Prop) (E : Error → Prop) (x : Act σ α) : Prop :=
  ∀ s, I s → (∃ a t, x.runOn s = (.ok a, t) ∧ I t ∧ P a) ∨ ∃ e t, x.runOn s = (.error e, t) ∧ E e

section
variable {I : σ → Prop} {P : α → Prop} {Q : β → Prop} {E : Error → Prop}

theorem meets_pure {a : α} (h : P a) : (pure a : Act σ α).Meets I P E :=
  fun s inv => .inl ⟨a, s, rfl, inv, h⟩

theorem Meets.bind {x : Act σ α} {f : α → Act σ β} (first : x.Meets I P E)
    (later : ∀ a, P a → (f a).Meets I Q E) : (x >>= f).Meets I Q E := by
  intro s inv
  rw [runOn_bind]
  rcases first s inv with ⟨a, t, ran, inv, holds⟩ | ⟨e, t, ran, failed⟩
  · rw [ran]
    exact later a holds t inv
  · rw [ran]
    exact .inr ⟨e, t, rfl, failed⟩

theorem meets_mapM {f : α → Act σ β} {xs : List α}
    (each : ∀ a ∈ xs, (f a).Meets I (fun _ => P a) E) :
    (xs.mapM f).Meets I (fun _ => ∀ a ∈ xs, P a) E := by
  induction xs with
  | nil => exact meets_pure nofun
  | cons a rest ih =>
    obtain ⟨first, later⟩ := List.forall_mem_cons.mp each
    rw [List.mapM_cons]
    refine first.bind fun _ holds => (ih later).bind fun _ all => ?_
    exact meets_pure (List.forall_mem_cons.mpr ⟨holds, all⟩)

theorem meets_foldlM {f : β → α → Act σ β} {xs : List α}
    (each : ∀ a ∈ xs, ∀ b, Q b → (f b a).Meets I (fun b => Q b ∧ P a) E) {b : β} (h : Q b) :
    (xs.foldlM f b).Meets I (fun b => Q b ∧ ∀ a ∈ xs, P a) E := by
  induction xs generalizing b with
  | nil => exact meets_pure ⟨h, nofun⟩
  | cons a rest ih =>
    obtain ⟨first, later⟩ := List.forall_mem_cons.mp each
    rw [List.foldlM_cons]
    refine (first b h).bind fun b' made s inv => ?_
    rcases ih later made.1 s inv with ⟨c, t, ran, inv, holds, all⟩ | failed
    · exact .inl ⟨c, t, ran, inv, holds, List.forall_mem_cons.mpr ⟨made.2, all⟩⟩
    · exact .inr failed

end

/-- From every state with an invariant an action ends in such a state, always with the same result. -/
def Computes (I : σ → Prop) (x : Act σ α) (r : Except Error α) : Prop :=
  ∀ s, I s → I (x.runOn s).2 ∧ (x.runOn s).1 = r

section
variable {I : σ → Prop} {r : Except Error α}

theorem computes_pure (a : α) : (pure a : Act σ α).Computes I (.ok a) := fun _ inv => ⟨inv, rfl⟩

theorem computes_throw (e : Error) : (throw e : Act σ α).Computes I (.error e) :=
  fun _ inv => ⟨inv, rfl⟩

theorem Computes.bind {x : Act σ α} {f : α → Act σ β} {g : α → Except Error β}
    (first : x.Computes I r) (later : ∀ a, (f a).Computes I (g a)) :
    (x >>= f).Computes I (r >>= g) := by
  intro s inv
  have ended := first s inv
  rw [runOn_bind]
  generalize x.runOn s = ran at ended
  obtain ⟨outcome, t⟩ := ran
  obtain ⟨inv, rfl⟩ := ended
  cases outcome with
  | error e => exact ⟨inv, rfl⟩
  | ok a => exact later a t inv

theorem Computes.bind_ok {x : Act σ α} {a : α} {f : α → Act σ β} {r : Except Error β}
    (first : x.Computes I (.ok a)) (later : (f a).Computes I r) : (x >>= f).Computes I r := by
  intro s inv
  have ended := first s inv
  rw [runOn_bind]
  generalize x.runOn s = ran at ended
  obtain ⟨outcome, t⟩ := ran
  obtain ⟨inv, rfl⟩ := ended
  exact later t inv

theorem Computes.map {x : Act σ α} (h : x.Computes I r) (f : α → β) :
    (x >>= fun a => pure (f a)).Computes I (r.map f) := by
  have bound := h.bind fun a => computes_pure (f a)
  cases r <;> exact bound

theorem Computes.attempt {x : Act σ α} (h : x.Computes I r) : x.attempt.Computes I (.ok r) :=
  fun s inv => ⟨(h s inv).1, congrArg Except.ok (h s inv).2⟩

theorem computes_mapM {f : α → Act σ β} {g : α → Except Error β}
    (each : ∀ a, (f a).Computes I (g a)) (xs : List α) :
    (xs.mapM f).Computes I (xs.mapM g) := by
  induction xs with
  | nil => exact computes_pure []
  | cons x xs ih =>
    rw [List.mapM_cons, List.mapM_cons]
    exact (each x).bind fun y => ih.bind fun ys => computes_pure (y :: ys)

theorem Computes.runOn_eq {x : Act σ α} {s : σ} (h : x.Computes (· = s) r) : x.runOn s = (r, s) :=
  Prod.ext (h s rfl).2 (h s rfl).1

end

end Wiring.Act

namespace Wiring

theorem bind_eq_ok_iff {ε α β : Type} {x : Except ε α} {f : α → Except ε β} {b : β} :
    x >>= f = .ok b ↔ ∃ a, x = .ok a ∧ f a = .ok b := by
  cases x with
  | error e => exact ⟨nofun, nofun⟩
  | ok a => simp [bind, Except.bind]

theorem map_eq_ok_iff {ε α β : Type} {x : Except ε α} {f : α → β} {b : β} :
    x.map f = .ok b ↔ ∃ a, x = .ok a ∧ f a = b := by
  cases x <;> simp [Except.map]

/-- A traversal succeeds with the results of its steps. -/
theorem mapM_eq_ok_iff {ε α β : Type} {f : α → Except ε β} {xs : List α} {ys : List β} :
    xs.mapM f = .ok ys ↔ List.Forall₂ (fun x y => f x = .ok y) xs ys := by
  induction xs generalizing ys with
  | nil =>
    cases ys with
    | nil => exact ⟨fun _ => .nil, fun _ => rfl⟩
    | cons y ys => exact ⟨nofun, nofun⟩
  | cons x xs ih =>
    rw [List.mapM_cons]
    constructor
    · intro h
      cases first : f x with
      | error e => rw [first] at h; cases h
      | ok y =>
        rw [first] at h
        cases later : xs.mapM f with
        | error e => rw [later] at h; cases h
        | ok rest =>
          rw [later] at h
          cases h
          exact .cons first (ih.mp later)
    · intro h
      cases h with
      | cons first later => rw [first, ih.mpr later]; rfl

theorem ok_of_mapM {ε α β : Type} {f : α → Except ε β} {xs : List α} {ys : List β}
    (h : xs.mapM f = .ok ys) : ∀ x ∈ xs, ∃ y, f x = .ok y := by
  have each := mapM_eq_ok_iff.mp h
  clear h
  induction each with
  | nil => simp
  | cons first _ ih => exact List.forall_mem_cons.mpr ⟨⟨_, first⟩, ih⟩

theorem mapM_eq_error {ε α β : Type} {f : α → Except ε β} {xs : List α} {e : ε}
    (h : xs.mapM f = .error e) : ∃ x ∈ xs, f x = .error e := by
  induction xs with
  | nil => cases h
  | cons x xs ih =>
    rw [List.mapM_cons] at h
    cases first : f x with
    | error e' =>
      rw [first] at h
      cases h
      exact ⟨x, List.mem_cons_self, first⟩
    | ok y =>
      rw [first] at h
      cases later : xs.mapM f with
      | error e' =>
        rw [later] at h
        cases h
        obtain ⟨x', member, failed⟩ := ih later
        exact ⟨x', List.mem_cons_of_mem _ member, failed⟩
      | ok rest => rw [later] at h; cases h

end Wiring
