import Wiring.Proofs.Dialogue

/-! # Courses

A course lists moments on the way from one state to another, each related to all that come after it. A
dialogue takes its course through the states between its questions and those within their answers, so a
preorder that the answers respect orders all its moments.
-/
namespace Wiring

/-- Some moments on the way from one state to another, in order. -/
structure Course {τ : Type} (R : τ → τ → Prop) (s : τ) (moments : List τ) (t : τ) : Prop where
  whole : R s t
  first : ∀ u ∈ moments, R s u
  ordered : moments.Pairwise R
  last : ∀ u ∈ moments, R u t

section
variable {τ υ : Type} {R : τ → τ → Prop} {s t u : τ} {xs ys : List τ}

theorem Course.nil (h : R s t) : Course R s [] t := ⟨h, nofun, .nil, nofun⟩

variable [IsPreorder τ R]

theorem Course.append (h : Course R s xs t) (h' : Course R t ys u) : Course R s (xs ++ ys) u where
  whole := trans_of R h.whole h'.whole
  first x member := (List.mem_append.mp member).elim (h.first x) fun later =>
    trans_of R h.whole (h'.first x later)
  ordered := List.pairwise_append.mpr ⟨h.ordered, h'.ordered, fun x hx y hy =>
    trans_of R (h.last x hx) (h'.first y hy)⟩
  last x member := (List.mem_append.mp member).elim
    (fun earlier => trans_of R (h.last x earlier) h'.whole) (h'.last x)

theorem Course.single (h : R s t) : Course R s [t] t :=
  ⟨h, by simpa using h, List.pairwise_singleton _ _, by simpa using refl_of R t⟩

theorem Course.cons (h : R s t) (h' : Course R t ys u) : Course R s (t :: ys) u :=
  (Course.single h).append h'

omit [IsPreorder τ R] in
theorem Course.map {Q : υ → υ → Prop} {f : τ → υ} {x : υ} (starts : ∀ {t}, R s t → Q x (f t))
    (maps : ∀ {t t'}, R t t' → Q (f t) (f t')) (h : Course R s xs t) : Course Q x (xs.map f) (f t) where
  whole := starts h.whole
  first := by
    simp only [List.forall_mem_map]
    exact fun u member => starts (h.first u member)
  ordered := h.ordered.map f fun _ _ => maps
  last := by
    simp only [List.forall_mem_map]
    exact fun u member => maps (h.last u member)

end

namespace Dialogue
variable {ι α ρ : Type} (answer : ι → Act (Runtime ρ) Value)

/-- The states a dialogue goes through, with those within each answer. -/
def moments (within : ι → Runtime ρ → List (Runtime ρ)) :
    Dialogue ι α → Runtime ρ → List (Runtime ρ)
  | finish _, _ => []
  | take make next, s =>
    taken (make s.born) s :: moments within (next (make s.born)) (taken (make s.born) s)
  | ask question next, s => within question s ++
    moments within (next ((answer question).runOn s).1) ((answer question).runOn s).2

variable {answer} {R : Runtime ρ → Runtime ρ → Prop} [IsPreorder (Runtime ρ) R]
  (takes : ∀ made s, R s (taken made s)) {within : ι → Runtime ρ → List (Runtime ρ)}
  (answers : ∀ q s, Course R s (within q s) ((answer q).runOn s).2)
include takes answers

theorem course_moments (d : Dialogue ι α) (s : Runtime ρ) :
    Course R s (d.moments answer within s) (d.runOn answer s).2 := by
  induction d generalizing s with
  | finish outcome => exact .nil (refl_of R s)
  | take make next ih => exact (ih _ _).cons (takes _ s)
  | ask question next ih => exact (answers question s).append (ih _ _)

end Dialogue

end Wiring
