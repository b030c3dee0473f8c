import Wiring.Proofs.Journal.Retries

/-! # Nesting that suffices

If an injector is given as many levels of nesting as there are keys to resolve, the nesting is never too
deep. So the key that could not be made is always made again.
-/
namespace Wiring
open Wiring.Runtime

variable {ι ρ α : Type} {opened : ρ → Prop} {keys : Finset Key}

/-- The keys being resolved are different keys of a finite set, and the levels that are left suffice for all
others. -/
structure Fits (opened : ρ → Prop) (keys : Finset Key) (depth : Nat) (s : Runtime ρ) : Prop where
  distinct : s.active.Nodup
  resolvable : ∀ key ∈ s.active, key ∈ keys
  enough : keys.card ≤ depth + s.active.length
  own : opened s.own

theorem Fits.of_active {depth : Nat} {s t : Runtime ρ} (fits : Fits opened keys depth s)
    (active : t.active = s.active) (own : opened t.own) : Fits opened keys depth t := by
  refine ⟨?_, ?_, ?_, own⟩ <;> rw [active]
  · exact fits.distinct
  · exact fits.resolvable
  · exact fits.enough

theorem Fits.entered {depth : Nat} {s : Runtime ρ} (fits : Fits opened keys depth s) {key : Key}
    (member : key ∈ keys) (absent : key ∉ s.active) :
    ∃ left, depth = left + 1 ∧ Fits opened keys left (entered key s) := by
  have distinct : (key :: s.active).Nodup := List.nodup_cons.mpr ⟨absent, fits.distinct⟩
  have resolvable : ∀ k ∈ key :: s.active, k ∈ keys := List.forall_mem_cons.mpr ⟨member, fits.resolvable⟩
  have count := Machine.length_le_card distinct resolvable
  rw [List.length_cons] at count
  have enough := fits.enough
  obtain ⟨left, rfl⟩ : ∃ left, depth = left + 1 := ⟨depth - 1, by omega⟩
  have more : keys.card ≤ left + (key :: s.active).length := by
    rw [List.length_cons]
    omega
  exact ⟨left, rfl, distinct, resolvable, more, fits.own⟩

/-- As long as the nesting suffices, nothing stops for its depth, and it suffices from then on. -/
def Goes (opened : ρ → Prop) (keys : Finset Key) (depth : Nat) (s : Runtime ρ) (xs : List (Event ι))
    (t : Runtime ρ) : Prop :=
  Fits opened keys depth s →
    (∀ key, .stops key ∉ xs) ∧ t.active = s.active ∧ Fits opened keys depth t

theorem stretch_goes (depth : Nat) : Stretch (Goes (ι := ι) opened keys depth) where
  nil s fits := ⟨fun _ => nofun, rfl, fits⟩
  append first later fits := by
    obtain ⟨goes, same, middle⟩ := first fits
    obtain ⟨goes', same', finish⟩ := later middle
    refine ⟨fun key member => ?_, same'.trans same, finish⟩
    rcases List.mem_append.mp member with earlier | now
    · exact goes key earlier
    · exact goes' key now

theorem Goes.of_eq {depth : Nat} {s t : Runtime ρ} {xs : List (Event ι)} (active : t.active = s.active)
    (own : t.own = s.own) (none : ∀ key, .stops key ∉ xs) : Goes opened keys depth s xs t :=
  fun fits => ⟨none, active, fits.of_active active (own ▸ fits.own)⟩

theorem goes_work {depth : Nat} {F : Finder ι ρ} {answer : ι → Act (Runtime ρ) Value}
    {within : ι → Runtime ρ → List (Event ι)}
    (answers : ∀ q s, Goes opened keys depth s (within q s) ((answer q).runOn s).2) (key : Key) (job : Job ι)
    (point : Option Point) (s : Runtime ρ) : Goes opened keys depth s (F.work answer within key job point s)
      ((F.dialogue job point).runOn answer s).2 := by
  have stretch : Stretch (Goes (ι := ι) opened keys depth) := stretch_goes depth
  refine stretch.work answers (fun s _ _ _ => .of_eq rfl rfl (by simp)) (fun o s => .of_eq rfl rfl (by simp))
    (fun b _ s => ?_) point s
  refine stretch.append (stretch.turns answers (fun s => .of_eq rfl rfl fun _ => nofun) _ s) ?_
  refine .of_eq rfl rfl fun key member => ?_
  have verdict := List.mem_singleton.mp member
  generalize ((b.dialogue F.registry).runOn answer s).1 = outcome at verdict
  cases outcome <;> cases verdict

namespace Injector
variable {I : Injector ι ρ}

theorem goes_journal (confined : Machine.Confined I.opens opened keys) (depth : Nat) (q : ι)
    (s : Runtime ρ) : Goes opened keys depth s (I.journal depth q s) ((I.answer depth q).runOn s).2 := by
  have taken : ∀ {q s lead t}, I.find q s = (lead, t) → (I.opens q s).2 = t := by
    intro q s lead t found
    rw [Finder.opens, found]
    cases lead <;> rfl
  have active : ∀ {q s lead t}, I.find q s = (lead, t) → t.active = s.active := by
    intro q s lead t found
    have only : t = { s with own := t.own } := taken found ▸ confined.ownOnly q s
    rw [only]
  have own : ∀ {q s lead t}, I.find q s = (lead, t) → opened s.own → opened t.own :=
    fun found start => taken found ▸ confined.keeps start
  have delivers : ∀ {q s scope job t}, I.find q s = (.does scope job, t) → opened s.own → I.key q ∈ keys := by
    intro q s scope job t found start
    have delivered : (I.opens q s).1 = .delivers (I.key q) scope (I.dialogue job (I.point q)) := by
      rw [Finder.opens, found]
    exact confined.delivers start delivered
  have carried : I.Carried fun depth _ s xs r => Goes opened keys depth s xs r.2 := {
    missed := fun found fits =>
      ⟨by simp, active found, fits.of_active (active found) (own found fits.own)⟩
    recalled := fun found _ fits =>
      ⟨by simp, active found, fits.of_active (active found) (own found fits.own)⟩
    circular := fun found _ fits =>
      ⟨by simp, active found, fits.of_active (active found) (own found fits.own)⟩
    stopped := fun {q s scope job t} e found _ absent fits => by
      have later := fits.of_active (active found) (own found fits.own)
      obtain ⟨left, spent, -⟩ := later.entered (delivers found fits.own) absent
      cases spent
    made := fun {depth q s scope job t} found _ absent inner ran making fits => by
      have later := fits.of_active (active found) (own found fits.own)
      obtain ⟨left, spent, inside⟩ := later.entered (delivers found fits.own) absent
      obtain rfl := Nat.succ.inj spent
      have worked := goes_work (F := I.toFinder) inner (I.key q) job (I.point q) (.entered (I.key q) t)
      rw [making] at worked
      obtain ⟨none, same, finish⟩ := worked inside
      have left : (leave (I.key q) scope ran).2.active = s.active := by
        rw [active_leave, erase_innermost same, active found]
      refine ⟨fun key => by simp [none key], left, fits.of_active left ?_⟩
      rw [own_leave]
      exact finish.own }
  exact carried.journal depth q s

variable {inv : ρ → Prop} {R : ρ → ρ → Prop} {law : ρ → Key → Scope → Job ι → Prop}

theorem no_stops [IsPreorder ρ R] (lawful : I.Lawful inv R law)
    (room : ∀ s : Runtime ρ, inv s.own → ∃ (opened : ρ → Prop) (keys : Finset Key),
      Machine.Confined I.opens opened keys ∧ opened s.own ∧ keys.card ≤ I.bound s)
    {errands : List (Errand ι ρ)}
    (harmless : ∀ errand ∈ errands, errand.Harmless inv R)
    {s : Runtime ρ} (start : inv s.own) (idle : s.active = []) (key : Key) :
    .stops key ∉ I.chronicle errands s := by
  let Q : Runtime ρ → List (Event ι) → Runtime ρ → Prop := fun s xs t =>
    inv s.own ∧ s.active = [] → (∀ key, .stops key ∉ xs) ∧ inv t.own ∧ t.active = []
  have stretch : Stretch Q := by
    refine ⟨fun s start => ⟨fun _ => nofun, start⟩, fun first later start => ?_⟩
    obtain ⟨none, middle⟩ := first start
    obtain ⟨none', finish⟩ := later middle
    refine ⟨fun key member => ?_, finish⟩
    rcases List.mem_append.mp member with earlier | now
    · exact none key earlier
    · exact none' key now
  suffices goes : Q s (I.chronicle errands s) (I.after errands s) from (goes ⟨start, idle⟩).1 key
  refine stretch.chronicle (fun q s start => ?_) (fun errand member s start => ?_) s
  · obtain ⟨opened, keys, confined, own, enough⟩ := room s start.1
    have fits : Fits opened keys (I.bound s) s := by
      refine ⟨?_, ?_, ?_, own⟩ <;> rw [start.2]
      · exact .nil
      · exact nofun
      · simpa using enough
    obtain ⟨none, same, -⟩ := goes_journal confined _ q s fits
    exact ⟨none, (I.follows_journal lawful _ q s start.1).1, same.trans start.2⟩
  · exact ⟨fun _ => nofun, (harmless errand member s.own start.1).1, start.2⟩

end Injector
end Wiring
