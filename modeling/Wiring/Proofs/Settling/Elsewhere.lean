import Wiring.Proofs.Settling.Play

/-! # One binding exchanged

Two tables may differ in what they bind one key to. Keys that settle without that key settle on the same
in both. To compare what the key itself settles on, its binding is exchanged for one that needs itself:
then nothing that settles needs the key, and both dialogues are played with the same verdicts.
-/
namespace Wiring.Interpreter.Grounds
open Relation

def onTable (g : Grounds) (table : Table) : Grounds := { g with table := table }

abbrev rebind (g : Grounds) (key : Key) (binding : Binding) : Grounds :=
  g.onTable (g.table.insert key binding)

/-- Two tables bind a certain key and agree on all others. -/
structure Exchanged (g : Grounds) (table : Table) (spot : Key) : Prop where
  here : ∃ binding, g.known spot = some binding
  there : ∃ binding, (g.onTable table).known spot = some binding
  off : ∀ {key}, key ≠ spot → (g.onTable table).known key = g.known key

variable {g : Grounds} {table : Table} {spot : Key} {d : Dialogue Question Value} {n m : Nat}
  {outcome : Except Error Value}

theorem Exchanged.symm (h : g.Exchanged table spot) : (g.onTable table).Exchanged g.table spot :=
  ⟨h.there, h.here, fun other => (h.off other).symm⟩

theorem exchanged_insert {binding : Binding} (bound : g.table.get? spot = some binding)
    (binding' : Binding) : g.Exchanged (g.table.insert spot binding') spot where
  here := ⟨binding, known_of_get? bound⟩
  there := ⟨binding', known_insert g.table spot binding'⟩
  off {key} other := by
    change Interpreter.known g.registry (g.table.insert spot binding') key =
      Interpreter.known g.registry g.table key
    simp only [Interpreter.known, SortedMap.get?_insert, if_neg other]

theorem Exchanged.aside {stall : Table} (h : g.Exchanged table spot) (h' : g.Exchanged stall spot) :
    (g.onTable table).Exchanged stall spot where
  here := h.there
  there := h'.there
  off other := (h'.off other).trans (h.off other).symm

theorem Exchanged.unknown (h : g.Exchanged table spot) {key : Key} (absent : g.known key = none) :
    (g.onTable table).known key = none := by
  obtain ⟨binding, bound⟩ := h.here
  refine (h.off fun same => ?_).trans absent
  rw [same, bound] at absent
  cases absent

theorem play_onTable {α : Type} (table : Table) (verdicts : Key → Verdict) (d : Dialogue Question α)
    (n : Nat) : (g.onTable table).play verdicts d n = g.play verdicts d n := by
  induction d generalizing n with
  | finish outcome => rfl
  | take make next ih => exact ih _ _
  | ask q next ih =>
    simp only [play]
    cases verdicts q.key with
    | unknown => exact ih _ _
    | unsettled => rfl
    | settled scope found k => exact ih _ _

/-- What settles by means of some keys settles in the same way over the other table, if these keys are none
of those that differ and need only each other. -/
theorem Settles.elsewhere (exchanged : g.Exchanged table spot) {P : Key → Prop}
    (closed : ∀ {key found k}, P key → g.SettlesOn key found k →
      key ≠ spot ∧ ∀ {needed}, g.Needs needed key → P needed)
    (h : g.Settles d n outcome m) (meets : ∀ {key}, g.Meets key d n → P key) :
    (g.onTable table).Settles d n outcome m := by
  induction h with
  | finish => exact .finish
  | take _ ih => exact .take (ih fun met => meets (.step .take met))
  | unknown absent _ ih =>
    exact .unknown (exchanged.unknown absent) (ih fun met => meets (.step (.unknown absent) met))
  | known bound settles _ ihFound ih =>
    obtain ⟨other, needs⟩ := closed (meets (.here bound rfl)) ⟨_, bound, settles⟩
    exact .known ((exchanged.off other).trans bound) (ihFound fun met => needs ⟨_, bound, met⟩)
      (ih fun met => meets (.step (.known bound settles) met))

theorem Settles.elsewhere_of_unsettled (exchanged : g.Exchanged table spot)
    (unsettled : ¬ ∃ found k, g.SettlesOn spot found k) (h : g.Settles d n outcome m) :
    (g.onTable table).Settles d n outcome m := by
  refine h.elsewhere exchanged (P := fun _ => True) (fun {key found k} _ on => ⟨?_, fun _ => trivial⟩)
    fun _ => trivial
  rintro rfl
  exact unsettled ⟨found, k, on⟩

theorem SettlesOn.elsewhere_of_unsettled (exchanged : g.Exchanged table spot)
    (unsettled : ¬ ∃ found k, g.SettlesOn spot found k) {key : Key} (on : g.SettlesOn key outcome m) :
    (g.onTable table).SettlesOn key outcome m := by
  have other : key ≠ spot := by
    rintro rfl
    exact unsettled ⟨_, _, on⟩
  obtain ⟨binding, bound, settles⟩ := on
  exact ⟨binding, (exchanged.off other).trans bound, settles.elsewhere_of_unsettled exchanged unsettled⟩

/-- The keys that a settled key needs do not need it in turn. -/
theorem SettlesOn.elsewhere (exchanged : g.Exchanged table spot) {binding : Binding}
    (bound : g.known spot = some binding) (on : g.SettlesOn spot outcome m) :
    (g.onTable table).Settles (g.dialogue binding) 0 outcome m := by
  have acyclic := on.not_needs_self
  obtain ⟨binding', bound', settles⟩ := on
  obtain rfl := Option.some.inj (bound.symm.trans bound')
  refine settles.elsewhere exchanged (P := fun key => ¬ g.Reaches key spot) (fun {key _ _} far _ => ?_) ?_
  · exact ⟨fun same => far (same ▸ .refl), fun needs reaches => far (.head needs reaches)⟩
  · intro key met reaches
    have round : TransGen (fun user needed => g.Needs needed user) spot spot :=
      .head' ⟨binding, bound, met⟩ reaches
    exact acyclic (transGen_swap.mp round)

def blocked (key : Key) : Binding :=
  .build ⟨⟨"", [{ key := key, point := default }], [], none⟩, .prototype⟩

theorem unsettled_of_blocked (bound : g.known spot = some (blocked spot)) :
    ¬ ∃ found k, g.SettlesOn spot found k := by
  rintro ⟨found, k, on⟩
  exact on.not_needs_self (.single ⟨_, bound, .here bound rfl⟩)

section
variable (exchanged : g.Exchanged table spot) (stuck : ¬ ∃ found k, (g.onTable table).SettlesOn spot found k)
include exchanged stuck

theorem settlesOn_iff_play {binding : Binding} (bound : g.known spot = some binding) :
    g.SettlesOn spot outcome m ↔
      g.play (g.onTable table).verdict (g.dialogue binding) 0 = .settled outcome m := by
  have played : g.play (g.onTable table).verdict (g.dialogue binding) 0 = .settled outcome m ↔
      (g.onTable table).Settles (g.dialogue binding) 0 outcome m := by
    rw [← play_onTable table, play_eq_iff]
    rfl
  refine ⟨fun on => played.mpr (on.elsewhere exchanged bound), fun stops => ⟨binding, bound, ?_⟩⟩
  exact Settles.elsewhere_of_unsettled (g := g.onTable table) exchanged.symm stuck (played.mp stops)

/-- If the key settles on nothing, all verdicts are the same without it. -/
theorem verdict_onTable (unsettled : ¬ ∃ found k, g.SettlesOn spot found k) :
    g.verdict = (g.onTable table).verdict := by
  funext key
  refine Judged.verdict_eq ?_
  have judged := (g.onTable table).judged key
  generalize (g.onTable table).verdict key = v at judged
  cases judged with
  | unknown absent => exact .unknown (exchanged.symm.unknown absent)
  | settled bound on =>
    have other : key ≠ spot := by
      rintro rfl
      exact stuck ⟨_, _, on⟩
    exact .settled ((exchanged.off other).symm.trans bound)
      (SettlesOn.elsewhere_of_unsettled (g := g.onTable table) exchanged.symm stuck on)
  | unsettled bound no =>
    by_cases same : key = spot
    · subst same
      obtain ⟨binding, bound⟩ := exchanged.here
      exact .unsettled bound unsettled
    · refine .unsettled ((exchanged.off same).symm.trans bound) ?_
      rintro ⟨found, k, on⟩
      exact no ⟨found, k, on.elsewhere_of_unsettled exchanged unsettled⟩

end

section
variable {key : Key} {binding binding' : Binding}

theorem Halts.elsewhere (same : (g.onTable table).verdict = g.verdict) (h : g.Halts key d n) :
    (g.onTable table).Halts key d n := by
  refine halted_iff (g := g.onTable table).mp ?_
  rw [play_onTable, same, halted_iff.mpr h]

theorem Circle.elsewhere (exchanged : g.Exchanged table spot) (same : (g.onTable table).verdict = g.verdict)
    (here : g.known spot = some binding) (there : (g.onTable table).known spot = some binding')
    (halts : ∀ {needed}, g.Halts needed (g.dialogue binding) 0 →
      (g.onTable table).Halts needed (g.dialogue binding') 0)
    {active path : List Key} (h : g.Circle active key path) : (g.onTable table).Circle active key path := by
  induction h with
  | closes member => exact .closes member
  | @enters active key needed found path fresh bound halted _ ih =>
    by_cases other : key = spot
    · subst other
      obtain rfl := Option.some.inj (here.symm.trans bound)
      exact .enters fresh there (halts halted) ih
    · exact .enters fresh ((exchanged.off other).trans bound) (halted.elsewhere same) ih

end

end Wiring.Interpreter.Grounds
