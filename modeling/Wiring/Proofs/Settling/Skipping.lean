import Wiring.Proofs.Compile.Skipping
import Wiring.Proofs.Settling.Elsewhere

/-! # Setters that are not called

An optional setter with a parameter that nothing can bind is never called. The parameters before that one
are resolved all the same: what is made for them changes nothing but the names of what is made later, while
an error of theirs ends the dialogue unless it says that a key is unbound.
-/
namespace Wiring

/-- The class that a binding makes objects of. -/
def Binding.signature? : Binding → Option Signature
  | .build recipe => some recipe.signature
  | .literal _ => none
  | .provided recipe _ _ => some recipe.signature

theorem Binding.signature?_adding (i : Nat) (setter : Setter) (binding : Binding) :
    (binding.adding i setter).signature? = binding.signature?.map (Signature.adding i setter) := by
  cases binding <;> rfl

namespace Interpreter
open Dialogue

section
variable (registry : Registry)

def inquiry (optional : Bool) (p : Parameter) : Dialogue Question Value :=
  .ask (.argument optional p) .finish

def begun (i : Nat) (signature : Signature) : Dialogue Question (Class × Object) :=
  assemble registry inquiry signature.className signature.constructor ((signature.setters.take i).map step)
    none

def resumed (i : Nat) (signature : Signature) (made : Class × Object) : Dialogue Question (Class × Object) :=
  equip inquiry ((signature.setters.drop i).map step) signature.hook made

def given (binding : Binding) (made : Class × Object) : Dialogue Question Value :=
  match binding with
  | .provided _ _ context => provide Question.lookup made context none
  | _ => pure made.2.value

theorem given_adding (i : Nat) (setter : Setter) (binding : Binding) :
    given (binding.adding i setter) = given binding := by
  cases binding <;> rfl

theorem dialogue_eq {binding : Binding} {signature : Signature}
    (makes : binding.signature? = some signature) :
    dialogue registry binding none = instantiation registry signature >>= given binding := by
  cases binding with
  | literal value => cases makes
  | build recipe | provided recipe scope context =>
    cases makes
    rfl

theorem dialogue_paused {binding : Binding} {signature : Signature}
    (makes : binding.signature? = some signature) (i : Nat) : dialogue registry binding none =
      begun registry i signature >>= fun made => resumed i signature made >>= given binding := by
  have steps : signature.setters.map step =
      (signature.setters.take i).map step ++ (signature.setters.drop i).map step := by
    rw [← List.map_append, List.take_append_drop]
  rw [dialogue_eq registry makes, ← bind_assoc, instantiation, steps, assemble_append]
  rfl

theorem dialogue_adding {binding : Binding} {signature : Signature}
    (makes : binding.signature? = some signature) (i : Nat) (setter : Setter) :
    dialogue registry (binding.adding i setter) none = begun registry i signature >>= fun made =>
      callSetter inquiry made.1 made.2 (step setter) >>= fun object =>
        resumed i signature (made.1, object) >>= given binding := by
  have makes' : (binding.adding i setter).signature? = some (signature.adding i setter) := by
    rw [Binding.signature?_adding, makes, Option.map_some]
  have steps : (signature.adding i setter).setters.map step =
      (signature.setters.take i).map step ++ step setter :: (signature.setters.drop i).map step := by
    rw [Signature.adding, List.map_append, List.map_cons]
  rw [dialogue_eq registry makes', given_adding, instantiation, steps, assemble_append, bind_assoc]
  refine congrArg _ (funext fun made => ?_)
  rw [equip_cons, bind_assoc]
  rfl

end

section
variable {β : Matching} {old : Nat} (fixes : β.Fixes old) {registry : Registry}

theorem alike_inquiry (β : Matching) (optional : Bool) (p : Parameter) :
    (inquiry optional p).Alike β (Value.Alike β) (inquiry optional p) :=
  ⟨rfl, fun _ _ same => same⟩

include fixes

theorem alike_begun (purity : registry.Pure old) (i : Nat) (signature : Signature) :
    (begun registry i signature).Alike β (MadeAlike registry β) (begun registry i signature) :=
  alike_assemble fixes purity (alike_inquiry β) _ _ _ _

theorem alike_resumed (purity : registry.Pure old) (blind : registry.Blind) (i : Nat)
    (signature : Signature) (binding : Binding) {made made' : Class × Object}
    (same : MadeAlike registry β made made') :
    (resumed i signature made >>= given binding).Alike β (Value.Alike β)
      (resumed i signature made' >>= given binding) := by
  refine (alike_equip fixes purity (alike_inquiry β) _ _ same).bind fun made made' same => ?_
  cases binding with
  | literal value | build recipe => exact .ok same.objects
  | provided recipe scope context => exact alike_provide fixes purity blind Question.lookup same context none

end

/-- The error of a question whose key nothing can bind says that it is unbound. -/
theorem Question.isUnbound_of_fallback {q : Question} {e : Error} (failed : q.fallback = .error e) :
    e.isUnbound = true := by
  cases q with
  | lookup key point =>
    cases failed
    rfl
  | argument optional p =>
    simp only [fallback] at failed
    cases default : p.default? with
    | some value =>
      rw [default] at failed
      cases failed
    | none =>
      rw [default] at failed
      cases failed
      rfl

namespace Grounds

variable {g : Grounds} {verdicts : Key → Verdict} {n : Nat}

theorem play_bind {α β : Type} (d : Dialogue Question α) (rest : α → Dialogue Question β) :
    g.play verdicts (d >>= rest) n =
      (g.play verdicts d n).andThen fun outcome => g.play verdicts (unlessFailed rest outcome) :=
  g.play_andThen verdicts d _ n

variable (verdicts) in
/-- Where a dialogue stops if a parameter cannot be resolved, and not for want of a binding. -/
inductive Trouble (p : Parameter) {α : Type} : Stop α → Prop
  | failed {scope : Scope} {e : Error} {k m : Nat} : verdicts p.key = .settled scope (.error e) k →
      e.isUnbound = false → Trouble p (.settled (.error e) m)
  | halted : verdicts p.key = .unsettled → Trouble p (.halted p.key)

theorem Trouble.andThen {α β : Type} {p : Parameter} {d : Dialogue Question α}
    (h : Trouble verdicts p (g.play verdicts d n)) {rest : Except Error α → Dialogue Question β}
    (ends : ∀ e, e.isUnbound = false → rest (.error e) = .finish (.error e)) :
    Trouble verdicts p (g.play verdicts (d.andThen rest) n) := by
  rw [play_andThen]
  generalize g.play verdicts d n = stop at h ⊢
  cases h with
  | halted told => exact .halted told
  | failed told bound =>
    simp only [Stop.andThen, ends _ bound]
    exact .failed told bound

theorem Trouble.bind {α β : Type} {p : Parameter} {d : Dialogue Question α}
    (h : Trouble verdicts p (g.play verdicts d n)) (rest : α → Dialogue Question β) :
    Trouble verdicts p (g.play verdicts (d >>= rest) n) :=
  h.andThen fun _ _ => rfl

variable (g verdicts) in
/-- Where a dialogue stops that waits for a parameter: it has a value, the key or another one is not bound,
or there is trouble with the parameter. -/
theorem play_inquiry (optional : Bool) (p : Parameter) (n : Nat) :
    (∃ outcome m, n ≤ m ∧ (∀ e, outcome = .error e → e.isUnbound = true) ∧
      g.play verdicts (inquiry optional p) n = .settled outcome m) ∨
    Trouble verdicts p (g.play verdicts (inquiry optional p) n) := by
  cases told : verdicts p.key with
  | unknown =>
    have played : g.play verdicts (inquiry optional p) n =
        .settled (Question.argument optional p).fallback n := by
      simp only [inquiry, play, Question.key, told]
    exact .inl ⟨_, n, Nat.le_refl n, fun e => Question.isUnbound_of_fallback, played⟩
  | unsettled =>
    refine .inr ?_
    have played : g.play verdicts (inquiry optional p) n = .halted p.key := by
      simp only [inquiry, play, Question.key, told]
    exact played ▸ .halted told
  | settled scope found k =>
    have played : g.play verdicts (inquiry optional p) n =
        .settled (g.carried scope p.key n found) (n + k) := by
      simp only [inquiry, play, Question.key, told]
    rw [played]
    cases found with
    | ok v =>
      refine .inl ⟨.ok (v.rename (g.carry scope p.key n)), n + k, Nat.le_add_right n k, ?_, rfl⟩
      rintro e ⟨⟩
    | error e =>
      cases bound : e.isUnbound with
      | true =>
        refine .inl ⟨.error e, n + k, Nat.le_add_right n k, ?_, rfl⟩
        rintro e ⟨⟩
        exact bound
      | false => exact .inr (.failed told bound)

section
variable {before behind : List Parameter} {dead : Parameter} (absent : verdicts dead.key = .unknown)
  (bare : dead.hasDefault = false)
include absent bare

variable (g before behind) in
theorem play_arguments (optional : Bool) (n : Nat) :
    (∃ e m, n ≤ m ∧ e.isUnbound = true ∧
      g.play verdicts ((before ++ dead :: behind).mapM (inquiry optional)) n = .settled (.error e) m) ∨
    ∃ p ∈ before,
      Trouble verdicts p (g.play verdicts ((before ++ dead :: behind).mapM (inquiry optional)) n) := by
  induction before generalizing n with
  | nil =>
    refine .inl ⟨.unbound dead.key (some dead.point), n, Nat.le_refl n, rfl, ?_⟩
    have fallback : (Question.argument optional dead).fallback =
        .error (.unbound dead.key (some dead.point)) := by
      simp only [Question.fallback, Parameter.default?, bare]
      rfl
    rw [List.nil_append, List.mapM_cons, play_bind]
    simp only [inquiry, play, Question.key, absent, fallback, Stop.andThen, unlessFailed]
  | cons p rest ih =>
    rw [List.cons_append, List.mapM_cons]
    rcases g.play_inquiry verdicts optional p n with ⟨outcome, m, le, wanting, played⟩ | trouble
    · rw [play_bind, played]
      cases outcome with
      | error e => exact .inl ⟨e, m, le, wanting e rfl, rfl⟩
      | ok v =>
        rcases ih m with ⟨e, m', le', unbound, played'⟩ | ⟨q, member, trouble⟩
        · refine .inl ⟨e, m', le.trans le', unbound, ?_⟩
          simp only [Stop.andThen, unlessFailed, play_bind, played', play]
        · exact .inr ⟨q, List.mem_cons_of_mem p member, trouble.bind _⟩
    · exact .inr ⟨p, List.mem_cons_self, trouble.bind _⟩

theorem play_callSetter {setter : Setter} (optional : setter.optional = true)
    (declared : setter.parameters = before ++ dead :: behind) (c : Class) (object : Object) (n : Nat) :
    (∃ m, n ≤ m ∧ g.play verdicts (callSetter inquiry c object (step setter)) n = .settled (.ok object) m) ∨
    ∃ p ∈ before, Trouble verdicts p (g.play verdicts (callSetter inquiry c object (step setter)) n) := by
  simp only [callSetter, step, optional, declared]
  rcases g.play_arguments before behind absent bare true n with
    ⟨e, m, le, unbound, played⟩ | ⟨p, member, trouble⟩
  · refine .inl ⟨m, le, ?_⟩
    rw [play_andThen, played]
    simp only [Stop.andThen, unbound, Bool.and_self, if_true, play]
  · refine .inr ⟨p, member, trouble.andThen fun e bound => ?_⟩
    simp only [bound, Bool.false_and, Bool.false_eq_true, if_false]

end

theorem shifted_before {spot : Key} {more : Nat} {i j : Nat} (h : g.shifted spot 0 0 n i j) :
    g.shifted spot n more n i j := by
  refine h.imp_right fun ⟨a, below, left, right⟩ => ⟨a, below, left, ?_⟩
  rw [right, if_neg (Nat.not_lt_zero a), if_pos below, Nat.add_zero]

/-- With the setter the dialogue stops at the same place as without it, up to names, unless there is trouble
with a parameter before the one that nothing can bind. -/
theorem play_adding {spot : Key} (named : ∀ key, g.Named spot key (verdicts key))
    {before behind : List Parameter} {dead : Parameter} (absent : verdicts dead.key = .unknown)
    (bare : dead.hasDefault = false) {setter : Setter} (optional : setter.optional = true)
    (declared : setter.parameters = before ++ dead :: behind) (i : Nat) (binding : Binding) :
    (∃ start more, g.Shifted Value.Alike spot start more (g.play verdicts (g.dialogue binding) 0)
      (g.play verdicts (g.dialogue (binding.adding i setter)) 0)) ∨
    ∃ p ∈ before, Trouble verdicts p (g.play verdicts (g.dialogue (binding.adding i setter)) 0) := by
  cases makes : binding.signature? with
  | none =>
    cases binding with
    | build recipe | provided recipe scope context => cases makes
    | literal value => exact .inl ⟨0, 0, .settled (Nat.le_refl 0) (.ok rfl)⟩
  | some signature =>
    have first : g.Shifted (MadeAlike g.registry) spot 0 0 (g.play verdicts (begun g.registry i signature) 0)
        (g.play verdicts (begun g.registry i signature) 0) :=
      shifted_play named (Nat.le_refl 0) fun γ _ fixes => alike_begun fixes g.purity i signature
    rw [dialogue, dialogue, dialogue_paused g.registry makes i, dialogue_adding g.registry makes i setter,
      play_bind, play_bind]
    generalize g.play verdicts (begun g.registry i signature) 0 = stop at first ⊢
    cases stop with
    | halted key => exact .inl ⟨0, 0, .halted key⟩
    | settled outcome n =>
      cases outcome with
      | error e => exact .inl ⟨0, 0, .settled (Nat.zero_le n) (.error e)⟩
      | ok made =>
        obtain ⟨c, object⟩ := made
        have alike : MadeAlike g.registry (g.shifted spot 0 0 n) (c, object) (c, object) := by
          cases first with
          | settled _ agree =>
            cases agree with
            | ok alike => exact alike
        simp only [Stop.andThen, unlessFailed]
        rcases play_callSetter (g := g) absent bare optional declared c object n with
          ⟨m, le, played⟩ | ⟨p, member, trouble⟩
        · obtain ⟨more, rfl⟩ := Nat.exists_eq_add_of_le le
          refine .inl ⟨n, more, ?_⟩
          rw [play_bind _ (fun object => resumed i signature (c, object) >>= given binding), played]
          refine shifted_play named (Nat.le_refl n) fun γ sub fixes => ?_
          have objects : Object.Alike γ object object :=
            Value.Alike.mono (fun a b h => sub a b (shifted_before h)) alike.objects
          exact alike_resumed fixes g.purity g.blind i signature binding ⟨rfl, alike.known, objects⟩
        · exact .inr ⟨p, member, trouble.bind _⟩

end Grounds
end Interpreter
end Wiring
