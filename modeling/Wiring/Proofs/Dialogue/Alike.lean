import Wiring.Proofs.Dialogue.Interpreter
import Wiring.Proofs.Purity

/-! # Dialogues that stay alike

Two dialogues are alike under a matching of identities if they ask the same questions as long as they
get alike answers and matched identities, and then end alike. The dialogues of pure classes are alike
to themselves. If no provider cares who asks, they do not depend on the point either.
-/
namespace Wiring

/-- Providers of such a registry do not care on behalf of which point they are asked. -/
def Registry.Blind (registry : Registry) : Prop :=
  ∀ name c, registry.get? name = some c → ∀ provide, c.provide = some provide →
    ∀ object context point, provide object context point = provide object context none

theorem Registry.Blind.hookOf {registry : Registry} (blind : registry.Blind) {name : String} {c : Class}
    (found : registry.get? name = some c) (object : Object) (context : Option String)
    (point : Option Point) : c.hookOf object context point = c.hookOf object context none := by
  unfold Class.hookOf
  cases provides : c.provide with
  | none => rfl
  | some provide => simp only [blind name c found provide provides object context point]

namespace Dialogue

variable {ι α α' δ δ' : Type} {β : Matching}

def Alike (β : Matching) (R : α → α' → Prop) : Dialogue ι α → Dialogue ι α' → Prop
  | finish outcome, finish outcome' => Agree R outcome outcome'
  | take make next, take make' next' =>
    (∀ i j, β i j → Agree (Object.Alike β) (make i) (make' j)) ∧
      ∀ made made', Agree (Object.Alike β) made made' → Alike β R (next made) (next' made')
  | ask question next, ask question' next' => question = question' ∧
    ∀ given given', Agree (Value.Alike β) given given' → Alike β R (next given) (next' given')
  | _, _ => False

section
variable {R : α → α' → Prop} {S : δ → δ' → Prop}

theorem Alike.andThen {d : Dialogue ι α} {d' : Dialogue ι α'} {f : Except Error α → Dialogue ι δ}
    {g : Except Error α' → Dialogue ι δ'} (first : d.Alike β R d')
    (later : ∀ outcome outcome', Agree R outcome outcome' → (f outcome).Alike β S (g outcome')) :
    (d.andThen f).Alike β S (d'.andThen g) := by
  induction d generalizing d' with
  | finish outcome =>
    cases d' with
    | finish outcome' => exact later outcome outcome' first
    | take make next => exact first.elim
    | ask question next => exact first.elim
  | take make next ih =>
    cases d' with
    | take make' next' => exact ⟨first.1, fun made made' same => ih made (first.2 made made' same)⟩
    | finish outcome => exact first.elim
    | ask question next => exact first.elim
  | ask question next ih =>
    cases d' with
    | ask question' next' => exact ⟨first.1, fun given given' same => ih given (first.2 given given' same)⟩
    | finish outcome => exact first.elim
    | take make next => exact first.elim

theorem Alike.bind {d : Dialogue ι α} {d' : Dialogue ι α'} {f : α → Dialogue ι δ} {g : α' → Dialogue ι δ'}
    (first : d.Alike β R d') (later : ∀ a a', R a a' → (f a).Alike β S (g a')) :
    (d >>= f).Alike β S (d' >>= g) := by
  refine first.andThen fun outcome outcome' same => ?_
  cases same with
  | ok related => exact later _ _ related
  | error e => exact .error e

theorem alike_mapM {f : δ → Dialogue ι α} {g : δ → Dialogue ι α'}
    (each : ∀ x, (f x).Alike β R (g x)) (xs : List δ) :
    (xs.mapM f).Alike β (List.Forall₂ R) (xs.mapM g) := by
  induction xs with
  | nil => exact .ok .nil
  | cons x xs ih =>
    rw [List.mapM_cons, List.mapM_cons]
    exact (each x).bind fun _ _ first => ih.bind fun _ _ others => .ok (.cons first others)

theorem alike_foldlM {f : α → δ → Dialogue ι α} {g : α' → δ → Dialogue ι α'}
    (each : ∀ a a' x, R a a' → (f a x).Alike β R (g a' x)) (xs : List δ) {a : α} {a' : α'}
    (related : R a a') : (xs.foldlM f a).Alike β R (xs.foldlM g a') := by
  induction xs generalizing a a' with
  | nil => exact .ok related
  | cons x xs ih =>
    rw [List.foldlM_cons, List.foldlM_cons]
    exact (each a a' x related).bind fun _ _ => ih

end

section
variable {old : Nat} (fixes : β.Fixes old) {registry : Registry} (purity : registry.Pure old)
include fixes purity

theorem alike_begin (className : String) {vs ws : List Value}
    (arguments : List.Forall₂ (Value.Alike β) vs ws) :
    (begin (ι := ι) registry className vs).Alike β (MadeAlike registry β)
      (begin registry className ws) := by
  unfold begin
  cases found : registry.get? className with
  | none => exact .error _
  | some c =>
    refine ⟨fun i j ids => (purity _ _ found).make fixes ids arguments, fun made made' same => ?_⟩
    exact same.map fun objects => ⟨rfl, ⟨className, found⟩, objects⟩

variable {eval : Bool → α → Dialogue ι Value}
  (each : ∀ optional a, (eval optional a).Alike β (Value.Alike β) (eval optional a))
include each

theorem alike_callSetter {c : Class} (known : ∃ name, registry.get? name = some c)
    (step : Runtime.Step α) {o p : Object} (objects : Object.Alike β o p) :
    (callSetter eval c o step).Alike β (Object.Alike β) (callSetter eval c p step) := by
  obtain ⟨name, found⟩ := known
  refine (alike_mapM (each step.optional) step.arguments).andThen fun outcome outcome' same => ?_
  cases same with
  | ok arguments => exact (purity _ _ found).invoke fixes objects step.method arguments
  | error e =>
    by_cases skip : (e.isUnbound && step.optional) = true
    · simp only [skip, if_true]
      exact .ok objects
    · simp only [skip]
      exact .error e

theorem alike_equip (steps : List (Runtime.Step α)) (hook : Option String) {made made' : Class × Object}
    (begun : MadeAlike registry β made made') :
    (equip eval steps hook made).Alike β (MadeAlike registry β) (equip eval steps hook made') := by
  obtain ⟨c, o⟩ := made
  obtain ⟨c', p⟩ := made'
  obtain ⟨rfl, known, objects⟩ := begun
  refine (alike_foldlM (fun _ _ step alike =>
    alike_callSetter fixes purity each known step alike) steps objects).bind fun o p called => ?_
  cases hook with
  | none => exact .ok ⟨rfl, known, called⟩
  | some method =>
    obtain ⟨name, found⟩ := known
    have invoked := (purity _ _ found).invoke fixes called method .nil
    simp only [finished]
    generalize c.invoke o method [] = left at invoked ⊢
    generalize c.invoke p method [] = right at invoked ⊢
    cases invoked with
    | ok objects => exact Agree.ok ⟨rfl, ⟨name, found⟩, objects⟩
    | error e => exact Agree.error e

theorem alike_assemble (className : String) (arguments : List α) (steps : List (Runtime.Step α))
    (hook : Option String) :
    (assemble registry eval className arguments steps hook).Alike β (MadeAlike registry β)
      (assemble registry eval className arguments steps hook) := by
  refine (alike_mapM (each false) arguments).bind fun vs ws values => ?_
  refine (alike_begin fixes purity className values).bind fun made made' begun => ?_
  exact alike_equip fixes purity each steps hook begun

end

theorem alike_accept {offer offer' : Offer} (alike : Offer.Alike β offer offer') :
    (accept (ι := ι) offer).Alike β (Value.Alike β) (accept offer') := by
  cases offer with
  | existing v =>
    cases offer' with
    | existing w => exact .ok alike
    | fresh type className arguments => exact alike.elim
  | fresh type className arguments =>
    cases offer' with
    | existing w => exact alike.elim
    | fresh type' className' arguments' =>
      obtain ⟨rfl, rfl, arguments⟩ := alike
      refine ⟨fun i j ids => .ok ⟨ids, rfl, rfl, rfl, valuesAlike_iff.mpr arguments, trivial, trivial⟩,
        fun made made' same => ?_⟩
      exact same.map id

theorem alike_ofHook (question : Key → Option Point → ι) {hook hook' : Hook}
    (alike : Hook.Alike β hook hook') :
    (ofHook question hook).Alike β (Value.Alike β) (ofHook question hook') := by
  induction hook generalizing hook' with
  | finish outcome =>
    cases hook' with
    | lookup key point next => exact alike.elim
    | finish outcome' =>
      cases (alike : Agree (Offer.Alike β) outcome outcome') with
      | ok offers => exact alike_accept offers
      | error e => exact .error e
  | lookup key point next ih =>
    cases hook' with
    | finish outcome => exact alike.elim
    | lookup key' point' next' =>
      obtain ⟨rfl, rfl, continues⟩ := alike
      exact ⟨rfl, fun given given' same => ih given (continues given given' same)⟩

theorem alike_provide {old : Nat} (fixes : β.Fixes old) {registry : Registry}
    (purity : registry.Pure old) (blind : registry.Blind) (question : Key → Option Point → ι)
    {made made' : Class × Object} (alike : MadeAlike registry β made made') (context : Option String)
    (point : Option Point) :
    (provide question made context none).Alike β (Value.Alike β)
      (provide question made' context point) := by
  obtain ⟨c, o⟩ := made
  obtain ⟨c', p⟩ := made'
  obtain ⟨rfl, ⟨name, found⟩, objects⟩ := alike
  refine Alike.andThen (R := Hook.Alike β) (d := finish _) ?_ fun outcome outcome' same => ?_
  · rw [blind.hookOf found p context point]
    exact (purity _ _ found).hookOf fixes objects context none
  · cases same with
    | ok hooks => exact alike_ofHook question hooks
    | error e => exact .error e

end Dialogue

namespace Interpreter

/-- What a binding stands for is made in the same way whatever has been made before, on behalf of any
point. -/
theorem alike_dialogue {β : Matching} {old : Nat} (fixes : β.Fixes old) {registry : Registry}
    (purity : registry.Pure old) (blind : registry.Blind) (binding : Binding) (point : Option Point) :
    (dialogue registry binding none).Alike β (Value.Alike β) (dialogue registry binding point) := by
  have argued : ∀ optional p, (Dialogue.ask (Question.argument optional p) .finish).Alike β
      (Value.Alike β) (.ask (.argument optional p) .finish) := fun _ _ => ⟨rfl, fun _ _ same => same⟩
  have instantiated : ∀ signature, (instantiation registry signature).Alike β (MadeAlike registry β)
      (instantiation registry signature) := fun signature =>
    Dialogue.alike_assemble fixes purity argued _ _ _ _
  cases binding with
  | literal value => exact .ok rfl
  | build recipe => exact (instantiated recipe.signature).bind fun _ _ made => .ok made.objects
  | provided recipe scope context =>
    exact (instantiated recipe.signature).bind fun _ _ made =>
      Dialogue.alike_provide fixes purity blind Question.lookup made context point

end Interpreter
end Wiring
