import Wiring.Proofs.Dialogue.Protocol

/-! # Accounts of deliveries

An injector delivers values for keys: to whoever requests them, to constructors and setters as arguments,
and to hooks that look them up. The deliveries of a run are listed in the order in which they are made.
An account of them says how the list fits the states before and after, and is carried through runs.
-/
namespace Wiring
open Act Wiring.Runtime

variable {ρ ι α : Type}

instance (key : Key) (scope : Scope) (s : Runtime ρ) : Decidable (Open key scope s) :=
  inferInstanceAs (Decidable (_ → _))

def Dialogue.deliveries (answer : ι → Act (Runtime ρ) Value)
    (within : ι → Runtime ρ → List (Key × Value)) : Dialogue ι α → Runtime ρ → List (Key × Value)
  | finish _, _ => []
  | take make next, s => (next (make s.born)).deliveries answer within (taken (make s.born) s)
  | ask question next, s => within question s ++
    (next ((answer question).runOn s).1).deliveries answer within ((answer question).runOn s).2

/-- What is delivered when a key is: what is delivered within, if the value is made now, and the value. -/
def Runtime.deliveries (key : Key) (scope : Scope) (make : Act (Runtime ρ) Value)
    (within : Runtime ρ → List (Key × Value)) (s : Runtime ρ) : List (Key × Value) :=
  (if Open key scope s ∧ key ∉ s.active then within (entered key s) else []) ++
    match ((deliver key scope make).runOn s).1 with
    | .ok value => [(key, value)]
    | .error _ => []

theorem Dialogue.mem_deliveries_of_asks {answer : ι → Act (Runtime ρ) Value}
    {within : ι → Runtime ρ → List (Key × Value)} {q : ι} {u s : Runtime ρ} {d : Dialogue ι α}
    (asked : Asks answer q u d s) {x : Key × Value} (member : x ∈ within q u) :
    x ∈ d.deliveries answer within s := by
  induction asked with
  | now => exact List.mem_append_left _ member
  | later _ ih => exact List.mem_append_right _ ih
  | taken _ ih => exact ih

namespace Runtime
variable {key : Key} {scope : Scope} {make : Act (Runtime ρ) Value}
  {inner : Runtime ρ → List (Key × Value)} {s : Runtime ρ}

theorem mem_deliveries_of_within (isOpen : Open key scope s) (absent : key ∉ s.active) {x : Key × Value}
    (member : x ∈ inner (entered key s)) : x ∈ deliveries key scope make inner s := by
  refine List.mem_append_left _ ?_
  rwa [if_pos ⟨isOpen, absent⟩]

theorem mem_deliveries_of_ok {v : Value} (delivered : ((deliver key scope make).runOn s).1 = .ok v) :
    (key, v) ∈ deliveries key scope make inner s := by
  refine List.mem_append_right _ ?_
  rw [delivered]
  exact List.mem_singleton.mpr rfl

end Runtime

structure Core where
  born : Nat
  singletons : SortedMap Key Value

def Core.next (c : Core) : Core := { c with born := c.born + 1 }

/-- The value that a made one is delivered as, and the core that keeps it. -/
def Core.keep (key : Key) (scope : Scope) (value : Value) (c : Core) : Value × Core :=
  match scope with
  | .prototype => (value, c)
  | .singleton => ((c.singletons.get? key).getD value,
    { c with singletons := c.singletons.insertIfNew key value })

def Runtime.core (s : Runtime ρ) : Core := ⟨s.born, s.singletons⟩

theorem runOn_keep_core (key : Key) (scope : Scope) (value : Value) (s : Runtime ρ) :
    ∃ t, (keep key scope value).runOn s = (.ok (s.core.keep key scope value).1, t) ∧
      t.core = (s.core.keep key scope value).2 ∧ t.own = s.own := by
  rw [runOn_keep]
  cases scope <;> exact ⟨_, rfl, rfl, rfl⟩

section
variable {W : Type} [Preorder W]

/-- An account of deliveries: what holds of cores in each world, and how the worlds and cores before and
after cover some deliveries. Some keys are said to have a fresh object made for each delivery. -/
structure Account (P : Protocol W) (scopeOf : Key → Scope) (fresh : Key → Prop) where
  inv : W → Core → Prop
  covers : W → Core → List (Key × Value) → W → Core → Prop
  nothing : ∀ w c, covers w c [] w c
  append : ∀ {w w' w'' c c' c'' xs ys}, covers w c xs w' c' → covers w' c' ys w'' c'' →
    covers w c (xs ++ ys) w'' c''
  take : ∀ {w c}, inv w c → inv (P.take w c.born) c.next ∧ covers w c [] (P.take w c.born) c.next
  /-- The world for making another object in. -/
  inside : W → W
  inv_inside : ∀ {w c}, inv w c → inv (inside w) c
  kept : ∀ {w c key v}, inv w c → scopeOf key = .singleton → c.singletons.get? key = some v →
    P.given w v ∧ covers w c [(key, v)] w c
  failed : ∀ {w w' c c' xs}, inv w c → inv w' c' → covers (inside w) c xs w' c' →
    ∃ w'', w ≤ w'' ∧ inv w'' c' ∧ covers w c xs w'' c'
  made : ∀ {w w' c c' xs key v}, inv w c → inv w' c' → covers (inside w) c xs w' c' →
    P.given w' v → (fresh key → ∃ o : Object, o.value = v ∧ P.made w' o.id) →
    ∃ w'', w ≤ w'' ∧ inv w'' (c'.keep key (scopeOf key) v).2 ∧
      P.given w'' (c'.keep key (scopeOf key) v).1 ∧
      covers w c (xs ++ [(key, (c'.keep key (scopeOf key) v).1)]) w'' (c'.keep key (scopeOf key) v).2

def Account.blank (P : Protocol W) (given : ∀ w v, P.given w v) (scopeOf : Key → Scope)
    (fresh : Key → Prop) : Account P scopeOf fresh where
  inv _ _ := True
  covers _ _ _ _ _ := True
  nothing _ _ := trivial
  append _ _ := trivial
  take _ := ⟨trivial, trivial⟩
  inside w := w
  inv_inside _ := trivial
  kept _ _ _ := ⟨given _ _, trivial⟩
  failed _ _ _ := ⟨_, le_refl _, trivial, trivial⟩
  made _ _ _ _ _ := ⟨_, le_refl _, trivial, given _ _, trivial⟩

namespace Account
variable {P : Protocol W} {scopeOf : Key → Scope} {fresh : Key → Prop} (A : Account P scopeOf fresh)
  (own : ρ → Prop)

structure Stands (w : W) (s : Runtime ρ) : Prop where
  own : own s.own
  core : A.inv w s.core

/-- From a world and a state, something goes by the account. -/
def Goes (V : W → α → Prop) (w : W) (s : Runtime ρ) (xs : List (Key × Value))
    (r : Except Error α × Runtime ρ) : Prop :=
  ∃ w', w ≤ w' ∧ A.Stands own w' r.2 ∧ P.Expects V w' r.1 ∧ A.covers w s.core xs w' r.2.core

/-- What is made for a key: a given value, and for some keys an object whose identity was taken. -/
def Makes (fresh : Key → Prop) (P : Protocol W) (key : Key) (w : W) (v : Value) : Prop :=
  P.given w v ∧ (fresh key → ∃ o : Object, o.value = v ∧ P.made w o.id)

variable {A own} {w : W} {s : Runtime ρ} {asks : ι → Prop} {V : W → α → Prop}
  {answer : ι → Act (Runtime ρ) Value} {within : ι → Runtime ρ → List (Key × Value)}

theorem Stands.taken (stands : A.Stands own w s) (made : Except Error Object) :
    A.Stands own (P.taken w s.born made) (Dialogue.taken made s) ∧
      A.covers w s.core [] (P.taken w s.born made) (Dialogue.taken made s).core := by
  cases made with
  | error e => exact ⟨stands, A.nothing w s.core⟩
  | ok o =>
    obtain ⟨inv, covers⟩ := A.take stands.core
    exact ⟨⟨stands.own, inv⟩, covers⟩

section
variable (answers : ∀ q w s, asks q → A.Stands own w s →
  A.Goes own P.given w s (within q s) ((answer q).runOn s))
include answers

theorem goes_runOn {d : Dialogue ι α} (obeys : d.Obeys P asks V w) (stands : A.Stands own w s) :
    A.Goes own V w s (d.deliveries answer within s) (d.runOn answer s) := by
  induction d generalizing w s with
  | finish outcome => exact ⟨w, le_refl w, stands, obeys, A.nothing w s.core⟩
  | take make next ih =>
    obtain ⟨later, covers⟩ := stands.taken (make s.born)
    obtain ⟨w', le, stands', expects, covers'⟩ := ih (make s.born) (obeys w (le_refl w) s.born) later
    exact ⟨w', (P.le_taken w s.born _).trans le, stands', expects, A.append covers covers'⟩
  | ask question next ih =>
    obtain ⟨w', le, later, expects, covers⟩ := answers question w s obeys.1 stands
    obtain ⟨w'', le', stands', expects', covers'⟩ := ih _ (obeys.2 w' le _ expects) later
    exact ⟨w'', le.trans le', stands', expects', A.append covers covers'⟩

theorem stands_of_asks {q : ι} {u : Runtime ρ} {d : Dialogue ι α} (asked : Dialogue.Asks answer q u d s)
    (obeys : d.Obeys P asks V w) (stands : A.Stands own w s) : asks q ∧ ∃ w', A.Stands own w' u := by
  induction asked generalizing w with
  | now => exact ⟨obeys.1, w, stands⟩
  | later _ ih =>
    obtain ⟨w', le, later, expects, -⟩ := answers _ w _ obeys.1 stands
    exact ih (obeys.2 w' le _ expects) later
  | taken _ ih => exact ih (obeys w (le_refl w) _) (stands.taken _).1

end

/-- A key is delivered by the account if it is made by the account. -/
theorem goes_deliver {key : Key} {make : Act (Runtime ρ) Value}
    {within : Runtime ρ → List (Key × Value)} (stands : A.Stands own w s)
    (inner : Open key (scopeOf key) s → key ∉ s.active → A.Goes own (Makes fresh P key) (A.inside w)
      (entered key s) (within (entered key s)) (make.runOn (entered key s))) :
    A.Goes own P.given w s (deliveries key (scopeOf key) make within s)
      ((deliver key (scopeOf key) make).runOn s) := by
  unfold deliveries
  have delivery := delivery_deliver key (scopeOf key) make s
  generalize (deliver key (scopeOf key) make).runOn s = ran at delivery ⊢
  cases delivery with
  | @kept value single found =>
    have closed : ¬ (Open key (scopeOf key) s ∧ key ∉ s.active) := fun vacant =>
      nomatch found.symm.trans (vacant.1 single)
    rw [if_neg closed]
    obtain ⟨given, covers⟩ := A.kept stands.core single found
    exact ⟨w, le_refl w, stands, given, covers⟩
  | circular _ member =>
    have closed : ¬ (Open key (scopeOf key) s ∧ key ∉ s.active) := fun vacant => vacant.2 member
    rw [if_neg closed]
    exact ⟨w, le_refl w, stands, P.circular _, A.nothing w s.core⟩
  | @failed e u isOpen absent failed =>
    obtain ⟨w', -, stands', expects, covers⟩ := inner isOpen absent
    rw [failed] at stands' expects covers
    obtain ⟨w'', le, inv, covers'⟩ := A.failed stands.core stands'.core covers
    rw [if_pos ⟨isOpen, absent⟩]
    exact ⟨w'', le, ⟨stands'.own, inv⟩, expects, (List.append_nil _).symm ▸ covers'⟩
  | @made value u isOpen absent finished =>
    obtain ⟨w', -, stands', expects, covers⟩ := inner isOpen absent
    rw [finished] at stands' expects covers
    obtain ⟨given, crafted⟩ : Makes fresh P key w' value := expects
    obtain ⟨w'', le, inv, given', covers'⟩ := A.made stands.core stands'.core covers given crafted
    obtain ⟨t, kept, core, same⟩ := runOn_keep_core key (scopeOf key) value (exited key u)
    rw [kept, if_pos ⟨isOpen, absent⟩]
    have after : t.core = (u.core.keep key (scopeOf key) value).2 := core
    refine ⟨w'', le, ⟨same ▸ stands'.own, after ▸ inv⟩, given', ?_⟩
    rw [after]
    exact covers'

end Account
end
end Wiring
