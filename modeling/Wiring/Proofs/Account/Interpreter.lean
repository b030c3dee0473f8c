import Wiring.Proofs.Account
import Wiring.Proofs.Coherence.Runner
import Wiring.Proofs.History

/-! # What interpreters deliver

Every request to an interpreter, and every argument and look-up on the way, is delivered in the scope that
its configured table gives the key. So the deliveries of any requests go by every account that takes its
scopes from that table.
-/
namespace Wiring.Interpreter
open Act Wiring.Runtime Relation

variable (registry : Registry)

/-- The deliveries of a resolution, with so many levels of nesting left. -/
def deliveries : Nat → Key → Binding → Option Point → State → List (Key × Value)
  | 0, key, binding, _, s => Runtime.deliveries key binding.scope tooDeep (fun _ => []) s
  | depth + 1, key, binding, point, s =>
    Runtime.deliveries key binding.scope (realize registry (resolve registry depth) binding point)
      ((dialogue registry binding point).deliveries (answer registry (resolve registry depth)) fun q u =>
        match known registry u.own q.key with
        | some found => deliveries depth q.key found q.point { u with own := learn registry u.own q.key }
        | none => []) s

def delivered : List (Key × Option Point) → State → List (Key × Value)
  | [], _ => []
  | (key, point) :: rest, s =>
    (match known registry s.own key with
      | some binding => deliveries registry (bindable registry s) key binding point
        { s with own := learn registry s.own key }
      | none => []) ++ delivered rest ((request registry key point).runOn s).2

section
variable {registry} {v w : Visit} {value : Value}

theorem mem_deliveries (yields : (v.ran registry).1 = .ok value) :
    (v.key, value) ∈ deliveries registry v.depth v.key v.binding v.point v.state := by
  obtain ⟨depth, key, binding, point, s⟩ := v
  cases depth <;> exact mem_deliveries_of_ok yields

theorem mem_deliveries_of_leads (leads : v.Leads registry w) (yields : (w.ran registry).1 = .ok value) :
    (w.key, value) ∈ deliveries registry v.depth v.key v.binding v.point v.state := by
  induction leads using ReflTransGen.head_induction_on with
  | refl => exact mem_deliveries yields
  | head makes _ ih =>
    obtain ⟨q, makes⟩ := makes
    cases makes with
    | mk isOpen absent asked found =>
      refine mem_deliveries_of_within isOpen absent (Dialogue.mem_deliveries_of_asks asked ?_)
      simp only [found]
      exact ih

theorem mem_delivered_of_visited {earlier later : List (Key × Option Point)} {key : Key}
    {point : Option Point} {s : State} (visited : Visited registry key point (after registry earlier s) w)
    (yields : (w.ran registry).1 = .ok value) :
    (w.key, value) ∈ delivered registry (earlier ++ (key, point) :: later) s := by
  induction earlier generalizing s with
  | nil =>
    obtain ⟨binding, found, leads⟩ := visited
    have found : known registry s.own key = some binding := found
    refine List.mem_append_left _ ?_
    rw [found]
    exact mem_deliveries_of_leads leads yields
  | cons first rest ih => exact List.mem_append_right _ (ih visited)

end

/-- A key for which an object is made whenever it is delivered: that of a class, as a prototype. -/
def Fresh (table : Table) (key : Key) : Prop :=
  ∃ recipe, known registry table key = some (.build recipe) ∧ recipe.scope = .prototype

variable {registry} {table : Table} {key : Key} {binding : Binding}

theorem scope_of_known (bound : known registry table key = some binding) :
    binding.scope = table.scopeOf key := by
  have learnt : (learn registry table key).get? key = some binding := by
    rw [get?_learn, if_pos rfl, bound]
  exact ((Table.Widens.refl table).grows (grows_learn table key)).scope_eq learnt

variable {W : Type} [Preorder W] {P : Protocol W} {w : W}

/-- Making what is known of a key obeys the protocol, and makes an object anew if the key calls for it. -/
theorem obeys_dialogue (respects : registry.Respects P fun _ => True)
    (bound : known registry table key = some binding) (point : Option Point) (w : W) :
    (dialogue registry binding point).Obeys P (fun _ => True)
      (Account.Makes (Fresh registry table) P key) w := by
  have instantiated : ∀ signature, (instantiation registry signature).Obeys P (fun _ => True)
      (Dialogue.MadeOf P registry) w := fun signature =>
    Dialogue.obeys_assemble respects _ _ (fun _ _ => Dialogue.obeys_ask trivial)
      (fun _ _ _ _ => Dialogue.obeys_ask trivial) w
  have stale : (∀ recipe, binding ≠ .build recipe) → ¬ Fresh registry table key := by
    rintro other ⟨recipe, known, -⟩
    exact other recipe (Option.some.inj (bound.symm.trans known))
  cases binding with
  | literal value => exact ⟨P.literal w value, fun fresh => absurd fresh (stale nofun)⟩
  | build recipe =>
    refine (instantiated recipe.signature).bind fun w' _ made madeOf => ?_
    obtain ⟨-, given, taken⟩ := madeOf
    exact ⟨given, fun _ => ⟨made.2, rfl, taken⟩⟩
  | provided recipe scope context =>
    refine (instantiated recipe.signature).bind fun w' _ made madeOf => ?_
    refine (Dialogue.obeys_provide respects (fun _ _ _ => trivial) madeOf context point).imp ?_
    exact fun _ v given => ⟨given, fun fresh => absurd fresh (stale nofun)⟩

variable (A : Account P table.scopeOf (Fresh registry table))
  (unbound : ∀ key point, P.fails (.unbound key point))
include unbound

theorem goes_answer (resolve : Resolve) (within : Key → Binding → Option Point → State → List (Key × Value))
    (resolves : ∀ key binding point w s, known registry table key = some binding →
      A.Stands (Grows registry table) w s → A.Goes (Grows registry table) P.given w s
        (within key binding point s) ((resolve key binding point).runOn s))
    (q : Question) {s : State} (stands : A.Stands (Grows registry table) w s) :
    A.Goes (Grows registry table) P.given w s
      (match known registry s.own q.key with
        | some found => within q.key found q.point { s with own := learn registry s.own q.key }
        | none => [])
      ((answer registry resolve q).runOn s) := by
  rw [runOn_answer, stands.own.known_eq]
  cases bound : known registry table q.key with
  | some found =>
    have learnt : Grows registry table (learn registry s.own q.key) :=
      trans_of (Grows registry) stands.own (grows_learn s.own q.key)
    exact resolves q.key found q.point w _ bound ⟨learnt, stands.core⟩
  | none =>
    refine ⟨w, le_refl w, stands, ?_, A.nothing w s.core⟩
    cases q with
    | lookup key point => exact unbound key point
    | argument optional p =>
      simp only [Question.fallback]
      cases p.default? with
      | some value => exact P.literal w value
      | none => exact unbound p.key (some p.point)

variable (respects : registry.Respects P fun _ => True)
include respects

theorem goes_resolve (depth : Nat) (point : Option Point) {s : State}
    (bound : known registry table key = some binding) (stands : A.Stands (Grows registry table) w s) :
    A.Goes (Grows registry table) P.given w s (deliveries registry depth key binding point s)
      ((resolve registry depth key binding point).runOn s) := by
  have scope : binding.scope = table.scopeOf key := scope_of_known bound
  induction depth generalizing key binding point w s with
  | zero =>
    simp only [deliveries, resolve, scope]
    refine Account.goes_deliver stands fun _ _ => ?_
    exact ⟨A.inside w, le_refl _, ⟨stands.own, A.inv_inside stands.core⟩, P.circular _,
      A.nothing (A.inside w) s.core⟩
  | succ depth ih =>
    simp only [deliveries, resolve, scope]
    refine Account.goes_deliver stands fun _ _ => ?_
    rw [performed_realize]
    refine Account.goes_runOn (fun q w u _ stands => ?_) (obeys_dialogue respects bound point (A.inside w))
      ⟨stands.own, A.inv_inside stands.core⟩
    exact goes_answer A unbound (resolve registry depth) (deliveries registry depth)
      (fun key found point w s bound stands => ih point bound stands (scope_of_known bound)) q stands

theorem goes_delivered (requests : List (Key × Option Point)) {s : State}
    (stands : A.Stands (Grows registry table) w s) :
    ∃ w', A.covers w s.core (delivered registry requests s) w' (after registry requests s).core := by
  induction requests generalizing w s with
  | nil => exact ⟨w, A.nothing w s.core⟩
  | cons asked rest ih =>
    obtain ⟨key, point⟩ := asked
    have now := goes_answer A unbound (resolve registry (bindable registry s))
      (deliveries registry (bindable registry s)) (fun key found point w u bound stands =>
        goes_resolve A unbound respects (bindable registry s) point bound stands) (.lookup key point) stands
    obtain ⟨w', -, later, -, covers⟩ := now
    obtain ⟨w'', covers'⟩ := ih later
    exact ⟨w'', A.append covers covers'⟩

end Wiring.Interpreter
