import Wiring.Proofs.Account
import Wiring.Proofs.Account.Interpreter

/-! # What runners deliver

A runner whose plans fit a table delivers every operand and every look-up in the scope that the table
gives the key, whichever way it comes by the plan. So its deliveries go by the same accounts as those of
an interpreter of the table.
-/
namespace Wiring.Runner
open Act Wiring.Runtime Relation

variable {σ : Type} [Store σ] (registry : Registry)

def deliveries : Nat → Key → Option Scope → Option Point → State σ → List (Key × Value)
  | 0, key, scope, point, s =>
    match (planFor registry key point).runOn s with
    | (.error _, _) => []
    | (.ok plan, t) => Runtime.deliveries key (scope.getD plan.scope) tooDeep (fun _ => []) t
  | depth + 1, key, scope, point, s =>
    match (planFor registry key point).runOn s with
    | (.error _, _) => []
    | (.ok plan, t) =>
      Runtime.deliveries key (scope.getD plan.scope) (evaluate registry (obtain registry depth) plan point)
        ((dialogue registry plan.body point).deliveries (answer (obtain registry depth)) fun q =>
          deliveries depth q.key q.scope q.point) t

def delivered : List (Key × Option Point) → State σ → List (Key × Value)
  | [], _ => []
  | (key, point) :: rest, s => deliveries registry (runnable registry s) key none point s ++
    delivered rest ((request registry key point).runOn s).2

section
variable {registry} {v w : Visit σ} {value : Value}

theorem mem_deliveries_of_found {key : Key} {scope : Option Scope} {point : Option Point} {s : State σ}
    {make : Plan → Run σ Value} {within : Plan → State σ → List (Key × Value)}
    (yields : ((planFor registry key point >>= fun p =>
      deliver key (scope.getD p.scope) (make p)).runOn s).1 = .ok value) :
    (key, value) ∈ match (planFor registry key point).runOn s with
      | (.error _, _) => []
      | (.ok p, t) => Runtime.deliveries key (scope.getD p.scope) (make p) (within p) t := by
  rw [runOn_bind] at yields
  rcases found : (planFor registry key point).runOn s with ⟨e | p, t⟩ <;> rw [found] at yields
  · cases yields
  · exact mem_deliveries_of_ok yields

theorem mem_deliveries (yields : (v.ran registry).1 = .ok value) :
    (v.key, value) ∈ deliveries registry v.depth v.key v.scope v.point v.state := by
  obtain ⟨depth, key, scope, point, s⟩ := v
  cases depth <;> exact mem_deliveries_of_found yields

theorem mem_deliveries_of_leads (leads : v.Leads registry w) (yields : (w.ran registry).1 = .ok value) :
    (w.key, value) ∈ deliveries registry v.depth v.key v.scope v.point v.state := by
  induction leads using ReflTransGen.head_induction_on with
  | refl => exact mem_deliveries yields
  | head makes _ ih =>
    obtain ⟨q, makes⟩ := makes
    cases makes with
    | mk found isOpen absent asked =>
      simp only [deliveries, found]
      exact mem_deliveries_of_within isOpen absent (Dialogue.mem_deliveries_of_asks asked ih)

theorem mem_delivered_of_visited {earlier later : List (Key × Option Point)} {key : Key}
    {point : Option Point} {s : State σ}
    (visited : Visited registry key point (TwoPhase.served registry earlier s) w)
    (yields : (w.ran registry).1 = .ok value) :
    (w.key, value) ∈ delivered registry (earlier ++ (key, point) :: later) s := by
  induction earlier generalizing s with
  | nil => exact List.mem_append_left _ (mem_deliveries_of_leads visited yields)
  | cons first rest ih => exact List.mem_append_right _ (ih visited)

end

/-- A plan that fits a table and asks for allowed keys only. -/
structure Runnable (table : Table) (allowed : Key → Prop) (key : Key) (p : Plan) : Prop where
  fits : p.Fits table key
  allowed : ∀ o ∈ p.operands, ∀ q, o.key? = some q → allowed q

variable {W : Type} [Preorder W]

/-- If its own part is in order, a runner finds runnable plans for allowed keys, or fails as the protocol
says. Its own part stays in order, and nothing else changes. -/
def Finds (P : Protocol W) (table : Table) (allowed : Key → Prop) (own : Memory σ → Prop) : Prop :=
  ∀ key point (s : State σ), allowed key → own s.own → ∃ r m,
    (planFor registry key point).runOn s = (r, { s with own := m }) ∧ own m ∧
      ∀ w, P.Expects (fun _ => Runnable table allowed key) w r

theorem finds_fitting [LawfulStore σ] (registry : Registry) {P : Protocol W} (fails : ∀ e, P.fails e)
    (table : Table) : Finds registry P table (fun _ => True) (Fitting (σ := σ) table) := by
  intro key point s _ fitting
  have ensured := ensures_planFor registry key point s fitting
  have moved : OwnOnly s ((planFor registry key point).runOn s).2 := ownOnly_planFor registry key point s
  generalize (planFor registry key point).runOn s = ran at ensured moved ⊢
  obtain ⟨r, t⟩ := ran
  obtain ⟨later, fits⟩ := ensured
  refine ⟨r, t.own, Prod.ext rfl moved, later, fun w => ?_⟩
  cases r with
  | error e => exact fails e
  | ok p => exact ⟨fits p rfl, fun _ _ _ _ => trivial⟩

def Question.Permitted (table : Table) (allowed : Key → Prop) (q : Question) : Prop :=
  allowed q.key ∧ ∀ scope, q.scope = some scope → scope = table.scopeOf q.key

variable {registry} {P : Protocol W} {table : Table} {allowed : Key → Prop} {key : Key} {w : W}

theorem obeys_operand {o : Operand} (fits : o.Fits table) (asks : ∀ q, o.key? = some q → allowed q) (w : W) :
    (Operand.dialogue o).Obeys P (Question.Permitted table allowed) P.given w := by
  cases o with
  | literal value => exact P.literal w value
  | reference scope q | deferred scope q point =>
    refine Dialogue.obeys_ask ⟨asks q rfl, fun scope' same => ?_⟩ w
    exact (Option.some.inj same).symm.trans fits

/-- Running a plan obeys the protocol, and makes an object anew if the key calls for it. -/
theorem obeys_dialogue (respects : registry.Respects P allowed) {p : Plan}
    (runnable : Runnable table allowed key p) (point : Option Point) (w : W) :
    (dialogue registry p.body point).Obeys P (Question.Permitted table allowed)
      (Account.Makes (Interpreter.Fresh registry table) P key) w := by
  have constructed : ∀ a : Assembly, (∀ o ∈ a.allOperands, o ∈ p.operands) →
      (construction registry a).Obeys P (Question.Permitted table allowed) (Dialogue.MadeOf P registry) w := by
    intro a among
    have each : ∀ o ∈ a.allOperands, ∀ w,
        (Operand.dialogue o).Obeys P (Question.Permitted table allowed) P.given w := fun o member =>
      obeys_operand (runnable.fits.operands o (among o member)) (runnable.allowed o (among o member))
    refine Dialogue.obeys_assemble respects _ _ (fun o member => each o (List.mem_append_left _ member)) ?_ w
    intro call member o inside
    obtain ⟨made, called, rfl⟩ := List.mem_map.mp member
    exact each o (List.mem_append_right _ (List.mem_flatMap.mpr ⟨made, called, inside⟩))
  have constructs : Interpreter.Fresh registry table key → ∃ a, p.body = .construct a := by
    rintro ⟨recipe, known, -⟩
    refine runnable.fits.constructs fun b bound => ⟨recipe, ?_⟩
    exact Option.some.inj ((Interpreter.known_of_get? bound).symm.trans known)
  unfold Plan.operands Plan.assembly? at constructed
  unfold dialogue
  cases body : p.body with
  | literal value =>
    refine ⟨P.literal w value, fun fresh => ?_⟩
    obtain ⟨a, same⟩ := constructs fresh
    cases body.symm.trans same
  | construct a =>
    rw [body] at constructed
    refine (constructed a fun _ member => member).bind fun w' _ made madeOf => ?_
    obtain ⟨-, given, taken⟩ := madeOf
    exact ⟨given, fun _ => ⟨made.2, rfl, taken⟩⟩
  | provide a context =>
    rw [body] at constructed
    refine (constructed a fun _ member => member).bind fun w' _ made madeOf => ?_
    have lookups : ∀ key point, allowed key → Question.Permitted table allowed (.lookup key point) :=
      fun _ _ may => ⟨may, nofun⟩
    refine (Dialogue.obeys_provide respects lookups madeOf context point).imp fun _ v given => ⟨given, ?_⟩
    intro fresh
    obtain ⟨a, same⟩ := constructs fresh
    cases body.symm.trans same

structure Visit.Stands (allowed : Key → Prop) (A : Account P table.scopeOf (Interpreter.Fresh registry table))
    (own : Memory σ → Prop) (v : Visit σ) : Prop where
  may : allowed v.key
  sited : ∀ given, v.scope = some given → given = table.scopeOf v.key
  state : ∃ w, A.Stands own w v.state

variable (A : Account P table.scopeOf (Interpreter.Fresh registry table)) {own : Memory σ → Prop}
  (finds : Finds registry P table allowed own)
include finds

/-- A key is delivered by the account if the plan that is found for it is run by the account. -/
theorem goes_found {scope : Option Scope} (point : Option Point) {s : State σ} (may : allowed key)
    (sited : ∀ given, scope = some given → given = table.scopeOf key) (stands : A.Stands own w s)
    {make : Plan → Run σ Value} {within : Plan → State σ → List (Key × Value)}
    (runs : ∀ p w t, Runnable table allowed key p → A.Stands own w t →
      A.Goes own (Account.Makes (Interpreter.Fresh registry table) P key) w t (within p t) ((make p).runOn t)) :
    A.Goes own P.given w s
      (match (planFor registry key point).runOn s with
        | (.error _, _) => []
        | (.ok p, t) => Runtime.deliveries key (scope.getD p.scope) (make p) (within p) t)
      ((planFor registry key point >>= fun p => deliver key (scope.getD p.scope) (make p)).runOn s) := by
  obtain ⟨r, m, found, kept, expects⟩ := finds key point s may stands.own
  simp only [runOn_bind, found]
  cases r with
  | error e => exact ⟨w, le_refl w, ⟨kept, stands.core⟩, expects w, A.nothing w s.core⟩
  | ok p =>
    have runnable : Runnable table allowed key p := expects w
    -- A call's scope counts before the plan's, but both are the scope of the table.
    have same : scope.getD p.scope = table.scopeOf key := by
      cases scope with
      | none => exact runnable.fits.scope
      | some given => exact sited given rfl
    have after : A.Stands own w { s with own := m } := ⟨kept, stands.core⟩
    simp only [same]
    exact Account.goes_deliver after fun _ _ =>
      runs p (A.inside w) _ runnable ⟨kept, A.inv_inside stands.core⟩

variable (respects : registry.Respects P allowed)
include respects

theorem goes_obtain (depth : Nat) (scope : Option Scope) (point : Option Point) {s : State σ}
    (may : allowed key) (sited : ∀ given, scope = some given → given = table.scopeOf key)
    (stands : A.Stands own w s) : A.Goes own P.given w s (deliveries registry depth key scope point s)
      ((obtain registry depth key scope point).runOn s) := by
  induction depth generalizing key scope point w s with
  | zero =>
    refine goes_found A finds point may sited stands fun p w t _ stands => ?_
    exact ⟨w, le_refl w, stands, P.circular _, A.nothing w t.core⟩
  | succ depth ih =>
    refine goes_found A finds point may sited stands fun p w t runnable stands => ?_
    rw [performed_evaluate]
    exact Account.goes_runOn (fun q w u asked stands => ih q.scope q.point asked.1 asked.2 stands)
      (obeys_dialogue respects runnable point w) stands

theorem Visit.Leads.stands {v v' : Visit σ} (leads : Visit.Leads registry v v')
    (stands : v.Stands allowed A own) : v'.Stands allowed A own := by
  induction leads with
  | refl => exact stands
  | tail _ makes ih =>
    obtain ⟨q, makes⟩ := makes
    cases makes with
    | @mk depth key scope point s t u p q found isOpen absent asked =>
      obtain ⟨w, state⟩ := ih.state
      obtain ⟨r, m, found', kept, expects⟩ := finds key point s ih.may state.own
      cases found.symm.trans found'
      have runnable : Runnable table allowed key p := expects w
      have entered : A.Stands own w (entered key { s with own := m }) := ⟨kept, state.core⟩
      obtain ⟨permitted, inside⟩ := Account.stands_of_asks (fun q w u asked stands =>
        goes_obtain A finds respects depth q.scope q.point asked.1 asked.2 stands) asked
        (obeys_dialogue respects runnable point w) entered
      exact ⟨permitted.1, permitted.2, inside⟩

theorem goes_delivered {requests : List (Key × Option Point)} (may : ∀ asked ∈ requests, allowed asked.1)
    {s : State σ} (stands : A.Stands own w s) : ∃ w', A.Stands own w' (TwoPhase.served registry requests s) ∧
      A.covers w s.core (delivered registry requests s) w' (TwoPhase.served registry requests s).core := by
  induction requests generalizing w s with
  | nil => exact ⟨w, stands, A.nothing w s.core⟩
  | cons asked rest ih =>
    obtain ⟨first, others⟩ := List.forall_mem_cons.mp may
    obtain ⟨w', -, later, -, covers⟩ :=
      goes_obtain A finds respects (runnable registry s) none asked.2 first nofun stands
    obtain ⟨w'', stands', covers'⟩ := ih others later
    exact ⟨w'', stands', A.append covers covers'⟩

end Wiring.Runner
