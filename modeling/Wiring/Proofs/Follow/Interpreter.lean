import Wiring.Proofs.Compile.Plan
import Wiring.Proofs.Follow.Deliver
import Wiring.Proofs.Interpreter

/-! # The interpreter follows the drafts of plans

Let every binding of a table compile. As long as the interpreter discovers nothing that the table does
not have, it answers as the plans of the table say. It may do more on the way, since it evaluates the
arguments of a setter before it finds that the setter has to be left out; what it made of those drops
out of the chart.
-/
namespace Wiring.Interpreter
open Act Compile Filter Wiring.Runtime

/-- An interpreter that must not discover more than a table has. -/
def limited (stage : Stage) (table : Table) : Scene Table where
  __ := stage
  plans := plansOf table
  good _ := True
  limit own := Grows stage.registry own table
  strict := False

variable {stage : Stage} {table : Table} {owner : Option Key} {active : List Key} {least : Matching}
  {resolve : Resolve}

theorem Moves.backward {α : Type} {x : Run α} (h : x.Moves (OnOwn (Grows stage.registry))) :
    x.Moves (OnOwn (limited stage table).Backward) :=
  fun s limit => trans_of (Grows stage.registry) (h s) limit

theorem get?_of_learn {own : Table} {key : Key}
    (limit : Grows stage.registry (learn stage.registry own key) table) :
    table.get? key = known stage.registry own key := by
  cases found : known stage.registry own key with
  | some binding =>
    refine limit.kept ?_
    rw [get?_learn, if_pos rfl, found]
  | none =>
    cases bound : table.get? key with
    | none => rfl
    | some binding =>
      have same := trans_of (Grows stage.registry) (grows_learn own key) limit
      rw [same.known bound] at found
      cases found

theorem follows_binding {f : Binding → Run Value} {g : Run Value} {key : Key} {draft : Nat → Draft Value}
    (moves : ∀ binding, (f binding).Moves (OnOwn (Grows stage.registry)))
    (some : ∀ {binding}, table.get? key = some binding →
      (limited stage table).Follows owner active least Value.Alike (f binding) draft)
    (none : table.get? key = none → (limited stage table).Follows owner active least Value.Alike g draft)
    (still : g.Moves (OnOwn (Grows stage.registry))) :
    (limited stage table).Follows owner active least Value.Alike
      (do
        match ← bindingFor stage.registry key with
        | .some binding => f binding
        | .none => g) draft := by
  intro chart n s le tracks limit
  rw [runOn_bind, runOn_bindingFor] at limit ⊢
  have tracks' : (limited stage table).Tracks owner active chart n
      { s with own := learn stage.registry s.own key } := { tracks with own := trivial }
  cases found : known stage.registry s.own key with
  | some binding =>
    simp only [found] at limit ⊢
    have bound : table.get? key = .some binding :=
      (get?_of_learn (Moves.backward (moves binding) _ limit)).trans found
    exact (some bound chart n _ le tracks' limit).of_own
  | none =>
    simp only [found] at limit ⊢
    have unbound : table.get? key = .none :=
      (get?_of_learn (Moves.backward still _ limit)).trans found
    exact (none unbound chart n _ le tracks' limit).of_own

structure Resolves (stage : Stage) (table : Table) (active : List Key) (resolve : Resolve) : Prop where
  moves : ∀ key binding point, (resolve key binding point).Moves (OnOwn (Grows stage.registry))
  follows : ∀ {owner least key binding}, table.get? key = some binding → ∀ point,
    (limited stage table).Follows owner active least Value.Alike (resolve key binding point)
      ((limited stage table).deliverDraft owner key binding.scope)

section
variable (resolves : Resolves stage table active resolve)
include resolves

theorem follows_argument {p : Parameter} {o : Operand} (h : operandFor noScopes table p = .ok o) :
    (limited stage table).Follows owner active least Value.Alike (argument stage.registry resolve p)
      ((limited stage table).operandDraft owner o) := by
  refine follows_binding (fun binding => resolves.moves p.key binding (some p.point)) ?_ ?_ ?_
  · intro binding bound
    simp only [operandFor, bound, Except.ok.injEq] at h
    rw [← h]
    exact resolves.follows bound (some p.point)
  · intro unbound
    cases default : p.default? with
    | none => simp [operandFor, unbound, noScopes, default] at h
    | some value =>
      simp only [operandFor, unbound, noScopes, default, Except.ok.injEq] at h
      rw [← h]
      exact Scene.follows_pure fun _ => rfl
  · cases p.default? <;> exact moves_of_keeps fun _ => rfl

theorem follows_arguments {parameters : List Parameter} {operands : List Operand}
    (h : operandsFor noScopes table parameters = .ok operands) :
    List.Forall₂ (fun p x => (limited stage table).Follows owner active least Value.Alike
      (argument stage.registry resolve p) ((limited stage table).operandDraft owner x))
      parameters operands :=
  (mapM_eq_ok_iff.mp h).imp fun _ _ compiled => follows_argument resolves compiled

theorem runOn_argument_unbound {p : Parameter} {e : Error} (h : operandFor noScopes table p = .error e)
    {s : State} (limit : Grows stage.registry ((argument stage.registry resolve p).runOn s).2.own table) :
    (argument stage.registry resolve p).runOn s = (.error (.unbound p.key (some p.point)), s) := by
  simp only [argument, runOn_bind, runOn_bindingFor] at limit ⊢
  cases found : known stage.registry s.own p.key with
  | some binding =>
    simp only [found] at limit
    have bound : table.get? p.key = some binding :=
      (get?_of_learn (trans_of (Grows stage.registry) (resolves.moves _ _ _ _) limit)).trans found
    simp [operandFor, bound] at h
  | none =>
    have same : learn stage.registry s.own p.key = s.own := by simp only [learn, found]
    have unbound : table.get? p.key = none := by
      simp only [found] at limit
      cases default : p.default? with
      | some value =>
        simp only [default] at limit
        exact (get?_of_learn limit).trans found
      | none =>
        simp only [default] at limit
        exact (get?_of_learn limit).trans found
    have required : p.default? = none := by
      cases default : p.default? with
      | none => rfl
      | some value => simp [operandFor, unbound, noScopes, default] at h
    simp only [required, same, runOn_throw]

/-- Arguments that do not all compile are evaluated up to the first one that does not. Unless one
fails before, that one is unbound, and what was made of the others is forgotten. -/
theorem arguments_dropped {parameters : List Parameter} {e : Error}
    (h : operandsFor noScopes table parameters = .error e) {chart : Matching} {n : Nat} {s : State}
    (tracks : (limited stage table).Tracks owner active chart n s)
    (limit : Grows stage.registry
      ((parameters.mapM (argument stage.registry resolve)).runOn s).2.own table) :
    ∃ e' t, (parameters.mapM (argument stage.registry resolve)).runOn s = (.error e', t) ∧
      (e'.isUnbound = false ∨ ∃ chart', (limited stage table).Tracks owner active chart' n t ∧
        Extends active chart s chart' t) := by
  induction parameters generalizing chart n s with
  | nil => cases h
  | cons p rest ih =>
    unfold operandsFor at h ih
    rw [List.mapM_cons] at h limit ⊢
    have others : (rest.mapM (argument stage.registry resolve)).Moves (OnOwn (Grows stage.registry)) :=
      Moves.mapM (moves_argument resolves.moves) rest
    have after : Grows stage.registry ((argument stage.registry resolve p).runOn s).2.own table :=
      trans_of (Grows stage.registry)
        (moves_after (fun _ => others.bind fun _ => moves_of_keeps fun _ => rfl) s) limit
    rw [runOn_bind] at limit ⊢
    -- The first parameter that does not compile is the first that is unbound; those before it have been
    -- evaluated as drafted, and their names are given back.
    cases first : operandFor noScopes table p with
    | error e' =>
      rw [runOn_argument_unbound resolves first after]
      exact ⟨_, s, rfl, .inr ⟨chart, tracks, .refl active chart s⟩⟩
    | ok o =>
      have fails : rest.mapM (operandFor noScopes table) = .error e := by
        rw [first] at h
        cases later : rest.mapM (operandFor noScopes table) with
        | error e' => rw [later] at h; exact h
        | ok os => rw [later] at h; cases h
      have followed := follows_argument resolves first chart n s (fun _ _ => id) tracks after
      generalize (argument stage.registry resolve p).runOn s = ran at followed limit ⊢
      obtain ⟨e' | v, t⟩ := ran
      · exact ⟨e', t, rfl, .inl followed.1⟩
      · obtain ⟨chart', v', m, -, -, tracks', grown, -⟩ := followed
        simp only at limit ⊢
        have later : Grows stage.registry
            ((rest.mapM (argument stage.registry resolve)).runOn t).2.own table :=
          trans_of (Grows stage.registry)
            (moves_after (R := OnOwn (Grows stage.registry)) (fun _ => moves_of_keeps fun _ => rfl) t) limit
        obtain ⟨e', u, ran, outcome⟩ := ih fails tracks' later
        refine ⟨e', u, by rw [runOn_bind, ran], outcome.imp_right ?_⟩
        rintro ⟨chart'', tracks'', grown'⟩
        exact ⟨_, tracks''.rollback n, tracks.extends_upTo (grown.trans grown')⟩

theorem follows_dropped {setter : Setter} (optional : setter.optional = true) {e : Error}
    (h : operandsFor noScopes table setter.parameters = .error e) (c : Class) {o' o : Object}
    (objects : Object.Alike least o' o) :
    (limited stage table).Follows owner active least Object.Alike
      (callSetter (argument stage.registry resolve) c o (step setter)) fun _ => pure o' := by
  intro chart n s le tracks limit
  rw [runOn_callSetter] at limit ⊢
  have failed := arguments_dropped resolves h tracks
  simp only [step, optional, Bool.and_true] at limit ⊢
  generalize (setter.parameters.mapM (argument stage.registry resolve)).runOn s = ran at failed limit ⊢
  obtain ⟨e' | values, t⟩ := ran
  · obtain ⟨_, _, same, outcome⟩ := failed limit
    cases same
    cases unbound : e'.isUnbound with
    | false =>
      simp only [unbound, Bool.false_eq_true, if_false]
      exact ⟨unbound, False.elim⟩
    | true =>
      simp only [unbound, if_true]
      rcases outcome with bound | ⟨chart', tracks', grown⟩
      · rw [unbound] at bound
        cases bound
      · exact ⟨chart', o', n, .of_forall fun _ => rfl, Nat.le_refl n, tracks', grown,
          (objects.mono le).mono grown.sub⟩
  · obtain ⟨_, _, same, -⟩ := failed limit
    cases same

theorem follows_calls {setters : List Setter} {calls : List Call}
    (h : callsFor noScopes table setters = .ok calls) {c : Class}
    (known : ∃ name, stage.registry.get? name = some c) {o' o : Object}
    (objects : Object.Alike least o' o) :
    (limited stage table).Follows owner active least Object.Alike
      ((setters.map step).foldlM (callSetter (argument stage.registry resolve) c) o)
      fun depth => calls.foldlM
        (Draft.call (fun o => (limited stage table).operandDraft owner o depth) c) o' := by
  have moves : ∀ p, (argument stage.registry resolve p).Moves (OnOwn (limited stage table).Backward) :=
    fun p => Moves.backward (moves_argument resolves.moves p)
  induction setters generalizing calls least o' o with
  | nil =>
    cases h
    exact Scene.follows_pure fun le => objects.mono le
  | cons setter rest ih =>
    have after : ∀ o, ((rest.map step).foldlM (callSetter (argument stage.registry resolve) c) o).Moves
        (OnOwn (limited stage table).Backward) := Moves.foldlM (moves_callSetter moves c) _
    obtain ⟨call, first, later, others, rfl⟩ := callsFor_cons_eq_ok.mp h
    rw [List.map_cons, List.foldlM_cons]
    rcases callFor?_eq_ok.mp first with ⟨operands, found, rfl⟩ | ⟨e, found, -, optional, rfl⟩
    · have called : (limited stage table).Follows owner active least Object.Alike
          (callSetter (argument stage.registry resolve) c o (step setter)) fun depth =>
          Draft.call (fun o => (limited stage table).operandDraft owner o depth) c o'
            ⟨setter.method, operands⟩ :=
        Scene.follows_callSetter moves known rfl (follows_arguments resolves found) objects
      exact called.bind after fun _ same => ih others same
    · exact (follows_dropped resolves optional found c objects).bind after fun _ same => ih others same

theorem follows_instantiate {signature : Signature} {a : Assembly}
    (h : assemblyFor noScopes table signature = .ok a) :
    (limited stage table).Follows owner active least (MadeAlike stage.registry)
      (instantiate stage.registry resolve signature) fun depth =>
      Draft.assemble stage.registry stage.naming
        (fun o => (limited stage table).operandDraft owner o depth) owner a := by
  obtain ⟨operands, first, calls, second, rfl⟩ := assemblyFor_eq_ok.mp h
  refine Scene.follows_assemble (a := ⟨signature.className, operands, calls, signature.hook⟩)
    (fun p => Moves.backward (moves_argument resolves.moves p)) (follows_arguments resolves first) ?_
  intro chart c o' o le known objects
  exact follows_calls resolves second known objects

theorem follows_realize {key : Key} {binding : Binding} {p : Plan}
    (h : planFor noScopes table key binding = .ok p) (point : Option Point) :
    (limited stage table).Follows owner active least Value.Alike
      (realize stage.registry resolve binding point) fun depth =>
      Draft.evaluate stage.registry stage.naming
        (fun o => (limited stage table).operandDraft owner o depth) owner p.body := by
  obtain ⟨body, made, rfl⟩ := planFor_eq_ok.mp h
  cases binding with
  | literal value =>
    cases made
    exact Scene.follows_pure fun _ => rfl
  | build recipe =>
    obtain ⟨a, assembled, rfl⟩ := map_eq_ok_iff.mp made
    refine (follows_instantiate resolves assembled).bind (fun _ => moves_of_keeps fun _ => rfl)
      fun _ alike => ?_
    exact Scene.follows_pure fun le => alike.objects.mono le
  | provided recipe scope context =>
    obtain ⟨a, assembled, rfl⟩ := map_eq_ok_iff.mp made
    refine (follows_instantiate resolves assembled).bind (fun made => ?_) fun _ alike => ?_
    · exact Moves.backward (moves_provide (moves_lookup resolves.moves) made context point)
    · exact Scene.follows_provide alike context point

end

/-- At every depth the interpreter follows the drafts of its table. -/
theorem resolves_resolve (complete : Complete table) (depth : Nat) (active : List Key) :
    Resolves stage table active (Interpreter.resolve stage.registry depth) := by
  induction depth generalizing active with
  | zero =>
    refine ⟨moves_resolve 0, fun {owner least key binding} bound point => ?_⟩
    obtain ⟨p, compiled⟩ := complete bound
    have planned : plansOf table key = some p := plansOf_eq_some_iff.mpr ⟨binding, bound, compiled⟩
    refine Scene.follows_deliver ⟨Scene.draft_succ _ planned, fun _ owner => ?_, fun _ => False.elim⟩ _
    exact fun chart n s le tracks limit => ⟨rfl, False.elim⟩
  | succ depth ih =>
    refine ⟨moves_resolve (depth + 1), fun {owner least key binding} bound point => ?_⟩
    obtain ⟨p, compiled⟩ := complete bound
    have planned : plansOf table key = some p := plansOf_eq_some_iff.mpr ⟨binding, bound, compiled⟩
    refine Scene.follows_deliver ⟨Scene.draft_succ _ planned, fun _ owner => ?_, fun _ => False.elim⟩ _
    exact follows_realize (ih (key :: active)) compiled point

end Wiring.Interpreter
