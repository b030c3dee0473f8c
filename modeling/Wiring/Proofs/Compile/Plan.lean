import Wiring.Compile.Plan
import Wiring.Proofs.Act

/-! # Compilation under fixed scopes

When the scope that a capability reports for a key does not depend on the state, compiling a binding
reads and writes no state: it is a function of the scopes, the table and the binding. The capability
is asked only about keys that the table does not bind.
-/
namespace Wiring.Compile

variable {σ : Type}

/-- A capability whose answers are fixed and leave the state as it is. -/
def Capability.Fixed (capability : Capability σ) (scopes : Key → Option Scope) : Prop :=
  ∀ key s, (capability.scopeOf key) s = (scopes key, s)

def Capability.FixedAt (capability : Capability σ) (scopes : Key → Option Scope) (table : Table)
    (s : σ) : Prop :=
  ∀ key, table.get? key = none → (capability.scopeOf key) s = (scopes key, s)

def noScopes : Key → Option Scope := fun _ => none

theorem fixed_interpreted : (.interpreted : Capability σ).Fixed noScopes := fun _ _ => rfl

section
variable (scopes : Key → Option Scope) (table : Table)

def operandFor (p : Parameter) : Except Error Operand :=
  match table.get? p.key with
  | some binding => .ok (.reference binding.scope p.key)
  | none =>
    match scopes p.key with
    | some scope => .ok (.deferred scope p.key p.point)
    | none =>
      match p.default? with
      | some value => .ok (.literal value)
      | none => .error (.unbound p.key (some p.point))

def operandsFor (parameters : List Parameter) : Except Error (List Operand) :=
  parameters.mapM (operandFor scopes table)

def callFor? (setter : Setter) : Except Error (Option Call) :=
  match operandsFor scopes table setter.parameters with
  | .ok found => .ok (some ⟨setter.method, found⟩)
  | .error e => if e.isUnbound && setter.optional then .ok none else .error e

def callsFor : List Setter → Except Error (List Call)
  | [] => return []
  | setter :: rest => do
    let call ← callFor? scopes table setter
    return call.toList ++ (← callsFor rest)

def assemblyFor (signature : Signature) : Except Error Assembly := do
  let arguments ← operandsFor scopes table signature.constructor
  let calls ← callsFor scopes table signature.setters
  return ⟨signature.className, arguments, calls, signature.hook⟩

def bodyFor : Binding → Except Error Plan.Body
  | .build recipe => (assemblyFor scopes table recipe.signature).map .construct
  | .literal value => .ok (.literal value)
  | .provided recipe _ context =>
    (assemblyFor scopes table recipe.signature).map fun a => .provide a context

def planFor (key : Key) (binding : Binding) : Except Error Plan :=
  (bodyFor scopes table binding).map (Plan.current key binding.scope)

end

section
variable {scopes : Key → Option Scope} {table : Table}

theorem callFor?_eq_ok {setter : Setter} {call : Option Call} :
    callFor? scopes table setter = .ok call ↔
      (∃ os, operandsFor scopes table setter.parameters = .ok os ∧ some ⟨setter.method, os⟩ = call) ∨
      ∃ e, operandsFor scopes table setter.parameters = .error e ∧ e.isUnbound = true ∧
        setter.optional = true ∧ none = call := by
  unfold callFor?
  cases operandsFor scopes table setter.parameters with
  | ok os => simp
  | error e => cases unbound : e.isUnbound <;> cases setter.optional <;> simp [unbound]

theorem callsFor_cons_eq_ok {setter : Setter} {rest : List Setter} {calls : List Call} :
    callsFor scopes table (setter :: rest) = .ok calls ↔ ∃ call, callFor? scopes table setter = .ok call ∧
      ∃ later, callsFor scopes table rest = .ok later ∧ call.toList ++ later = calls := by
  simp only [callsFor, bind_eq_ok_iff, pure, Except.pure, Except.ok.injEq]

theorem assemblyFor_eq_ok {signature : Signature} {a : Assembly} :
    assemblyFor scopes table signature = .ok a ↔
      ∃ operands, operandsFor scopes table signature.constructor = .ok operands ∧
        ∃ calls, callsFor scopes table signature.setters = .ok calls ∧
          ⟨signature.className, operands, calls, signature.hook⟩ = a := by
  simp only [assemblyFor, bind_eq_ok_iff, pure, Except.pure, Except.ok.injEq]

theorem planFor_eq_ok {key : Key} {binding : Binding} {p : Plan} :
    planFor scopes table key binding = .ok p ↔
      ∃ body, bodyFor scopes table binding = .ok body ∧ Plan.current key binding.scope body = p :=
  map_eq_ok_iff

theorem planFor_key {key : Key} {binding : Binding} {p : Plan}
    (h : planFor scopes table key binding = .ok p) : p.key = key := by
  obtain ⟨body, -, rfl⟩ := planFor_eq_ok.mp h
  rfl

theorem planFor_scope {key : Key} {binding : Binding} {p : Plan}
    (h : planFor scopes table key binding = .ok p) : p.scope = binding.scope := by
  obtain ⟨body, -, rfl⟩ := planFor_eq_ok.mp h
  rfl

theorem planFor_version {key : Key} {binding : Binding} {p : Plan}
    (h : planFor scopes table key binding = .ok p) : p.version = Plan.currentVersion := by
  obtain ⟨body, -, rfl⟩ := planFor_eq_ok.mp h
  rfl

end

/-- The plan that a table gives for a key. -/
def Planned (table : Table) (key : Key) (p : Plan) : Prop :=
  ∃ binding, table.get? key = some binding ∧ planFor noScopes table key binding = .ok p

theorem Planned.unique {table : Table} {key : Key} {p q : Plan} (hp : Planned table key p)
    (hq : Planned table key q) : p = q := by
  obtain ⟨b, bound, compiled⟩ := hp
  obtain ⟨b', bound', compiled'⟩ := hq
  obtain rfl : b = b' := Option.some.inj (bound.symm.trans bound')
  exact Except.ok.inj (compiled.symm.trans compiled')

theorem Planned.key_eq {table : Table} {key : Key} {p : Plan} (h : Planned table key p) : p.key = key :=
  let ⟨_, _, compiled⟩ := h
  planFor_key compiled

def plansOf (table : Table) (key : Key) : Option Plan :=
  (table.get? key).bind fun binding => (planFor noScopes table key binding).toOption

theorem plansOf_eq_some_iff {table : Table} {key : Key} {p : Plan} :
    plansOf table key = some p ↔ Planned table key p := by
  unfold plansOf
  rw [Option.bind_eq_some_iff]
  refine exists_congr fun binding => and_congr_right fun _ => ?_
  cases planFor noScopes table key binding with
  | error e => exact ⟨nofun, nofun⟩
  | ok q => exact ⟨fun h => congrArg _ (Option.some.inj h), fun h => congrArg _ (Except.ok.inj h)⟩

def Complete (table : Table) : Prop :=
  ∀ {key binding}, table.get? key = some binding → ∃ p, planFor noScopes table key binding = .ok p

/-- An operand that asks for nothing but keys that a table binds. -/
def Bound (table : Table) (operand : Operand) : Prop :=
  ∀ key, operand.key? = some key → ∃ binding, table.get? key = some binding

section
variable {table : Table}

theorem bound_of_operandFor {p : Parameter} {operand : Operand}
    (h : operandFor noScopes table p = .ok operand) : Bound table operand := by
  intro key asks
  unfold operandFor noScopes at h
  cases bound : table.get? p.key with
  | some binding =>
    simp only [bound, Except.ok.injEq] at h
    rw [← h] at asks
    exact ⟨binding, Option.some.inj asks ▸ bound⟩
  | none =>
    cases default : p.default? with
    | none => simp [bound, default] at h
    | some value =>
      simp only [bound, default, Except.ok.injEq] at h
      rw [← h] at asks
      cases asks

theorem bound_of_operandsFor {parameters : List Parameter} {operands : List Operand}
    (h : operandsFor noScopes table parameters = .ok operands) :
    ∀ operand ∈ operands, Bound table operand := by
  have each := mapM_eq_ok_iff.mp h
  clear h
  induction each with
  | nil => simp
  | cons first _ ih => exact List.forall_mem_cons.mpr ⟨bound_of_operandFor first, ih⟩

theorem bound_of_callsFor {setters : List Setter} {calls : List Call}
    (h : callsFor noScopes table setters = .ok calls) :
    ∀ call ∈ calls, ∀ operand ∈ call.operands, Bound table operand := by
  induction setters generalizing calls with
  | nil =>
    cases h
    simp
  | cons setter rest ih =>
    obtain ⟨call, first, later, others, rfl⟩ := callsFor_cons_eq_ok.mp h
    intro c member
    rcases List.mem_append.mp member with made | made
    · obtain rfl : call = some c := Option.mem_toList.mp made
      rcases callFor?_eq_ok.mp first with ⟨os, found, same⟩ | ⟨e, -, -, -, none⟩
      · exact Option.some.inj same ▸ bound_of_operandsFor found
      · cases none
    · exact ih others c made

theorem bound_of_assemblyFor {signature : Signature} {a : Assembly}
    (h : assemblyFor noScopes table signature = .ok a) :
    ∀ operand ∈ a.allOperands, Bound table operand := by
  obtain ⟨operands, first, calls, second, rfl⟩ := assemblyFor_eq_ok.mp h
  intro operand member
  rcases List.mem_append.mp member with member | member
  · exact bound_of_operandsFor first operand member
  · obtain ⟨call, made, member⟩ := List.mem_flatMap.mp member
    exact bound_of_callsFor second call made operand member

/-- Without scopes from elsewhere a plan refers only to keys of its table. -/
theorem bound_of_planFor {key : Key} {binding : Binding} {p : Plan}
    (h : planFor noScopes table key binding = .ok p) : ∀ operand ∈ p.operands, Bound table operand := by
  obtain ⟨body, made, rfl⟩ := planFor_eq_ok.mp h
  cases binding with
  | literal value =>
    cases made
    intro operand member
    cases member
  | build recipe | provided recipe scope context =>
    obtain ⟨a, assembled, rfl⟩ := map_eq_ok_iff.mp made
    exact bound_of_assemblyFor assembled

end

/-- A capability whose answers about the keys that a table does not bind stay the same while it is asked,
in states with an invariant. -/
def Capability.Steady (capability : Capability σ) (scopes : Key → Option Scope) (table : Table)
    (I : σ → Prop) : Prop :=
  ∀ key, table.get? key = none →
    Act.Computes I (liftM (capability.scopeOf key)) (.ok (scopes key))

theorem Capability.FixedAt.steady {capability : Capability σ} {scopes : Key → Option Scope}
    {table : Table} {s : σ} (fixed : capability.FixedAt scopes table s) :
    capability.Steady scopes table (· = s) := by
  rintro key unbound s rfl
  rw [Act.runOn_liftState, fixed key unbound]
  exact ⟨rfl, rfl⟩

section
variable {capability : Capability σ} {scopes : Key → Option Scope} {table : Table} {I : σ → Prop}
  (steady : capability.Steady scopes table I)
include steady

theorem computes_operand (p : Parameter) :
    (operand capability table p).Computes I (operandFor scopes table p) := by
  unfold operand operandFor
  cases bound : table.get? p.key with
  | some binding => exact Act.computes_pure _
  | none =>
    refine (steady p.key bound).bind_ok ?_
    cases scopes p.key with
    | some scope => exact Act.computes_pure _
    | none =>
      cases p.default? with
      | some value => exact Act.computes_pure _
      | none => exact Act.computes_throw _

theorem computes_operands (parameters : List Parameter) :
    (operands capability table parameters).Computes I (operandsFor scopes table parameters) :=
  Act.computes_mapM (computes_operand steady) parameters

theorem computes_call? (setter : Setter) :
    (call? capability table setter).Computes I (callFor? scopes table setter) := by
  refine (computes_operands steady setter.parameters).attempt.bind_ok ?_
  unfold callFor?
  cases operandsFor scopes table setter.parameters with
  | ok found => exact Act.computes_pure _
  | error e =>
    by_cases skip : (e.isUnbound && setter.optional) = true
    · simp only [skip, if_true]
      exact Act.computes_pure _
    · simp only [skip]
      exact Act.computes_throw _

theorem computes_calls (setters : List Setter) :
    (calls capability table setters).Computes I (callsFor scopes table setters) := by
  induction setters with
  | nil => exact Act.computes_pure _
  | cons setter rest ih =>
    exact (computes_call? steady setter).bind fun call => ih.bind fun later => Act.computes_pure _

theorem computes_assembly (signature : Signature) :
    (assembly capability table signature).Computes I (assemblyFor scopes table signature) :=
  (computes_operands steady signature.constructor).bind fun _ =>
    (computes_calls steady signature.setters).bind fun _ => Act.computes_pure _

theorem computes_body (binding : Binding) :
    (body capability table binding).Computes I (bodyFor scopes table binding) := by
  cases binding with
  | literal value => exact Act.computes_pure _
  | build recipe => exact (computes_assembly steady recipe.signature).map _
  | provided recipe scope context => exact (computes_assembly steady recipe.signature).map _

theorem computes_plan (key : Key) (binding : Binding) :
    (plan capability table key binding).Computes I (planFor scopes table key binding) :=
  (computes_body steady binding).map _

end

theorem runOn_plan_of_fixedAt {capability : Capability σ} {scopes : Key → Option Scope} {table : Table}
    {s : σ} (fixed : capability.FixedAt scopes table s) (key : Key) (binding : Binding) :
    (plan capability table key binding).runOn s = (planFor scopes table key binding, s) :=
  (computes_plan fixed.steady key binding).runOn_eq

theorem runOn_plan {capability : Capability σ} {scopes : Key → Option Scope} {table : Table}
    (fixed : capability.Fixed scopes) (key : Key) (binding : Binding) (s : σ) :
    (plan capability table key binding).runOn s = (planFor scopes table key binding, s) :=
  runOn_plan_of_fixedAt (fun key _ => fixed key s) key binding

end Wiring.Compile
