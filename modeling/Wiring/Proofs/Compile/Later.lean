import Wiring.Proofs.Compile.Plan

/-! # Plans and later tables

A table may grow after a plan was compiled from it. The plan is still the one that the later table
gives just when no key bound since then is that of a parameter for which the plan has a default, and
no setter left out then has all its arguments now.
-/
namespace Wiring.Compile

def Satisfied (table : Table) (p : Parameter) : Prop :=
  (∃ binding, table.get? p.key = some binding) ∨ ∃ value, p.default? = some value

/-- A parameter whose key a later table binds and an earlier one does not. -/
def Late (past now : Table) (p : Parameter) : Prop :=
  past.get? p.key = none ∧ ∃ binding, now.get? p.key = some binding

/-- A setter of which an earlier and a later table give the same call, or both none. -/
structure Setter.Settled (past now : Table) (setter : Setter) : Prop where
  called : (∀ p ∈ setter.parameters, Satisfied past p) → ∀ p ∈ setter.parameters, ¬ Late past now p
  dropped : (∃ p ∈ setter.parameters, ¬ Satisfied past p) → ∃ p ∈ setter.parameters, ¬ Satisfied now p

/-- A signature to which the keys bound since an earlier table make no difference. -/
structure Signature.Settled (past now : Table) (signature : Signature) : Prop where
  parameters : ∀ p ∈ signature.constructor, ¬ Late past now p
  setters : ∀ setter ∈ signature.setters, Setter.Settled past now setter

def Binding.Settled (past now : Table) : Binding → Prop
  | .build recipe => Signature.Settled past now recipe.signature
  | .literal _ => True
  | .provided recipe _ _ => Signature.Settled past now recipe.signature

theorem operandFor_ok_iff {table : Table} {p : Parameter} :
    (∃ o, operandFor noScopes table p = .ok o) ↔ Satisfied table p := by
  unfold operandFor Satisfied noScopes
  cases table.get? p.key with
  | some binding => simp
  | none => cases p.default? <;> simp

theorem isUnbound_of_operandFor {table : Table} {p : Parameter} {e : Error}
    (h : operandFor noScopes table p = .error e) : e.isUnbound = true := by
  unfold operandFor noScopes at h
  cases bound : table.get? p.key with
  | some binding => simp [bound] at h
  | none =>
    cases default : p.default? with
    | some value => simp [bound, default] at h
    | none =>
      simp only [bound, default, Except.error.injEq] at h
      rw [← h]
      rfl

theorem satisfied_of_operandsFor {table : Table} {parameters : List Parameter} {os : List Operand}
    (h : operandsFor noScopes table parameters = .ok os) : ∀ p ∈ parameters, Satisfied table p :=
  fun p member => operandFor_ok_iff.mp (ok_of_mapM h p member)

theorem unsatisfied_of_operandsFor {table : Table} {parameters : List Parameter} {e : Error}
    (h : operandsFor noScopes table parameters = .error e) :
    e.isUnbound = true ∧ ∃ p ∈ parameters, ¬ Satisfied table p := by
  obtain ⟨p, member, error⟩ := mapM_eq_error h
  refine ⟨isUnbound_of_operandFor error, p, member, fun satisfied => ?_⟩
  obtain ⟨o, ok⟩ := operandFor_ok_iff.mpr satisfied
  rw [error] at ok
  cases ok

structure Signature.Satisfied (table : Table) (signature : Signature) : Prop where
  parameters : ∀ p ∈ signature.constructor, Compile.Satisfied table p
  setters : ∀ setter ∈ signature.setters, setter.optional = true ∨
    ∀ p ∈ setter.parameters, Compile.Satisfied table p

def Binding.Satisfied (table : Table) : Binding → Prop
  | .build recipe => Signature.Satisfied table recipe.signature
  | .literal _ => True
  | .provided recipe _ _ => Signature.Satisfied table recipe.signature

section
variable {table : Table}

theorem exists_operandsFor {parameters : List Parameter} (h : ∀ p ∈ parameters, Satisfied table p) :
    ∃ os, operandsFor noScopes table parameters = .ok os := by
  cases found : operandsFor noScopes table parameters with
  | ok os => exact ⟨os, rfl⟩
  | error e =>
    obtain ⟨-, p, member, unsatisfied⟩ := unsatisfied_of_operandsFor found
    exact absurd (h p member) unsatisfied

theorem exists_callFor? {setter : Setter}
    (h : setter.optional = true ∨ ∀ p ∈ setter.parameters, Satisfied table p) :
    ∃ call, callFor? noScopes table setter = .ok call := by
  cases found : operandsFor noScopes table setter.parameters with
  | ok os => exact ⟨some ⟨setter.method, os⟩, callFor?_eq_ok.mpr (.inl ⟨os, found, rfl⟩)⟩
  | error e =>
    obtain ⟨unbound, p, member, unsatisfied⟩ := unsatisfied_of_operandsFor found
    rcases h with optional | all
    · exact ⟨none, callFor?_eq_ok.mpr (.inr ⟨e, found, unbound, optional, rfl⟩)⟩
    · exact absurd (all p member) unsatisfied

theorem exists_callsFor {setters : List Setter}
    (h : ∀ setter ∈ setters, setter.optional = true ∨ ∀ p ∈ setter.parameters, Satisfied table p) :
    ∃ calls, callsFor noScopes table setters = .ok calls := by
  induction setters with
  | nil => exact ⟨[], rfl⟩
  | cons setter rest ih =>
    obtain ⟨first, others⟩ := List.forall_mem_cons.mp h
    obtain ⟨call, made⟩ := exists_callFor? first
    obtain ⟨calls, later⟩ := ih others
    exact ⟨call.toList ++ calls, callsFor_cons_eq_ok.mpr ⟨call, made, calls, later, rfl⟩⟩

theorem exists_planFor {binding : Binding} (h : Binding.Satisfied table binding) (key : Key) :
    ∃ p, planFor noScopes table key binding = .ok p := by
  cases binding with
  | literal value => exact ⟨_, rfl⟩
  | build recipe | provided recipe scope context =>
    obtain ⟨os, operands⟩ := exists_operandsFor h.parameters
    obtain ⟨cs, calls⟩ := exists_callsFor h.setters
    have assembled := assemblyFor_eq_ok.mpr ⟨os, operands, cs, calls, rfl⟩
    exact ⟨_, planFor_eq_ok.mpr ⟨_, map_eq_ok_iff.mpr ⟨_, assembled, rfl⟩, rfl⟩⟩

end

section
variable {past now : Table}
  (grown : ∀ {key binding}, past.get? key = some binding → now.get? key = some binding)
include grown

theorem Satisfied.later {p : Parameter} (h : Satisfied past p) : Satisfied now p :=
  h.imp_left fun ⟨binding, bound⟩ => ⟨binding, grown bound⟩

theorem operandFor_later {p : Parameter} {o : Operand} (h : operandFor noScopes past p = .ok o) :
    ∃ o', operandFor noScopes now p = .ok o' ∧ (o' = o ↔ ¬ Late past now p) := by
  cases bound : past.get? p.key with
  | some binding =>
    simp only [operandFor, bound, Except.ok.injEq] at h
    exact ⟨o, by simp only [operandFor, grown bound, h], by simp [Late, bound]⟩
  | none =>
    cases bound' : now.get? p.key with
    | some binding =>
      refine ⟨.reference binding.scope p.key, by simp only [operandFor, bound'], ?_⟩
      have old : ∃ value, o = .literal value := by
        simp only [operandFor, bound, noScopes] at h
        cases default : p.default? with
        | none => simp [default] at h
        | some value => exact ⟨value, by simpa [default] using h.symm⟩
      obtain ⟨value, rfl⟩ := old
      simp [Late, bound, bound']
    | none =>
      refine ⟨o, ?_, by simp [Late, bound, bound']⟩
      simpa only [operandFor, bound, bound'] using h

theorem operandsFor_later {parameters : List Parameter} {os : List Operand}
    (h : operandsFor noScopes past parameters = .ok os) :
    ∃ os', operandsFor noScopes now parameters = .ok os' ∧
      (os' = os ↔ ∀ p ∈ parameters, ¬ Late past now p) := by
  unfold operandsFor at *
  induction parameters generalizing os with
  | nil =>
    cases h
    exact ⟨[], rfl, by simp⟩
  | cons p rest ih =>
    cases mapM_eq_ok_iff.mp h with
    | cons first others =>
      obtain ⟨o', ok, same⟩ := operandFor_later grown first
      obtain ⟨os', oks, sames⟩ := ih (mapM_eq_ok_iff.mpr others)
      refine ⟨o' :: os', mapM_eq_ok_iff.mpr (.cons ok (mapM_eq_ok_iff.mp oks)), ?_⟩
      rw [List.cons.injEq, same, sames, List.forall_mem_cons]

theorem callFor?_later {setter : Setter} {c : Option Call}
    (h : callFor? noScopes past setter = .ok c) :
    ∃ c', callFor? noScopes now setter = .ok c' ∧ (c.isSome = true → c'.isSome = true) ∧
      (c' = c ↔ Setter.Settled past now setter) := by
  rcases callFor?_eq_ok.mp h with ⟨os, had, rfl⟩ | ⟨e, had, -, optional, rfl⟩
  · have satisfied := satisfied_of_operandsFor had
    obtain ⟨os', has, same⟩ := operandsFor_later grown had
    refine ⟨some ⟨setter.method, os'⟩, callFor?_eq_ok.mpr (.inl ⟨os', has, rfl⟩), fun _ => rfl, ?_⟩
    rw [Option.some.injEq, Call.mk.injEq, and_iff_right rfl, same]
    constructor
    · intro none
      refine ⟨fun _ => none, ?_⟩
      rintro ⟨p, member, not⟩
      exact absurd (satisfied p member) not
    · exact fun settled => settled.called satisfied
  · obtain ⟨-, p, member, unsatisfied⟩ := unsatisfied_of_operandsFor had
    cases has : operandsFor noScopes now setter.parameters with
    | ok os' =>
      refine ⟨some ⟨setter.method, os'⟩, callFor?_eq_ok.mpr (.inl ⟨os', has, rfl⟩), fun _ => rfl, ?_⟩
      constructor
      · intro same
        cases same
      · intro settled
        obtain ⟨q, member', not⟩ := settled.dropped ⟨p, member, unsatisfied⟩
        exact absurd (satisfied_of_operandsFor has q member') not
    | error e' =>
      obtain ⟨unbound, still⟩ := unsatisfied_of_operandsFor has
      refine ⟨none, callFor?_eq_ok.mpr (.inr ⟨e', has, unbound, optional, rfl⟩), id, ?_⟩
      exact ⟨fun _ => ⟨fun all => absurd (all p member) unsatisfied, fun _ => still⟩, fun _ => rfl⟩

/-- Calls of a later table are no fewer, so they are the same only if each setter gives the same. -/
theorem callsFor_later {setters : List Setter} {cs : List Call}
    (h : callsFor noScopes past setters = .ok cs) :
    ∃ cs', callsFor noScopes now setters = .ok cs' ∧ cs.length ≤ cs'.length ∧
      (cs' = cs ↔ ∀ setter ∈ setters, Setter.Settled past now setter) := by
  induction setters generalizing cs with
  | nil =>
    cases h
    exact ⟨[], rfl, Nat.le_refl _, by simp⟩
  | cons setter rest ih =>
    obtain ⟨c, first, ds, others, rfl⟩ := callsFor_cons_eq_ok.mp h
    obtain ⟨c', ok, more, same⟩ := callFor?_later grown first
    obtain ⟨ds', oks, longer, sames⟩ := ih others
    refine ⟨c'.toList ++ ds', callsFor_cons_eq_ok.mpr ⟨c', ok, ds', oks, rfl⟩, ?_, ?_⟩
    · cases c <;> cases c' <;> simp at more ⊢ <;> omega
    · rw [List.forall_mem_cons, ← same, ← sames]
      constructor
      · intro heq
        cases c with
        | some call => cases c' <;> simp_all
        | none =>
          cases c' with
          | none => simpa using heq
          | some call =>
            have := congrArg List.length heq
            simp at this
            omega
      · rintro ⟨rfl, rfl⟩
        rfl

theorem assemblyFor_later {signature : Signature} {a : Assembly}
    (h : assemblyFor noScopes past signature = .ok a) :
    ∃ a', assemblyFor noScopes now signature = .ok a' ∧
      (a' = a ↔ Signature.Settled past now signature) := by
  obtain ⟨os, first, cs, second, rfl⟩ := assemblyFor_eq_ok.mp h
  obtain ⟨os', oks, sames⟩ := operandsFor_later grown first
  obtain ⟨cs', calls, -, same⟩ := callsFor_later grown second
  refine ⟨⟨signature.className, os', cs', signature.hook⟩,
    assemblyFor_eq_ok.mpr ⟨os', oks, cs', calls, rfl⟩, ?_⟩
  simp only [Assembly.mk.injEq, true_and, and_true, sames, same]
  exact ⟨fun both => ⟨both.1, both.2⟩, fun settled => ⟨settled.parameters, settled.setters⟩⟩

/-- A later table compiles what compiled, and to the same plan just for a settled binding. -/
theorem planFor_later {key : Key} {binding : Binding} {p : Plan}
    (h : planFor noScopes past key binding = .ok p) :
    ∃ p', planFor noScopes now key binding = .ok p' ∧ (p' = p ↔ Binding.Settled past now binding) := by
  cases binding with
  | literal value => exact ⟨p, h, by simp [Binding.Settled]⟩
  | build recipe | provided recipe scope context =>
    obtain ⟨body, made, rfl⟩ := planFor_eq_ok.mp h
    obtain ⟨a, had, rfl⟩ := map_eq_ok_iff.mp made
    obtain ⟨a', has, same⟩ := assemblyFor_later grown had
    refine ⟨_, planFor_eq_ok.mpr ⟨_, map_eq_ok_iff.mpr ⟨a', has, rfl⟩, rfl⟩, ?_⟩
    simp only [Binding.Settled, ← same, Plan.current, Plan.mk.injEq, true_and,
      Plan.Body.construct.injEq, Plan.Body.provide.injEq, and_true]

end

end Wiring.Compile
