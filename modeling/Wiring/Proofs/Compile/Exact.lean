import Wiring.Proofs.Compile.Plan

/-! # Exactly when and to what a binding compiles

A parameter is satisfiable if its key is bound, if a scope is reported for its key, or if it has a default.
A recipe compiles if and only if the parameters of its constructor and of its required setters are
satisfiable. Its plan then calls just the setters that have all their arguments; otherwise the error names
the first parameter in order of declaration that is missing.
-/
namespace Wiring.Compile

variable {σ α β : Type}

section
variable (scopes : Key → Option Scope) (table : Table)

/-- A parameter whose key the table binds, for whose key a scope is reported, or which has a default. -/
def Satisfiable (p : Parameter) : Prop :=
  (table.get? p.key).isSome = true ∨ (scopes p.key).isSome = true ∨ p.hasDefault = true

instance : DecidablePred (Satisfiable scopes table) := fun p =>
  inferInstanceAs (Decidable ((table.get? p.key).isSome = true ∨ (scopes p.key).isSome = true ∨
    p.hasDefault = true))

def Callable (setter : Setter) : Prop := ∀ p ∈ setter.parameters, Satisfiable scopes table p

instance : DecidablePred (Callable scopes table) := fun setter =>
  inferInstanceAs (Decidable (∀ p ∈ setter.parameters, Satisfiable scopes table p))

/-- What a plan gives for a satisfiable parameter: a reference in the scope of its binding, else a call
from its own point in the scope that is reported, else its default. -/
def expression (p : Parameter) : Operand :=
  match table.get? p.key, scopes p.key with
  | some binding, _ => .reference binding.scope p.key
  | none, some scope => .deferred scope p.key p.point
  | none, none => .literal p.defaultValue

def assembled (signature : Signature) : Assembly where
  className := signature.className
  operands := signature.constructor.map (expression scopes table)
  calls := (signature.setters.filter fun setter => Callable scopes table setter).map fun setter =>
    ⟨setter.method, setter.parameters.map (expression scopes table)⟩
  hook := signature.hook

/-- The first of some parameters that is not satisfiable. -/
def Missing (parameters : List Parameter) (p : Parameter) : Prop :=
  ∃ before after, parameters = before ++ p :: after ∧ (∀ q ∈ before, Satisfiable scopes table q) ∧
    ¬ Satisfiable scopes table p

end

/-- The parameters that a recipe cannot do without: those of the constructor, then those of the required
setters. -/
def essential (signature : Signature) : List Parameter :=
  signature.constructor ++
    (signature.setters.filter fun setter => !setter.optional).flatMap Setter.parameters

/-- The outcome of compiling a recipe for a key in a scope: whether there is a plan, which plan it is, and
which error there is instead. -/
structure Outcome (scopes : Key → Option Scope) (table : Table) (key : Key) (scope : Scope)
    (signature : Signature) (body : Assembly → Plan.Body) (outcome : Except Error Plan) : Prop where
  succeeds : (∃ p, outcome = .ok p) ↔ ∀ p ∈ essential signature, Satisfiable scopes table p
  plan : ∀ p, outcome = .ok p → p.version = Plan.currentVersion ∧ p.key = key ∧ p.scope = scope ∧
    p.body = body (assembled scopes table signature)
  error : ∀ e, outcome = .error e → ∃ p, Missing scopes table (essential signature) p ∧
    e = .unbound p.key (some p.point)

section
variable (scopes : Key → Option Scope) (table : Table)

def satisfying : List Parameter → α → Except Error α
  | [], a => .ok a
  | p :: rest, a =>
    if Satisfiable scopes table p then satisfying rest a else .error (.unbound p.key (some p.point))

variable {scopes table} {ps qs : List Parameter} {a : α}

theorem satisfying_of_all (all : ∀ p ∈ ps, Satisfiable scopes table p) (a : α) :
    satisfying scopes table ps a = .ok a := by
  induction ps with
  | nil => rfl
  | cons p rest ih =>
    obtain ⟨first, others⟩ := List.forall_mem_cons.mp all
    rw [satisfying, if_pos first, ih others]

/-- The error names the first missing parameter, whatever the value would have been. -/
theorem satisfying_of_missing (h : ¬ ∀ p ∈ ps, Satisfiable scopes table p) :
    ∃ p, Missing scopes table ps p ∧
      ∀ {α : Type} (a : α), satisfying scopes table ps a = .error (.unbound p.key (some p.point)) := by
  induction ps with
  | nil => exact absurd nofun h
  | cons p rest ih =>
    by_cases first : Satisfiable scopes table p
    · obtain ⟨q, ⟨before, after, rfl, earlier, missing⟩, fails⟩ := ih fun others =>
        h (List.forall_mem_cons.mpr ⟨first, others⟩)
      refine ⟨q, ⟨p :: before, after, rfl, List.forall_mem_cons.mpr ⟨first, earlier⟩, missing⟩, ?_⟩
      intro α a
      rw [satisfying, if_pos first, fails]
    · refine ⟨p, ⟨[], rest, rfl, nofun, first⟩, fun a => ?_⟩
      rw [satisfying, if_neg first]

theorem satisfying_bind (f : α → β) :
    (satisfying scopes table ps a >>= fun a => satisfying scopes table qs (f a)) =
      satisfying scopes table (ps ++ qs) (f a) := by
  induction ps with
  | nil => rfl
  | cons p rest ih =>
    by_cases first : Satisfiable scopes table p
    · simpa only [satisfying, if_pos first, List.cons_append] using ih
    · simp only [satisfying, if_neg first, List.cons_append]
      rfl

theorem satisfying_pure (f : α → β) :
    (satisfying scopes table ps a >>= fun a => pure (f a)) = satisfying scopes table ps (f a) := by
  have ended : (satisfying scopes table ps a >>= fun a => satisfying scopes table [] (f a)) =
    satisfying scopes table (ps ++ []) (f a) := satisfying_bind f
  rwa [List.append_nil] at ended

theorem satisfying_map (f : α → β) :
    (satisfying scopes table ps a).map f = satisfying scopes table ps (f a) := by
  have ended : (satisfying scopes table ps a >>= fun a => pure (f a)) = satisfying scopes table ps (f a) :=
    satisfying_pure f
  cases outcome : satisfying scopes table ps a <;> exact outcome ▸ ended

variable (scopes table)

theorem operandFor_eq (p : Parameter) :
    operandFor scopes table p = satisfying scopes table [p] (expression scopes table p) := by
  cases bound : table.get? p.key <;> cases reported : scopes p.key <;>
    cases default : p.hasDefault <;>
    simp [operandFor, satisfying, expression, Satisfiable, Parameter.default?, bound, reported, default]

theorem operandsFor_eq (ps : List Parameter) :
    operandsFor scopes table ps = satisfying scopes table ps (ps.map (expression scopes table)) := by
  unfold operandsFor
  induction ps with
  | nil => rfl
  | cons p rest ih =>
    rw [List.mapM_cons, operandFor_eq, ih]
    simp only [satisfying_pure]
    exact satisfying_bind fun o => o :: rest.map (expression scopes table)

theorem callFor?_eq (setter : Setter) : callFor? scopes table setter =
    satisfying scopes table (if setter.optional then [] else setter.parameters)
      (if Callable scopes table setter then
        some ⟨setter.method, setter.parameters.map (expression scopes table)⟩ else none) := by
  unfold callFor?
  rw [operandsFor_eq]
  by_cases all : Callable scopes table setter
  · rw [satisfying_of_all all, if_pos all]
    cases setter.optional with
    | true => rfl
    | false => exact (satisfying_of_all all _).symm
  · obtain ⟨p, -, fails⟩ := satisfying_of_missing all
    rw [fails, if_neg all]
    cases setter.optional with
    | true => rfl
    | false => exact (fails _).symm

theorem callsFor_eq (setters : List Setter) : callsFor scopes table setters =
    satisfying scopes table ((setters.filter fun setter => !setter.optional).flatMap Setter.parameters)
      ((setters.filter fun setter => Callable scopes table setter).map fun setter =>
        ⟨setter.method, setter.parameters.map (expression scopes table)⟩) := by
  induction setters with
  | nil => rfl
  | cons setter rest ih =>
    simp only [callsFor, callFor?_eq, ih, satisfying_pure]
    rw [satisfying_bind fun call : Option Call => call.toList ++ _]
    congr 1
    · cases optional : setter.optional <;> simp [optional]
    · by_cases all : Callable scopes table setter <;> simp [all]

theorem assemblyFor_eq (signature : Signature) : assemblyFor scopes table signature =
    satisfying scopes table (essential signature) (assembled scopes table signature) := by
  simp only [assemblyFor, operandsFor_eq, callsFor_eq, satisfying_pure]
  exact satisfying_bind fun operands => (⟨signature.className, operands, _, signature.hook⟩ : Assembly)

end

section
variable {scopes : Key → Option Scope} {table : Table}

theorem outcome_of_satisfying (key : Key) (scope : Scope) (signature : Signature)
    (body : Assembly → Plan.Body) : Outcome scopes table key scope signature body
      (satisfying scopes table (essential signature)
        (.current key scope (body (assembled scopes table signature)))) := by
  by_cases all : ∀ p ∈ essential signature, Satisfiable scopes table p
  · rw [satisfying_of_all all]
    refine ⟨⟨fun _ => all, fun _ => ⟨_, rfl⟩⟩, ?_, nofun⟩
    rintro p ⟨⟩
    exact ⟨rfl, rfl, rfl, rfl⟩
  · obtain ⟨p, missing, fails⟩ := satisfying_of_missing all
    rw [fails]
    refine ⟨⟨nofun, fun h => absurd h all⟩, nofun, ?_⟩
    rintro e ⟨⟩
    exact ⟨p, missing, rfl⟩

variable {capability : Capability σ} {I : σ → Prop}

/-- Whatever a capability says while a class or a provider binding is compiled, if it says the same of a key
each time: there is a plan if and only if the essential parameters are satisfiable, it has one expression
for each argument and one call for each setter that has all of them, and otherwise the error is that of the
first essential parameter that is missing. -/
theorem plan_exact (steady : capability.Steady scopes table I) {s : σ} (inv : I s) (key : Key)
    (recipe : Recipe) :
    Outcome scopes table key recipe.scope recipe.signature .construct
        ((plan capability table key (.build recipe)).runOn s).1 ∧
      ∀ scope context, Outcome scopes table key scope recipe.signature (fun a => .provide a context)
        ((plan capability table key (.provided recipe scope context)).runOn s).1 := by
  have made : ∀ binding, ((plan capability table key binding).runOn s).1 =
      planFor scopes table key binding := fun binding => (computes_plan steady key binding s inv).2
  constructor
  · rw [made, planFor, bodyFor, assemblyFor_eq, satisfying_map, satisfying_map]
    exact outcome_of_satisfying key recipe.scope recipe.signature .construct
  · intro scope context
    rw [made, planFor, bodyFor, assemblyFor_eq, satisfying_map, satisfying_map]
    exact outcome_of_satisfying key scope recipe.signature _

end

def reportedR (key : Key) : Option Scope := if key = .plain "R" then some .singleton else none

def reportingR : Capability Unit := .compiling fun key => return reportedR key

theorem steady_reportingR (table : Table) : reportingR.Steady reportedR table fun _ => True :=
  fun _ _ _ _ => ⟨trivial, rfl⟩

def benchTable : Table := .ofList [(.plain "A", .provided default .singleton none)]

def benchParameter (key method : String) (default : Option Json) : Parameter :=
  ⟨.plain key, default.isSome, default.getD Json.null, ⟨"Bench", method, key⟩⟩

/-- The `A` is bound, a scope is reported for the `R`, the `D` has a default, and nothing is known of the
`U` and the `V`. -/
def bench (required : Bool) : Signature where
  className := "Bench"
  constructor := [benchParameter "D" "new" (some (Json.bool true)), benchParameter "R" "new" none]
  setters := [⟨"skip", [benchParameter "A" "skip" none, benchParameter "V" "skip" none], true⟩,
    ⟨"call", [benchParameter "A" "call" (some Json.null)], true⟩,
    ⟨"need", [benchParameter "R" "need" none, benchParameter "U" "need" none], !required⟩]
  hook := some "done"

theorem plan_exact_at_bench :
    (∃ p, ((plan reportingR benchTable (.plain "B") (.build ⟨bench false, .prototype⟩)).runOn ()).1 = .ok p ∧
      p.scope = .prototype ∧ p.body = .construct ⟨"Bench",
        [.literal (Json.bool true), .deferred .singleton (.plain "R") ⟨"Bench", "new", "R"⟩],
        [⟨"call", [.reference .singleton (.plain "A")]⟩], some "done"⟩) ∧
    ∃ p, Missing reportedR benchTable (essential (bench true)) p ∧
      p.key = .plain "U" ∧ p.point = ⟨"Bench", "need", "U"⟩ ∧
      ((plan reportingR benchTable (.plain "B")
        (.provided ⟨bench true, .prototype⟩ .singleton none)).runOn ()).1 =
          .error (.unbound p.key (some p.point)) := by
  have exact := fun required => plan_exact (steady_reportingR benchTable) (s := ()) trivial (.plain "B")
    ⟨bench required, .prototype⟩
  constructor
  · obtain ⟨p, made⟩ := (exact false).1.succeeds.mpr (by decide)
    obtain ⟨-, -, scope, body⟩ := (exact false).1.plan p made
    exact ⟨p, made, scope, body.trans (by decide)⟩
  · obtain ⟨p, missing, same⟩ := ((exact true).2 .singleton none).error
      (.unbound (.plain "U") (some ⟨"Bench", "need", "U"⟩)) rfl
    obtain ⟨key, point⟩ := Error.unbound.inj same
    exact ⟨p, missing, key.symm, (Option.some.inj point).symm, congrArg Except.error same⟩

end Wiring.Compile
