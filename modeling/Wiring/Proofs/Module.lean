import Wiring.Proofs.Act
import Wiring.Proofs.SortedMap
import Wiring.Session

/-! # Statements in order

However deep the modules in a module are nested, configuring it carries out its statements in order, depth
first. It fails at the first statement that names an unknown class, and otherwise binds each key as the last
statement of the key says. So neighbouring statements of different keys may trade places.
-/
namespace Wiring.Module
open Act

mutual
/-- The statements of a clause, depth first. -/
def statementsOf : Clause → List Statement
  | .bind statement => [statement]
  | .install clauses => statements clauses

def statements : List Clause → List Statement
  | [] => []
  | clause :: rest => statementsOf clause ++ statements rest
end

def className? (s : Statement) : Option String :=
  match s.target with
  | .itself => some s.key.interface
  | .ofClass className => some className
  | .literal _ => none
  | .provider className _ => some className

def lastOf? (key : Key) (statements : List Statement) : Option Statement :=
  (statements.filter fun s => s.key = key).getLast?

section
variable (signature? : String → Option Signature)

def Known (s : Statement) : Prop := ∀ className, className? s = some className → signature? className ≠ none

/-- What a statement binds its key to, by the kind of its target. -/
inductive Binds : Statement → Binding → Prop
  | itself {key : Key} {signature : Signature} (scope : Scope) (signed : signature? key.interface = some signature) :
    Binds ⟨key, scope, .itself⟩ (.build ⟨signature, scope⟩)
  | ofClass {className : String} {signature : Signature} (key : Key) (scope : Scope)
    (signed : signature? className = some signature) :
    Binds ⟨key, scope, .ofClass className⟩ (.build ⟨signature, scope⟩)
  | literal (key : Key) (scope : Scope) (value : Json) : Binds ⟨key, scope, .literal value⟩ (.literal value)
  | provider {className : String} {signature : Signature} (key : Key) (scope : Scope) (context : Option String)
    (signed : signature? className = some signature) :
    Binds ⟨key, scope, .provider className context⟩ (.provided ⟨signature, .prototype⟩ scope context)

/-- The table that statements describe: it binds the keys that they mention, each as the last statement of the
key says. -/
structure Describes (statements : List Statement) (table : Table) : Prop where
  known : ∀ s ∈ statements, Known signature? s
  mentioned : ∀ key, key ∈ table.keys ↔ ∃ s ∈ statements, s.key = key
  last : ∀ key s, lastOf? key statements = some s →
    ∃ binding, table.get? key = some binding ∧ Binds signature? s binding

end

variable {signature? : String → Option Signature} {s t : Statement} {binding binding' : Binding} {table table' : Table}

theorem Binds.unique (first : Binds signature? s binding) (second : Binds signature? s binding') :
    binding = binding' := by
  cases first <;> cases second <;> simp_all

theorem Binds.known (binds : Binds signature? s binding) : Known signature? s := by
  intro className named
  cases binds <;> cases named <;> simp_all

theorem binding_eq_ok (known : Known signature? s) :
    ∃ binding, Module.binding signature? s = .ok binding ∧ Binds signature? s binding := by
  obtain ⟨key, scope, target⟩ := s
  cases target with
  | literal value => exact ⟨_, rfl, .literal key scope value⟩
  | itself =>
    obtain ⟨signature, signed⟩ := Option.ne_none_iff_exists'.mp (known _ rfl)
    exact ⟨_, by simp only [Module.binding, recipe, signed]; rfl, .itself scope signed⟩
  | ofClass className =>
    obtain ⟨signature, signed⟩ := Option.ne_none_iff_exists'.mp (known _ rfl)
    exact ⟨_, by simp only [Module.binding, recipe, signed]; rfl, .ofClass key scope signed⟩
  | provider className context =>
    obtain ⟨signature, signed⟩ := Option.ne_none_iff_exists'.mp (known _ rfl)
    exact ⟨_, by simp only [Module.binding, recipe, signed]; rfl, .provider key scope context signed⟩

theorem binding_eq_error {className : String} (named : className? s = some className)
    (unknown : signature? className = none) : Module.binding signature? s = .error (.unknownClass className) := by
  obtain ⟨key, scope, target⟩ := s
  cases target <;> cases named <;> simp only [Module.binding, recipe, unknown] <;> rfl

theorem lastOf?_concat (key : Key) (before : List Statement) (s : Statement) :
    lastOf? key (before ++ [s]) = if s.key = key then some s else lastOf? key before := by
  by_cases same : s.key = key <;> simp [lastOf?, List.filter_append, same]

theorem describes_nil : Describes signature? [] SortedMap.empty where
  known := nofun
  mentioned key := by simp [SortedMap.mem_keys_iff]
  last _ _ found := by cases found

theorem Describes.concat {before : List Statement} (describes : Describes signature? before table)
    (binds : Binds signature? s binding) : Describes signature? (before ++ [s]) (table.insert s.key binding) where
  known := by
    simp only [List.mem_append, List.mem_singleton]
    rintro t (member | rfl)
    · exact describes.known t member
    · exact binds.known
  mentioned key := by
    have earlier := describes.mentioned key
    simp only [SortedMap.mem_keys_iff, SortedMap.get?_insert, List.mem_append, List.mem_singleton] at earlier ⊢
    by_cases same : key = s.key
    · subst same
      simp
    · simp only [if_neg same, earlier, or_and_right, exists_or, exists_eq_left, Ne.symm same, or_false]
  last key last found := by
    rw [lastOf?_concat] at found
    rw [SortedMap.get?_insert]
    by_cases same : s.key = key
    · rw [if_pos same, Option.some.injEq] at found
      subst found
      exact ⟨binding, if_pos same.symm, binds⟩
    · rw [if_neg same] at found
      rw [if_neg (Ne.symm same)]
      exact describes.last key last found

theorem exists_lastOf? {statements : List Statement} (member : s ∈ statements) :
    ∃ last, lastOf? s.key statements = some last := by
  have found : s ∈ statements.filter fun t => t.key = s.key := by simp [member]
  exact ⟨_, List.getLast?_eq_some_getLast (List.ne_nil_of_mem found)⟩

theorem Describes.unique {statements : List Statement} (first : Describes signature? statements table)
    (second : Describes signature? statements table') : table = table' := by
  refine SortedMap.ext_get? fun key => ?_
  by_cases mentioned : ∃ s ∈ statements, s.key = key
  · obtain ⟨s, member, rfl⟩ := mentioned
    obtain ⟨last, found⟩ := exists_lastOf? member
    obtain ⟨binding, bound, binds⟩ := first.last _ _ found
    obtain ⟨binding', bound', binds'⟩ := second.last _ _ found
    rw [bound, bound', binds.unique binds']
  · have free : ∀ {m : Table}, Describes signature? statements m → m.get? key = none := fun describes =>
      Option.eq_none_iff_forall_ne_some.mpr fun b bound =>
        mentioned ((describes.mentioned key).mp (SortedMap.mem_keys_iff.mpr ⟨b, bound⟩))
    rw [free first, free second]

/-- What counts is the order of the statements of each key. -/
theorem Describes.congr {statements statements' : List Statement} (describes : Describes signature? statements table)
    (same : ∀ key, statements'.filter (fun s => s.key = key) = statements.filter fun s => s.key = key) :
    Describes signature? statements' table := by
  have mem : ∀ s, s ∈ statements' ↔ s ∈ statements := by
    intro s
    have own := congrArg (s ∈ ·) (same s.key)
    simpa using own
  refine ⟨fun s member => describes.known s ((mem s).mp member), fun key => ?_, fun key s found => ?_⟩
  · simp only [mem, describes.mentioned]
  · unfold lastOf? at found
    rw [same] at found
    exact describes.last key s found

theorem filter_swap (apart : s.key ≠ t.key) (before after : List Statement) (key : Key) :
    (before ++ t :: s :: after).filter (fun x => x.key = key) =
      (before ++ s :: t :: after).filter fun x => x.key = key := by
  by_cases first : s.key = key
  · have second : t.key ≠ key := fun h => apart (first.trans h.symm)
    simp [first, second]
  · simp [List.filter_cons, first]

def bindAll (signature? : String → Option Signature) (statements : List Statement) : Act Table Unit :=
  forM statements (bind signature?)

theorem bindAll_append (before after : List Statement) :
    bindAll signature? (before ++ after) = (do bindAll signature? before; bindAll signature? after) :=
  List.forM_append

theorem bindAll_cons (s : Statement) (rest : List Statement) :
    bindAll signature? (s :: rest) = (do bind signature? s; bindAll signature? rest) := List.forM_cons

theorem bindAll_singleton (s : Statement) : bindAll signature? [s] = bind signature? s := by
  rw [bindAll_cons]
  exact bind_pure_unit

mutual
theorem apply_eq (clause : Clause) : apply signature? clause = bindAll signature? (statementsOf clause) := by
  cases clause with
  | bind s => rw [apply, statementsOf, bindAll_singleton]
  | install clauses => rw [apply, statementsOf, applyAll_eq clauses]

theorem applyAll_eq (clauses : List Clause) :
    applyAll signature? clauses = bindAll signature? (statements clauses) := by
  cases clauses with
  | nil => rfl
  | cons clause rest => rw [applyAll, statements, bindAll_append, apply_eq clause, applyAll_eq rest]
end

theorem runOn_bind_ok (made : Module.binding signature? s = .ok binding) :
    (bind signature? s).runOn table = (.ok (), table.insert s.key binding) := by
  unfold bind
  rw [Act.runOn_bind, runOn_liftExcept, made]
  rfl

theorem runOn_bind_error {e : Error} (failed : Module.binding signature? s = .error e) :
    (bind signature? s).runOn table = (.error e, table) := by
  unfold bind
  rw [Act.runOn_bind, runOn_liftExcept, failed]

theorem exists_described {statements : List Statement} (known : ∀ s ∈ statements, Known signature? s) :
    ∃ table, (bindAll signature? statements).runOn SortedMap.empty = (.ok (), table) ∧
      Describes signature? statements table := by
  induction statements using List.reverseRecOn with
  | nil => exact ⟨_, rfl, describes_nil⟩
  | append_singleton before s ih =>
    obtain ⟨table, ran, describes⟩ := ih fun t member => known t (List.mem_append_left _ member)
    obtain ⟨binding, made, binds⟩ := binding_eq_ok (known s (by simp))
    refine ⟨_, ?_, describes.concat binds⟩
    rw [bindAll_append, Act.runOn_bind, ran, bindAll_singleton]
    exact runOn_bind_ok made

/-- The first statement whose class is unknown names it. -/
def FirstUnknown (signature? : String → Option Signature) (statements : List Statement) (className : String) :
    Prop :=
  ∃ before s after, statements = before ++ s :: after ∧ (∀ t ∈ before, Known signature? t) ∧
    className? s = some className ∧ signature? className = none

theorem known_or_firstUnknown (signature? : String → Option Signature) (statements : List Statement) :
    (∀ s ∈ statements, Known signature? s) ∨ ∃ className, FirstUnknown signature? statements className := by
  induction statements with
  | nil => exact .inl nofun
  | cons s rest ih =>
    by_cases known : Known signature? s
    · refine ih.imp (fun all => List.forall_mem_cons.mpr ⟨known, all⟩) ?_
      rintro ⟨className, before, t, after, rfl, earlier, named⟩
      exact ⟨className, s :: before, t, after, rfl, List.forall_mem_cons.mpr ⟨known, earlier⟩, named⟩
    · simp only [Known, not_forall, not_not] at known
      obtain ⟨className, named, unknown⟩ := known
      exact .inr ⟨className, [], s, rest, rfl, nofun, named, unknown⟩

theorem FirstUnknown.runOn {statements : List Statement} {className : String}
    (first : FirstUnknown signature? statements className) :
    ((bindAll signature? statements).runOn SortedMap.empty).1 = .error (.unknownClass className) := by
  obtain ⟨before, s, after, rfl, earlier, named, unknown⟩ := first
  obtain ⟨table, ran, -⟩ := exists_described earlier
  rw [bindAll_append, Act.runOn_bind, ran, bindAll_cons]
  simp only [Act.runOn_bind, runOn_bind_error (binding_eq_error named unknown)]

theorem table_of_describes {clauses : List Clause} (describes : Describes signature? (statements clauses) table) :
    Module.table signature? clauses = .ok table := by
  obtain ⟨table', ran, describes'⟩ := exists_described describes.known
  unfold Module.table
  rw [applyAll_eq, ran, describes.unique describes']

theorem table_of_firstUnknown {clauses : List Clause} {className : String}
    (first : FirstUnknown signature? (statements clauses) className) :
    Module.table signature? clauses = .error (.unknownClass className) := by
  have failed := first.runOn
  unfold Module.table
  rw [applyAll_eq]
  generalize (bindAll signature? (statements clauses)).runOn SortedMap.empty = ran at failed
  obtain ⟨outcome, table⟩ := ran
  subst failed
  rfl

theorem table_eq_ok_iff {clauses : List Clause} :
    Module.table signature? clauses = .ok table ↔ Describes signature? (statements clauses) table := by
  refine ⟨fun made => ?_, table_of_describes⟩
  rcases known_or_firstUnknown signature? (statements clauses) with known | ⟨className, first⟩
  · obtain ⟨table', -, describes⟩ := exists_described known
    cases made.symm.trans (table_of_describes describes)
    exact describes
  · cases made.symm.trans (table_of_firstUnknown first)

theorem table_eq_error_iff {clauses : List Clause} {e : Error} : Module.table signature? clauses = .error e ↔
    ∃ className, FirstUnknown signature? (statements clauses) className ∧ e = .unknownClass className := by
  refine ⟨fun failed => ?_, ?_⟩
  · rcases known_or_firstUnknown signature? (statements clauses) with known | ⟨className, first⟩
    · obtain ⟨table, -, describes⟩ := exists_described known
      cases failed.symm.trans (table_of_describes describes)
    · exact ⟨className, first, Except.error.inj (failed.symm.trans (table_of_firstUnknown first))⟩
  · rintro ⟨className, first, rfl⟩
    exact table_of_firstUnknown first

theorem runOn_compileModule_congr {session : Session} {clauses clauses' : List Clause}
    (same : Session.moduleTable session.registry clauses' = Session.moduleTable session.registry clauses)
    (reach : Session.Reach) (time : Instant) : (Session.compileModule reach time clauses').runOn session =
      (Session.compileModule reach time clauses).runOn session := by
  unfold Session.compileModule
  simp only [Act.runOn_bind, runOn_get, same]

/-- A module is configured by carrying out its statements in order. That fails exactly if a class is unknown,
with the error for the first one; otherwise the table binds exactly the keys mentioned, each as its last
statement says. If two neighbouring statements of different keys trade places, the table stays, and so does
all that a session compiles from it or does with it. -/
theorem configured_in_order (signature? : String → Option Signature) (clauses : List Clause) :
    applyAll signature? clauses = bindAll signature? (statements clauses) ∧
    (∀ e, Module.table signature? clauses = .error e ↔
      ∃ className, FirstUnknown signature? (statements clauses) className ∧ e = .unknownClass className) ∧
    (∀ table, Module.table signature? clauses = .ok table ↔ Describes signature? (statements clauses) table) ∧
    ∀ (before after : List Statement) (s t : Statement) (swapped : List Clause), s.key ≠ t.key →
      statements clauses = before ++ s :: t :: after → statements swapped = before ++ t :: s :: after →
      ∀ table, Module.table signature? clauses = .ok table → Module.table signature? swapped = .ok table ∧
        ∀ registry : Registry, registry.signature? = signature? →
          (∀ cache, Session.start registry cache swapped = Session.start registry cache clauses) ∧
          ∀ (session : Session) (reach : Session.Reach) (time : Instant), session.registry = registry →
            (Session.compileModule reach time swapped).runOn session =
              (Session.compileModule reach time clauses).runOn session := by
  refine ⟨applyAll_eq clauses, fun e => table_eq_error_iff, fun table => table_eq_ok_iff, ?_⟩
  intro before after s t swapped apart listed listed' table made
  have describes := table_eq_ok_iff.mp made
  rw [listed] at describes
  have made' : Module.table signature? swapped = .ok table := by
    rw [table_eq_ok_iff, listed']
    exact describes.congr (filter_swap apart before after)
  refine ⟨made', fun registry own => ?_⟩
  subst own
  have same : Session.moduleTable registry swapped = Session.moduleTable registry clauses := made'.trans made.symm
  refine ⟨fun cache => ?_, fun session reach time registered => ?_⟩
  · unfold Session.start
    rw [same]
  · subst registered
    exact runOn_compileModule_congr same reach time

def garage : Registry :=
  .ofClasses [.define "Car" "Car" fun _ => .ok [], .define "Pump" "Pump" fun _ => .ok []]

def oneCar : Statement := ⟨.plain "Car", .singleton, .itself⟩
def manyCars : Statement := ⟨.plain "Car", .prototype, .ofClass "Car"⟩

def fuel : Statement := ⟨⟨"Fuel", "diesel"⟩, .singleton, .provider "Pump" (some "diesel")⟩
def seats : Statement := ⟨.plain "Seats", .singleton, .literal (.number (.integer ⟨4, by decide⟩))⟩

/-- The same statements, once with the fuel in a module in a module and once after the seats. -/
def depot : List Clause := [.install [.bind oneCar, .install [.bind fuel]], .bind seats, .bind manyCars]
def depot' : List Clause := [.bind oneCar, .install [.bind seats, .bind fuel, .install []], .bind manyCars]

def depotTable : Table := ((applyAll garage.signature? depot).runOn SortedMap.empty).2

theorem depot_in_either_order : fuel.key ≠ seats.key ∧ statements depot = [oneCar] ++ fuel :: seats :: [manyCars] ∧
    statements depot' = [oneCar] ++ seats :: fuel :: [manyCars] ∧
    Module.table garage.signature? depot = .ok depotTable ∧ Module.table garage.signature? depot' = .ok depotTable ∧
    (∀ cache, Session.start garage cache depot' = Session.start garage cache depot) ∧
    depotTable.keys = [.plain "Car", ⟨"Fuel", "diesel"⟩, .plain "Seats"] ∧
    depotTable.get? (.plain "Car") = some (.build ⟨⟨"Car", [], [], none⟩, .prototype⟩) := by
  have apart : fuel.key ≠ seats.key := by decide
  have made : Module.table garage.signature? depot = .ok depotTable := by rfl
  obtain ⟨-, -, -, order⟩ := configured_in_order garage.signature? depot
  obtain ⟨made', same⟩ := order [oneCar] [manyCars] fuel seats depot' apart rfl rfl depotTable made
  exact ⟨apart, rfl, rfl, made, made', (same garage rfl).1, by decide +kernel, by decide +kernel⟩

end Wiring.Module
