import Wiring.Proofs.Compile.Pass
import Wiring.Proofs.Lockstep
import Wiring.Proofs.MemoryStore
import Wiring.Proofs.Runner

/-! # Precompiling changes no answer

A runner over the plans of a pass and a runner that compiles each plan when it is first asked for
serve the same table. They go through the same plans in step, whatever they are asked and however a
request ends, and what the second one writes is what the pass had written.
-/
namespace Wiring.Runner
open Act Store Compile Wiring.Runtime

variable {σ τ : Type} [Store σ] [Store τ] [LawfulStore σ] [LawfulStore τ]
  (refuses : Refuses σ .none) (refuses' : Refuses τ .none)
  {β : Matching} {old : Nat} (fixes : β.Fixes old) {registry : Registry}
  (purity : registry.Pure old) {table : Table} {active : List Key}

/-- Two memories that serve a table, whatever plans each of them holds already. -/
def BothServe (table : Table) (m : Memory σ) (m' : Memory τ) : Prop := Serves table m ∧ Serves table m'

include refuses refuses' in
theorem inStep_planFor {key : Key} (point : Option Point) (answerable : Answerable registry table key) :
    InStep β (BothServe table) active (fun p q => p = q ∧ Planned table key p)
      (planFor registry key point : Run σ Plan) (planFor registry key point : Run τ Plan) := by
  intro s t paired
  obtain ⟨m, serves, ran⟩ := runOn_planFor paired.own.1 refuses point answerable
  obtain ⟨m', serves', ran'⟩ := runOn_planFor paired.own.2 refuses' point answerable
  rw [ran, ran']
  refine ⟨?_, { paired with own := ⟨serves, serves'⟩ }⟩
  unfold planOutcome
  cases bound : table.get? key with
  | none => exact .error _
  | some binding =>
    cases compiled : Compile.planFor noScopes table key binding with
    | error e => simpa only [bound, compiled] using .error e
    | ok p => simpa only [bound, compiled] using .ok ⟨rfl, binding, bound, compiled⟩

section
variable {obtain₁ : Obtain σ} {obtain₂ : Obtain τ}
  (each : ∀ key scope point, Answerable registry table key →
    InStep β (BothServe table) active (Value.Alike β) (obtain₁ key scope point) (obtain₂ key scope point))
include each

omit [LawfulStore σ] [LawfulStore τ] in
theorem inStep_operand {o : Operand} (bound : Bound table o) :
    InStep β (BothServe table) active (Value.Alike β) (operand obtain₁ o) (operand obtain₂ o) := by
  cases o with
  | literal value => exact inStep_pure rfl
  | reference scope key => exact each key (some scope) none (.inl (bound key rfl))
  | deferred scope key point => exact each key (some scope) (some point) (.inl (bound key rfl))

include fixes purity

omit [LawfulStore σ] [LawfulStore τ] in
theorem inStep_construct {a : Assembly} (bound : ∀ o ∈ a.allOperands, Bound table o) :
    InStep β (BothServe table) active (MadeAlike registry β) (construct registry obtain₁ a)
      (construct registry obtain₂ a) := by
  refine inStep_assemble fixes purity a.className a.hook (fun o member => ?_) fun st called o member => ?_
  · exact inStep_operand each (bound o (List.mem_append_left _ member))
  · obtain ⟨call, made, rfl⟩ := List.mem_map.mp called
    exact inStep_operand each
      (bound o (List.mem_append_right _ (List.mem_flatMap.mpr ⟨call, made, member⟩)))

omit [LawfulStore σ] [LawfulStore τ] in
theorem inStep_evaluate (asks : registry.AsksOnly (Answerable registry table)) {key : Key} {p : Plan}
    (planned : Planned table key p) (point : Option Point) :
    InStep β (BothServe table) active (Value.Alike β) (evaluate registry obtain₁ p point)
      (evaluate registry obtain₂ p point) := by
  obtain ⟨binding, -, compiled⟩ := planned
  have bound := bound_of_planFor compiled
  unfold Plan.operands Plan.assembly? at bound
  unfold evaluate
  cases body : p.body with
  | literal value => exact inStep_pure rfl
  | construct a =>
    rw [body] at bound
    exact (inStep_construct fixes purity each bound).bind fun made => inStep_pure made.objects
  | provide a context =>
    rw [body] at bound
    exact (inStep_construct fixes purity each bound).bind fun made =>
      inStep_provide fixes purity asks (fun key point allowed => each key none point allowed) made
        context point

end

section
include refuses refuses'

theorem inStep_planned {key : Key} (answerable : Answerable registry table key) (scope : Option Scope)
    (point : Option Point) {make : Plan → Run σ Value} {make' : Plan → Run τ Value}
    (h : ∀ {p}, Planned table key p → key ∉ active →
      InStep β (BothServe table) (key :: active) (Value.Alike β) (make p) (make' p)) :
    InStep β (BothServe table) active (Value.Alike β)
      (do let p ← planFor registry key point; deliver key (scope.getD p.scope) (make p))
      (do let p ← planFor registry key point; deliver key (scope.getD p.scope) (make' p)) := by
  refine (inStep_planFor refuses refuses' point answerable).bind fun {p q} planned => ?_
  obtain ⟨rfl, planned⟩ := planned
  exact inStep_deliver _ (h planned)

include fixes purity

theorem inStep_obtain (asks : registry.AsksOnly (Answerable registry table)) {depth depth' : Nat}
    (room : Room table depth active) (room' : Room table depth' active) {key : Key}
    (answerable : Answerable registry table key) (scope : Option Scope) (point : Option Point) :
    InStep β (BothServe table) active (Value.Alike β) (obtain registry depth key scope point : Run σ Value)
      (obtain registry depth' key scope point : Run τ Value) := by
  -- The depths may differ, but neither runs out as long as there is a key left to resolve.
  induction depth generalizing depth' active key scope point with
  | zero =>
    cases depth' <;> refine inStep_planned refuses refuses' answerable scope point fun planned fresh => ?_
    all_goals
      obtain ⟨binding, bound, -⟩ := planned
      obtain ⟨left, impossible, -⟩ := room.push ⟨binding, bound⟩ fresh
      cases impossible
  | succ depth ih =>
    cases depth' with
    | zero =>
      refine inStep_planned refuses refuses' answerable scope point fun planned fresh => ?_
      obtain ⟨binding, bound, -⟩ := planned
      obtain ⟨left, impossible, -⟩ := room'.push ⟨binding, bound⟩ fresh
      cases impossible
    | succ depth' =>
      refine inStep_planned refuses refuses' answerable scope point fun planned fresh => ?_
      obtain ⟨binding, bound, -⟩ := id planned
      obtain ⟨left, same, inner⟩ := room.push ⟨binding, bound⟩ fresh
      obtain ⟨left', same', inner'⟩ := room'.push ⟨binding, bound⟩ fresh
      obtain rfl : depth = left := Nat.succ.inj same
      obtain rfl : depth' = left' := Nat.succ.inj same'
      exact inStep_evaluate fixes purity
        (fun key scope point allowed => ih inner inner' allowed scope point) asks planned point

theorem inStep_request (asks : registry.AsksOnly (Answerable registry table)) {key : Key}
    (answerable : Answerable registry table key) (point : Option Point) :
    InStep β (BothServe table) [] (Value.Alike β) (request registry key point : Run σ Value)
      (request registry key point : Run τ Value) := by
  intro s t paired
  have room : ∀ {depth}, table.size ≤ depth → Room table depth [] := fun enough =>
    ⟨List.nodup_nil, nofun, enough⟩
  exact inStep_obtain refuses refuses' fixes purity asks
    (room (size_le_runnable paired.own.1 registry)) (room (size_le_runnable paired.own.2 registry))
    answerable none point s t paired

end

/-- The answers to requests one after another, failed ones too, and the state after them. -/
def answers (registry : Registry) :
    List (Key × Option Point) → State σ → List (Except Error Value) × State σ
  | [], s => ([], s)
  | (key, point) :: rest, s =>
    let (answer, s) := (request registry key point).runOn s
    let (later, s) := answers registry rest s
    (answer :: later, s)

include refuses refuses' fixes purity in
theorem answers_agree (asks : registry.AsksOnly (Answerable registry table))
    {requests : List (Key × Option Point)} (answerable : ∀ r ∈ requests, Answerable registry table r.1)
    {s : State σ} {t : State τ} (paired : Paired β (BothServe table) [] s t) :
    List.Forall₂ (Agree (Value.Alike β)) (answers registry requests s).1 (answers registry requests t).1 ∧
      Paired β (BothServe table) [] (answers registry requests s).2 (answers registry requests t).2 := by
  induction requests generalizing s t with
  | nil => exact ⟨.nil, paired⟩
  | cons r rest ih =>
    obtain ⟨key, point⟩ := r
    obtain ⟨first, others⟩ := List.forall_mem_cons.mp answerable
    obtain ⟨agree, paired'⟩ :=
      inStep_request refuses refuses' fixes purity asks first point s t paired
    obtain ⟨agrees, paired''⟩ := ih others paired'
    exact ⟨.cons agree agrees, paired''⟩

/-- Matches the identities that two injectors take from here on, and leaves the old ones alone. -/
def sideBySide (old born born' : Nat) : Matching := fun i j =>
  (i = j ∧ i < old) ∨ ∃ n, i = born + n ∧ j = born' + n

theorem fixes_sideBySide {old born born' : Nat} (h : old ≤ born) (h' : old ≤ born') :
    (sideBySide old born born').Fixes old where
  oneToOne := by
    rintro i j i' j' (⟨rfl, below⟩ | ⟨n, rfl, rfl⟩) (⟨rfl, below'⟩ | ⟨n', rfl, rfl⟩) <;> omega
  fixed i below := .inl ⟨rfl, below⟩

include refuses in
theorem holds_of_pass {s : σ} (empty : Empty s) (time : Instant) :
    let passed := ((Compile.pass .interpreted table time).runOn s).2
    Holds table (⟨passed, SortedMap.empty, none⟩ : Memory σ) := by
  have writes : Writes noScopes table s ((Compile.pass .interpreted table time).runOn s).2 :=
    writes_pass fixed_interpreted time s
  obtain ⟨split, passed, accounts, ran, snapshot⟩ := runOn_pass fixed_interpreted refuses table time s
  rw [ran] at writes ⊢
  refine ⟨⟨slots_of_writes empty writes, ⟨time, snapshot⟩, nofun, .inl rfl⟩, fun {key p} planned => ?_⟩
  have absent : hasPlan s key = false := congrArg Prod.fst (empty key)
  obtain ⟨binding, bound, compiled⟩ := id planned
  have member : key ∈ split.compiled := (accounts.mem_compiled key).mpr
    ⟨absent, binding, bound, rfl, p, by rw [runOn_plan fixed_interpreted, compiled]⟩
  obtain ⟨binding', p', bound', compiled', there⟩ := accounts.written key member
  rw [runOn_plan fixed_interpreted] at compiled'
  rw [there, planned.unique ⟨binding', bound', compiled'⟩]

include refuses refuses' purity in
/-- A runner over the store that a pass has left, even if bindings failed, and a runner over a store
with nothing but the snapshot give the same answers to any requests that the table decides, up to
the identities that they take, and the second one writes only what the pass had written. -/
theorem precompiling_changes_no_answer (table : Table)
    (asks : registry.AsksOnly (Answerable registry table)) (time time' : Instant)
    {eager : σ} (empty : Empty eager) {lazy : τ} (empty' : Empty lazy)
    (snapshot : readSnapshot lazy = .ok (some (Snapshot.ofTable time' table)))
    {born born' : Nat} (h : old ≤ born) (h' : old ≤ born')
    {requests : List (Key × Option Point)} (answerable : ∀ r ∈ requests, Answerable registry table r.1) :
    let passed := ((Compile.pass .interpreted table time).runOn eager).2
    let first := answers registry requests (start born passed)
    let second := answers registry requests (start born' lazy)
    (∃ β : Matching, β.OneToOne ∧ List.Forall₂ (Agree (Value.Alike β)) first.1 second.1) ∧
      ∀ key p, readPlan second.2.own.store key = .ok (some p) →
        slot passed key = (true, .ok (some p)) := by
  intro passed first second
  obtain ⟨serves, held⟩ : Holds table (⟨passed, SortedMap.empty, none⟩ : Memory σ) :=
    holds_of_pass refuses empty time
  have fixes := fixes_sideBySide h h'
  have serves' : Serves table (⟨lazy, SortedMap.empty, none⟩ : Memory τ) :=
    ⟨fun key => .inl (empty' key), ⟨time', snapshot⟩, nofun, .inl rfl⟩
  have paired : Paired (sideBySide old born born') (BothServe table) [] (start born passed)
      (start born' lazy) :=
    ⟨fun n => .inr ⟨n, rfl, rfl⟩, fun _ => .none, rfl, rfl, serves, serves'⟩
  obtain ⟨agree, after⟩ := answers_agree refuses refuses' fixes purity asks answerable paired
  refine ⟨⟨_, fixes.oneToOne, agree⟩, fun key p read => ?_⟩
  rcases after.own.2.slots key with absent | ⟨q, planned, there⟩
  · have none : readPlan second.2.own.store key = .ok none := congrArg Prod.snd absent
    rw [read] at none
    cases none
  · have same : readPlan second.2.own.store key = .ok (some q) := congrArg Prod.snd there
    obtain rfl : p = q := Option.some.inj (Except.ok.inj (read.symm.trans same))
    exact held planned

def lend (key : Key) : Provide := fun _ _ _ => .lookup key none fun answer => .finish (answer.map .existing)

theorem pureProvide_lend (key : Key) : PureProvide old (lend key) := by
  intro β _ o p _ context point
  exact ⟨rfl, rfl, fun answer answer' agree => agree.map id⟩

def lendingRegistry : Registry :=
  .ofClasses [.define "A" "A" .ok, (Class.define "P" "P" .ok).provides (lend (.plain "a"))]

/-- `a` is the one `A`, `p` is what a `P` provides, and `b` needs a key that nothing binds. -/
def lendingTable : Table :=
  let needy : Signature := ⟨"B", [{ key := .plain "u", point := ⟨"B", "new", "u"⟩ }], [], none⟩
  .ofList [(.plain "a", .build ⟨⟨"A", [], [], none⟩, .singleton⟩), (.plain "b", .build ⟨needy, .prototype⟩),
    (.plain "p", .provided ⟨⟨"P", [], [], none⟩, .prototype⟩ .prototype none)]

def lendingRequests : List (Key × Option Point) :=
  [(.plain "p", none), (.plain "a", none), (.plain "b", none), (.plain "u", none)]

theorem pure_lendingRegistry : Registry.Pure 0 lendingRegistry := by
  have keeps : PureConstructor 0 .ok := fun _ _ _ arguments => .ok arguments
  refine Registry.pure_ofClasses ?_
  intro c member
  simp only [List.mem_cons, List.not_mem_nil, or_false] at member
  rcases member with rfl | rfl
  · exact Class.pure_define "A" "A" keeps
  · exact (Class.pure_define "P" "P" keeps).provides (pureProvide_lend _)

theorem asksOnly_lendingRegistry :
    Registry.AsksOnly (Answerable lendingRegistry lendingTable) lendingRegistry := by
  intro name c found provide provides
  have member := Registry.mem_of_ofClasses found
  simp only [List.mem_cons, List.not_mem_nil, or_false] at member
  rcases member with rfl | rfl
  · cases provides
  · obtain rfl : lend (.plain "a") = provide := Option.some.inj provides
    exact fun _ _ _ => ⟨.inl ⟨_, rfl⟩, fun _ => trivial⟩

theorem answerable_lendingRequests :
    ∀ r ∈ lendingRequests, Answerable lendingRegistry lendingTable r.1 := by
  have bound : ∀ r ∈ lendingRequests.take 3, (lendingTable.get? r.1).isSome = true := by decide
  intro r member
  rcases List.mem_append.mp (List.take_append_drop 3 lendingRequests ▸ member) with member | member
  · exact .inl (Option.isSome_iff_exists.mp (bound r member))
  · obtain rfl : r = (.plain "u", none) := List.mem_singleton.mp member
    exact .inr ⟨rfl, .inr rfl⟩

/-- The object lent is the one `A`, and the request for `b` fails on both sides. -/
theorem precompiling_lends_same :
    let lent : Value := .object 1 "A" "A" [⟨constructorMethod, [], []⟩]
    let lazy : MemoryStore .none := ⟨SortedMap.empty, some (Snapshot.ofTable default lendingTable)⟩
    ∃ β : Matching, β.OneToOne ∧ List.Forall₂ (Agree (Value.Alike β))
      [.ok lent, .ok lent, .error (.unbound (.plain "u") (some ⟨"B", constructorMethod, "u"⟩)),
        .error (.unbound (.plain "u") none)]
      (answers lendingRegistry lendingRequests (start 7 lazy)).1 := by
  intro lent lazy
  have empty : Empty lazy := fun _ => rfl
  have snapshot : readSnapshot lazy = .ok (some (Snapshot.ofTable default lendingTable)) := rfl
  obtain ⟨⟨β, oneToOne, agree⟩, -⟩ := precompiling_changes_no_answer MemoryStore.refuses
    MemoryStore.refuses pure_lendingRegistry lendingTable asksOnly_lendingRegistry default default
    MemoryStore.empty_start empty snapshot (Nat.zero_le 0) (Nat.zero_le 7) answerable_lendingRequests
  exact ⟨β, oneToOne, agree⟩

end Wiring.Runner
