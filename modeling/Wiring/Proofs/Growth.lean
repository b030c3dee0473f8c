import Wiring.Proofs.Account
import Wiring.Proofs.Course
import Wiring.Proofs.Discovery
import Wiring.Proofs.History

/-! # Growth by discovery

At every moment of every run of an interpreter, also within requests that fail, its table is the configured
one with registered classes added, each under its plain name. Nothing that was in the table at some moment
changes later, and whatever key a request has resolved a binding of is in the table that it leaves.
-/
namespace Wiring.Interpreter
open Act Wiring.Runtime

variable (registry : Registry)

/-- The states of answering a question: with its key looked up, then those of its resolution. -/
def answering (within : Key → Binding → Option Point → State → List State) (q : Question) (s : State) :
    List State :=
  match known registry s.own q.key with
  | none => []
  | some binding =>
    let learned := { s with own := learn registry s.own q.key }
    learned :: within q.key binding q.point learned

/-- The states a resolution goes through: those of making the value, if it is made, then the last one. -/
def moments : Nat → Key → Binding → Option Point → State → List State
  | 0, key, binding, point, s => [((resolve registry 0 key binding point).runOn s).2]
  | depth + 1, key, binding, point, s =>
    let within :=
      if Open key binding.scope s ∧ key ∉ s.active then
        (dialogue registry binding point).moments (answer registry (resolve registry depth))
          (answering registry (moments depth)) (entered key s)
      else []
    within ++ [((resolve registry (depth + 1) key binding point).runOn s).2]

/-- The states an interpreter goes through while it is asked for some keys on behalf of some points. -/
def run : List (Key × Option Point) → State → List State
  | [], _ => []
  | asked :: rest, s =>
    answering registry (moments registry (bindable registry s)) (.lookup asked.1 asked.2) s ++
      run rest ((request registry asked.1 asked.2).runOn s).2

variable {registry}

theorem course_answering {within : Key → Binding → Option Point → State → List State} {resolve : Resolve}
    (resolves : ∀ key binding point s, Course (OnOwn (Grows registry)) s (within key binding point s)
      ((resolve key binding point).runOn s).2) (q : Question) (s : State) :
    Course (OnOwn (Grows registry)) s (answering registry within q s)
      ((answer registry resolve q).runOn s).2 := by
  rw [runOn_answer, answering]
  cases known registry s.own q.key with
  | none => exact .nil (refl_of (Grows registry) s.own)
  | some binding =>
    exact (resolves q.key binding q.point { s with own := learn registry s.own q.key }).cons
      (grows_learn s.own q.key)

theorem course_moments (depth : Nat) (key : Key) (binding : Binding) (point : Option Point) (s : State) :
    Course (OnOwn (Grows registry)) s (moments registry depth key binding point s)
      ((resolve registry depth key binding point).runOn s).2 := by
  induction depth generalizing key binding point s with
  | zero => exact .single (moves_resolve 0 key binding point s)
  | succ depth ih =>
    rw [moments]
    by_cases making : Open key binding.scope s ∧ key ∉ s.active
    · rw [if_pos making]
      have inner := Dialogue.course_moments (R := OnOwn (Grows registry)) Dialogue.own_taken
        (course_answering ih) (dialogue registry binding point) (entered key s)
      have ends : OnOwn (Grows registry) ((dialogue registry binding point).runOn
          (answer registry (resolve registry depth)) (entered key s)).2
          ((resolve registry (depth + 1) key binding point).runOn s).2 := by
        rw [← performed_realize registry (resolve registry depth) binding point]
        change Grows registry _ _
        rw [resolve, own_deliver_of_open making.1 making.2]
        exact refl_of (Grows registry) _
      have entering : OnOwn (Grows registry) s (entered key s) := refl_of (Grows registry) s.own
      exact ((Course.nil entering).append inner).append (Course.single ends)
    · rw [if_neg making]
      exact Course.single (moves_resolve (depth + 1) key binding point s)

theorem course_run (requests : List (Key × Option Point)) (s : State) :
    Course (OnOwn (Grows registry)) s (run registry requests s) (after registry requests s) := by
  induction requests generalizing s with
  | nil => exact .nil (refl_of (Grows registry) s.own)
  | cons asked rest ih =>
    exact (course_answering (course_moments (bindable registry s)) (.lookup asked.1 asked.2) s).append (ih _)

theorem class_of_known {table : Table} {key : Key} {binding : Binding}
    (bound : known registry table key = some binding) (vacant : table.get? key = none) :
    key.isPlain = true ∧ ∃ signature, registry.signature? key.interface = some signature ∧
      binding = .build ⟨signature, .prototype⟩ := by
  simp only [known, vacant] at bound
  by_cases plain : key.isPlain = true
  · rw [if_pos plain] at bound
    obtain ⟨signature, signed, rfl⟩ := Option.map_eq_some_iff.mp bound
    exact ⟨plain, signature, signed, rfl⟩
  · rw [if_neg plain] at bound
    cases bound

theorem after_append (earlier later : List (Key × Option Point)) (s : State) :
    after registry (earlier ++ later) s = after registry later (after registry earlier s) :=
  List.foldl_append

theorem get?_of_visited {key : Key} {point : Option Point} {s : State} {w : Visit}
    (visited : Visited registry key point s w) :
    ((request registry key point).runOn s).2.own.get? w.key = some w.binding := by
  obtain ⟨binding, bound, leads⟩ := visited
  obtain ⟨-, grows, inside⟩ := leads.keeps
  have root : (outermost registry key binding point s).Bound := by
    rw [Visit.Bound, outermost, get?_learn, if_pos rfl, bound]
  have ran : Grows registry w.state.own (w.ran registry).2.own :=
    moves_resolve w.depth w.key w.binding w.point w.state
  rw [runOn_request, bound]
  exact grows.kept (ran.kept (inside root))

/-- An interpreter that is asked for any keys keeps its configured bindings at every moment, and what it adds
to them are registered classes, under their plain names and as prototypes; nothing that was in the table is
changed or removed. A request, though it may fail, leaves in the table whatever it resolved the binding of. -/
theorem table_grows_by_classes (registry : Registry) (born : Nat) (table : Table)
    (requests : List (Key × Option Point)) :
    let start : State := Runtime.start born table
    (∀ u ∈ start :: run registry requests start,
      (∀ key binding, table.get? key = some binding → u.own.get? key = some binding) ∧
      ∀ key binding, table.get? key = none → u.own.get? key = some binding →
        key.isPlain = true ∧ ∃ signature, registry.signature? key.interface = some signature ∧
          binding = .build ⟨signature, .prototype⟩) ∧
    ((start :: run registry requests start).Pairwise fun u w =>
      ∀ key binding, u.own.get? key = some binding → w.own.get? key = some binding) ∧
    ∀ key point w later, Visited registry key point (after registry requests start) w →
      (after registry (requests ++ (key, point) :: later) start).own.get? w.key = some w.binding := by
  intro start
  have course : Course (OnOwn (Grows registry)) start (start :: run registry requests start)
      (after registry requests start) := (course_run requests start).cons (refl_of (Grows registry) table)
  refine ⟨fun u member => ⟨?_, ?_⟩, ?_, ?_⟩
  · exact fun key binding configured => (course.first u member).kept configured
  · exact fun key binding vacant found => class_of_known ((course.first u member).known found) vacant
  · exact course.ordered.imp fun {_ _} (grows : Grows registry _ _) key binding found => grows.kept found
  · intro key point w later visited
    have still : OnOwn (Grows registry) _ _ := (course_run later
      ((request registry key point).runOn (after registry requests start)).2).whole
    rw [after_append]
    exact still.kept (get?_of_visited visited)

/-- A basket takes an apple and, if it can be had, a fig, which needs the sun; its fruit comes from a menu,
which looks for a pear, a ripe pear and a nut, of which the registry knows the first alone, and fails. -/
def basketRegistry : Registry :=
  let bare (name : String) : Class := .define name name fun _ => .ok []
  .ofClasses [((bare "Basket").constructorParameter ⟨"apple", .plain "Apple", none⟩).setter true "add_fig"
      [⟨"fig", .plain "Fig", none⟩] (fun _ _ => .ok []) |>.setter false "add_fruit"
      [⟨"fruit", .plain "Fruit", none⟩] fun _ _ => .ok [],
    bare "Apple", (bare "Fig").constructorParameter ⟨"sun", .plain "Sun", none⟩, bare "Pear",
    (bare "Menu").provides fun _ _ _ => .lookup (.plain "Pear") none fun _ =>
      .lookup ⟨"Pear", "ripe"⟩ none fun _ => .lookup (.plain "Nut") none fun _ =>
        .finish (.error (.plain "sold out"))]

def fruitTable : Table :=
  .ofList [(.plain "Fruit", .provided ⟨⟨"Menu", [], [], none⟩, .singleton⟩ .singleton none)]

theorem basket_leaves_pear :
    let start : State := Runtime.start 0 fruitTable
    let asked : List (Key × Option Point) := [(.plain "Basket", none), (⟨"Pear", "ripe"⟩, none)]
    (∃ e, ((request basketRegistry (.plain "Basket") none).runOn start).1 = .error e) ∧
    (∃ w, Visited basketRegistry (.plain "Basket") none start w ∧ w.key = .plain "Pear" ∧
      (after basketRegistry asked start).own.get? (.plain "Pear") = some w.binding) ∧
    (after basketRegistry asked start).own.keys =
      [.plain "Apple", .plain "Basket", .plain "Fig", .plain "Fruit", .plain "Pear"] ∧
    ∀ u ∈ start :: run basketRegistry asked start, ∀ key binding,
      fruitTable.get? key = some binding → u.own.get? key = some binding := by
  intro start asked
  obtain ⟨-, -, resolved⟩ := table_grows_by_classes basketRegistry 0 fruitTable []
  obtain ⟨moments, -, -⟩ := table_grows_by_classes basketRegistry 0 fruitTable asked
  let basket : Binding := discovered ((basketRegistry.signature? "Basket").getD default)
  have before : ((outermost basketRegistry (.plain "Basket") basket none start).state.own.get?
      (.plain "Pear")).isSome = false := by decide +kernel
  have came : (((outermost basketRegistry (.plain "Basket") basket none start).ran
      basketRegistry).2.own.get? (.plain "Pear")).isSome = true := by decide +kernel
  obtain ⟨w, leads, named⟩ := Visit.exists_leads
    (fun ⟨_, found⟩ => by rw [found] at before; cases before) (Option.isSome_iff_exists.mp came)
  have visited : Visited basketRegistry (.plain "Basket") none start w := ⟨basket, by decide +kernel, leads⟩
  refine ⟨⟨_, rfl⟩, ⟨w, visited, named, ?_⟩, by decide +kernel, fun u member => (moments u member).1⟩
  have found := resolved (.plain "Basket") none w [(⟨"Pear", "ripe"⟩, none)] visited
  rwa [named] at found

end Wiring.Interpreter
