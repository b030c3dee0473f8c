import Wiring.Disk.Basic
import Wiring.Proofs.Disk.Path
import Wiring.Proofs.SortedMap

/-! # The files of a directory

Where the files of a directory are found, and what the operations on them leave. A path that leads to a
directory leads there as long as no directory goes.
-/
namespace Wiring.Disk

variable {disk disk' : Disk} {path root name : String} {place start : List String}

@[simp] theorem Node.isDirectory_eq {node : Option Node} :
    Node.isDirectory node = true ↔ node = some .directory := by
  rcases node with _ | _ | _ <;> simp [Node.isDirectory]

theorem isAbove_concat (place : List String) {name : String} (climbs : name ≠ "..") :
    isAbove (place ++ [name]) = false := by
  simp [isAbove, climbs]

theorem node?_put {place : List String} (below : isAbove place = false) (disk : Disk) (node : Node)
    (q : List String) : (disk.put place node).node? q = if q = place then some node else disk.node? q := by
  unfold node? put
  by_cases same : q = place
  · simp [same, below, SortedMap.get?_insert]
  · simp [same, SortedMap.get?_insert]

theorem node?_erase {place : List String} (below : isAbove place = false) (disk : Disk) (q : List String) :
    (Disk.mk (disk.nodes.erase place)).node? q = if q = place then none else disk.node? q := by
  unfold node?
  by_cases same : q = place
  · simp [same, below, SortedMap.get?_erase]
  · simp [same, SortedMap.get?_erase]

/-- The way that steps lead from a place, each from a directory. -/
inductive Way (disk : Disk) : List String → List String → List String → Prop
  | here (start : List String) : Way disk start [] start
  | stay {start rest place : List String} {step : String} (from_ : disk.node? start = some .directory)
      (point : step = ".") (later : Way disk start rest place) : Way disk start (step :: rest) place
  | climb {start rest place : List String} {step : String} (from_ : disk.node? start = some .directory)
      (points : step = "..") (later : Way disk (up start) rest place) : Way disk start (step :: rest) place
  | reach {start : List String} {step : String} (from_ : disk.node? start = some .directory)
      (named : step ≠ "." ∧ step ≠ "..") (short : step.utf8ByteSize ≤ maxNameBytes) :
      Way disk start [step] (start ++ [step])
  | enter {start : List String} {step next : String} {rest place : List String}
      (from_ : disk.node? start = some .directory) (named : step ≠ "." ∧ step ≠ "..")
      (short : step.utf8ByteSize ≤ maxNameBytes) (later : Way disk (start ++ [step]) (next :: rest) place) :
      Way disk start (step :: next :: rest) place

theorem walk_name (from_ : disk.node? start = some .directory) {step : String}
    (named : step ≠ "." ∧ step ≠ "..") :
    disk.walk start [step] =
      if maxNameBytes < step.utf8ByteSize then .error .nameTooLong else .ok (start ++ [step]) := by
  simp [walk, Node.isDirectory, from_, named]

theorem walk_enter (from_ : disk.node? start = some .directory) {step : String}
    (named : step ≠ "." ∧ step ≠ "..") (short : step.utf8ByteSize ≤ maxNameBytes) (next : String)
    (rest : List String) : disk.walk start (step :: next :: rest) =
      if (disk.node? (start ++ [step])).isSome then disk.walk (start ++ [step]) (next :: rest)
      else .error .notFound := by
  rw [walk]
  simp only [Node.isDirectory, from_, named.1, named.2, Nat.not_lt.mpr short, if_false, Bool.not_true]
  cases disk.node? (start ++ [step]) <;> rfl

theorem way_of_walk {steps : List String} (ok : disk.walk start steps = .ok place) :
    Way disk start steps place := by
  induction steps generalizing start with
  | nil =>
    cases ok
    exact .here _
  | cons step rest ih =>
    by_cases from_ : disk.node? start = some .directory
    · by_cases stays : step = "."
      · subst stays
        exact .stay from_ rfl (ih (by simpa [walk, Node.isDirectory, from_] using ok))
      by_cases climbs : step = ".."
      · subst climbs
        exact .climb from_ rfl (ih (by simpa [walk, Node.isDirectory, from_] using ok))
      have short : step.utf8ByteSize ≤ maxNameBytes := by
        by_contra long
        simp [walk, Node.isDirectory, from_, stays, climbs, Nat.not_le.mp long] at ok
      cases rest with
      | nil =>
        rw [walk_name from_ ⟨stays, climbs⟩, if_neg (Nat.not_lt.mpr short)] at ok
        cases ok
        exact .reach from_ ⟨stays, climbs⟩ short
      | cons next rest =>
        rw [walk_enter from_ ⟨stays, climbs⟩ short] at ok
        split_ifs at ok
        exact .enter from_ ⟨stays, climbs⟩ short (ih ok)
    · have stuck : Node.isDirectory (disk.node? start) = false := by
        rw [← Bool.not_eq_true, Node.isDirectory_eq]
        exact from_
      rw [walk, stuck] at ok
      cases ok

theorem Way.origin {step : String} {rest : List String} (way : Way disk start (step :: rest) place) :
    disk.node? start = some .directory := by
  cases way with
  | stay from_ _ _ | climb from_ _ _ | reach from_ _ _ | enter from_ _ _ _ => exact from_

/-- The way to a directory leads on from there. -/
theorem Way.walk_append {steps : List String} (way : Way disk start steps place)
    (directory : disk.node? place = some .directory) (more : List String) :
    disk.walk start (steps ++ more) = disk.walk place more := by
  induction way with
  | here start => rfl
  | stay from_ point later ih =>
    rw [← ih directory, point]
    simp [walk, Node.isDirectory, from_]
  | climb from_ points later ih =>
    rw [← ih directory, points]
    simp [walk, Node.isDirectory, from_]
  | @reach start step from_ named short =>
    have only : disk.walk start [step] = .ok (start ++ [step]) := by
      rw [walk_name from_ named, if_neg (Nat.not_lt.mpr short)]
    cases more with
    | nil => exact only
    | cons next more =>
      rw [List.singleton_append, walk_enter from_ named short, directory]
      rfl
  | enter from_ named short later ih =>
    rw [← ih directory]
    simp only [List.cons_append]
    rw [walk_enter from_ named short, later.origin]
    rfl

theorem Way.walk_eq {steps : List String} (way : Way disk start steps place) :
    disk.walk start steps = .ok place := by
  induction way with
  | here start => rfl
  | stay from_ point _ ih => simpa [walk, Node.isDirectory, from_, point] using ih
  | climb from_ points _ ih => simpa [walk, Node.isDirectory, from_, points] using ih
  | reach from_ named short => rw [walk_name from_ named, if_neg (Nat.not_lt.mpr short)]
  | enter from_ named short later ih =>
    rw [walk_enter from_ named short, later.origin]
    exact ih

theorem Way.split {steps more : List String} (way : Way disk start (steps ++ more) place) :
    ∃ middle, Way disk start steps middle ∧ Way disk middle more place := by
  induction steps generalizing start with
  | nil => exact ⟨start, .here start, way⟩
  | cons step steps ih =>
    rw [List.cons_append] at way
    generalize whole : steps ++ more = rest at way
    cases way with
    | stay from_ point later =>
      obtain ⟨middle, first, last⟩ := ih (whole ▸ later)
      exact ⟨middle, .stay from_ point first, last⟩
    | climb from_ points later =>
      obtain ⟨middle, first, last⟩ := ih (whole ▸ later)
      exact ⟨middle, .climb from_ points first, last⟩
    | reach from_ named short =>
      obtain ⟨rfl, rfl⟩ := List.append_eq_nil_iff.mp whole
      exact ⟨_, .reach from_ named short, .here _⟩
    | enter from_ named short later =>
      obtain ⟨middle, first, last⟩ := ih (whole ▸ later)
      cases steps with
      | nil =>
        cases first
        exact ⟨_, .reach from_ named short, last⟩
      | cons next steps => exact ⟨middle, .enter from_ named short first, last⟩

theorem Way.of_point {steps : List String} (way : Way disk start (steps ++ ["."]) place) :
    Way disk start steps place := by
  obtain ⟨middle, first, last⟩ := way.split
  cases last with
  | stay from_ point later =>
    cases later
    exact first
  | climb from_ points later => exact absurd points (by decide)
  | reach from_ named short => exact absurd rfl named.1

theorem Way.of_name {steps : List String} (named : name ≠ "." ∧ name ≠ "..")
    (way : Way disk start (steps ++ [name]) place) : ∃ directory, Way disk start steps directory ∧
      disk.node? directory = some .directory ∧ place = directory ++ [name] := by
  obtain ⟨middle, first, last⟩ := way.split
  cases last with
  | stay from_ point later => exact absurd point named.1
  | climb from_ points later => exact absurd points named.2
  | reach from_ _ _ => exact ⟨middle, first, from_, rfl⟩

theorem Way.of_points {steps : List String} {count : Nat}
    (way : Way disk start (steps ++ List.replicate count ".") place) : Way disk start steps place := by
  induction count with
  | zero => simpa using way
  | succ count ih =>
    rw [List.replicate_succ', ← List.append_assoc] at way
    exact ih way.of_point

/-- No directory of the first disk is gone from the second. -/
def Keeps (disk disk' : Disk) : Prop := ∀ q, disk.node? q = some .directory → disk'.node? q = some .directory

theorem Keeps.trans {disk₁ disk₂ disk₃ : Disk} (first : Keeps disk₁ disk₂) (later : Keeps disk₂ disk₃) :
    Keeps disk₁ disk₃ := fun q directory => later q (first q directory)

theorem keeps_put {place : List String} (below : isAbove place = false)
    (free : disk.node? place ≠ some .directory) (node : Node) : Keeps disk (disk.put place node) := by
  intro q directory
  rw [node?_put below]
  split_ifs with same
  · exact absurd (same ▸ directory) free
  · exact directory

theorem keeps_erase {place : List String} (below : isAbove place = false)
    (free : disk.node? place ≠ some .directory) : Keeps disk ⟨disk.nodes.erase place⟩ := by
  intro q directory
  rw [node?_erase below]
  split_ifs with same
  · exact absurd (same ▸ directory) free
  · exact directory

theorem Way.mono {steps : List String} (way : Way disk start steps place) (keeps : Keeps disk disk') :
    Way disk' start steps place := by
  induction way with
  | here start => exact .here start
  | stay from_ point _ ih => exact .stay (keeps _ from_) point ih
  | climb from_ points _ ih => exact .climb (keeps _ from_) points ih
  | reach from_ named short => exact .reach (keeps _ from_) named short
  | enter from_ named short _ ih => exact .enter (keeps _ from_) named short ih

/-- A text that the system takes for a path. -/
structure Nameable (path : String) : Prop where
  nonempty : path.toList ≠ []
  nameable : '\x00' ∉ path.toList
  short : path.utf8ByteSize ≤ maxPathBytes

theorem Nameable.of_isPrefix (text : Nameable path) {short : String} (nonempty : short.toList ≠ [])
    (begins : short.toList <+: path.toList) : Nameable short := by
  obtain ⟨rest, whole⟩ := begins
  have split : path = short ++ String.ofList rest := by
    apply String.toList_injective
    rw [String.toList_append, String.toList_ofList, whole]
  have size : path.utf8ByteSize = short.utf8ByteSize + (String.ofList rest).utf8ByteSize := by
    rw [split, String.utf8ByteSize_append]
  have bound := text.short
  refine ⟨nonempty, fun nul => text.nameable ?_, by omega⟩
  rw [← whole]
  exact List.mem_append_left _ nul

structure Leads (disk : Disk) (path : String) (place : List String) : Prop where
  text : Nameable path
  way : Way disk [] (Path.steps path) place
  directory : disk.node? place = some .directory

theorem locate_eq (text : Nameable path) (disk : Disk) :
    disk.locate path = match disk.walk [] (Path.steps path) with
      | .error fault => .error fault
      | .ok place => match disk.node? place with
        | some (.file _) => if path.toList.getLast? = some '/' then .error .notDirectory else .ok place
        | _ => .ok place := by
  have nul : path.toList.contains '\x00' = false := by simp [text.nameable]
  rw [locate, if_neg text.nonempty, nul, if_neg Bool.false_ne_true, if_neg (Nat.not_lt.mpr text.short)]
  cases disk.walk [] (Path.steps path) <;> rfl

theorem nameable_of_locate (located : disk.locate path = .ok place) : Nameable path := by
  unfold locate at located
  split_ifs at located with empty nul long
  all_goals exact ⟨empty, by simpa using nul, Nat.not_lt.mp long⟩

theorem walk_of_locate (located : disk.locate path = .ok place) : disk.walk [] (Path.steps path) = .ok place := by
  rw [locate_eq (nameable_of_locate located)] at located
  cases walked : disk.walk [] (Path.steps path) with
  | error fault => rw [walked] at located; cases located
  | ok found =>
    simp only [walked] at located
    split at located
    · split_ifs at located
      exact located
    · exact located

theorem read_of_locate (located : disk.locate path = .ok place) : disk.read path =
    match disk.node? place with
    | some (.file contents) => .ok contents
    | some .directory => .error .isDirectory
    | none => .error .notFound := by
  rw [read, located]
  rfl

theorem read_eq_ok_iff {contents : ByteArray} : disk.read path = .ok contents ↔
    ∃ place, disk.locate path = .ok place ∧ disk.node? place = some (.file contents) := by
  cases located : disk.locate path with
  | error fault =>
    rw [read, located]
    exact ⟨nofun, nofun⟩
  | ok place =>
    rw [read_of_locate located]
    simp only [Except.ok.injEq, exists_eq_left']
    rcases disk.node? place with _ | _ | _ <;> simp

theorem way_of_locate (located : disk.locate path = .ok place) : Way disk [] (Path.steps path) place :=
  way_of_walk (walk_of_locate located)

/-- A path goes on leading where it leads, unless it ends in a slash and a file is there. -/
theorem locate_mono (located : disk.locate path = .ok place) (keeps : Keeps disk disk')
    (whole : ∀ contents, disk'.node? place = some (.file contents) → path.toList.getLast? ≠ some '/') :
    disk'.locate path = .ok place := by
  rw [locate_eq (nameable_of_locate located), ((way_of_locate located).mono keeps).walk_eq]
  simp only
  split
  · rename_i contents held
    exact if_neg (whole contents held)
  · rfl

theorem leads_iff : Leads disk path place ↔
    disk.locate path = .ok place ∧ disk.node? place = some .directory := by
  constructor
  · intro leads
    refine ⟨?_, leads.directory⟩
    rw [locate_eq leads.text, leads.way.walk_eq]
    simp only [leads.directory]
  · rintro ⟨located, directory⟩
    exact ⟨nameable_of_locate located, way_of_locate located, directory⟩

theorem Leads.mono (leads : Leads disk path place) (keeps : Keeps disk disk') : Leads disk' path place :=
  ⟨leads.text, leads.way.mono keeps, keeps _ leads.directory⟩

/-- Whether the path of a file is short enough for the system. -/
def Fits (root name : String) : Prop :=
  (Path.join root name).utf8ByteSize ≤ maxPathBytes ∧ name.utf8ByteSize ≤ maxNameBytes

instance : Decidable (Fits root name) := inferInstanceAs (Decidable (_ ∧ _))

theorem Way.walk_join (way : Way disk [] (Path.steps root) place) (directory : disk.node? place = some .directory)
    (proper : Path.IsName name) : disk.walk [] (Path.steps (Path.join root name)) =
      if maxNameBytes < name.utf8ByteSize then .error .nameTooLong else .ok (place ++ [name]) := by
  rw [Path.steps_join root proper, way.walk_append directory, walk_name directory ⟨proper.stays, proper.climbs⟩]

section
variable (leads : Leads disk root place) (proper : Path.IsName name)
include leads proper

theorem Leads.locate_join : disk.locate (Path.join root name) =
    if Fits root name then .ok (place ++ [name]) else .error .nameTooLong := by
  obtain ⟨stem, joined, ends⟩ := Path.toList_join leads.text.nonempty name
  have nameable : '\x00' ∉ (Path.join root name).toList := by
    have own : '\x00' ∉ stem := by
      intro inside
      rcases ends with same | slashed
      · exact leads.text.nameable (same ▸ inside)
      · exact leads.text.nameable (slashed ▸ List.mem_append_left _ inside)
    rw [joined]
    simp [own, proper.nameable]
  have last := Path.getLast?_join root proper
  have walked := leads.way.walk_join leads.directory proper
  by_cases long : maxPathBytes < (Path.join root name).utf8ByteSize
  · have nul : (Path.join root name).toList.contains '\x00' = false := by simp [nameable]
    have unfit : ¬ Fits root name := fun fits => Nat.not_lt.mpr fits.1 long
    rw [locate, if_neg (by simp [joined]), nul, if_neg Bool.false_ne_true, if_pos long, if_neg unfit]
  · have text : Nameable (Path.join root name) := ⟨by simp [joined], nameable, Nat.not_lt.mp long⟩
    rw [locate_eq text, walked]
    by_cases wide : maxNameBytes < name.utf8ByteSize
    · have unfit : ¬ Fits root name := fun fits => Nat.not_lt.mpr fits.2 wide
      rw [if_pos wide, if_neg unfit]
    · have fits : Fits root name := ⟨Nat.not_lt.mp long, Nat.not_lt.mp wide⟩
      rw [if_neg wide, if_pos fits]
      simp only [if_neg last]
      split <;> rfl

theorem Leads.read_join : disk.read (Path.join root name) =
    if Fits root name then
      match disk.node? (place ++ [name]) with
      | some (.file contents) => .ok contents
      | some .directory => .error .isDirectory
      | none => .error .notFound
    else .error .nameTooLong := by
  by_cases fits : Fits root name
  · rw [if_pos fits]
    exact read_of_locate ((leads.locate_join proper).trans (if_pos fits))
  · rw [read, leads.locate_join proper, if_neg fits, if_neg fits]
    rfl

theorem Leads.isFile_join : disk.isFile (Path.join root name) = true ↔
    Fits root name ∧ ∃ contents, disk.node? (place ++ [name]) = some (.file contents) := by
  rw [isFile, find?, leads.locate_join proper]
  by_cases fits : Fits root name
  · simp only [fits, if_true, true_and]
    generalize disk.node? (place ++ [name]) = found
    rcases found with _ | _ | _ <;> simp
  · simp [fits]

theorem Leads.exists_parent : ∃ above, Path.parent? (Path.join root name) = some above ∧
    Leads disk above place := by
  obtain ⟨above, count, found, nonempty, begins, steps⟩ :=
    Path.exists_parent_join leads.text.nonempty proper
  have way := leads.way
  rw [steps] at way
  exact ⟨above, found, leads.text.of_isPrefix nonempty begins, way.of_points, leads.directory⟩

end

theorem Leads.isDirectory (leads : Leads disk root place) : disk.isDirectory root = true := by
  obtain ⟨located, directory⟩ := leads_iff.mp leads
  rw [Disk.isDirectory, find?, located]
  exact Node.isDirectory_eq.mpr directory

theorem Leads.mem_fileNames (leads : Leads disk root place) : name ∈ disk.fileNames root ↔
    ∃ contents, disk.nodes.get? (place ++ [name]) = some (.file contents) := by
  rw [fileNames, (leads_iff.mp leads).1]
  simp only [List.mem_filterMap]
  constructor
  · rintro ⟨⟨q, node⟩, member, listed⟩
    cases node with
    | directory => cases listed
    | file contents =>
      cases last : q.getLast? with
      | none => rw [last] at listed; cases listed
      | some found =>
        simp only [last] at listed
        split_ifs at listed with inside
        cases listed
        have whole : q = place ++ [name] := by
          rw [← inside]
          exact (List.dropLast_append_getLast? name last).symm
        exact ⟨contents, SortedMap.mem_entries_iff.mp (whole ▸ member)⟩
  · rintro ⟨contents, held⟩
    exact ⟨_, SortedMap.mem_entries_iff.mpr held, by simp⟩

def next (place : List String) (step : String) : List String :=
  if step = "." then place else if step = ".." then up place else place ++ [step]

/-- The place that a path names if it names one. -/
def aim (path : String) : List String := (Path.steps path).foldl next []

theorem Way.foldl_next {steps : List String} (way : Way disk start steps place) :
    steps.foldl next start = place := by
  induction way with
  | here start => rfl
  | stay _ point _ ih => rw [List.foldl_cons, next, if_pos point, ih]
  | climb _ points _ ih => rw [List.foldl_cons, points, next, if_neg (by decide), if_pos rfl, ih]
  | reach _ named _ => rw [List.foldl_cons, next, if_neg named.1, if_neg named.2, List.foldl_nil]
  | enter _ named _ _ ih => rw [List.foldl_cons, next, if_neg named.1, if_neg named.2, ih]

theorem aim_of_locate (located : disk.locate path = .ok place) : aim path = place :=
  (way_of_locate located).foldl_next

theorem aim_join (root : String) (proper : Path.IsName name) :
    aim (Path.join root name) = aim root ++ [name] := by
  rw [aim, Path.steps_join root proper, List.foldl_append, List.foldl_cons, List.foldl_nil, next,
    if_neg proper.stays, if_neg proper.climbs]
  rfl

end Wiring.Disk
