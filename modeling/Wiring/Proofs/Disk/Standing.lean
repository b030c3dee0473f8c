import Wiring.Proofs.Disk.Frame

/-! # What stands

What can be read of a directory stays as it is while other files of the directory are replaced, and so does
what the system refuses to read: if the way there is barred, nothing can be written there either.
-/
namespace Wiring.Disk

variable {disk disk' : Disk} {path root name other : String} {place start steps more : List String}

theorem walk_append (grounded : Grounded disk) (from_ : disk.node? start = some .directory) (goes : more ≠ []) :
    disk.walk start (steps ++ more) = match disk.walk start steps with
      | .error fault => .error fault
      | .ok place => if (disk.node? place).isSome then disk.walk place more else .error .notFound := by
  obtain ⟨first, later, rfl⟩ := List.exists_cons_of_ne_nil goes
  induction steps generalizing start with
  | nil =>
    simp only [List.nil_append, walk, from_, Option.isSome_some, if_true]
  | cons step rest ih =>
    rw [List.cons_append]
    by_cases stays : step = "."
    · have passes : ∀ steps, disk.walk start (step :: steps) = disk.walk start steps := fun steps => by
        simp [walk, Node.isDirectory, from_, stays]
      rw [passes, passes, ih from_]
    by_cases climbs : step = ".."
    · have passes : ∀ steps, disk.walk start (step :: steps) = disk.walk (up start) steps := fun steps => by
        simp [walk, Node.isDirectory, from_, climbs]
      rw [passes, passes, ih (grounded.up from_)]
    by_cases long : maxNameBytes < step.utf8ByteSize
    · have refused : ∀ steps, disk.walk start (step :: steps) = .error .nameTooLong := fun steps => by
        simp [walk, Node.isDirectory, from_, stays, climbs, long]
      rw [refused, refused]
    have short := Nat.not_lt.mp long
    cases rest with
    | nil =>
      rw [List.nil_append, walk_enter from_ ⟨stays, climbs⟩ short, walk_name from_ ⟨stays, climbs⟩, if_neg long]
    | cons next rest =>
      rw [List.cons_append, walk_enter from_ ⟨stays, climbs⟩ short, walk_enter from_ ⟨stays, climbs⟩ short]
      cases there : disk.node? (start ++ [step]) with
      | none => rfl
      | some node =>
        cases node with
        | directory => exact ih there
        | file contents =>
          simp [walk, Node.isDirectory, there]

theorem locate_of_not_nameable (text : ¬ Nameable path) (disk disk' : Disk) :
    disk'.locate path = disk.locate path := by
  unfold locate
  by_cases empty : path.toList = []
  · rw [if_pos empty, if_pos empty]
  by_cases nul : path.toList.contains '\x00' = true
  · rw [if_neg empty, if_pos nul, if_neg empty, if_pos nul]
  by_cases long : maxPathBytes < path.utf8ByteSize
  · rw [if_neg empty, if_neg nul, if_pos long, if_neg empty, if_neg nul, if_pos long]
  · exact absurd ⟨empty, by simpa using nul, Nat.not_lt.mp long⟩ text

theorem read_eq (text : Nameable path) (disk : Disk) :
    disk.read path = match disk.walk [] (Path.steps path) with
      | .error fault => .error fault
      | .ok place => match disk.node? place with
        | none => .error .notFound
        | some .directory => .error .isDirectory
        | some (.file contents) =>
          if path.toList.getLast? = some '/' then .error .notDirectory else .ok contents := by
  rw [read, locate_eq text]
  cases disk.walk [] (Path.steps path) with
  | error fault => rfl
  | ok place =>
    rcases there : disk.node? place with _ | contents | _
    · simp [there, bind, Except.bind]
    · by_cases slash : path.toList.getLast? = some '/' <;> simp [there, slash, bind, Except.bind]
    · simp [there, bind, Except.bind]

theorem read_congr (walked : disk'.walk [] (Path.steps path) = disk.walk [] (Path.steps path))
    (same : ∀ place, disk.walk [] (Path.steps path) = .ok place → disk'.node? place = disk.node? place) :
    disk'.read path = disk.read path := by
  by_cases text : Nameable path
  · rw [read_eq text, read_eq text, walked]
    cases ended : disk.walk [] (Path.steps path) with
    | error fault => rfl
    | ok place => simp only [same place ended]
  · have located := locate_of_not_nameable text disk disk'
    rw [read, read, located]
    cases found : disk.locate path with
    | error fault => rfl
    | ok place => exact absurd (nameable_of_locate found) text

def Open (disk : Disk) (root : String) : Prop :=
  ∃ place, disk.walk [] (Path.steps root) = .ok place ∧ disk.node? place = some .directory

theorem walk_points (directory : disk.node? place = some .directory) (count : Nat) :
    disk.walk place (List.replicate count ".") = .ok place := by
  induction count with
  | zero => rfl
  | succ count ih => simpa [List.replicate_succ, walk, Node.isDirectory, directory] using ih

/-- The way to a directory is barred: by a file, or by anything else than that nothing is there. -/
def Barred (disk : Disk) (path : String) : Prop :=
  match disk.walk [] (Path.steps path) with
  | .error fault => fault ≠ .notFound
  | .ok place => ∃ contents, disk.node? place = some (.file contents)

theorem makeDirectory_of_barred (text : Nameable path) (barred : Barred disk path) :
    disk.isDirectory path = false ∧
      ∃ fault, fault ≠ .notFound ∧ makeDirectory path disk = (.error fault, disk) := by
  unfold Barred at barred
  rw [isDirectory, find?, makeDirectory_eq, locate_eq text]
  cases walked : disk.walk [] (Path.steps path) with
  | error fault =>
    rw [walked] at barred
    exact ⟨rfl, fault, barred, rfl⟩
  | ok place =>
    rw [walked] at barred
    obtain ⟨contents, there⟩ := barred
    by_cases slash : path.toList.getLast? = some '/'
    · simp only [there, slash, if_true]
      exact ⟨rfl, .notDirectory, by decide, rfl⟩
    · simp only [there, slash, if_false, Option.isSome_some, if_true]
      exact ⟨rfl, .exists, by decide, rfl⟩

theorem Replace.makeDirectories_of_barred (interference : Interference) {p : Progress} (text : Nameable path)
    (barred : Barred p.disk path) : ∃ trouble past,
      makeDirectories interference path p = (.error trouble, ⟨p.disk, past⟩) := by
  obtain ⟨absent, fault, other, refused⟩ := makeDirectory_of_barred text barred
  obtain ⟨trouble, past, made, lasting⟩ : ∃ trouble past, makeDirectory interference false path p =
      (.error trouble, ⟨p.disk, past⟩) ∧ trouble ≠ .own .notFound := by
    unfold makeDirectory ensured
    cases fails : interference.fails (.directory path false) with
    | some cause =>
      rw [stage_of_fails fails]
      simp only [absent, Bool.false_eq_true, if_false]
      exact ⟨_, p.past, rfl, by simp⟩
    | none =>
      rw [stage_of_none fails, operate_eq, refused]
      simp only [Except.mapError, absent, Bool.false_eq_true, if_false]
      exact ⟨_, _, rfl, by simpa using other⟩
  obtain ⟨above, ancestors⟩ := exists_ancestors path
  refine ⟨trouble, past, ?_⟩
  rw [makeDirectories, ancestors, makeAncestors_cons _ _ text.nonempty, made]
  exact if_neg lasting

/-- Where a file cannot be read though its directory is not open, the way to the directory is barred, by
whatever path it is to be made. -/
theorem exists_barred_parent (grounded : Grounded disk) (proper : Path.IsName name)
    (proper' : Path.IsName other) (text : Nameable (Path.join root name)) (closed : ¬ Open disk root)
    (found : disk.read (Path.join root name) ≠ .error .notFound) :
    ∃ above, Path.parent? (Path.join root other) = some above ∧ Nameable above ∧ Barred disk above := by
  have nonempty : root.toList ≠ [] := by
    intro empty
    refine closed ⟨[], ?_, rfl⟩
    rw [Path.steps_eq, empty]
    rfl
  obtain ⟨above, count, parent, filled, begins, steps⟩ := Path.exists_parent_join nonempty proper'
  refine ⟨above, parent, text.of_isPrefix filled (begins.trans (Path.isPrefix_join nonempty name)), ?_⟩
  have here : disk.node? [] = some .directory := rfl
  have further : List.replicate count "." ++ [name] ≠ [] :=
    List.append_ne_nil_of_right_ne_nil _ (List.cons_ne_nil name [])
  rw [read_eq text, Path.steps_join root proper, steps, List.append_assoc,
    walk_append grounded here further] at found
  unfold Barred
  cases walked : disk.walk [] (Path.steps above) with
  | error fault =>
    rw [walked] at found
    exact fun same => found (congrArg Except.error same)
  | ok place =>
    simp only [walked] at found
    rcases there : disk.node? place with _ | contents | _
    · simp only [there, Option.isSome_none] at found
      exact absurd rfl found
    · exact ⟨contents, there⟩
    · refine absurd ⟨place, ?_, there⟩ closed
      rw [steps]
      cases count with
      | zero => rwa [List.replicate_zero, List.append_nil]
      | succ count =>
        rw [walk_append grounded here (by simp [List.replicate_succ]), walked]
        simp only [there, Option.isSome_some, if_true]
        exact walk_points there (count + 1)

theorem replaceFile_of_barred {above : String} (parent : Path.parent? path = some above)
    (text : Nameable above) (barred : Barred disk above) (contents : ByteArray) :
    ((replaceFile path contents).runOn disk).2 = disk := by
  obtain ⟨trouble, past, refused⟩ :=
    Replace.makeDirectories_of_barred Replace.Interference.none (p := ⟨disk, []⟩) text barred
  have stopped : ∀ name, ∃ e, Replace.replace Replace.Interference.none path contents name ⟨disk, []⟩ =
      (.error e, ⟨disk, past⟩) := by
    intro name
    unfold Replace.replace
    rw [parent]
    simp only
    rw [run_bind]
    simp only [Replace.within, refused]
    exact ⟨_, rfl⟩
  obtain ⟨e, stopped⟩ := stopped disk.freshName
  rw [runOn_replaceFile, runOn_alone, stopped]

/-- A path stands while another file of the directory is replaced, unless there was nothing. -/
theorem read_standing {places : Set (List String)} (grounded : Grounded disk) (proper : Path.IsName name)
    (proper' : Path.IsName other) {contents : ByteArray}
    (touches : Touches places disk ((replaceFile (Path.join root other) contents).runOn disk).2)
    (apart : aim root ++ [name] ∉ places) (found : disk.read (Path.join root name) ≠ .error .notFound) :
    ((replaceFile (Path.join root other) contents).runOn disk).2.read (Path.join root name) =
      disk.read (Path.join root name) := by
  by_cases text : Nameable (Path.join root name)
  · by_cases opened : Open disk root
    · obtain ⟨place, walked, directory⟩ := opened
      have way := way_of_walk walked
      have aims : aim root = place := way.foldl_next
      generalize ((replaceFile (Path.join root other) contents).runOn disk).2 = disk' at touches ⊢
      have onward : ∀ disk : Disk, Grounded disk → disk.walk [] (Path.steps root) = .ok place →
          disk.node? place = some .directory →
          disk.walk [] (Path.steps (Path.join root name)) = disk.walk place [name] := by
        intro disk grounded walked directory
        have here : disk.node? [] = some .directory := rfl
        rw [Path.steps_join root proper, walk_append grounded here (List.cons_ne_nil name []), walked]
        simp only [directory, Option.isSome_some, if_true]
      have named : ∀ disk : Disk, disk.node? place = some .directory → disk.walk place [name] =
          if maxNameBytes < name.utf8ByteSize then .error .nameTooLong else .ok (place ++ [name]) :=
        fun disk directory => walk_name directory ⟨proper.stays, proper.climbs⟩
      have directory' := touches.keeps place directory
      have walked' := (way.mono touches.keeps).walk_eq
      have before := (onward disk grounded walked directory).trans (named disk directory)
      have after := (onward disk' (touches.grounded grounded) walked' directory').trans (named disk' directory')
      refine read_congr (after.trans before.symm) fun q leads => ?_
      obtain rfl : place ++ [name] = q := by
        rw [before] at leads
        split_ifs at leads
        exact Except.ok.inj leads
      rcases there : disk.node? (place ++ [name]) with _ | held | _
      · rw [read_eq text, leads] at found
        simp only [there] at found
        exact absurd rfl found
      · exact (touches.files _ (aims ▸ apart) held).mpr there
      · exact touches.keeps _ there
    · obtain ⟨above, parent, text', barred⟩ := exists_barred_parent grounded proper proper' text opened found
      rw [replaceFile_of_barred parent text' barred]
  · have located := locate_of_not_nameable text disk
      ((replaceFile (Path.join root other) contents).runOn disk).2
    rw [read, read, located]
    cases same : disk.locate (Path.join root name) with
    | error fault => rfl
    | ok place => exact absurd (nameable_of_locate same) text

end Wiring.Disk
