import Wiring.Proofs.Disk.Replace
import Mathlib.Data.Set.Insert

/-! # What an operation leaves alone

An operation on a disk, whatever comes of it, keeps the directories, changes no files but those that its paths
name, and puts nothing where there is no directory. So a replacement that fails part of the way has changed
no more than the file, its lock and the temporary file.
-/
namespace Wiring.Disk

variable {disk disk' : Disk} {path root name : String} {place start steps : List String}

def Grounded (disk : Disk) : Prop :=
  ∀ place name, (disk.node? (place ++ [name])).isSome → disk.node? place = some .directory

theorem Grounded.up (grounded : Grounded disk) (directory : disk.node? place = some .directory) :
    disk.node? (up place) = some .directory := by
  unfold Disk.up
  by_cases above : isAbove place = true
  · have climbed : isAbove (place ++ [".."]) = true := by
      rw [isAbove, List.all_append, Bool.and_eq_true]
      exact ⟨above, by decide⟩
    rw [if_pos above, node?, if_pos climbed]
  · rw [if_neg above]
    rcases List.eq_nil_or_concat place with rfl | ⟨front, last, rfl⟩
    · exact absurd rfl above
    · rw [List.concat_eq_append, List.dropLast_concat]
      rw [List.concat_eq_append] at directory
      exact grounded front last (by rw [directory]; rfl)

theorem Grounded.put (grounded : Grounded disk) (directory : disk.node? place = some .directory)
    (climbs : name ≠ "..") (free : disk.node? (place ++ [name]) ≠ some .directory) (node : Node) :
    Grounded (disk.put (place ++ [name]) node) := by
  have keeps := keeps_put (isAbove_concat place climbs) free node
  intro above other there
  rw [node?_put (isAbove_concat place climbs)] at there
  by_cases same : above ++ [other] = place ++ [name]
  · rw [(List.append_inj' same rfl).1]
    exact keeps place directory
  · rw [if_neg same] at there
    exact keeps above (grounded above other there)

theorem Way.lands (way : Way disk start steps place) (grounded : Grounded disk)
    (from_ : disk.node? start = some .directory) : disk.node? place = some .directory ∨
      ∃ above name, place = above ++ [name] ∧ disk.node? above = some .directory := by
  induction way with
  | here start => exact .inl from_
  | stay _ _ _ ih => exact ih from_
  | climb from_ _ _ ih => exact ih (grounded.up from_)
  | reach from_ _ _ => exact .inr ⟨_, _, rfl, from_⟩
  | enter _ _ _ later ih => exact ih later.origin

/-- A change that keeps the directories and leaves the files except at certain places. -/
structure Touches (places : Set (List String)) (disk disk' : Disk) : Prop where
  keeps : Keeps disk disk'
  grounded : Grounded disk → Grounded disk'
  files : ∀ q, q ∉ places → ∀ contents,
    disk'.node? q = some (.file contents) ↔ disk.node? q = some (.file contents)

instance {places : Set (List String)} : IsPreorder Disk (Touches places) where
  refl _ := ⟨fun _ => id, id, fun _ _ _ => Iff.rfl⟩
  trans _ _ _ first later := ⟨first.keeps.trans later.keeps, later.grounded ∘ first.grounded,
    fun q other contents => (later.files q other contents).trans (first.files q other contents)⟩

theorem Touches.mono {places more : Set (List String)} (touches : Touches places disk disk')
    (subset : places ⊆ more) : Touches more disk disk' :=
  { touches with files := fun q other => touches.files q fun inside => other (subset inside) }

/-- What a path names may get a node, unless it is a directory. -/
theorem touches_put (way : Way disk [] (Path.steps path) place)
    (free : disk.node? place ≠ some .directory) (node : Node) :
    Touches {aim path} disk (disk.put place node) := by
  have below := not_isAbove free
  have keeps := keeps_put below free node
  refine ⟨keeps, fun grounded above name there => ?_, fun q other contents => ?_⟩
  · rw [node?_put below] at there
    by_cases same : above ++ [name] = place
    · rcases way.lands grounded rfl with directory | ⟨above', name', split, directory⟩
      · exact absurd directory free
      · rw [← same] at split
        rw [(List.append_inj' split rfl).1]
        exact keeps above' directory
    · rw [if_neg same] at there
      exact keeps above (grounded above name there)
  · have apart : q ≠ place := fun same => other (same.trans way.foldl_next.symm)
    rw [node?_put below, if_neg apart]

theorem touches_erase (way : Way disk [] (Path.steps path) place)
    (free : disk.node? place ≠ some .directory) :
    Touches {aim path} disk ⟨disk.nodes.erase place⟩ := by
  have below := not_isAbove free
  have keeps := keeps_erase below free
  refine ⟨keeps, fun grounded above name there => ?_, fun q other contents => ?_⟩
  · rw [node?_erase below] at there
    by_cases same : above ++ [name] = place
    · rw [if_pos same] at there
      cases there
    · rw [if_neg same] at there
      exact keeps above (grounded above name there)
  · have apart : q ≠ place := fun same => other (same.trans way.foldl_next.symm)
    rw [node?_erase below, if_neg apart]

/-- Such a change that makes directories at certain places only. -/
structure Changes (files made : Set (List String)) (disk disk' : Disk) : Prop extends
    Touches files disk disk' where
  made : ∀ q, disk'.node? q = some .directory → disk.node? q = some .directory ∨ q ∈ made

variable {files made : Set (List String)}

instance : IsPreorder Disk (Changes files made) where
  refl disk := ⟨refl_of (Touches files) disk, fun _ => .inl⟩
  trans _ _ _ first later := ⟨trans_of (Touches files) first.toTouches later.toTouches, fun q there =>
    (later.made q there).elim (first.made q) .inr⟩

theorem Changes.mono {more : Set (List String)} (changes : Changes files made disk disk') (subset : files ⊆ more) :
    Changes more made disk disk' :=
  ⟨changes.toTouches.mono subset, changes.made⟩

theorem changes_put (way : Way disk [] (Path.steps path) place) (free : disk.node? place ≠ some .directory)
    (inside : aim path ∈ files) (contents : ByteArray) :
    Changes files made disk (disk.put place (.file contents)) := by
  refine ⟨(touches_put way free _).mono (Set.singleton_subset_iff.mpr inside), fun q there => .inl ?_⟩
  rw [node?_put (not_isAbove free)] at there
  split_ifs at there
  · cases there
  · exact there

theorem changes_erase (way : Way disk [] (Path.steps path) place)
    (free : disk.node? place ≠ some .directory) (inside : aim path ∈ files) :
    Changes files made disk ⟨disk.nodes.erase place⟩ := by
  refine ⟨(touches_erase way free).mono (Set.singleton_subset_iff.mpr inside), fun q there => .inl ?_⟩
  rw [node?_erase (not_isAbove free)] at there
  split_ifs at there
  exact there

/-- Wherever an action starts, it ends in a related state, also when it fails. -/
def Alters {ε σ α : Type} (R : σ → σ → Prop) (x : ExceptT ε (StateM σ) α) : Prop := ∀ s, R s (x s).2

theorem Alters.of_ran {ε σ α : Type} {R : σ → σ → Prop} {x : ExceptT ε (StateM σ) α} {s t : σ}
    {r : Except ε α} (alters : Alters R x) (ran : x s = (r, t)) : R s t := by
  have moved := alters s
  rwa [ran] at moved

theorem alters_ensured {ε σ : Type} {R : σ → σ → Prop} {x : ExceptT ε (StateM σ) Unit} (alters : Alters R x)
    (there : σ → Bool) : Alters R (ensured there x) := by
  intro s
  have moved := alters s
  unfold ensured
  generalize x s = ran at moved
  obtain ⟨_ | _, t⟩ := ran <;> exact moved

section
variable {ε σ α β : Type} {R : σ → σ → Prop} [IsPreorder σ R]

theorem alters_of_keeps {x : ExceptT ε (StateM σ) α} (keeps : ∀ s, (x s).2 = s) : Alters R x := by
  intro s
  rw [keeps s]
  exact refl_of R s

theorem Alters.bind {x : ExceptT ε (StateM σ) α} {f : α → ExceptT ε (StateM σ) β} (first : Alters R x)
    (later : ∀ a, Alters R (f a)) : Alters R (x >>= f) := by
  intro s
  have moved := first s
  rw [run_bind]
  generalize x s = ran at moved
  obtain ⟨_ | a, t⟩ := ran
  · exact moved
  · exact trans_of R moved (later a t)

theorem alters_makeAncestors [DecidableEq ε] {missing : ε} {make : Bool → String → ExceptT ε (StateM σ) Unit}
    {paths : List String} (alters : ∀ path ∈ paths, ∀ again, Alters R (make again path)) :
    Alters R (makeAncestors missing make paths) := by
  induction paths with
  | nil => exact alters_of_keeps fun _ => rfl
  | cons path above ih =>
    obtain ⟨own, later⟩ := List.forall_mem_cons.mp alters
    by_cases empty : path.toList = []
    · rw [makeAncestors, if_pos empty]
      exact alters_of_keeps fun _ => rfl
    · intro s
      have more : Alters R (do makeAncestors missing make above; make true path) :=
        (ih later).bind fun _ => own true
      have first := own false s
      rw [makeAncestors_cons _ _ empty]
      generalize make false path s = ended at first
      obtain ⟨e | _, t⟩ := ended
      · by_cases misses : e = missing
        · simp only [misses, if_true]
          exact trans_of R first (more t)
        · simp only [misses, if_false]
          exact first
      · exact first

end

theorem alters_makeDirectory (inside : aim path ∈ made) : Alters (Changes files made) (makeDirectory path) := by
  intro disk
  rw [makeDirectory_eq]
  cases located : disk.locate path with
  | error fault => exact refl_of _ disk
  | ok place =>
    simp only
    cases there : disk.node? place with
    | some node => exact refl_of _ disk
    | none =>
      have free : disk.node? place ≠ some .directory := by rw [there]; exact nofun
      have touches := touches_put (way_of_locate located) free .directory
      have put : ∀ q, (disk.put place .directory).node? q = _ := node?_put (not_isAbove free) disk .directory
      refine ⟨⟨touches.keeps, touches.grounded, fun q _ contents => ?_⟩, fun q held => ?_⟩
      · change (disk.put place .directory).node? q = _ ↔ _
        rw [put]
        by_cases same : q = place
        · rw [if_pos same, same, there]
          exact ⟨nofun, nofun⟩
        · rw [if_neg same]
      · change (disk.put place .directory).node? q = _ at held
        rw [put] at held
        by_cases same : q = place
        · exact .inr ((same.trans (aim_of_locate located).symm) ▸ inside)
        · rw [if_neg same] at held
          exact .inl held

theorem alters_openFile {R : Disk → Disk → Prop} [IsPreorder Disk R] {α : Type}
    {f : List String × Option ByteArray → Op α}
    (later : ∀ opened : List String × Option ByteArray, disk.locate path = .ok opened.1 →
      disk.node? opened.1 = opened.2.map .file → R disk (f opened disk).2) :
    R disk ((openFile path >>= f) disk).2 := by
  rw [run_bind]
  cases ran : openFile path disk with
  | mk outcome disk' =>
    cases outcome with
    | error fault =>
      obtain rfl : disk = disk' := (Prod.mk.inj ((openFile_eq path disk).symm.trans ran)).2
      exact refl_of R disk
    | ok opened =>
      obtain ⟨rfl, aims, located, there, -⟩ := openFile_ok ran
      rw [← aims] at located there
      exact later opened located there

theorem alters_touch (inside : aim path ∈ files) : Alters (Changes files made) (touch path) := by
  intro disk
  refine alters_openFile ?_
  rintro ⟨place, found⟩ located there
  cases found with
  | none => exact changes_put (way_of_locate located) (free_of_map there) inside _
  | some contents => exact refl_of _ disk

theorem alters_write (inside : aim path ∈ files) (contents : ByteArray) :
    Alters (Changes files made) (write path contents) := by
  intro disk
  refine alters_openFile ?_
  rintro ⟨place, found⟩ located there
  exact changes_put (way_of_locate located) (free_of_map there) inside _

theorem alters_removeFile (inside : aim path ∈ files) : Alters (Changes files made) (removeFile path) := by
  intro disk
  refine alters_openFile ?_
  rintro ⟨place, found⟩ located there
  cases found with
  | none => exact refl_of _ disk
  | some contents => exact changes_erase (way_of_locate located) (free_of_map there) inside

theorem alters_rename {source : String} (inside : aim source ∈ files) (inside' : aim path ∈ files) :
    Alters (Changes files made) (rename source path) := by
  intro disk
  refine alters_openFile ?_
  rintro ⟨place, found⟩ located there
  cases found with
  | none => exact refl_of _ disk
  | some contents =>
    refine alters_openFile ?_
    rintro ⟨place', found'⟩ located' there'
    have erased : Changes files made disk ⟨disk.nodes.erase place⟩ :=
      changes_erase (way_of_locate located) (free_of_map there) inside
    have free : (Disk.mk (disk.nodes.erase place)).node? place' ≠ some .directory := by
      rw [node?_erase (not_isAbove (free_of_map there))]
      split_ifs
      · exact nofun
      · exact free_of_map there'
    exact trans_of _ erased (changes_put ((way_of_locate located').mono erased.keeps) free inside' contents)

namespace Replace

/-- Part of a replacement goes along a relation: it relates the disk before to the one after and to all on the
way. -/
def Progress.Along (R : Disk → Disk → Prop) (p p' : Progress) : Prop :=
  R p.disk p'.disk ∧ ∃ way, p'.past = way ++ p.past ∧ ∀ disk ∈ way, R p.disk disk

theorem Progress.Along.mono {R R' : Disk → Disk → Prop} {p p' : Progress} (along : Progress.Along R p p')
    (weaker : ∀ {disk disk'}, R disk disk' → R' disk disk') : Progress.Along R' p p' := by
  obtain ⟨moved, way, passed, inside⟩ := along
  exact ⟨weaker moved, way, passed, fun disk member => weaker (inside disk member)⟩

theorem alters_within {R : Disk → Disk → Prop} {context : String} {x : Work Unit}
    (alters : Alters (Progress.Along R) x) : Alters (Progress.Along R) (within context x) := by
  intro p
  have moved := alters p
  unfold within
  generalize x p = ended at moved ⊢
  obtain ⟨_ | _, p'⟩ := ended <;> exact moved

section
variable {R : Disk → Disk → Prop} [IsPreorder Disk R] {temporary path : String}

instance : IsPreorder Progress (Progress.Along R) where
  refl p := ⟨refl_of R p.disk, [], rfl, nofun⟩
  trans p p' p'' first later := by
    obtain ⟨moved, way, passed, inside⟩ := first
    obtain ⟨moved', way', passed', inside'⟩ := later
    refine ⟨trans_of R moved moved', way' ++ way, ?_, fun disk member => ?_⟩
    · rw [passed', passed, List.append_assoc]
    · rcases List.mem_append.mp member with member | member
      · exact trans_of R moved (inside' disk member)
      · exact inside disk member

theorem Progress.along_operate {p : Progress} {disk : Disk} (moved : R p.disk disk) :
    Progress.Along R p ⟨disk, p.disk :: p.past⟩ :=
  ⟨moved, [p.disk], rfl, List.forall_mem_singleton.mpr (refl_of R p.disk)⟩

theorem alters_operate {op : Op Unit} (alters : Alters R op) : Alters (Progress.Along R) (operate op) := by
  intro p
  rw [operate_eq]
  exact Progress.along_operate (alters p.disk)

variable (interference : Interference)

theorem alters_stage (s : Stage) {op : Op Unit} (alters : Alters R op) :
    Alters (Progress.Along R) (stage interference s op) := by
  cases fails : interference.fails s with
  | some cause => exact alters_of_keeps fun p => by rw [stage_of_fails fails]
  | none =>
    rw [stage_of_none fails]
    exact alters_operate alters

theorem alters_fill (writes : ∀ contents, Alters R (Disk.write temporary contents)) (contents : ByteArray) :
    Alters (Progress.Along R) (fill interference temporary contents) := by
  have wrote : Alters (Progress.Along R) (writeStage interference temporary contents) :=
    (alters_operate (writes _)).bind fun _ => alters_stage interference .write (writes contents)
  refine (alters_stage interference .create (writes _)).bind fun _ => wrote.bind fun _ => ?_
  exact alters_stage interference .sync (alters_of_keeps fun _ => rfl)

theorem alters_move (writes : ∀ contents, Alters R (Disk.write temporary contents))
    (rename : Alters R (Disk.rename temporary path)) (contents : ByteArray) :
    Alters (Progress.Along R) (move interference temporary path contents) :=
  (alters_fill interference writes contents).bind fun _ => alters_stage interference .rename rename

theorem alters_cleaned (remove : Alters R (Disk.removeFile temporary)) {x : Work Unit}
    (alters : Alters (Progress.Along R) x) : Alters (Progress.Along R) (cleaned interference temporary x) := by
  intro p
  have moved := alters p
  unfold cleaned
  generalize x p = ended at moved
  obtain ⟨trouble | _, p'⟩ := ended
  · exact trans_of _ moved (alters_stage interference .remove remove p')
  · exact moved

theorem alters_lock (touch : Alters R (Disk.touch (lockPath path))) :
    Alters (Progress.Along R) (lock interference path) := by
  refine (alters_within (alters_stage interference .openLock touch)).bind fun _ => ?_
  exact alters_within (alters_stage interference .takeLock (alters_of_keeps fun _ => rfl))

end

variable (interference : Interference)

def upward (path : String) : Set (List String) := {q | ∃ above ∈ Path.ancestors path, aim above = q}

theorem alters_makeDirectories (path : String) :
    Alters (Progress.Along (Changes files (upward path))) (makeDirectories interference path) := by
  refine alters_makeAncestors fun above member again => alters_ensured (alters_stage interference _ ?_) _
  exact alters_makeDirectory ⟨above, member, rfl⟩

/-- A replacement changes the file, its lock and the temporary file, and makes the directories, wherever it
stops and whatever fails from outside. -/
theorem alters_replace {path above : String} (parent : Path.parent? path = some above)
    (contents : ByteArray) (name : String) :
    Alters (Progress.Along (Changes {aim path, aim (lockPath path), aim (Path.join above name)} (upward above)))
      (replace interference path contents name) := by
  unfold replace
  rw [parent]
  refine (alters_within (alters_makeDirectories interference above)).bind fun _ =>
    (alters_lock interference (alters_touch (by simp))).bind fun _ => ?_
  exact alters_within (alters_cleaned interference (alters_removeFile (by simp))
    (alters_move interference (alters_write (by simp)) (alters_rename (by simp) (by simp)) contents))

end Replace

theorem alters_alone {R : Disk → Disk → Prop} {α : Type} {x : Act Replace.Progress α}
    (alters : Alters (Replace.Progress.Along R) x) : Alters R (alone x) := by
  intro disk
  have moved := alters ⟨disk, []⟩
  unfold alone
  generalize x ⟨disk, []⟩ = ended at moved ⊢
  exact moved.1

theorem exists_parent_aim (root : String) (proper : Path.IsName name) :
    ∃ above, Path.parent? (Path.join root name) = some above ∧ aim above = aim root := by
  by_cases empty : root.toList = []
  · refine ⟨"", ?_, ?_⟩
    · rw [Path.join_of_empty empty]
      exact Path.parent?_name proper
    · rw [aim, aim, Path.steps_eq root, empty]
      rfl
  · obtain ⟨above, count, parent, -, -, steps⟩ := Path.exists_parent_join empty proper
    have points : ∀ count place, (List.replicate count ".").foldl next place = place := by
      intro count place
      induction count with
      | zero => rfl
      | succ count ih => rw [List.replicate_succ, List.foldl_cons, next, if_pos rfl, ih]
    refine ⟨above, parent, ?_⟩
    rw [aim, aim, steps, List.foldl_append, points]

theorem lockPath_join (root name : String) :
    Replace.lockPath (Path.join root name) = Path.join root (Replace.lockPath name) := by
  by_cases empty : root.toList = []
  · rw [Path.join_of_empty empty, Path.join_of_empty empty]
  · exact Path.join_append empty _ _

/-- Replacing a file of a directory, whatever comes of it, touches the file, its lock and a temporary file of
the directory. -/
theorem touches_replaceFile (root : String) (proper : Path.IsName name)
    (locked : Path.IsName (Replace.lockPath name)) (temp : ∀ n, Path.IsName (temporaryName n))
    (contents : ByteArray) (disk : Disk) :
    ∃ n, Touches {aim root ++ [name], aim root ++ [Replace.lockPath name],
        aim root ++ [temporaryName n]} disk
      ((replaceFile (Path.join root name) contents).runOn disk).2 := by
  obtain ⟨n, name_eq⟩ : ∃ n, disk.freshName = temporaryName n := ⟨_, rfl⟩
  obtain ⟨above, parent, beside⟩ := exists_parent_aim root proper
  have moved := alters_alone (Replace.alters_replace Replace.Interference.none parent contents
    (temporaryName n)) disk
  rw [lockPath_join, aim_join root proper, aim_join root locked, aim_join above (temp n), beside] at moved
  refine ⟨n, ?_⟩
  rw [runOn_replaceFile, name_eq]
  exact moved.toTouches

/-- Steps that go up only from directories that are there; the others may be missing. -/
def Firm (disk : Disk) : List String → List String → Prop
  | _, [] => True
  | start, step :: rest =>
    (step = ".." → disk.node? start = some .directory) ∧ Firm disk (next start step) rest

theorem Firm.mono (firm : Firm disk start steps) (keeps : Keeps disk disk') : Firm disk' start steps := by
  induction steps generalizing start with
  | nil => trivial
  | cons step rest ih => exact ⟨fun climbs => keeps _ (firm.1 climbs), ih firm.2⟩

theorem firm_of_forall_ne (disk : Disk) (start : List String) (stays : ∀ step ∈ steps, step ≠ "..") :
    Firm disk start steps := by
  induction steps generalizing start with
  | nil => trivial
  | cons step rest ih =>
    obtain ⟨first, later⟩ := List.forall_mem_cons.mp stays
    exact ⟨fun climbs => absurd climbs first, ih _ later⟩

theorem Way.back (way : Way disk' start steps place) (grounded : Grounded disk)
    (firm : Firm disk start steps) (directory : disk.node? place = some .directory) :
    Way disk start steps place ∧ disk.node? start = some .directory := by
  induction way with
  | here start => exact ⟨.here start, directory⟩
  | stay _ point _ ih =>
    have firm' := firm.2
    rw [next, if_pos point] at firm'
    obtain ⟨later, from_⟩ := ih firm' directory
    exact ⟨.stay from_ point later, from_⟩
  | climb _ points _ ih =>
    have firm' := firm.2
    rw [next, points, if_neg (by decide), if_pos rfl] at firm'
    have from_ := firm.1 points
    exact ⟨.climb from_ points (ih firm' directory).1, from_⟩
  | @reach start step _ named short =>
    have from_ := grounded start step (by rw [directory]; rfl)
    exact ⟨.reach from_ named short, from_⟩
  | @enter start step _ _ _ _ named short _ ih =>
    have firm' := firm.2
    rw [next, if_neg named.1, if_neg named.2] at firm'
    obtain ⟨later, there⟩ := ih firm' directory
    have from_ := grounded start step (by rw [there]; rfl)
    exact ⟨.enter from_ named short later, from_⟩

theorem read_back {places : Set (List String)} (grounded : Grounded disk)
    (firm : Firm disk [] (Path.steps root)) (touches : Touches places disk disk')
    (proper : Path.IsName name) (apart : aim root ++ [name] ∉ places) {contents : ByteArray}
    (read : disk'.read (Path.join root name) = .ok contents) :
    disk.read (Path.join root name) = .ok contents := by
  obtain ⟨place, located, held'⟩ := read_eq_ok_iff.mp read
  obtain rfl : aim root ++ [name] = place := (aim_join root proper).symm.trans (aim_of_locate located)
  have held := (touches.files _ apart contents).mp held'
  have directory := grounded _ name (by rw [held]; rfl)
  have whole := way_of_locate located
  rw [Path.steps_join root proper] at whole
  obtain ⟨above, way', there, same⟩ := whole.of_name ⟨proper.stays, proper.climbs⟩
  obtain rfl : aim root = above := List.append_cancel_right same
  have way := (way'.back grounded firm directory).1
  have text := nameable_of_locate located
  have walked : disk.walk [] (Path.steps (Path.join root name)) = .ok (aim root ++ [name]) := by
    rw [way.walk_join directory proper, ← way'.walk_join there proper]
    exact walk_of_locate located
  refine read_eq_ok_iff.mpr ⟨_, ?_, held⟩
  rw [locate_eq text, walked]
  simp only [held, if_neg (Path.getLast?_join root proper)]

end Wiring.Disk
