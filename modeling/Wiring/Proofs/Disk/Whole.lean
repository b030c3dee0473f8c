import Wiring.Proofs.Disk.Standing

/-! # Files are replaced whole

At every moment of a replacement the file holds what it held before or the new contents, wherever the
replacement stops and whatever fails from outside. The move into place is its last step, so one that fails has
not made it. If nothing fails from outside and nothing is in the way, it goes well.
-/
namespace Wiring.Disk

variable {disk disk' : Disk} {path temporary : String} {place : List String} {contents : ByteArray}

/-- The contents of the file at a place, if there is one. -/
def bytes? (disk : Disk) (place : List String) : Option ByteArray :=
  match disk.node? place with
  | some (.file contents) => some contents
  | _ => none

theorem bytes?_eq_some : disk.bytes? place = some contents ↔ disk.node? place = some (.file contents) := by
  unfold bytes?
  rcases disk.node? place with _ | _ | _ <;> simp

theorem bytes?_of_node (absent : disk.node? place = none) : disk.bytes? place = none := by
  rw [bytes?, absent]

theorem Touches.bytes? {places : Set (List String)} (touches : Touches places disk disk')
    (outside : place ∉ places) : disk'.bytes? place = disk.bytes? place := by
  apply Option.ext
  intro contents
  rw [bytes?_eq_some, bytes?_eq_some]
  exact touches.files place outside contents

theorem Free.read (free : Free disk path) (keeps : Keeps disk disk')
    (held : disk'.node? (aim path) = some (.file contents)) : disk'.read path = .ok contents := by
  have walked := ((way_of_locate free.located).mono keeps).walk_eq
  rw [read_eq (nameable_of_locate free.located), walked]
  simp only [held, if_neg free.whole]

theorem Free.openFile_eq (free : Free disk path) : ∃ found,
    openFile path disk = (.ok (aim path, found), disk) ∧ disk.node? (aim path) = found.map .file := by
  rw [Disk.openFile_eq, free.located]
  rcases there : disk.node? (aim path) with _ | contents | _
  · exact ⟨none, by simp only [there, if_neg free.whole], rfl⟩
  · exact ⟨some contents, by simp only [there], rfl⟩
  · exact absurd there free.free

theorem Free.write_eq (free : Free disk path) (contents : ByteArray) :
    write path contents disk = (.ok (), disk.put (aim path) (.file contents)) := by
  obtain ⟨found, opened, -⟩ := free.openFile_eq
  unfold write
  rw [run_bind, opened]
  rfl

theorem Free.touch_eq (free : Free disk path) : ∃ disk', touch path disk = (.ok (), disk') := by
  obtain ⟨found, opened, -⟩ := free.openFile_eq
  unfold touch
  rw [run_bind, opened]
  cases found with
  | none => exact ⟨_, rfl⟩
  | some contents => exact ⟨_, rfl⟩

theorem Free.rename_eq {source : String} (free : Free disk path) (from_ : Free disk source)
    (held : disk.node? (aim source) = some (.file contents)) : ∃ disk', rename source path disk = (.ok (), disk') := by
  obtain ⟨found, opened, there⟩ := from_.openFile_eq
  obtain ⟨found', opened', -⟩ := free.openFile_eq
  unfold rename
  rw [run_bind, opened]
  cases found with
  | none => cases there.symm.trans held
  | some contents =>
    simp only
    rw [run_bind, opened']
    exact ⟨_, rfl⟩

theorem Free.mono {files : Set (List String)} (free : Free disk path) (changes : Changes files ∅ disk disk') :
    Free disk' path where
  located := locate_mono free.located changes.keeps fun _ _ => free.whole
  free directory := (changes.made _ directory).elim free.free (Set.notMem_empty _)
  whole := free.whole

theorem Free.put (free : Free disk path) (contents : ByteArray) :
    Free (disk.put (aim path) (.file contents)) path := by
  have changes : Changes {aim path} ∅ disk (disk.put (aim path) (.file contents)) :=
    changes_put (way_of_locate free.located) free.free (Set.mem_singleton _) contents
  exact free.mono changes

theorem rename_error {source : String} {fault : Fault} (ran : rename source path disk = (.error fault, disk')) :
    disk' = disk := by
  have opens : ∀ path, ∃ outcome, openFile path disk = (outcome, disk) := fun path => ⟨_, openFile_eq path disk⟩
  obtain ⟨outcome, opened⟩ := opens source
  obtain ⟨outcome', opened'⟩ := opens path
  unfold rename at ran
  rw [run_bind, opened] at ran
  rcases outcome with fault' | ⟨place, _ | contents⟩
  · cases ran
    rfl
  · cases ran
    rfl
  · simp only at ran
    rw [run_bind, opened'] at ran
    cases outcome' with
    | error fault' =>
      cases ran
      rfl
    | ok opened => cases ran

theorem removeFile_eq (located : disk.locate path = .ok place) (held : disk.node? place = some (.file contents)) :
    removeFile path disk = (.ok (), ⟨disk.nodes.erase place⟩) := by
  unfold removeFile
  rw [run_bind, openFile_eq, located]
  simp only [held]
  rfl

/-- If a file is where a path aims, the path leads there. -/
def Found (path : String) (disk : Disk) : Prop :=
  ∀ contents, disk.node? (aim path) = some (.file contents) → disk.locate path = .ok (aim path)

/-- What a change does not break. -/
def Stays (P : Disk → Prop) (disk disk' : Disk) : Prop := P disk → P disk'

instance {P : Disk → Prop} : IsPreorder Disk (Stays P) where
  refl _ := id
  trans _ _ _ first later := later ∘ first

theorem stays_write (whole : path.toList.getLast? ≠ some '/') (contents : ByteArray) :
    Alters (Stays (Found path)) (write path contents) := by
  intro disk
  refine alters_openFile ?_
  rintro ⟨place, found⟩ located there _ _ _
  have free := free_of_map there
  have aims := aim_of_locate located
  rw [aims]
  exact locate_mono located (keeps_put (not_isAbove free) free _) fun _ _ => whole

theorem stays_removeFile (path : String) :
    Alters (Stays fun disk => disk.bytes? (aim path) = none) (removeFile path) := by
  intro disk
  refine alters_openFile ?_
  rintro ⟨place, found⟩ located there absent
  cases found with
  | none => exact absent
  | some contents =>
    rw [← aim_of_locate located] at there
    exact absurd (absent.symm.trans (bytes?_eq_some.mpr there)) nofun

theorem bytes?_removeFile (found : Found path disk) : (removeFile path disk).2.bytes? (aim path) = none := by
  cases held : disk.bytes? (aim path) with
  | none => exact stays_removeFile path disk held
  | some contents =>
    have there := bytes?_eq_some.mp held
    have below := not_isAbove (show disk.node? (aim path) ≠ some .directory by rw [there]; exact nofun)
    rw [removeFile_eq (found contents there) there]
    exact bytes?_of_node (by rw [node?_erase below, if_pos rfl])

namespace Replace

variable {interference : Interference} {context : String} {p p' : Progress} {trouble : Trouble}
  {R : Disk → Disk → Prop} [IsPreorder Disk R]

theorem within_error {x : Work Unit} {e : Error} (ran : within context x p = (.error e, p')) :
    ∃ trouble, x p = (.error trouble, p') := by
  unfold within at ran
  generalize x p = ended at ran
  obtain ⟨trouble | _, q⟩ := ended
  · cases ran
    exact ⟨trouble, rfl⟩
  · cases ran

theorem cleaned_error {x : Work Unit} (ran : cleaned interference temporary x p = (.error trouble, p')) :
    ∃ q, x p = (.error trouble, q) ∧ p' = (stage interference .remove (removeFile temporary) q).2 := by
  unfold cleaned at ran
  generalize x p = ended at ran
  obtain ⟨trouble' | _, q⟩ := ended
  · cases ran
    exact ⟨q, rfl, rfl⟩
  · cases ran

theorem along_of_stage_error {s : Stage} {op : Op Unit} (ran : stage interference s op p = (.error trouble, p'))
    (idle : ∀ {fault disk'}, op p.disk = (.error fault, disk') → disk' = p.disk) : Progress.Along R p p' := by
  cases fails : interference.fails s with
  | some cause =>
    rw [stage_of_fails fails] at ran
    cases ran
    exact refl_of _ p
  | none =>
    rw [stage_of_none fails, operate_eq] at ran
    cases ended : op p.disk with
    | mk outcome disk' =>
      rw [ended] at ran
      cases outcome with
      | ok _ => cases ran
      | error fault =>
        cases ran
        rw [idle ended]
        exact Progress.along_operate (refl_of R p.disk)

theorem move_error (writes : ∀ contents, Alters R (Disk.write temporary contents))
    (ran : move interference temporary path contents p = (.error trouble, p')) : Progress.Along R p p' := by
  have along := alters_fill interference writes contents p
  rcases fails_bind.mp ran with failed | ⟨_, q, filled, failed⟩
  · rwa [failed] at along
  · rw [filled] at along
    exact trans_of _ along (along_of_stage_error failed rename_error)

theorem gone_of_cleaned {x : Work Unit} (ran : cleaned interference temporary x p = (.error trouble, p'))
    (found : ∀ q, x p = (.error trouble, q) → Found temporary q.disk)
    (removes : interference.fails .remove = none) : p'.disk.bytes? (aim temporary) = none := by
  obtain ⟨q, failed, rfl⟩ := cleaned_error ran
  rw [stage_of_none removes, operate_eq]
  exact bytes?_removeFile (found q failed)

/-- How a replacement fails: without having changed the file, and without a temporary file unless its removal
fails too. -/
theorem replace_error {above name : String} {e : Error} (parent : Path.parent? path = some above)
    (proper : Path.IsName name) (fresh : p.disk.bytes? (aim (Path.join above name)) = none)
    (apart : aim (Path.join above name) ≠ aim (lockPath path))
    (ran : replace interference path contents name p = (.error e, p')) :
    Progress.Along (Changes {aim (lockPath path), aim (Path.join above name)} (upward above)) p p' ∧
      (interference.fails .remove = none → p'.disk.bytes? (aim (Path.join above name)) = none) := by
  generalize temp_eq : Path.join above name = temporary at *
  have whole : temporary.toList.getLast? ≠ some '/' := temp_eq ▸ Path.getLast?_join above proper
  -- until the temporary file is made nothing but the directories and the lock changes
  have early : ∀ {q : Progress}, Progress.Along (Changes {aim (lockPath path)} (upward above)) p q →
      Progress.Along (Changes {aim (lockPath path), aim temporary} (upward above)) p q ∧
        q.disk.bytes? (aim temporary) = none := fun along =>
    ⟨along.mono (·.mono (by simp)), (along.1.toTouches.bytes? (by simpa using apart)).trans fresh⟩
  have directories : Alters (Progress.Along (Changes {aim (lockPath path)} (upward above)))
      (makeDirectories interference above) := alters_makeDirectories interference above
  have locks : Alters (Progress.Along (Changes {aim (lockPath path)} (upward above))) (lock interference path) :=
    alters_lock interference (alters_touch rfl)
  unfold replace at ran
  simp only [parent, temp_eq] at ran
  rcases fails_bind.mp ran with failed | ⟨_, p₁, made, ran⟩
  · obtain ⟨along, gone⟩ := early ((alters_within directories).of_ran failed)
    exact ⟨along, fun _ => gone⟩
  rcases fails_bind.mp ran with failed | ⟨_, p₂, locked, ran⟩
  · obtain ⟨along, gone⟩ := early (trans_of _ ((alters_within directories).of_ran made) (locks.of_ran failed))
    exact ⟨along, fun _ => gone⟩
  obtain ⟨along, gone⟩ := early (trans_of _ ((alters_within directories).of_ran made) (locks.of_ran locked))
  obtain ⟨trouble, failed⟩ := within_error ran
  refine ⟨trans_of _ along ?_, gone_of_cleaned failed fun q moved => ?_⟩
  · obtain ⟨q, moved, rfl⟩ := cleaned_error failed
    exact trans_of _ (move_error (alters_write (by simp)) moved)
      (alters_stage interference .remove (alters_removeFile (by simp)) q)
  · refine (move_error (stays_write whole) moved).1 fun contents held => ?_
    exact absurd (gone.symm.trans (bytes?_eq_some.mpr held)) nofun

/-- A replacement that goes well changes the file in its last step. -/
theorem replace_done {above name : String} {u : Unit} (parent : Path.parent? path = some above)
    (apart : aim (Path.join above name) ≠ aim path)
    (ran : replace interference path contents name p = (.ok u, p')) : ∃ q,
      Progress.Along (Changes {aim (lockPath path), aim (Path.join above name)} (upward above)) p q ∧
      p'.past = q.disk :: q.past ∧ p'.disk.read path = .ok contents ∧
      p'.disk.node? (aim path) = some (.file contents) ∧ p'.disk.node? (aim (Path.join above name)) = none := by
  generalize temp_eq : Path.join above name = temporary at *
  obtain ⟨p₁, p₂, p₃, q, made, opened, taken, filled, renamed⟩ := replace_ok parent ran
  rw [temp_eq] at filled renamed
  have start : Progress.Along (Changes {aim (lockPath path), aim temporary} (upward above)) p p₂ :=
    trans_of _ ((alters_makeDirectories interference above).of_ran made)
      ((alters_stage interference .openLock (alters_touch (by simp))).of_ran opened)
  have written : Progress.Along (Changes {aim (lockPath path), aim temporary} (upward above)) p₂ q :=
    trans_of _ ((alters_stage interference .takeLock (alters_of_keeps fun _ => rfl)).of_ran taken)
      ((alters_fill interference (alters_write (by simp)) contents).of_ran filled)
  obtain ⟨moves, past⟩ := stage_ok renamed
  obtain ⟨-, -, holds⟩ := fill_ok filled
  obtain ⟨free, keeps, moved⟩ := rename_filled holds moves
  have there : p'.disk.node? (aim path) = some (.file contents) := by rw [moved, if_pos rfl]
  refine ⟨q, trans_of _ start written, past, free.read keeps there, there, ?_⟩
  rw [moved, if_neg apart, if_pos rfl]

theorem within_of_ok {x : Work Unit} (went : x p = (.ok (), p')) : within context x p = (.ok (), p') := by
  unfold within
  rw [went]

section
variable (clear : ∀ s, interference.fails s = none)
include clear

theorem stage_of_clear {op : Op Unit} (s : Stage) (went : op p.disk = (.ok (), disk)) :
    stage interference s op p = (.ok (), ⟨disk, p.disk :: p.past⟩) := by
  rw [stage_of_none (clear s), operate_eq, went]
  rfl

theorem fill_of_clear (free : Free p.disk temporary) (contents : ByteArray) :
    ∃ q, fill interference temporary contents p = (.ok (), q) := by
  have once := free.put ByteArray.empty
  have twice := once.put (contents.extract 0 interference.written)
  have created := stage_of_clear clear .create (free.write_eq ByteArray.empty)
  generalize p.disk.put (aim temporary) (.file ByteArray.empty) = disk₁ at *
  have begun := once.write_eq (contents.extract 0 interference.written)
  generalize disk₁.put (aim temporary) (.file (contents.extract 0 interference.written)) = disk₂ at *
  have started : operate (write temporary (contents.extract 0 interference.written)) ⟨disk₁, p.disk :: p.past⟩ =
      (.ok (), ⟨disk₂, disk₁ :: p.disk :: p.past⟩) := by
    rw [operate_eq, begun]
    rfl
  have finished := stage_of_clear clear (p := ⟨disk₂, disk₁ :: p.disk :: p.past⟩) .write (twice.write_eq contents)
  have wrote : writeStage interference temporary contents ⟨disk₁, p.disk :: p.past⟩ = _ :=
    runs_bind.mpr ⟨(), _, started, finished⟩
  exact ⟨_, runs_bind.mpr ⟨(), _, created, runs_bind.mpr ⟨(), _, wrote, stage_of_clear clear .sync rfl⟩⟩⟩

/-- A replacement goes well if nothing fails from outside, the directory is there, and the paths of the file, of
its lock and of the temporary file lead to no directories. -/
theorem replace_of_clear {above name : String} (parent : Path.parent? path = some above)
    (leads : Leads p.disk above place) (file : Free p.disk path) (lock : Free p.disk (lockPath path))
    (temp : Free p.disk (Path.join above name)) (contents : ByteArray) :
    ∃ q, replace interference path contents name p = (.ok (), q) := by
  obtain ⟨past, made⟩ := makeDirectories_of_leads interference leads
  obtain ⟨disk₁, touched⟩ := lock.touch_eq
  have opened := stage_of_clear clear (p := ⟨p.disk, past⟩) .openLock touched
  have taken : stage interference .takeLock (pure ()) ⟨disk₁, p.disk :: past⟩ =
      (.ok (), ⟨disk₁, disk₁ :: p.disk :: past⟩) := stage_of_clear clear .takeLock rfl
  have changes : Changes {aim (lockPath path)} ∅ p.disk disk₁ := (alters_touch (Set.mem_singleton _)).of_ran touched
  obtain ⟨q, filled⟩ := fill_of_clear clear (p := ⟨disk₁, disk₁ :: p.disk :: past⟩) (temp.mono changes) contents
  obtain ⟨-, -, holds⟩ := fill_ok filled
  have changes' : Changes {aim (Path.join above name)} ∅ disk₁ q.disk :=
    ((alters_fill interference (alters_write (Set.mem_singleton _)) contents).of_ran filled).1
  have held : q.disk.node? (aim (Path.join above name)) = some (.file contents) := by rw [holds, if_pos rfl]
  obtain ⟨disk₂, renamed⟩ := ((file.mono changes).mono changes').rename_eq ((temp.mono changes).mono changes') held
  have moved : move interference (Path.join above name) path contents ⟨disk₁, disk₁ :: p.disk :: past⟩ = _ :=
    runs_bind.mpr ⟨(), q, filled, stage_of_clear clear .rename renamed⟩
  have done : within ("Failed to write " ++ path) (cleaned interference (Path.join above name)
      (move interference (Path.join above name) path contents)) ⟨disk₁, disk₁ :: p.disk :: past⟩ =
        (.ok (), ⟨disk₂, q.disk :: q.past⟩) := by
    unfold within cleaned
    rw [moved]
  unfold replace
  simp only [parent]
  refine ⟨_, runs_bind.mpr ⟨(), _, within_of_ok made, runs_bind.mpr ⟨(), _, ?_, done⟩⟩⟩
  exact runs_bind.mpr ⟨(), _, within_of_ok opened, within_of_ok taken⟩

end

/-- The place of a temporary file of a name, beside the file of a path. -/
def besides (path name : String) : List String := aim (Path.join ((Path.parent? path).getD "") name)

/-- A name for the temporary file is fresh: no file has its place, and it is neither that of the file nor that
of the lock. -/
structure Fresh (disk : Disk) (path name : String) : Prop where
  proper : Path.IsName name
  free : disk.bytes? (besides path name) = none
  apart : besides path name ≠ aim path
  unlocked : besides path name ≠ aim (lockPath path)

/-- How a replacement ends, and what is on the disk at each moment: the file is as before or whole, no other
file is touched but the lock and the temporary file, and no directories are made but those above the file. -/
structure AllOrNothing (interference : Interference) (path : String) (contents : ByteArray) (name : String)
    (disk : Disk) (outcome : Except Error Unit) (p : Progress) : Prop where
  moments : ∀ moment ∈ p.disk :: p.past,
    moment.bytes? (aim path) = disk.bytes? (aim path) ∨ moment.bytes? (aim path) = some contents
  failed : ∀ e, outcome = .error e → p.disk.bytes? (aim path) = disk.bytes? (aim path) ∧
    (interference.fails .remove = none → p.disk.bytes? (besides path name) = none)
  done : outcome = .ok () → p.disk.read path = .ok contents ∧
    p.disk.bytes? (aim path) = some contents ∧ p.disk.bytes? (besides path name) = none
  files : ∀ moment ∈ p.disk :: p.past, ∀ place,
    place ≠ aim path → place ≠ aim (lockPath path) → place ≠ besides path name →
    moment.bytes? place = disk.bytes? place
  kept : ∀ moment ∈ p.disk :: p.past, ∀ place,
    disk.node? place = some .directory → moment.node? place = some .directory
  made : ∀ moment ∈ p.disk :: p.past, ∀ place, moment.node? place = some .directory →
    disk.node? place = some .directory ∨ ∃ above, Path.parent? path = some above ∧ place ∈ upward above

theorem aim_lockPath_ne (path : String) : aim (lockPath path) ≠ aim path := by
  have whole : '/' ∉ ".lock".toList := by decide
  obtain ⟨front, last, own, longer⟩ := Path.split_append_of_not_mem whole path.toList
  have long : (String.ofList (last ++ ".lock".toList)).toList.length = last.length + 5 := by
    rw [String.toList_ofList, List.length_append]
    rfl
  have named : ∀ name : String, name.toList.length < 5 → String.ofList (last ++ ".lock".toList) ≠ name := by
    rintro name short rfl
    omega
  have lock : aim (lockPath path) =
      (Path.stepsOf front).foldl next [] ++ [String.ofList (last ++ ".lock".toList)] := by
    rw [aim, Path.steps_eq, lockPath, String.toList_append, longer, Path.stepsOf_append,
      Path.stepsOf_singleton (by simp), List.foldl_append, List.foldl_cons, List.foldl_nil, next,
      if_neg (named "." (by decide)), if_neg (named ".." (by decide))]
  have file : aim path = (Path.stepsOf [last]).foldl next ((Path.stepsOf front).foldl next []) := by
    rw [aim, Path.steps_eq, own, Path.stepsOf_append, List.foldl_append]
  rw [lock, file]
  generalize (Path.stepsOf front).foldl next [] = place
  intro same
  have size := congrArg List.length same
  rw [List.length_append, List.length_singleton] at size
  by_cases empty : last = []
  · subst empty
    exact absurd size (by simp [Path.stepsOf])
  rw [Path.stepsOf_singleton empty, List.foldl_cons, List.foldl_nil, next] at same size
  -- the last part of the path stays, leads up or is a name
  split_ifs at same size with stays climbs
  · omega
  · unfold Disk.up at same size
    split_ifs at same size
    · exact named ".." (by decide) (List.singleton_inj.mp (List.append_cancel_left same))
    · rw [List.length_dropLast] at size
      omega
  · have text := congrArg String.toList (List.singleton_inj.mp (List.append_cancel_left same))
    rw [text, String.toList_ofList] at long
    omega

omit [IsPreorder Disk R] in
theorem Progress.Along.moments (along : Progress.Along R ⟨disk, []⟩ p) :
    ∀ moment ∈ p.disk :: p.past, R disk moment := by
  obtain ⟨moved, way, passed, inside⟩ := along
  rw [List.append_nil] at passed
  rw [passed]
  exact List.forall_mem_cons.mpr ⟨moved, inside⟩

/-- Replacing a file is all or nothing, on every disk and whatever fails. -/
theorem all_or_nothing (interference : Interference) (contents : ByteArray) {name : String}
    (fresh : Fresh disk path name) : AllOrNothing interference path contents name disk
      ((replace interference path contents name).runOn ⟨disk, []⟩).1
      ((replace interference path contents name).runOn ⟨disk, []⟩).2 := by
  obtain ⟨proper, free, apart, unlocked⟩ := fresh
  cases parent : Path.parent? path with
  | none =>
    have refused : (replace interference path contents name).runOn ⟨disk, []⟩ =
        (.error (.storage (path ++ " has no parent directory") none), ⟨disk, []⟩) := by
      unfold replace
      rw [parent]
      rfl
    rw [refused]
    have only : ∀ {P : Disk → Prop}, P disk → ∀ moment ∈ [disk], P moment := List.forall_mem_singleton.mpr
    exact ⟨only (.inl rfl), fun _ _ => ⟨rfl, fun _ => free⟩, nofun, only fun _ _ _ _ => rfl, only fun _ => id,
      only fun _ => .inl⟩
  | some above =>
    have beside : besides path name = aim (Path.join above name) := by rw [besides, parent]; rfl
    rw [beside] at free apart unlocked
    have file : aim path ∉ ({aim (lockPath path), aim (Path.join above name)} : Set (List String)) := by
      simpa using ⟨(aim_lockPath_ne path).symm, apart.symm⟩
    change AllOrNothing _ _ _ _ _ (replace interference path contents name ⟨disk, []⟩).1
      (replace interference path contents name ⟨disk, []⟩).2
    rcases ended : replace interference path contents name ⟨disk, []⟩ with ⟨outcome, p⟩
    have moved := ((alters_replace interference parent contents name).of_ran ended).moments
    refine ⟨?_, ?_, ?_, fun moment member place named locked temp => ?_, fun moment member => (moved _ member).keeps,
      fun moment member place there => ?_⟩
    · intro moment member
      cases outcome with
      | error e =>
        obtain ⟨along, -⟩ := replace_error (p := ⟨disk, []⟩) parent proper free unlocked ended
        exact .inl ((along.moments moment member).toTouches.bytes? file)
      | ok _ =>
        obtain ⟨q, along, past, -, there, -⟩ := replace_done parent apart ended
        rcases List.mem_cons.mp member with rfl | earlier
        · exact .inr (bytes?_eq_some.mpr there)
        · rw [past] at earlier
          exact .inl ((along.moments moment earlier).toTouches.bytes? file)
    · rintro e rfl
      obtain ⟨along, gone⟩ := replace_error (p := ⟨disk, []⟩) parent proper free unlocked ended
      exact ⟨along.1.toTouches.bytes? file, fun removes => beside ▸ gone removes⟩
    · rintro rfl
      obtain ⟨q, -, -, read, there, gone⟩ := replace_done parent apart ended
      exact ⟨read, bytes?_eq_some.mpr there, bytes?_of_node (beside ▸ gone)⟩
    · rw [beside] at temp
      exact (moved moment member).toTouches.bytes? (by simp [named, locked, temp])
    · exact ((moved moment member).made place there).imp_right fun inside => ⟨above, parent, inside⟩

def shelf : Disk := (Disk.empty.put ["shelf"] .directory).put ["shelf", "book"] (.file "old".toUTF8)

def full : Interference := ⟨fun s => if s = .write then some "No space left on device (os error 28)" else none, 3⟩

theorem book_stays :
    let stopped := (replace full "shelf/book" "new text".toUTF8 "temp").runOn ⟨shelf, []⟩
    let ended := (replace Interference.none "shelf/book" "new text".toUTF8 "temp").runOn ⟨shelf, []⟩
    Fresh shelf "shelf/book" "temp" ∧
    stopped.1 = .error (.within .storage "Failed to write shelf/book" "No space left on device (os error 28)") ∧
    stopped.2.disk.bytes? (aim "shelf/book") = some "old".toUTF8 ∧
    stopped.2.disk.bytes? (besides "shelf/book" "temp") = none ∧
    ended.1 = .ok () ∧ ended.2.disk.read "shelf/book" = .ok "new text".toUTF8 := by
  intro stopped ended
  have fresh : Fresh shelf "shelf/book" "temp" :=
    ⟨⟨by decide, by decide, by decide, by decide, by decide⟩, by decide +kernel, by decide +kernel,
      by decide +kernel⟩
  have failed : stopped.1 = .error (.within .storage "Failed to write shelf/book"
      "No space left on device (os error 28)") := by rfl
  have done : ended.1 = .ok () := by rfl
  obtain ⟨stays, gone⟩ := (all_or_nothing full "new text".toUTF8 fresh).failed _ failed
  obtain ⟨read, -⟩ := (all_or_nothing Interference.none "new text".toUTF8 fresh).done done
  exact ⟨fresh, failed, stays.trans (by decide +kernel), gone rfl, done, read⟩

end Replace

end Wiring.Disk
