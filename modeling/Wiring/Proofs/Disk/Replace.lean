import Wiring.Disk.Replace
import Wiring.Proofs.Act
import Wiring.Proofs.Disk.Directory

/-! # What a replacement leaves

A file that has been replaced holds the new contents. The file of its lock is there, the temporary file is
not, and everything else on the disk is as it was.
-/
namespace Wiring

section
variable {ε σ α β : Type}

theorem run_bind (x : ExceptT ε (StateM σ) α) (f : α → ExceptT ε (StateM σ) β) (s : σ) :
    (x >>= f) s = match x s with
      | (.ok a, t) => f a t
      | (.error e, t) => (.error e, t) := by
  change ExceptT.bindCont f (x s).1 (x s).2 = _
  rcases x s with ⟨_ | a, t⟩ <;> rfl

theorem runs_bind {x : ExceptT ε (StateM σ) α} {f : α → ExceptT ε (StateM σ) β} {s t : σ} {b : β} :
    (x >>= f) s = (.ok b, t) ↔ ∃ a u, x s = (.ok a, u) ∧ f a u = (.ok b, t) := by
  rw [run_bind]
  rcases x s with ⟨e | a, u⟩
  · refine ⟨nofun, ?_⟩
    rintro ⟨_, _, ⟨⟩, _⟩
  · refine ⟨fun ran => ⟨a, u, rfl, ran⟩, ?_⟩
    rintro ⟨_, _, ⟨⟩, ran⟩
    exact ran

theorem fails_bind {x : ExceptT ε (StateM σ) α} {f : α → ExceptT ε (StateM σ) β} {s t : σ} {e : ε} :
    (x >>= f) s = (.error e, t) ↔ x s = (.error e, t) ∨ ∃ a u, x s = (.ok a, u) ∧ f a u = (.error e, t) := by
  rw [run_bind]
  rcases x s with ⟨e' | a, u⟩
  · constructor
    · rintro ⟨⟩
      exact .inl rfl
    · rintro (⟨⟨⟩⟩ | ⟨_, _, failed, _⟩)
      · rfl
      · cases failed
  · refine ⟨fun ran => .inr ⟨a, u, rfl, ran⟩, ?_⟩
    rintro (failed | ⟨_, _, ⟨⟩, ran⟩)
    · cases failed
    · exact ran

end

namespace Disk

variable {disk disk' : Disk} {path root name : String} {place : List String}

theorem openFile_eq (path : String) (disk : Disk) : openFile path disk = (match disk.locate path with
    | .error fault => .error fault
    | .ok place => match disk.node? place with
      | some (.file contents) => .ok (place, some contents)
      | some .directory => .error .isDirectory
      | none => if path.toList.getLast? = some '/' then .error .isDirectory else .ok (place, none), disk) := by
  have opened : (liftM (disk.locate path) : Op (List String)) disk = (disk.locate path, disk) := rfl
  have got : (get : Op Disk) disk = (.ok disk, disk) := rfl
  unfold openFile
  rw [run_bind, got]
  simp only
  rw [run_bind, opened]
  cases disk.locate path with
  | error fault => rfl
  | ok place =>
    simp only
    rcases disk.node? place with _ | _ | _
    · simp only
      split_ifs <;> rfl
    · rfl
    · rfl

theorem openFile_ok {found : List String × Option ByteArray} (ran : openFile path disk = (.ok found, disk')) :
    disk' = disk ∧ found.1 = aim path ∧ disk.locate path = .ok (aim path) ∧
      disk.node? (aim path) = found.2.map .file ∧ path.toList.getLast? ≠ some '/' := by
  rw [openFile_eq] at ran
  obtain ⟨ended, rfl⟩ := Prod.mk.inj ran
  cases located : disk.locate path with
  | error fault =>
    rw [located] at ended
    cases ended
  | ok place =>
    obtain rfl := aim_of_locate located
    simp only [located] at ended
    rcases there : disk.node? (aim path) with _ | contents | _
    · simp only [there] at ended
      split_ifs at ended with slash
      cases ended
      exact ⟨rfl, rfl, rfl, rfl, slash⟩
    · simp only [there] at ended
      cases ended
      refine ⟨rfl, rfl, rfl, rfl, fun slash => ?_⟩
      have found := locate_eq (nameable_of_locate located) disk
      rw [located, (way_of_locate located).walk_eq] at found
      simp only [there, slash, if_true] at found
      cases found
    · simp only [there] at ended
      cases ended

theorem free_of_map {found : Option ByteArray} (there : disk.node? place = found.map .file) :
    disk.node? place ≠ some .directory := by
  rw [there]
  cases found <;> exact nofun

/-- What a path of a file leads to: a file or nothing yet. -/
structure Free (disk : Disk) (path : String) : Prop where
  located : disk.locate path = .ok (aim path)
  free : disk.node? (aim path) ≠ some .directory
  whole : path.toList.getLast? ≠ some '/'

theorem not_isAbove (free : disk.node? place ≠ some .directory) : isAbove place = false := by
  rw [← Bool.not_eq_true]
  intro above
  exact free (by rw [node?, if_pos above])

theorem Free.node?_put (free : Free disk path) (node : Node) (q : List String) :
    (disk.put (aim path) node).node? q = if q = aim path then some node else disk.node? q :=
  Disk.node?_put (not_isAbove free.free) disk node q

theorem Free.keeps_put (free : Free disk path) (node : Node) : Keeps disk (disk.put (aim path) node) :=
  Disk.keeps_put (not_isAbove free.free) free.free node

theorem free_of_openFile {found : List String × Option ByteArray}
    (ran : openFile path disk = (.ok found, disk')) : Free disk path := by
  obtain ⟨-, -, located, there, whole⟩ := openFile_ok ran
  exact ⟨located, free_of_map there, whole⟩

theorem touch_ok {u : Unit} (ran : touch path disk = (.ok u, disk')) : Keeps disk disk' ∧ ∃ contents, ∀ q,
    disk'.node? q = if q = aim path then some (.file contents) else disk.node? q := by
  obtain ⟨⟨q, found⟩, _, opened, ran⟩ := runs_bind.mp ran
  have free := free_of_openFile opened
  obtain ⟨rfl, rfl, -, there, -⟩ := openFile_ok opened
  cases found with
  | none =>
    cases ran
    exact ⟨free.keeps_put _, ByteArray.empty, free.node?_put _⟩
  | some contents =>
    cases ran
    refine ⟨fun _ => id, contents, fun q => ?_⟩
    split_ifs with same
    · rw [same]
      exact there
    · rfl

theorem write_ok {contents : ByteArray} {u : Unit} (ran : write path contents disk = (.ok u, disk')) :
    Free disk path ∧ disk' = disk.put (aim path) (.file contents) := by
  obtain ⟨⟨q, found⟩, _, opened, ran⟩ := runs_bind.mp ran
  have free := free_of_openFile opened
  obtain ⟨rfl, rfl, -, -, -⟩ := openFile_ok opened
  cases ran
  exact ⟨free, rfl⟩

theorem rename_ok {source : String} {u : Unit} (ran : rename source path disk = (.ok u, disk')) :
    ∃ contents, Free disk source ∧ disk.node? (aim source) = some (.file contents) ∧ Free disk path ∧
      disk' = (Disk.mk (disk.nodes.erase (aim source))).put (aim path) (.file contents) := by
  obtain ⟨⟨q, found⟩, _, opened, ran⟩ := runs_bind.mp ran
  have free := free_of_openFile opened
  obtain ⟨rfl, rfl, -, there, -⟩ := openFile_ok opened
  cases found with
  | none => cases ran
  | some contents =>
    obtain ⟨⟨q', found'⟩, _, opened', ran⟩ := runs_bind.mp ran
    have free' := free_of_openFile opened'
    obtain ⟨rfl, rfl, -, -, -⟩ := openFile_ok opened'
    cases ran
    exact ⟨contents, free, there, free', rfl⟩

theorem makeDirectory_eq (path : String) (disk : Disk) : makeDirectory path disk =
    match disk.locate path with
    | .error fault => (.error fault, disk)
    | .ok place =>
      if (disk.node? place).isSome then (.error .exists, disk) else (.ok (), disk.put place .directory) := by
  have got : (get : Op Disk) disk = (.ok disk, disk) := rfl
  have opened : (liftM (disk.locate path) : Op (List String)) disk = (disk.locate path, disk) := rfl
  unfold makeDirectory
  rw [run_bind, got]
  simp only
  rw [run_bind, opened]
  cases disk.locate path with
  | error fault => rfl
  | ok place => cases there : (disk.node? place).isSome <;> simp only [there] <;> rfl

theorem exists_ancestors (path : String) : ∃ above, Path.ancestors path = path :: above := by
  unfold Path.ancestors Path.ancestors.go
  split
  · exact ⟨_, rfl⟩
  · split <;> exact ⟨_, rfl⟩

theorem makeAncestors_cons {ε σ : Type} [DecidableEq ε] (missing : ε)
    (make : Bool → String → ExceptT ε (StateM σ) Unit) (filled : path.toList ≠ []) (above : List String) (s : σ) :
    makeAncestors missing make (path :: above) s = match make false path s with
      | (.error e, s) =>
        if e = missing then (do makeAncestors missing make above; make true path) s else (.error e, s)
      | made => made := by
  rw [makeAncestors]
  exact congrFun (if_neg filled) s

namespace Replace

variable {interference : Interference} {context : String} {α : Type} {p p' : Progress} {u : Unit}

theorem lockPath_ne (path : String) : lockPath path ≠ path := by
  intro same
  have size := congrArg String.utf8ByteSize same
  rw [lockPath, String.utf8ByteSize_append] at size
  have some : 0 < ".lock".utf8ByteSize := by decide
  omega

/-- An operation ends as it does on the disk. -/
theorem operate_eq (op : Op Unit) (p : Progress) : operate op p =
    ((op p.disk).1.mapError .own, ⟨(op p.disk).2, p.disk :: p.past⟩) := by
  unfold operate
  rcases op p.disk with ⟨_ | _, disk⟩ <;> rfl

theorem stage_of_fails {s : Stage} {cause : String} (fails : interference.fails s = some cause) (op : Op Unit)
    (p : Progress) : stage interference s op p = (.error (.outside cause), p) := by
  unfold stage
  rw [fails]
  rfl

theorem stage_of_none {s : Stage} (lasts : interference.fails s = none) (op : Op Unit) :
    stage interference s op = operate op := by
  unfold stage
  rw [lasts]

theorem operate_ok {op : Op Unit} (ran : operate op p = (.ok u, p')) :
    op p.disk = (.ok u, p'.disk) ∧ p'.past = p.disk :: p.past := by
  unfold operate at ran
  generalize made : op p.disk = ended at ran
  obtain ⟨_ | _, disk⟩ := ended
  · cases ran
  · cases ran
    exact ⟨rfl, rfl⟩

theorem stage_ok {s : Stage} {op : Op Unit} (ran : stage interference s op p = (.ok u, p')) :
    op p.disk = (.ok u, p'.disk) ∧ p'.past = p.disk :: p.past := by
  cases fails : interference.fails s with
  | some cause =>
    rw [stage_of_fails fails] at ran
    cases ran
  | none =>
    rw [stage_of_none fails] at ran
    exact operate_ok ran

/-- A stage that does nothing leaves the disk. -/
theorem stage_pure_ok {s : Stage} (ran : stage interference s (pure ()) p = (.ok u, p')) : p'.disk = p.disk := by
  have ended : ((.ok (), p.disk) : Except Fault Unit × Disk) = (.ok u, p'.disk) := (stage_ok ran).1
  exact (Prod.mk.inj ended).2.symm

theorem within_ok {x : Work Unit} (ran : within context x p = (.ok u, p')) : x p = (.ok u, p') := by
  unfold within at ran
  generalize x p = ended at ran
  obtain ⟨_ | _, p⟩ := ended
  · cases ran
  · cases ran
    rfl

theorem cleaned_ok {temporary : String} {x : Work Unit}
    (ran : cleaned interference temporary x p = (.ok u, p')) : x p = (.ok u, p') := by
  unfold cleaned at ran
  generalize x p = ended at ran
  obtain ⟨_ | _, p⟩ := ended
  · cases ran
  · cases ran
    rfl

theorem makeDirectories_of_leads (interference : Interference) (leads : Leads p.disk path place) :
    ∃ past, makeDirectories interference path p = (.ok (), ⟨p.disk, past⟩) := by
  have refused : (Disk.makeDirectory path p.disk) = (.error .exists, p.disk) := by
    rw [makeDirectory_eq, (leads_iff.mp leads).1]
    simp only [leads.directory, Option.isSome_some, if_true]
  have made : ∃ past, makeDirectory interference false path p = (.ok (), ⟨p.disk, past⟩) := by
    unfold makeDirectory ensured
    cases fails : interference.fails (.directory path false) with
    | some cause =>
      rw [stage_of_fails fails]
      simp only [leads.isDirectory, if_true]
      exact ⟨p.past, rfl⟩
    | none =>
      rw [stage_of_none fails, operate_eq, refused]
      simp only [Except.mapError, leads.isDirectory, if_true]
      exact ⟨_, rfl⟩
  obtain ⟨past, made⟩ := made
  obtain ⟨above, same⟩ := exists_ancestors path
  refine ⟨past, ?_⟩
  rw [makeDirectories, same, makeAncestors_cons _ _ leads.text.nonempty, made]

variable {contents : ByteArray} {above temporary : String}

/-- What was written to the temporary file is there. -/
theorem fill_ok (ran : fill interference temporary contents p = (.ok u, p')) :
    Free p.disk temporary ∧ Keeps p.disk p'.disk ∧ ∀ q, p'.disk.node? q =
      if q = aim temporary then some (.file contents) else p.disk.node? q := by
  obtain ⟨_, p₁, created, ran⟩ := runs_bind.mp ran
  obtain ⟨_, p₂, wrote, synced⟩ := runs_bind.mp ran
  obtain ⟨_, p₃, started, finished⟩ := runs_bind.mp wrote
  obtain ⟨free, made⟩ := write_ok (stage_ok created).1
  obtain ⟨free₁, begun⟩ := write_ok (operate_ok started).1
  obtain ⟨free₃, filled⟩ := write_ok (stage_ok finished).1
  have keeps := ((made ▸ free.keeps_put _ : Keeps p.disk p₁.disk).trans (begun ▸ free₁.keeps_put _)).trans
    (filled ▸ free₃.keeps_put _ : Keeps p₃.disk p₂.disk)
  rw [stage_pure_ok synced]
  refine ⟨free, keeps, fun q => ?_⟩
  rw [filled, free₃.node?_put, begun, free₁.node?_put, made, free.node?_put]
  split_ifs <;> rfl

theorem rename_filled {disk₁ : Disk} (filled : ∀ q, disk₁.node? q =
      if q = aim temporary then some (.file contents) else disk.node? q)
    (ran : rename temporary path disk₁ = (.ok u, disk')) :
    Free disk₁ path ∧ Keeps disk₁ disk' ∧ ∀ q, disk'.node? q =
      if q = aim path then some (.file contents)
      else if q = aim temporary then none else disk.node? q := by
  obtain ⟨found, free, held, free', rfl⟩ := rename_ok ran
  rw [filled, if_pos rfl] at held
  cases held
  have below := not_isAbove free.free
  have free₂ : (Disk.mk (disk₁.nodes.erase (aim temporary))).node? (aim path) ≠ some .directory := by
    rw [node?_erase below]
    split_ifs
    · exact nofun
    · exact free'.free
  refine ⟨free', (keeps_erase below free.free).trans (keeps_put (not_isAbove free₂) free₂ _), fun q => ?_⟩
  rw [node?_put (not_isAbove free₂), node?_erase below, filled]
  split_ifs <;> rfl

/-- What a replacement that goes well goes through: directories, the lock, the temporary file and the move. -/
theorem replace_ok {name : String} (parent : Path.parent? path = some above)
    (ran : replace interference path contents name p = (.ok u, p')) : ∃ p₁ p₂ p₃ p₄,
      makeDirectories interference above p = (.ok (), p₁) ∧
      stage interference .openLock (touch (lockPath path)) p₁ = (.ok (), p₂) ∧
      stage interference .takeLock (pure ()) p₂ = (.ok (), p₃) ∧
      fill interference (Path.join above name) contents p₃ = (.ok (), p₄) ∧
      stage interference .rename (rename (Path.join above name) path) p₄ = (.ok (), p') := by
  unfold replace at ran
  rw [parent] at ran
  obtain ⟨_, p₁, made, ran⟩ := runs_bind.mp ran
  obtain ⟨_, p₃, lock, ran⟩ := runs_bind.mp ran
  obtain ⟨_, p₂, opened, taken⟩ := runs_bind.mp lock
  obtain ⟨_, p₄, filled, renamed⟩ := runs_bind.mp (cleaned_ok (within_ok ran))
  exact ⟨p₁, p₂, p₃, p₄, within_ok made, within_ok opened, within_ok taken, filled, renamed⟩

end Replace

/-- The disk after a file of a directory has been replaced. -/
structure Replaced (root : String) (place : List String) (name temporary : String) (contents : ByteArray)
    (disk disk' : Disk) : Prop where
  fits : Fits root name
  keeps : Keeps disk disk'
  target : disk'.node? (place ++ [name]) = some (.file contents)
  lock : ∃ held, disk'.node? (place ++ [Replace.lockPath name]) = some (.file held)
  removed : disk'.node? (place ++ [temporary]) = none
  others : ∀ other, other ≠ name → other ≠ Replace.lockPath name → other ≠ temporary →
    disk'.node? (place ++ [other]) = disk.node? (place ++ [other])

theorem Replace.replaced_of_ok {interference : Interference} {p p' : Progress} {u : Unit} {contents : ByteArray}
    {temporary : String} (leads : Leads p.disk root place) (proper : Path.IsName name)
    (locked : Path.IsName (lockPath name)) (temp : Path.IsName temporary) (apart : temporary ≠ name)
    (free : temporary ≠ lockPath name)
    (ran : replace interference (Path.join root name) contents temporary p = (.ok u, p')) :
    Replaced root place name temporary contents p.disk p'.disk := by
  have aims : aim root = place := leads.way.foldl_next
  obtain ⟨above, found, beside⟩ := leads.exists_parent proper
  have aims' : aim above = place := beside.way.foldl_next
  obtain ⟨p₁, p₂, p₃, p₄, made, opened, taken, filled, renamed⟩ := replace_ok found ran
  obtain ⟨past, unchanged⟩ := makeDirectories_of_leads interference beside
  obtain ⟨-, rfl⟩ := Prod.mk.inj (unchanged.symm.trans made)
  obtain ⟨keeps, held, lockLeft⟩ := touch_ok (stage_ok opened).1
  obtain ⟨-, keeps', filled⟩ := fill_ok filled
  obtain ⟨free', keeps'', moved⟩ := rename_filled filled (stage_ok renamed).1
  rw [lockPath, Path.join_append leads.text.nonempty, ← lockPath, aim_join root locked, aims] at lockLeft
  rw [aim_join root proper, aims, aim_join above temp, aims', stage_pure_ok taken] at moved
  rw [stage_pure_ok taken] at keeps'
  have fits : Fits root name := by
    by_contra unfit
    have located := free'.located
    rw [((leads.mono keeps).mono keeps').locate_join proper, if_neg unfit] at located
    cases located
  have inside : ∀ a b : String, place ++ [a] = place ++ [b] ↔ a = b := by simp
  refine ⟨fits, (keeps.trans keeps').trans keeps'', ?_, ⟨held, ?_⟩, ?_, fun other named lock temp => ?_⟩
  · rw [moved, if_pos rfl]
  · rw [moved, lockLeft]
    simp only [inside, lockPath_ne name, free.symm, if_false, if_true]
  · rw [moved]
    simp only [inside, apart, if_false, if_true]
  · rw [moved, lockLeft]
    simp only [inside, named, lock, temp, if_false]

theorem runOn_alone {α : Type} (x : Act Replace.Progress α) (disk : Disk) :
    (alone x).runOn disk = ((x ⟨disk, []⟩).1, (x ⟨disk, []⟩).2.disk) := rfl

theorem runOn_replaceFile (path : String) (contents : ByteArray) (disk : Disk) :
    (replaceFile path contents).runOn disk =
      (alone (Replace.replace Replace.Interference.none path contents disk.freshName)).runOn disk := by
  rw [replaceFile, Act.runOn_bind, Act.runOn_get]

theorem replaceFile_ok {u : Unit} {contents : ByteArray} (leads : Leads disk root place)
    (proper : Path.IsName name) (locked : Path.IsName (Replace.lockPath name))
    (temp : ∀ n, Path.IsName (temporaryName n)) (apart : ∀ n, temporaryName n ≠ name)
    (free : ∀ n, temporaryName n ≠ Replace.lockPath name)
    (ran : (replaceFile (Path.join root name) contents).runOn disk = (.ok u, disk')) :
    ∃ n, Replaced root place name (temporaryName n) contents disk disk' := by
  obtain ⟨n, name_eq⟩ : ∃ n, disk.freshName = temporaryName n := ⟨_, rfl⟩
  rw [runOn_replaceFile, runOn_alone, name_eq] at ran
  obtain ⟨ended, rfl⟩ := Prod.mk.inj ran
  exact ⟨n, Replace.replaced_of_ok leads proper locked (temp n) (apart n) (free n) (Prod.ext ended rfl)⟩

end Disk
end Wiring
