import Wiring.Proofs.Disk.Whole
import Wiring.Proofs.Settings.Record

/-! # Loading what was saved

Saved settings are loaded again as they were, by every loader of their file that no variable of its family
disturbs, but for two things: a count beyond the signed words is written but refused by the reader, and a file whose
whole path is too long is not read.
-/
namespace Wiring

/-- Whether a variable has the prefix, in any case, white space around its name apart. -/
def Environment.Belongs (start name : String) : Prop :=
  start.toLower.toList <+: Text.trim name.toLower.toList

instance (start name : String) : Decidable (Environment.Belongs start name) :=
  inferInstanceAs (Decidable (start.toLower.toList <+: Text.trim name.toLower.toList))

theorem Environment.settings_of_not_belongs {start : String} {assigned : Environment.Variables}
    (unset : ∀ v ∈ assigned, ¬ Belongs start v.1) : settings start assigned = .table [] := by
  have nothing : assigned.filterMap (fun v =>
      (path? start v.1).map fun path => Setting.nested path (settingOf v.2)) = [] := by
    refine List.filterMap_eq_nil_iff.mpr fun v member => ?_
    have other : start.toLower.toList.isPrefixOf (Text.trim v.1.toLower.toList) = false := by
      rw [Bool.eq_false_iff, ne_eq, List.isPrefixOf_iff_prefix]
      exact unset v member
    rw [path?]
    simp [other]
  rw [settings, nothing]
  rfl

namespace Settings

theorem save_eq_ok_iff {s : Settings} {path : String} {disk disk' : Disk} :
    (save s path).runOn disk = (.ok (), disk') ↔
      ∃ document, s.fileText = .ok document ∧ Disk.write path document.toUTF8 disk = (.ok (), disk') := by
  unfold save
  cases s.fileText with
  | error e => exact ⟨nofun, nofun⟩
  | ok document =>
    simp only [Except.ok.injEq, exists_eq_left', Act.runOn_bind, Act.runOn_get, ExceptT.run]
    rcases Disk.write path document.toUTF8 disk with ⟨fault | _, after⟩
    · exact ⟨nofun, nofun⟩
    · constructor <;> (intro same; cases same; rfl)

theorem found_of_write {path document : String} {disk disk' : Disk}
    (ran : Disk.write path document.toUTF8 disk = (.ok (), disk')) :
    disk'.exists? path = true ∧ disk'.isFile path = true ∧ disk'.readText? path = some document := by
  obtain ⟨free, rfl⟩ := Disk.write_ok ran
  have held := free.node?_put (.file document.toUTF8) (Disk.aim path)
  rw [if_pos rfl] at held
  have found : (disk.put (Disk.aim path) (.file document.toUTF8)).find? path = some (.file document.toUTF8) := by
    rw [Disk.find?, (free.put document.toUTF8).located]
    exact held
  refine ⟨?_, ?_, ?_⟩
  · rw [Disk.exists?, found]
    rfl
  · rw [Disk.isFile, found]
  · rw [Disk.readText?, free.read (free.keeps_put _) held]
    exact Text.fromUTF8?_toUTF8 document

theorem exists_fileText (s : Settings) : ∃ document, s.fileText = .ok document := by
  obtain ⟨⟨level, json, file, size, files⟩, compiler⟩ := s
  cases file <;> exact ⟨_, rfl⟩

section
variable {s : Settings} {l : Loader} {path document : String} {home : Option String}
  {assigned : Environment.Variables} {disk : Disk} (points : l.file = some path)
  (unset : ∀ v ∈ assigned, ¬ Environment.Belongs (l.family ++ "_") v.1)

include points in
theorem fileTree?_of_write {disk' : Disk} (ran : Disk.write path document.toUTF8 disk = (.ok (), disk')) :
    l.fileTree? home disk' =
      if Disk.maxPathBytes < l.wholeBytes path then some (.table []) else Loader.read? document := by
  obtain ⟨there, isFile, text⟩ := found_of_write ran
  have file : l.file? home disk' = some path := by
    rw [Loader.file?, points]
    exact if_pos there
  rw [Loader.fileTree?, file]
  split_ifs with long
  · simp [long]
  · simp [isFile, Nat.le_of_not_lt long, text]

include unset in
theorem load_of_fileTree {file : Option Setting} (tree : l.fileTree? home disk = file) :
    l.load home assigned disk =
      match file.bind fun file => ofTree? ((Setting.merge (.table default.members) file).merge (.table [])) with
      | some settings => settings.checked
      | none => .error (.within .configuration "Failed to extract configuration" "not a valid setting") := by
  rw [Loader.load, Loader.tree?, tree, Environment.settings_of_not_belongs unset]
  cases file <;> rfl

end

theorem exists_saved (s : Settings) : ∃ disk', (save s "s.toml").runOn Disk.empty = (.ok (), disk') := by
  obtain ⟨document, written⟩ := exists_fileText s
  exact ⟨_, save_eq_ok_iff.mpr ⟨document, written, rfl⟩⟩

/-- What a loader makes of saved settings: it loads just them, but refuses a count that is no signed word of 64
bits, and leaves a file alone whose whole path is too long. -/
theorem load_saved {s : Settings} {l : Loader} {path : String} {home : Option String}
    {assigned : Environment.Variables} {disk disk' : Disk} (accepted : s.checked = .ok s)
    (saved : (save s path).runOn disk = (.ok (), disk')) (points : l.file = some path)
    (unset : ∀ v ∈ assigned, ¬ Environment.Belongs (l.family ++ "_") v.1) :
    l.load home assigned disk' =
      if Disk.maxPathBytes < l.wholeBytes path then .ok default
      else if Signed64 s.logging.maxFileSize.toNat ∧ Signed64 s.logging.maxFiles.toNat then .ok s
      else .error (.within .configuration "Failed to extract configuration" "not a valid setting") := by
  obtain ⟨document, written, ran⟩ := save_eq_ok_iff.mp saved
  have tree : l.fileTree? home disk' = _ := fileTree?_of_write points ran
  rw [load_of_fileTree unset tree]
  split_ifs with long signed
  · have defaults : (Setting.merge (.table default.members) (.table [])).merge (.table []) =
        .table default.members := by
      simp [Setting.merge, Setting.mergeMembers]
    simp only [Option.bind_some, defaults, ofTree?_members, checked_default]
  · obtain ⟨found, read, whole⟩ := exists_read? written signed
    simp only [read, Option.bind_some, whole, accepted]
  · rw [read?_eq_none written signed]
    rfl

/-- Settings with a level in letters of both cases, paths with quotes and line ends, and the greatest count that is
loaded again. -/
def odd : Settings where
  logging.level := "WaRning"
  logging.file := some "a'b\"c\\\n'''\"\"\"\u65e5"
  logging.maxFileSize := 0
  logging.maxFiles := 9223372036854775807
  compiler.cacheDirectory := "b\u00fc\tro''"

def pointed : Loader := { file := some "s.toml" }

/-- Variables that only look like those of its family. -/
def lookalikes : Environment.Variables := [("DIAC", "x"), ("MY_DIAC_LOGGING__LEVEL", "off")]

theorem odd_settings_load :
    odd.checked = .ok odd ∧ pointed.file = some "s.toml" ∧
      (∀ v ∈ lookalikes, ¬ Environment.Belongs (pointed.family ++ "_") v.1) ∧
      ∃ disk, (save odd "s.toml").runOn Disk.empty = (.ok (), disk) ∧
        pointed.load none lookalikes disk = .ok odd := by
  have known : Level.ofLowerCase? odd.logging.level.toLower = some .warn := by decide +kernel
  have accepted : odd.checked = .ok odd := checked_of known (by decide)
  have unset : ∀ v ∈ lookalikes, ¬ Environment.Belongs (pointed.family ++ "_") v.1 := by decide +kernel
  have short : ¬ Disk.maxPathBytes < pointed.wholeBytes "s.toml" := by decide
  have signed : Signed64 odd.logging.maxFileSize.toNat ∧ Signed64 odd.logging.maxFiles.toNat := by decide
  obtain ⟨disk, saved⟩ := exists_saved odd
  have loaded : pointed.load none lookalikes disk = _ := load_saved accepted saved rfl unset
  rw [if_neg short, if_pos signed] at loaded
  exact ⟨accepted, rfl, unset, disk, saved, loaded⟩

/-- A count that is no signed word is written, but not loaded. -/
def large : Settings where
  logging.maxFileSize := 9223372036854775808

theorem large_count_lost :
    large.checked = .ok large ∧ ∃ disk, (save large "s.toml").runOn Disk.empty = (.ok (), disk) ∧
      pointed.load none [] disk ≠ .ok large := by
  have known : Level.ofLowerCase? large.logging.level.toLower = some .info := by decide +kernel
  have noneSigned : ¬ large.logging.Signed := by
    rintro ⟨signed, -⟩
    exact absurd signed.2 (by decide)
  obtain ⟨document, written⟩ := exists_fileText large
  have ran : Disk.write "s.toml" document.toUTF8 Disk.empty =
      (.ok (), Disk.empty.put ["s.toml"] (.file document.toUTF8)) := rfl
  have unset : ∀ v ∈ ([] : Environment.Variables), ¬ Environment.Belongs (pointed.family ++ "_") v.1 := nofun
  have tree : pointed.fileTree? none _ = none := (fileTree?_of_write rfl ran).trans (read?_eq_none written noneSigned)
  refine ⟨checked_of known (by decide), _, save_eq_ok_iff.mpr ⟨document, written, ran⟩, ?_⟩
  rw [load_of_fileTree unset tree]
  exact nofun

end Settings
end Wiring
