import Wiring.Proofs.Cache.Name
import Wiring.Proofs.Json.Reader
import Wiring.Proofs.Disk.Replace
import Mathlib.Logic.Function.Basic

/-! # What a cache's directory holds

The directory of a cache holds a tree for each of some artifacts, as text in a file of the artifact's name,
and beside these only locks. Writing an artifact changes its own tree and no other.
-/
namespace Wiring.Cache
open Disk Disk.Replace

variable {c c' : Cache} {place : List String} {contents : Artifact → Option Json}

def path (c : Cache) (a : Artifact) : String := Path.join c.root a.name

/-- A directory that holds what an assignment of trees to artifacts says and no other files but locks. -/
structure Holds (c : Cache) (place : List String) (contents : Artifact → Option Json) : Prop where
  leads : Leads c.disk c.root place
  files : ∀ a, c.disk.node? (place ++ [a.name]) = (contents a).map fun j => .file (c.encode j)
  fits : ∀ a, (contents a).isSome → Fits c.root a.name
  only : ∀ name, name ≠ ".." → (c.disk.node? (place ++ [name])).isSome →
    ∃ a : Artifact, name = a.name ∨ name = lockPath a.name

/-- A directory that is there and has nothing in it. -/
structure EmptyDirectory (disk : Disk) (root : String) (place : List String) : Prop where
  located : disk.locate root = .ok place
  directory : disk.node? place = some .directory
  nothing : ∀ name, name ≠ ".." → disk.node? (place ++ [name]) = none

theorem holds_empty (empty : EmptyDirectory c.disk c.root place) : Holds c place fun _ => none where
  leads := leads_iff.mpr ⟨empty.located, empty.directory⟩
  files a := empty.nothing a.name a.isName.climbs
  fits := nofun
  only name climbs there := by
    rw [empty.nothing name climbs] at there
    cases there

theorem runOn_write (a : Artifact) (j : Json) (c : Cache) : (write (c.path a) j).runOn c =
    (((replaceFile (c.path a) (c.encode j)).runOn c.disk).1,
      { c with disk := ((replaceFile (c.path a) (c.encode j)).runOn c.disk).2 }) := by
  rw [write, Act.runOn_bind, Act.runOn_get]
  exact Act.runOn_onPart _ _ _ c

theorem write_ok {a : Artifact} {j : Json} {u : Unit} (ran : (write (c.path a) j).runOn c = (.ok u, c')) :
    ∃ disk', (replaceFile (c.path a) (c.encode j)).runOn c.disk = (.ok u, disk') ∧
      c' = { c with disk := disk' } := by
  rw [runOn_write] at ran
  obtain ⟨ended, rfl⟩ := Prod.mk.inj ran
  exact ⟨_, Prod.ext ended rfl, rfl⟩

theorem Holds.write (holds : Holds c place contents) {a : Artifact} {j : Json} {u : Unit}
    (ran : (write (c.path a) j).runOn c = (.ok u, c')) :
    c'.root = c.root ∧ c'.pretty = c.pretty ∧ Holds c' place (Function.update contents a (some j)) := by
  obtain ⟨disk', replaced, rfl⟩ := write_ok ran
  have apart : ∀ {f g : File}, f ≠ g → f.name ≠ g.name := fun differ same =>
    differ (File.name_injective same)
  have free : ∀ n, temporaryName n ≠ a.name := fun n => apart (f := .temporary n) (g := .artifact a) nofun
  have unlocked : ∀ n, temporaryName n ≠ lockPath a.name := fun n =>
    apart (f := .temporary n) (g := .lock a) nofun
  obtain ⟨n, after⟩ := replaceFile_ok holds.leads a.isName (isName_lockPath a.isName) isName_temporaryName
    free unlocked replaced
  refine ⟨rfl, rfl, holds.leads.mono after.keeps, fun b => ?_, fun b there => ?_, fun name climbs there => ?_⟩
  · by_cases same : b = a
    · subst same
      rw [Function.update_self]
      exact after.target
    · have named : b.name ≠ a.name := fun same' => same (Artifact.name_injective same')
      have lock : b.name ≠ lockPath a.name := apart (f := .artifact b) (g := .lock a) nofun
      have temp : b.name ≠ temporaryName n := apart (f := .artifact b) (g := .temporary n) nofun
      rw [Function.update_of_ne same]
      exact (after.others b.name named lock temp).trans (holds.files b)
  · by_cases same : b = a
    · subst same
      exact after.fits
    · rw [Function.update_of_ne same] at there
      exact holds.fits b there
  · by_cases named : name = a.name
    · exact ⟨a, .inl named⟩
    by_cases lock : name = lockPath a.name
    · exact ⟨a, .inr lock⟩
    have temp : name ≠ temporaryName n := by
      rintro rfl
      rw [after.removed] at there
      cases there
    rw [after.others name named lock temp] at there
    exact holds.only name climbs there

theorem exists_layout (c : Cache) (j : Json) :
    ∃ layout : Json.Layout, layout.Blank ∧ c.encode j = (String.ofList (Json.print layout 0 j)).toUTF8 := by
  rw [encode]
  cases c.pretty with
  | true => exact ⟨.indented, Json.Layout.blank_indented, rfl⟩
  | false => exact ⟨.compact, Json.Layout.blank_compact, rfl⟩

/-- The error of reading a file whose name or path is too long. -/
def tooLong (path : String) : Error := .within .storage ("Failed to read " ++ path) Fault.nameTooLong.text

/-- What reading an artifact answers: what was written last, or that there is nothing, unless the system
cannot look for it. -/
def answer {α : Type} (c : Cache) (a : Artifact) : Option α → Except Error (Option α)
  | some x => .ok (some x)
  | none => if Fits c.root a.name then .ok none else .error (tooLong (c.path a))

theorem answer_congr {α : Type} {a : Artifact} (root : c'.root = c.root) (value : Option α) :
    c'.answer a value = c.answer a value := by
  cases value with
  | some x => rfl
  | none => rw [answer, answer, path, path, root]

theorem Holds.readFile {α : Type} (holds : Holds c place contents) {a : Artifact} {decode : ByteArray → Option α}
    {toJson : α → Json} {value : Option α} (held : contents a = value.map toJson)
    (decodes : ∀ x, value = some x → ∀ layout : Json.Layout, layout.Blank →
      decode (String.ofList (Json.print layout 0 (toJson x))).toUTF8 = some x) :
    c.readFile (c.path a) decode = c.answer a value := by
  have read : c.disk.read (c.path a) = _ := holds.leads.read_join a.isName
  rw [holds.files a, held] at read
  cases value with
  | none =>
    rw [Cache.readFile, read, answer]
    split_ifs <;> rfl
  | some x =>
    have fits : Fits c.root a.name := holds.fits a (by rw [held]; rfl)
    obtain ⟨layout, blank, text⟩ := c.exists_layout (toJson x)
    rw [if_pos fits] at read
    rw [Cache.readFile, read]
    simp only [Option.map_some, text, decodes x rfl layout blank, answer]

theorem Holds.isFile (holds : Holds c place contents) (a : Artifact) :
    c.disk.isFile (c.path a) = (contents a).isSome := by
  rw [Bool.eq_iff_iff, path, holds.leads.isFile_join a.isName, holds.files a]
  constructor
  · rintro ⟨-, found, there⟩
    obtain ⟨j, held, -⟩ := Option.map_eq_some_iff.mp there
    rw [held]
    rfl
  · intro there
    obtain ⟨j, held⟩ := Option.isSome_iff_exists.mp there
    exact ⟨holds.fits a there, c.encode j, by rw [held, Option.map_some]⟩

theorem get?_of_name (disk : Disk) {place : List String} {name : String} (climbs : name ≠ "..") :
    disk.nodes.get? (place ++ [name]) = disk.node? (place ++ [name]) := by
  rw [node?, isAbove_concat place climbs]
  rfl

theorem isPlanName_climbs {name : String} (listed : isPlanName name = true) : name ≠ ".." := by
  rintro rfl
  revert listed
  decide

theorem mem_tokens_iff (leads : Leads c.disk c.root place) {token : String} : token ∈ c.tokens ↔
    ∃ name ∈ c.disk.fileNames c.root, isPlanName name = true ∧ Path.stem name = token := by
  rw [tokens, if_pos leads.isDirectory, SortedMap.mem_keys_ofList, List.map_map]
  simp [and_assoc]

theorem token_mem_tokens (leads : Leads c.disk c.root place) {key : Key} {found : ByteArray}
    (held : c.disk.node? (place ++ [planName key]) = some (.file found)) : key.token ∈ c.tokens := by
  rw [← get?_of_name c.disk (isName_planName key).climbs] at held
  refine (mem_tokens_iff leads).mpr ⟨planName key, leads.mem_fileNames.mpr ⟨found, held⟩, ?_,
    congrArg Prod.fst (splitName_planName key)⟩
  exact (isPlanName_iff (.artifact (.plan key))).mpr ⟨key, rfl⟩

/-- The listing gives the tokens of the plans that are there. -/
theorem Holds.mem_tokens (holds : Holds c place contents) {token : String} :
    token ∈ c.tokens ↔ ∃ key : Key, (contents (.plan key)).isSome ∧ key.token = token := by
  rw [mem_tokens_iff holds.leads]
  constructor
  · rintro ⟨name, member, listed, rfl⟩
    obtain ⟨found, there⟩ := holds.leads.mem_fileNames.mp member
    have climbs := isPlanName_climbs listed
    rw [get?_of_name c.disk climbs] at there
    obtain ⟨a, named⟩ := holds.only name climbs (by rw [there]; rfl)
    obtain ⟨f, rfl⟩ : ∃ f : File, name = f.name :=
      named.elim (fun same => ⟨.artifact a, same⟩) fun same => ⟨.lock a, same⟩
    obtain ⟨key, rfl⟩ := (isPlanName_iff f).mp listed
    refine ⟨key, ?_, congrArg Prod.fst (splitName_planName key).symm⟩
    have held : (contents (.plan key)).map (fun j => Node.file (c.encode j)) = some (.file found) :=
      (holds.files (.plan key)).symm.trans there
    obtain ⟨j, same, -⟩ := Option.map_eq_some_iff.mp held
    rw [same]
    rfl
  · rintro ⟨key, there, rfl⟩
    obtain ⟨j, held⟩ := Option.isSome_iff_exists.mp there
    have file := holds.files (.plan key)
    rw [held, Option.map_some] at file
    exact (mem_tokens_iff holds.leads).mp (token_mem_tokens holds.leads file)

theorem tokens_ascending (c : Cache) : c.tokens.Pairwise (· < ·) := by
  unfold tokens
  split_ifs
  · have ascending := (SortedMap.ofList ((((c.disk.fileNames c.root).filter isPlanName).map Path.stem).map
      fun stem => (stem, ()))).ascending
    exact List.pairwise_map.mpr (ascending.imp compareOfLessAndEq_eq_lt.mp)
  · exact List.Pairwise.nil

end Wiring.Cache
