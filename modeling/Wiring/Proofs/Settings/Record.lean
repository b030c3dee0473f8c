import Wiring.Proofs.Settings.Document
import Wiring.Proofs.Settings.Tree
import Wiring.Settings.Loader

/-! # Records in settings files

A record of scalars that was written reads back field by field, over whatever defaults; only what is nothing has
left no line, so that it must be nothing by default too. Settings are two such records, and they read back if their
counts are signed words of 64 bits.
-/
namespace Wiring
namespace Toml
open Setting (member? mergeMembers)
variable {members : Setting.Members}

theorem regainMembers?_of_all (distinct : (members.map Prod.fst).Nodup)
    (all : ∀ m ∈ members, regained? m.2 = some m.2) :
    ∃ xs, regainMembers? members = some xs ∧ xs.Sublist members ∧
      ∀ name, member? name xs = (member? name members).filter fun x => !x.isNothing := by
  induction members with
  | nil => exact ⟨[], rfl, .slnil, fun _ => rfl⟩
  | cons m members ih =>
    obtain ⟨key, x⟩ := m
    rw [List.map_cons, List.nodup_cons] at distinct
    obtain ⟨xs, regained, sublist, found⟩ := ih distinct.2 fun m member => all m (.tail _ member)
    by_cases absent : x = .nothing
    · subst absent
      refine ⟨xs, regained, sublist.cons _, fun name => ?_⟩
      rw [Setting.member?_cons, found]
      split_ifs with same
      · have missing : member? name members = none :=
          Setting.member?_eq_none fun m member other =>
            distinct.1 (List.mem_map.mpr ⟨m, member, other.trans same.symm⟩)
        rw [missing]
        rfl
      · rfl
    · refine ⟨(key, x) :: xs, ?_, sublist.cons_cons _, fun name => ?_⟩
      · rw [regainMembers?_cons absent, all _ (.head _), regained]
        rfl
      · have present : x.isNothing = false := by
          cases x <;> first | rfl | exact absurd rfl absent
        rw [Setting.member?_cons, Setting.member?_cons, found]
        split_ifs
        · simp [Option.filter, present]
        · rfl

theorem regainMembers?_of_none {m : String × Setting} (member : m ∈ members) (refused : regained? m.2 = none) :
    regainMembers? members = none := by
  have present {m : String × Setting} (refused : regained? m.2 = none) : m.2 ≠ .nothing := by
    intro same
    rw [same] at refused
    cases refused
  induction members with
  | nil => cases member
  | cons m' members ih =>
    obtain ⟨key, x⟩ := m'
    by_cases absent : x = .nothing
    · subst absent
      rcases List.mem_cons.mp member with rfl | member
      · exact absurd rfl (present refused)
      · exact ih member
    · rw [regainMembers?_cons absent]
      rcases List.mem_cons.mp member with rfl | member
      · rw [refused]
        rfl
      · rw [ih member]
        cases regained? x <;> rfl

/-- The members of a record: scalars under plain names, of which those that are nothing are so by default. -/
structure Record (defaults members : Setting.Members) : Prop where
  named : Named members
  unwrapped : ∀ m ∈ members, m.1 ≠ Setting.tagName ∧ m.1 ≠ Setting.wrappedName
  scalar : ∀ m ∈ members, m.2.isScalar = true
  nothings : ∀ m ∈ members, m.2 = .nothing → member? m.1 defaults = some .nothing

/-- A record that was written and reads back has its fields again over the defaults. -/
theorem Record.exists_regained {defaults : Setting.Members} (record : Record defaults members)
    (all : ∀ m ∈ members, regained? m.2 = some m.2) :
    ∃ xs, regainMembers? members = some xs ∧ Setting.unwrap? (.table xs) = some (.table xs) ∧
      Setting.fields? (members.map Prod.fst) (.table (mergeMembers defaults xs)) =
        some (members.map fun m => some m.2) := by
  have distinct := record.named.nodup
  obtain ⟨xs, regained, sublist, found⟩ := regainMembers?_of_all distinct all
  have plain : Setting.unwrap? (.table xs) = some (.table xs) := by
    refine Setting.unwrap?_table fun m member => ?_
    have there := sublist.subset member
    obtain ⟨noTag, noWrapping⟩ := record.unwrapped m there
    exact ⟨noTag, noWrapping, Setting.unwrap?_of_isScalar (record.scalar m there)⟩
  refine ⟨xs, regained, plain, congrArg some ?_⟩
  rw [List.map_map]
  refine List.map_congr_left fun m member => ?_
  have read := found m.1
  rw [Setting.member?_of_mem distinct member] at read
  rw [Function.comp_apply, Setting.member?_mergeMembers (distinct.sublist (sublist.map _)), read]
  cases absent : m.2.isNothing with
  | true =>
    have nothing : m.2 = .nothing := by
      revert absent
      cases m.2 <;> simp [Setting.isNothing]
    simp [Option.filter, nothing, Setting.isNothing, record.nothings m member nothing]
  | false =>
    simp only [Option.filter, absent]
    cases member? m.1 defaults with
    | none => rfl
    | some e => exact congrArg some (Setting.merge_of_isScalar (record.scalar m member) e)

end Toml

namespace Settings

theorem named_members (s : Settings) : Toml.Named s.members where
  bare := by
    simp only [members, List.forall_mem_cons]
    refine ⟨?_, ?_, nofun⟩ <;> decide
  nodup := by
    simp only [members, List.map_cons, List.map_nil]
    decide

theorem record_logging (l : Logging) : Toml.Record ({} : Logging).members l.members where
  named := by
    refine ⟨?_, ?_⟩
    · simp only [Logging.members, List.forall_mem_cons]
      refine ⟨?_, ?_, ?_, ?_, ?_, nofun⟩ <;> decide
    · simp only [Logging.members, List.map_cons, List.map_nil]
      decide
  unwrapped := by
    simp only [Logging.members, List.forall_mem_cons]
    refine ⟨?_, ?_, ?_, ?_, ?_, nofun⟩ <;> decide
  scalar := by
    obtain ⟨level, json, file, size, files⟩ := l
    simp only [Logging.members, List.forall_mem_cons]
    cases file <;> exact ⟨rfl, rfl, rfl, rfl, rfl, nofun⟩
  nothings := by
    obtain ⟨level, json, file, size, files⟩ := l
    simp only [Logging.members, List.forall_mem_cons]
    cases file <;> exact ⟨nofun, nofun, fun _ => rfl, nofun, nofun, nofun⟩

theorem record_compiler (c : Compiler) : Toml.Record ({} : Compiler).members c.members where
  named := by
    refine ⟨?_, ?_⟩
    · simp only [Compiler.members, List.forall_mem_cons]
      refine ⟨?_, ?_, nofun⟩ <;> decide
    · simp only [Compiler.members, List.map_cons, List.map_nil]
      decide
  unwrapped := by
    simp only [Compiler.members, List.forall_mem_cons]
    refine ⟨?_, ?_, nofun⟩ <;> decide
  scalar := by
    simp only [Compiler.members, List.forall_mem_cons]
    exact ⟨rfl, rfl, nofun⟩
  nothings := by
    simp only [Compiler.members, List.forall_mem_cons]
    exact ⟨nofun, nofun, nofun⟩

/-- The counts are signed words of 64 bits. -/
def Logging.Signed (l : Logging) : Prop := Signed64 l.maxFileSize.toNat ∧ Signed64 l.maxFiles.toNat

theorem count?_toNat (n : UInt64) : Setting.count? (.integer n.toNat) = some n := by
  have fits : Unsigned64 (n.toNat : Int) := ⟨Int.natCast_nonneg _, Int.ofNat_lt.mpr n.toNat_lt⟩
  rw [Setting.count?, if_pos fits, Int.toNat_natCast, Nat.toUInt64, UInt64.ofNat_toNat]

theorem Logging.ofTree?_of_fields {tree : Setting} {l : Logging}
    (fields : Setting.fields? ["level", "json_format", "file_output", "max_file_size", "max_files"] tree =
      some (l.members.map fun m => some m.2)) : ofTree? tree = some l := by
  obtain ⟨level, json, file, size, files⟩ := l
  rw [ofTree?, fields]
  simp only [members, List.map_cons, List.map_nil, Option.bind_eq_bind, Option.bind_some, Setting.field]
  rw [count?_toNat, count?_toNat]
  cases file <;> rfl

theorem Compiler.ofTree?_of_fields {tree : Setting} {c : Compiler}
    (fields : Setting.fields? ["cache_dir", "pretty_units"] tree = some (c.members.map fun m => some m.2)) :
    ofTree? tree = some c := by
  rw [ofTree?, fields]
  rfl

theorem ofTree?_members (s : Settings) : ofTree? (.table s.members) = some s := by
  have fields : Setting.fields? ["logging", "compiler"] (.table s.members) =
      some [some (.table s.logging.members), some (.table s.compiler.members)] := rfl
  have logging : Logging.ofTree? (.table s.logging.members) = some s.logging := Logging.ofTree?_of_fields rfl
  have compiler : Compiler.ofTree? (.table s.compiler.members) = some s.compiler := Compiler.ofTree?_of_fields rfl
  rw [ofTree?, fields]
  simp [Setting.field, logging, compiler]

theorem checked_of {s : Settings} {level : Level} (known : Level.ofLowerCase? s.logging.level.toLower = some level)
    (nonempty : s.compiler.cacheDirectory ≠ "") : s.checked = .ok s := by
  simp only [checked, Level.ofText, known, nonempty, if_false]
  rfl

theorem checked_default : default.checked = .ok default := by
  have known : Level.ofLowerCase? default.logging.level.toLower = some .info := by decide +kernel
  exact checked_of known (by decide)

theorem ofRange_of_signed {n : Int} (signed : Signed64 n) : Toml.ofRange n = some (.integer n) := if_pos signed

theorem ofRange_eq_none {n : Int} (large : ¬ Signed64 n) : Toml.ofRange n = none := if_neg large

theorem regained_logging {l : Logging} (signed : l.Signed) : ∀ m ∈ l.members, Toml.regained? m.2 = some m.2 := by
  obtain ⟨level, json, file, size, files⟩ := l
  simp only [Logging.members, List.forall_mem_cons]
  cases file <;> exact ⟨rfl, rfl, rfl, ofRange_of_signed signed.1, ofRange_of_signed signed.2, nofun⟩

theorem regainMembers?_logging_eq_none {l : Logging} (large : ¬ l.Signed) : Toml.regainMembers? l.members = none := by
  by_cases signed : Signed64 l.maxFileSize.toNat
  · have other : ¬ Signed64 l.maxFiles.toNat := fun files => large ⟨signed, files⟩
    exact Toml.regainMembers?_of_none (m := ("max_files", .integer l.maxFiles.toNat)) (by simp [Logging.members])
      (ofRange_eq_none other)
  · exact Toml.regainMembers?_of_none (m := ("max_file_size", .integer l.maxFileSize.toNat))
      (by simp [Logging.members]) (ofRange_eq_none signed)

theorem regained_compiler (c : Compiler) : ∀ m ∈ c.members, Toml.regained? m.2 = some m.2 := by
  simp only [Compiler.members, List.forall_mem_cons]
  exact ⟨rfl, rfl, nofun⟩

theorem inside_members (s : Settings) :
    ∀ name members, (name, .table members) ∈ s.members → Toml.Named members := by
  intro name inside member
  simp only [members, List.mem_cons, List.not_mem_nil, or_false, Prod.mk.injEq, Setting.table.injEq] at member
  rcases member with ⟨-, rfl⟩ | ⟨-, rfl⟩
  · exact (record_logging s.logging).named
  · exact (record_compiler s.compiler).named

theorem read_fileText {s : Settings} {document : String} (written : s.fileText = .ok document) :
    Toml.read document = (Toml.regainMembers? s.logging.members).bind fun logging =>
      (Toml.regainMembers? s.compiler.members).map fun compiler =>
        [("logging", .table logging), ("compiler", .table compiler)] := by
  have wrote : Toml.write s.members = some document := by
    unfold fileText at written
    split at written
    · rename_i text same
      cases written
      exact same
    · cases written
  rw [Toml.read_write (named_members s) (inside_members s) wrote, members, Toml.regainTables?_cons,
    Toml.regainTables?_cons]
  cases Toml.regainMembers? s.logging.members with
  | none => rfl
  | some logging => cases Toml.regainMembers? s.compiler.members <;> rfl

theorem read?_eq_none {s : Settings} {document : String} (written : s.fileText = .ok document)
    (large : ¬ s.logging.Signed) : Loader.read? document = none := by
  rw [Loader.read?, read_fileText written, regainMembers?_logging_eq_none large]
  rfl

/-- Settings with signed counts are what is read from their file over the defaults. -/
theorem exists_read? {s : Settings} {document : String} (written : s.fileText = .ok document)
    (signed : s.logging.Signed) : ∃ file, Loader.read? document = some file ∧
      ofTree? ((Setting.merge (.table default.members) file).merge (.table [])) = some s := by
  obtain ⟨logging, readLogging, plainLogging, fieldsLogging⟩ :=
    (record_logging s.logging).exists_regained (regained_logging signed)
  obtain ⟨compiler, readCompiler, plainCompiler, fieldsCompiler⟩ :=
    (record_compiler s.compiler).exists_regained (regained_compiler s.compiler)
  refine ⟨.table [("logging", .table logging), ("compiler", .table compiler)], ?_, ?_⟩
  · rw [Loader.read?, read_fileText written, readLogging, readCompiler]
    simp [plainLogging, plainCompiler]
  · have fields : Setting.fields? ["logging", "compiler"] ((Setting.merge (.table default.members)
        (.table [("logging", .table logging), ("compiler", .table compiler)])).merge (.table [])) =
          some [some (.table (Setting.mergeMembers ({} : Logging).members logging)),
            some (.table (Setting.mergeMembers ({} : Compiler).members compiler))] := by
      simp [Setting.merge, Setting.mergeMembers, Setting.fields?, Setting.member?, Setting.put, members, default]
    rw [ofTree?, fields]
    simp [Setting.field, Logging.ofTree?_of_fields fieldsLogging, Compiler.ofTree?_of_fields fieldsCompiler]

end Settings
end Wiring
