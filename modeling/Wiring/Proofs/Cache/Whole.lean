import Wiring.Proofs.Cache.Orderly
import Wiring.Proofs.Disk.Whole

/-! # A cache's writes are whole

The temporary name that a disk gives is fresh, so a write of an artifact that fails leaves every file as it
was, except that the lock may have been made.
-/
namespace Wiring
open Disk Disk.Replace

section
variable (disk : Disk)

theorem Disk.exists_untaken : ∃ n < disk.nodes.size + 1,
    ∀ place ∈ disk.nodes.keys, place.getLast? ≠ some (temporaryName n) := by
  by_contra taken
  push Not at taken
  have inside : (List.range (disk.nodes.size + 1)).map (fun n => some (temporaryName n)) ⊆
      disk.nodes.keys.map List.getLast? := by
    intro last member
    obtain ⟨n, bound, rfl⟩ := List.mem_map.mp member
    obtain ⟨place, there, ends⟩ := taken n (List.mem_range.mp bound)
    exact List.mem_map.mpr ⟨place, there, ends⟩
  have apart : ((List.range (disk.nodes.size + 1)).map fun n => some (temporaryName n)).Nodup :=
    List.nodup_range.map fun m n same => temporaryName_injective (Option.some.inj same)
  have size := (apart.subperm inside).length_le
  rw [List.length_map, List.length_map, List.length_range, SortedMap.keys, List.length_map] at size
  exact absurd size (Nat.not_succ_le_self _)

theorem exists_find_untaken (taken : Nat → Bool) {m bound : Nat} (inside : m < bound) (free : taken m = false) :
    ∃ n, (List.range bound).find? (fun n => !taken n) = some n ∧ taken n = false := by
  obtain ⟨n, found⟩ := Option.isSome_iff_exists.mp
    (List.find?_isSome.mpr ⟨m, List.mem_range.mpr inside, by rw [free]; rfl⟩ :
      ((List.range bound).find? fun n => !taken n).isSome)
  exact ⟨n, found, by simpa using List.find?_some found⟩

theorem Disk.exists_freshName : ∃ n, disk.freshName = temporaryName n ∧
    ∀ place ∈ disk.nodes.keys, place.getLast? ≠ some (temporaryName n) := by
  obtain ⟨m, bound, untaken⟩ := disk.exists_untaken
  obtain ⟨n, found, free⟩ := exists_find_untaken
    (fun n => disk.nodes.keys.any fun place => place.getLast? = some (temporaryName n)) bound
    (by simpa [List.any_eq_false] using untaken)
  refine ⟨n, ?_, by simpa [List.any_eq_false] using free⟩
  simp only [freshName, found, Option.getD_some]

end

theorem Cache.fresh_freshName (c : Cache) (a : Artifact) : Fresh c.disk (c.path a) c.disk.freshName := by
  obtain ⟨n, named, untaken⟩ := c.disk.exists_freshName
  obtain ⟨above, parent, beside⟩ := exists_parent_aim c.root a.isName
  have proper := isName_temporaryName n
  have place : besides (c.path a) (temporaryName n) = aim c.root ++ [temporaryName n] := by
    rw [besides, path, parent, Option.getD_some, aim_join above proper, beside]
  have apart : ∀ f : File, File.temporary n ≠ f → aim c.root ++ [temporaryName n] ≠ aim c.root ++ [f.name] :=
    fun f differ same => differ (File.name_injective (List.singleton_inj.mp (List.append_cancel_left same)))
  rw [named]
  refine ⟨proper, ?_, ?_, ?_⟩
  · refine bytes?_of_node ?_
    rw [place, ← get?_of_name c.disk proper.climbs]
    by_contra there
    obtain ⟨node, held⟩ := Option.ne_none_iff_exists'.mp there
    exact untaken _ (SortedMap.mem_keys_iff.mpr ⟨node, held⟩) (List.getLast?_concat ..)
  · rw [place, path, aim_join c.root a.isName]
    exact apart (.artifact a) (by rintro ⟨⟩)
  · rw [place, path, lockPath_join, aim_join c.root (isName_lockPath a.isName)]
    exact apart (.lock a) (by rintro ⟨⟩)

/-- A write that fails leaves the files as they were, and no temporary file, but maybe the lock. -/
theorem Cache.write_error {c c' : Cache} {a : Artifact} {j : Json} {e : Error} {place : List String}
    (ran : (write (c.path a) j).runOn c = (.error e, c')) (other : place ≠ aim c.root ++ [lockPath a.name]) :
    c'.disk.bytes? place = c.disk.bytes? place := by
  obtain ⟨proper, free, -, unlocked⟩ := c.fresh_freshName a
  obtain ⟨above, parent, -⟩ := exists_parent_aim c.root a.isName
  change Path.parent? (c.path a) = some above at parent
  have lock : aim (lockPath (c.path a)) = aim c.root ++ [lockPath a.name] := by
    rw [path, lockPath_join, aim_join c.root (isName_lockPath a.isName)]
  rw [besides, parent, Option.getD_some] at free unlocked
  rw [runOn_write, runOn_replaceFile, runOn_alone] at ran
  obtain ⟨ended, rfl⟩ := Prod.mk.inj ran
  obtain ⟨along, gone⟩ := replace_error (p := ⟨c.disk, []⟩) parent proper free unlocked (Prod.ext ended rfl)
  by_cases temp : place = aim (Path.join above c.disk.freshName)
  · rw [temp]
    exact (gone rfl).trans free.symm
  · refine along.1.toTouches.bytes? ?_
    rw [lock]
    simp [other, temp]

end Wiring
