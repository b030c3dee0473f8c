import Wiring.Proofs.Format.Binding

/-! # Snapshots stand for tables

A table is rebuilt from the text of its snapshot. Of entries in any order, and with repeated keys, the last
one of each key counts; the snapshot of the table that they stand for has its keys in order, and to rebuild
the table from it changes nothing.
-/
namespace Wiring.Snapshot

theorem toTable_current {s : Snapshot} (current : s.version = currentVersion) :
    s.toTable = .ok (SortedMap.ofList s.entries) := if_pos current

@[simp] theorem toTable_ofTable (time : Instant) (table : Table) :
    (ofTable time table).toTable = .ok table := by
  rw [toTable_current rfl, ofTable, SortedMap.ofList_entries]

theorem keys_ofTable (time : Instant) (table : Table) :
    ((ofTable time table).entries.map Prod.fst).Pairwise fun a b => compare a b = .lt :=
  List.pairwise_map.mpr table.ascending

theorem toJson_ofTable_congr {time time' : Instant} (same : time'.text = time.text) (table : Table) :
    (ofTable time' table).toJson = (ofTable time table).toJson := by
  simp only [toJson, ofTable, Instant.toJson, same]

/-- The text of a table's snapshot gives the table back, whenever in the years 0 to 9999 it was taken. Every
snapshot of the current version stands for the table in which each key has its last entry, and the snapshot
of that table is in order and stands for it too. -/
theorem stands_for_table :
    (∀ (time : Instant) (table : Table),
      0 ≤ (Instant.dateOfDay time.day).1 → (Instant.dateOfDay time.day).1 ≤ 9999 →
      time.second < 86400 → time.nanosecond < 2000000000 →
      (∀ v ∈ (ofTable time table).literals, v.Sorted) →
      (∀ v ∈ (ofTable time table).literals, v.Integral) →
      (ofTable time table).toJson.depth ≤ 127 →
      ∃ s, ofText? (ofTable time table).toJson.compact = some s ∧
        ofText? (ofTable time table).toJson.indented = some s ∧ s.toTable = .ok table) ∧
    (∀ s : Snapshot, s.version = currentVersion → ∃ table, s.toTable = .ok table ∧
      (∀ key, table.get? key = (s.entries.filter fun e => e.1 = key).getLast?.map Prod.snd) ∧
      ∀ time, (((ofTable time table).entries.map Prod.fst).Pairwise fun a b => compare a b = .lt) ∧
        ∀ time', ∃ again, (ofTable time table).toTable = .ok again ∧
          ofTable time' again = { ofTable time table with time := time' }) := by
  constructor
  · intro time table early late second nanosecond sorted integral shallow
    have range : Instant.minYear ≤ (Instant.dateOfDay time.day).1 ∧
        (Instant.dateOfDay time.day).1 ≤ Instant.maxYear := by
      unfold Instant.minYear Instant.maxYear
      omega
    obtain ⟨time', valid, same⟩ := Instant.exists_valid_text range second nanosecond
    have written := toJson_ofTable_congr same table
    have textual : (ofTable time' table).Textual := ⟨valid, sorted, integral, written ▸ shallow⟩
    rw [← written]
    exact ⟨_, ofText?_print Json.Layout.blank_compact textual,
      ofText?_print Json.Layout.blank_indented textual, toTable_ofTable time' table⟩
  · intro s current
    refine ⟨_, toTable_current current, SortedMap.get?_ofList s.entries, fun time => ?_⟩
    exact ⟨keys_ofTable time _, fun time' => ⟨_, toTable_ofTable time _, rfl⟩⟩

/-- Bindings of each kind, in no order; the second entry of the provided port replaces the first one. -/
def motley : List (Key × Binding) :=
  let defaulted : Parameter := ⟨⟨"app::B", "x"⟩, true, extremes, ⟨"app::A", "new", "b"⟩⟩
  let recipe : Recipe := ⟨⟨"app::A", [defaulted], [⟨"set", [defaulted], true⟩, ⟨"set", [], false⟩], some ""⟩,
    .singleton⟩
  [(⟨"port", "b"⟩, .literal Json.null), (⟨"app::A", ""⟩, .build recipe),
    (⟨"port", ""⟩, .literal extremes), (⟨"port", "b"⟩, .provided recipe .prototype (some "\n"))]

def ides : Instant := ⟨-719454, 30, 1500000000⟩

theorem motley_stands_for_table :
    (∃ s, ofText? (ofTable ides (SortedMap.ofList motley)).toJson.compact = some s ∧
      ofText? (ofTable ides (SortedMap.ofList motley)).toJson.indented = some s ∧
      s.toTable = .ok (SortedMap.ofList motley)) ∧
    ∃ table, (⟨currentVersion, ides, motley⟩ : Snapshot).toTable = .ok table ∧
      table.get? ⟨"port", "b"⟩ = motley.getLast?.map Prod.snd ∧
      ∃ again, (ofTable ides table).toTable = .ok again ∧ ofTable ides again = ofTable ides table := by
  obtain ⟨rebuilt, listed⟩ := stands_for_table
  have literals : (ofTable ides (SortedMap.ofList motley)).literals = List.replicate 5 extremes := by
    decide +kernel
  have all : ∀ v ∈ (ofTable ides (SortedMap.ofList motley)).literals, v = extremes := by
    rw [literals]
    exact fun v => List.eq_of_mem_replicate
  have year : (Instant.dateOfDay ides.day).1 = 0 := by decide +kernel
  constructor
  · exact rebuilt ides (SortedMap.ofList motley) (by omega) (by omega) (by decide) (by decide)
      (fun v member => all v member ▸ sorted_extremes) (fun v member => all v member ▸ integral_extremes)
      (by decide +kernel)
  · obtain ⟨table, read, last, again⟩ := listed ⟨currentVersion, ides, motley⟩ rfl
    refine ⟨table, read, ?_, (again ides).2 ides⟩
    rw [last]
    decide +kernel

end Wiring.Snapshot
