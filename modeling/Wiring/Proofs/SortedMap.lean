import Wiring.SortedMap
import Mathlib.Data.List.Induction
import Mathlib.Data.List.Nodup
import Mathlib.Data.Set.Card

/-! # Lookups in sorted maps

What a map answers after an insertion, and that a map is determined by its entries: reading the
entries of a map back in order gives the same map. Of a list with repeated keys the last entry of each
key is read.
-/
namespace Wiring

variable {κ α : Type} [Ord κ]

namespace Entries

theorem ne_of_compare_lt [Std.ReflOrd κ] {a b : κ} (h : compare a b = .lt) : a ≠ b := by
  rintro rfl
  simp [Std.compare_self] at h

section
variable [Std.LawfulEqOrd κ]

theorem mem_of_lookup {k : κ} {v : α} {entries : List (κ × α)} (h : lookup k entries = some v) :
    (k, v) ∈ entries := by
  induction entries with
  | nil => cases h
  | cons e rest ih =>
    unfold lookup at h
    split at h
    · rename_i same
      obtain rfl := Std.LawfulEqCmp.eq_of_compare same
      cases h
      exact List.mem_cons_self
    · exact List.mem_cons_of_mem _ (ih h)

theorem mem_keys_insert {k q : κ} {v : α} {entries : List (κ × α)} :
    q ∈ (insert k v entries).map Prod.fst ↔ q = k ∨ q ∈ entries.map Prod.fst := by
  induction entries with
  | nil => simp [insert]
  | cons e rest ih =>
    unfold insert
    split
    · simp
    · rename_i same
      obtain rfl := Std.LawfulEqCmp.eq_of_compare same
      simp
    · simp only [List.map_cons, List.mem_cons, ih]
      exact or_left_comm

theorem mem_keys_ofList {k : κ} {entries : List (κ × α)} :
    k ∈ (ofList entries).map Prod.fst ↔ k ∈ entries.map Prod.fst := by
  have step : ∀ (rest sofar : List (κ × α)),
      k ∈ (rest.foldl (fun sofar e => insert e.1 e.2 sofar) sofar).map Prod.fst ↔
        k ∈ sofar.map Prod.fst ∨ k ∈ rest.map Prod.fst := by
    intro rest
    induction rest with
    | nil => simp
    | cons e rest ih =>
      intro sofar
      rw [List.foldl_cons, ih, mem_keys_insert, List.map_cons, List.mem_cons, or_comm (a := k = e.1),
        or_assoc]
  exact (step entries []).trans (or_iff_right List.not_mem_nil)

theorem lookup_of_mem {k : κ} {v : α} {entries : List (κ × α)} (ha : Ascending entries)
    (h : (k, v) ∈ entries) : lookup k entries = some v := by
  induction entries with
  | nil => cases h
  | cons e rest ih =>
    obtain ⟨first, later⟩ := List.pairwise_cons.mp ha
    rcases List.mem_cons.mp h with rfl | h
    · simp [lookup, Std.compare_self]
    · have hne : compare k e.1 ≠ .eq := fun he =>
        ne_of_compare_lt (first (k, v) h) (Std.LawfulEqCmp.eq_of_compare he).symm
      simp only [lookup, hne, if_false, ih later h]

end

section
variable [Std.TransOrd κ]

theorem lookup_insert [Std.LawfulEqOrd κ] (k q : κ) (v : α) (entries : List (κ × α)) :
    lookup q (insert k v entries) = if compare q k = .eq then some v else lookup q entries := by
  induction entries with
  | nil => rfl
  | cons e rest ih =>
    unfold insert
    split
    · rfl
    · rename_i same
      obtain rfl := Std.LawfulEqCmp.eq_of_compare same
      by_cases hq : compare q e.1 = .eq <;> simp [lookup, hq]
    · rename_i above
      by_cases hq : compare q e.1 = .eq
      · obtain rfl := Std.LawfulEqCmp.eq_of_compare hq
        have hne : compare e.1 k ≠ .eq := fun h =>
          ne_of_compare_lt (Std.OrientedCmp.gt_iff_lt.mp above) (Std.LawfulEqCmp.eq_of_compare h)
        simp [lookup, hne]
      · simp only [lookup, hq, if_false, ih]

omit [Std.TransOrd κ] in
theorem lookup_erase [Std.LawfulEqOrd κ] (k q : κ) (entries : List (κ × α)) :
    lookup q (erase k entries) = if compare q k = .eq then none else lookup q entries := by
  unfold erase
  induction entries with
  | nil => simp [lookup]
  | cons e rest ih =>
    by_cases gone : compare k e.1 = .eq
    · rw [List.filter_cons_of_neg (by simp [gone]), ih]
      have same := Std.LawfulEqCmp.eq_of_compare gone
      by_cases hq : compare q e.1 = .eq <;> simp [lookup, same, hq]
    · rw [List.filter_cons_of_pos (by simp [gone]), lookup, lookup, ih]
      by_cases hq : compare q e.1 = .eq
      · have same := Std.LawfulEqCmp.eq_of_compare hq
        have apart : compare q k ≠ .eq := by
          intro other
          rw [← Std.LawfulEqCmp.eq_of_compare other] at gone
          exact gone hq
        simp only [hq, if_true, apart, if_false]
      · simp only [hq, if_false]

theorem insert_above {k : κ} {v : α} {entries : List (κ × α)}
    (h : ∀ e ∈ entries, compare e.1 k = .lt) : insert k v entries = entries ++ [(k, v)] := by
  induction entries with
  | nil => rfl
  | cons e rest ih =>
    have hgt : compare k e.1 = .gt := Std.OrientedCmp.gt_iff_lt.mpr (h e List.mem_cons_self)
    simp only [insert, hgt, List.cons_append]
    rw [ih fun e he => h e (List.mem_cons_of_mem _ he)]

/-- Reading entries that are in order already changes nothing. -/
theorem ofList_of_ascending {entries : List (κ × α)} (h : Ascending entries) :
    ofList entries = entries := by
  have step : ∀ (rest sofar : List (κ × α)), Ascending (sofar ++ rest) →
      rest.foldl (fun sofar e => insert e.1 e.2 sofar) sofar = sofar ++ rest := by
    intro rest
    induction rest with
    | nil => simp
    | cons e rest ih =>
      intro sofar ha
      have below : ∀ x ∈ sofar, compare x.1 e.1 = .lt := fun x hx =>
        (List.pairwise_append.mp ha).2.2 x hx e List.mem_cons_self
      rw [List.foldl_cons, insert_above below, ih (sofar ++ [e]) (by simpa using ha)]
      simp
  exact step entries [] h

end

theorem nodup_of_ascending [Std.ReflOrd κ] {entries : List (κ × α)} (h : Ascending entries) :
    (entries.map Prod.fst).Nodup :=
  List.pairwise_map.mpr (h.imp ne_of_compare_lt)

end Entries

namespace SortedMap

@[simp] theorem get?_empty (k : κ) : (empty : SortedMap κ α).get? k = none := rfl

theorem get?_map {β : Type} (f : α → β) (m : SortedMap κ α) (k : κ) :
    (m.map f).get? k = (m.get? k).map f := by
  have each : ∀ entries : List (κ × α),
      Entries.lookup k (entries.map fun e => (e.1, f e.2)) = (Entries.lookup k entries).map f := by
    intro entries
    induction entries with
    | nil => rfl
    | cons e rest ih =>
      simp only [List.map_cons, Entries.lookup, ih]
      by_cases same : compare k e.1 = .eq <;> simp [same]
  exact each m.entries

section
variable [Std.LawfulEqOrd κ]

theorem mem_entries_iff {m : SortedMap κ α} {k : κ} {v : α} :
    (k, v) ∈ m.entries ↔ m.get? k = some v :=
  ⟨Entries.lookup_of_mem m.ascending, Entries.mem_of_lookup⟩

theorem mem_keys_iff {m : SortedMap κ α} {k : κ} : k ∈ m.keys ↔ ∃ v, m.get? k = some v := by
  simp only [keys, List.mem_map, Prod.exists, exists_and_right, exists_eq_right, mem_entries_iff]

end

theorem keys_nodup [Std.ReflOrd κ] (m : SortedMap κ α) : m.keys.Nodup :=
  Entries.nodup_of_ascending m.ascending

variable [DecidableEq κ] [Std.TransOrd κ] [Std.LawfulEqOrd κ]

omit [DecidableEq κ] in
/-- Maps with the same lookups are the same. -/
theorem ext_get? {m n : SortedMap κ α} (same : ∀ k, m.get? k = n.get? k) : m = n := by
  have nodup : ∀ m : SortedMap κ α, m.entries.Nodup := fun m =>
    m.ascending.imp fun below equal => Entries.ne_of_compare_lt below (congrArg Prod.fst equal)
  have perm : m.entries.Perm n.entries := by
    rw [List.perm_ext_iff_of_nodup (nodup m) (nodup n)]
    rintro ⟨k, v⟩
    rw [mem_entries_iff, mem_entries_iff, same]
  have entries : m.entries = n.entries := by
    refine perm.eq_of_pairwise (fun a b _ _ below above => ?_) m.ascending n.ascending
    exact absurd (Std.TransCmp.lt_trans below above) (by simp [Std.compare_self])
  cases m
  cases n
  cases entries
  rfl

theorem get?_insert (m : SortedMap κ α) (k q : κ) (v : α) :
    (m.insert k v).get? q = if q = k then some v else m.get? q := by
  have h := Entries.lookup_insert k q v m.entries
  simp only [Std.LawfulEqCmp.compare_eq_iff_eq] at h
  exact h

omit [Std.TransOrd κ] in
theorem get?_erase (m : SortedMap κ α) (k q : κ) :
    (m.erase k).get? q = if q = k then none else m.get? q := by
  have h := Entries.lookup_erase k q m.entries
  simp only [Std.LawfulEqCmp.compare_eq_iff_eq] at h
  exact h

theorem get?_insertIfNew (m : SortedMap κ α) (k q : κ) (v : α) :
    (m.insertIfNew k v).get? q = if q = k then some ((m.get? k).getD v) else m.get? q := by
  unfold insertIfNew contains
  cases h : m.get? k with
  | none => simp [get?_insert]
  | some old =>
    by_cases hq : q = k
    · simp [hq, h]
    · simp [hq]

theorem get?_of_insertIfNew {m : SortedMap κ α} {k q : κ} {v w : α}
    (found : (m.insertIfNew k v).get? q = some w) : m.get? q = some w ∨ q = k ∧ w = v := by
  rw [get?_insertIfNew] at found
  by_cases same : q = k
  · rw [if_pos same, Option.some.injEq] at found
    cases old : m.get? k with
    | none =>
      rw [old, Option.getD_none] at found
      exact .inr ⟨same, found.symm⟩
    | some x =>
      rw [old, Option.getD_some] at found
      exact .inl (found ▸ same ▸ old)
  · rw [if_neg same] at found
    exact .inl found

omit [DecidableEq κ] in
theorem insertIfNew_of_get? {m : SortedMap κ α} {k : κ} {old : α} (v : α)
    (h : m.get? k = some old) : m.insertIfNew k v = m := by
  simp [insertIfNew, contains, h]

omit [DecidableEq κ] in
@[simp] theorem ofList_entries (m : SortedMap κ α) : ofList m.entries = m := by
  cases m with
  | mk entries ascending => simp only [ofList, Entries.ofList_of_ascending ascending]

omit [DecidableEq κ] in
theorem mem_keys_ofList {k : κ} {entries : List (κ × α)} :
    k ∈ (ofList entries).keys ↔ k ∈ entries.map Prod.fst := Entries.mem_keys_ofList

/-- Of the entries of a key the last one counts. -/
theorem get?_ofList (entries : List (κ × α)) (k : κ) :
    (ofList entries).get? k = (entries.filter fun e => e.1 = k).getLast?.map Prod.snd := by
  induction entries using List.reverseRecOn with
  | nil => rfl
  | append_singleton entries e ih =>
    have last : ofList (entries ++ [e]) = (ofList entries).insert e.1 e.2 := by
      simp only [ofList, insert, Entries.ofList, List.foldl_append, List.foldl_cons, List.foldl_nil]
    rw [last, get?_insert, ih, List.filter_append]
    by_cases same : e.1 = k
    · rw [if_pos same.symm, List.filter_cons_of_pos (by simpa using same), List.filter_nil,
        List.getLast?_concat, Option.map_some]
    · rw [if_neg (Ne.symm same), List.filter_cons_of_neg (by simpa using same), List.filter_nil,
        List.append_nil]

omit [Std.TransOrd κ] [Std.LawfulEqOrd κ] in
/-- There are no more things than entries if each has a key of its own in the map. -/
theorem encard_le_size (m : SortedMap κ α) {ι : Type} {things : Set ι} (key : ι → κ)
    (apart : things.InjOn key) (inside : ∀ x ∈ things, key x ∈ m.keys) : things.encard ≤ m.size := by
  have maps : things.MapsTo key m.keys.toFinset := fun x member => List.mem_toFinset.mpr (inside x member)
  have count : m.keys.toFinset.card ≤ m.size := by
    simpa [keys, size] using List.toFinset_card_le m.keys
  calc things.encard ≤ (m.keys.toFinset : Set κ).encard := Set.encard_le_encard_of_injOn maps apart
    _ = (m.keys.toFinset.card : ENat) := Set.encard_coe_eq_coe_finsetCard _
    _ ≤ m.size := Nat.cast_le.mpr count

end SortedMap
end Wiring
