/-! # Finite maps in key order

A map is the list of its entries in strictly increasing key order. Two maps with
the same lookups are therefore the same list, and iteration is in key order.
-/
namespace Wiring

variable {κ α β : Type}

/-- Entries in strictly increasing key order, which leaves no room for a repeated key. -/
def Ascending [Ord κ] (entries : List (κ × α)) : Prop :=
  entries.Pairwise fun a b => compare a.1 b.1 = .lt

namespace Entries
variable [Ord κ]

def lookup (k : κ) : List (κ × α) → Option α
  | [] => none
  | e :: rest => if compare k e.1 = .eq then some e.2 else lookup k rest

def insert (k : κ) (v : α) : List (κ × α) → List (κ × α)
  | [] => [(k, v)]
  | e :: rest =>
    match compare k e.1 with
    | .lt => (k, v) :: e :: rest
    | .eq => (k, v) :: rest
    | .gt => e :: insert k v rest

def erase (k : κ) (entries : List (κ × α)) : List (κ × α) :=
  entries.filter fun e => compare k e.1 != .eq

/-- Entries in key order; of two entries with one key the later one stays. -/
def ofList (entries : List (κ × α)) : List (κ × α) :=
  entries.foldl (fun sofar e => insert e.1 e.2 sofar) []

theorem mem_insert {k : κ} {v : α} {entries : List (κ × α)} {e : κ × α}
    (h : e ∈ insert k v entries) : e = (k, v) ∨ e ∈ entries := by
  induction entries with
  | nil => simpa [insert] using h
  | cons head rest ih =>
    unfold insert at h
    split at h
    · simpa using h
    · rcases List.mem_cons.mp h with h | h
      · exact .inl h
      · exact .inr (List.mem_cons_of_mem _ h)
    · rcases List.mem_cons.mp h with h | h
      · exact .inr (h ▸ List.mem_cons_self)
      · exact (ih h).imp_right (List.mem_cons_of_mem _)

variable [Std.TransOrd κ] [Std.LawfulEqOrd κ]

theorem ascending_insert (k : κ) (v : α) {entries : List (κ × α)} (h : Ascending entries) :
    Ascending (insert k v entries) := by
  induction entries with
  | nil => simp [insert, Ascending]
  | cons head rest ih =>
    obtain ⟨first, later⟩ := List.pairwise_cons.mp h
    unfold insert
    split
    · rename_i below
      refine List.pairwise_cons.mpr ⟨fun e he => ?_, h⟩
      rcases List.mem_cons.mp he with rfl | he
      · exact below
      · exact Std.TransCmp.lt_trans below (first e he)
    · rename_i same
      refine List.pairwise_cons.mpr ⟨fun e he => ?_, later⟩
      rw [Std.LawfulEqCmp.eq_of_compare same]
      exact first e he
    · rename_i above
      refine List.pairwise_cons.mpr ⟨fun e he => ?_, ih later⟩
      rcases mem_insert he with rfl | he
      · exact Std.OrientedCmp.gt_iff_lt.mp above
      · exact first e he

theorem ascending_ofList (entries : List (κ × α)) : Ascending (ofList entries) := by
  have step : ∀ (sofar : List (κ × α)), Ascending sofar →
      Ascending (entries.foldl (fun sofar e => insert e.1 e.2 sofar) sofar) := by
    induction entries with
    | nil => exact fun _ h => h
    | cons e rest ih => exact fun _ h => ih _ (ascending_insert e.1 e.2 h)
  exact step [] List.Pairwise.nil

end Entries

/-- A finite map: its entries, in strictly increasing key order. -/
structure SortedMap (κ α : Type) [Ord κ] where
  entries : List (κ × α)
  ascending : Ascending entries

namespace SortedMap
variable [Ord κ]

def empty : SortedMap κ α := ⟨[], List.Pairwise.nil⟩

instance : EmptyCollection (SortedMap κ α) := ⟨empty⟩
instance : Inhabited (SortedMap κ α) := ⟨empty⟩

instance [DecidableEq κ] [DecidableEq α] : DecidableEq (SortedMap κ α) := fun a b =>
  decidable_of_iff (a.entries = b.entries) (by cases a; cases b; simp)

def get? (m : SortedMap κ α) (k : κ) : Option α := Entries.lookup k m.entries

def contains (m : SortedMap κ α) (k : κ) : Bool := (m.get? k).isSome

def keys (m : SortedMap κ α) : List κ := m.entries.map Prod.fst

def size (m : SortedMap κ α) : Nat := m.entries.length

def isEmpty (m : SortedMap κ α) : Bool := m.entries.isEmpty

def erase (m : SortedMap κ α) (k : κ) : SortedMap κ α :=
  ⟨Entries.erase k m.entries, m.ascending.filter _⟩

def map (f : α → β) (m : SortedMap κ α) : SortedMap κ β :=
  ⟨m.entries.map fun e => (e.1, f e.2), by
    simpa [Ascending, List.pairwise_map] using m.ascending⟩

variable [Std.TransOrd κ] [Std.LawfulEqOrd κ]

def insert (m : SortedMap κ α) (k : κ) (v : α) : SortedMap κ α :=
  ⟨Entries.insert k v m.entries, Entries.ascending_insert k v m.ascending⟩

/-- Adds an entry unless the key is there already. -/
def insertIfNew (m : SortedMap κ α) (k : κ) (v : α) : SortedMap κ α :=
  if m.contains k then m else m.insert k v

def ofList (entries : List (κ × α)) : SortedMap κ α :=
  ⟨Entries.ofList entries, Entries.ascending_ofList entries⟩

end SortedMap
end Wiring
