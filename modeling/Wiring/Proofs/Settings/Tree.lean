import Wiring.Settings.Tree
import Mathlib.Data.List.Nodup

/-! # Tables of settings

What a name stands for in a table, after a member has been put there and after a later table has been merged over
it. Trees without wrappings stand for themselves.
-/
namespace Wiring
namespace Setting
variable {name : String} {members earlier later : Members}

theorem member?_cons (m : String × Setting) (members : Members) :
    member? name (m :: members) = if m.1 = name then some m.2 else member? name members := by
  simp only [member?, List.find?_cons]
  split <;> simp_all

theorem member?_put (key : String) (value : Setting) (members : Members) :
    member? name (put key value members) = if key = name then some value else member? name members := by
  induction members with
  | nil => rw [put, member?_cons]
  | cons m members ih =>
    rw [put]
    split_ifs with here same same
    · rw [member?_cons, if_pos same]
    · rw [member?_cons, member?_cons, if_neg same, here, if_neg same]
    · rw [member?_cons, ih, if_pos same, if_neg (by rw [same] at here; exact here)]
    · rw [member?_cons, member?_cons, ih, if_neg same]

theorem member?_eq_none : (∀ m ∈ members, m.1 ≠ name) → member? name members = none := by
  intro absent
  rw [member?, Option.map_eq_none_iff, List.find?_eq_none]
  simpa using absent

theorem member?_of_mem (distinct : (members.map Prod.fst).Nodup) {m : String × Setting} (member : m ∈ members) :
    member? m.1 members = some m.2 := by
  induction members with
  | nil => cases member
  | cons m' members ih =>
    rw [List.map_cons, List.nodup_cons] at distinct
    rw [member?_cons]
    rcases List.mem_cons.mp member with rfl | member
    · exact if_pos rfl
    · rw [if_neg fun same => distinct.1 (List.mem_map.mpr ⟨m, member, same.symm⟩), ih distinct.2 member]

/-- Each member of the later table counts over the one of its name in the earlier table. -/
theorem member?_mergeMembers (distinct : (later.map Prod.fst).Nodup) (earlier : Members) :
    member? name (mergeMembers earlier later) = match member? name later with
      | some x => some (((member? name earlier).map fun e => merge e x).getD x)
      | none => member? name earlier := by
  induction later generalizing earlier with
  | nil => rw [mergeMembers]; rfl
  | cons m later ih =>
    obtain ⟨key, x⟩ := m
    rw [List.map_cons, List.nodup_cons] at distinct
    rw [mergeMembers, ih distinct.2, member?_cons, member?_put]
    by_cases same : key = name
    · subst same
      have absent : member? key later = none :=
        member?_eq_none fun m member same => distinct.1 (List.mem_map.mpr ⟨m, member, same⟩)
      simp only [absent, if_true]
      cases member? key earlier <;> rfl
    · simp only [if_neg same]

/-- Tables without wrappings stand for themselves. -/
theorem unwrap?_table (plain : ∀ m ∈ members, m.1 ≠ tagName ∧ m.1 ≠ wrappedName ∧ unwrap? m.2 = some m.2) :
    unwrap? (.table members) = some (.table members) := by
  have inside : unwrapMembers? members = some members := by
    induction members with
    | nil => rfl
    | cons m members ih =>
      obtain ⟨name, x⟩ := m
      obtain ⟨noTag, -, same⟩ := plain _ (.head _)
      rw [unwrapMembers?, ih fun m member => plain m (.tail _ member)]
      simp [noTag, same]
  have unwrapped : member? wrappedName members = none := member?_eq_none fun m member => (plain m member).2.1
  rw [unwrap?, inside]
  simp [unwrapped]

def isNothing : Setting → Bool
  | .nothing => true
  | _ => false

def isScalar : Setting → Bool
  | .table _ => false
  | .list _ => false
  | _ => true

theorem merge_of_isScalar {x : Setting} (scalar : x.isScalar = true) (earlier : Setting) : merge earlier x = x := by
  cases x with
  | table => cases scalar
  | _ => rw [merge]; nofun

theorem unwrap?_of_isScalar {x : Setting} (scalar : x.isScalar = true) : unwrap? x = some x := by
  cases x with
  | table => cases scalar
  | list => cases scalar
  | _ => rw [unwrap?] <;> nofun

end Setting
end Wiring
