import Wiring.Disk.Path
import Mathlib.Data.List.Infix

/-! # The steps of paths

A name joined to a directory adds one step to its steps, and the parent of the joined path leads to the
directory again: it is the beginning of the directory's path, less points at its end.
-/
namespace Wiring.Path

theorem split_ne_nil (cs : List Char) : split cs ≠ [] := by
  cases cs with
  | nil => simp [split]
  | cons c cs =>
    unfold split
    split_ifs
    · simp
    · split <;> simp

theorem split_append_slash (a b : List Char) : split (a ++ '/' :: b) = split a ++ split b := by
  induction a with
  | nil => simp [split]
  | cons c a ih =>
    by_cases slash : c = '/'
    · simp [split, slash, ih]
    · obtain ⟨first, more, parts⟩ := List.exists_cons_of_ne_nil (split_ne_nil a)
      simp [split, slash, ih, parts]

theorem split_of_not_mem {cs : List Char} (whole : '/' ∉ cs) : split cs = [cs] := by
  induction cs with
  | nil => rfl
  | cons c cs ih =>
    have slash : c ≠ '/' := fun same => whole (same ▸ List.mem_cons_self)
    have later : '/' ∉ cs := fun member => whole (List.mem_cons_of_mem _ member)
    simp [split, slash, ih later]

theorem split_append_of_not_mem {more : List Char} (whole : '/' ∉ more) (cs : List Char) :
    ∃ front last, split cs = front ++ [last] ∧ split (cs ++ more) = front ++ [last ++ more] := by
  induction cs with
  | nil => exact ⟨[], [], rfl, split_of_not_mem whole⟩
  | cons c cs ih =>
    obtain ⟨front, last, own, longer⟩ := ih
    by_cases slash : c = '/'
    · exact ⟨[] :: front, last, by simp [split, slash, own], by simp [split, slash, longer]⟩
    · cases front with
      | nil => exact ⟨[], c :: last, by simp [split, slash, own], by simp [split, slash, longer]⟩
      | cons first rest =>
        exact ⟨(c :: first) :: rest, last, by simp [split, slash, own], by simp [split, slash, longer]⟩

theorem not_mem_of_mem_split {cs part : List Char} (member : part ∈ split cs) : '/' ∉ part := by
  induction cs generalizing part with
  | nil => simp_all [split]
  | cons c cs ih =>
    by_cases slash : c = '/'
    · simp only [split, slash, if_pos, List.mem_cons] at member
      rcases member with rfl | member
      · exact List.not_mem_nil
      · exact ih member
    · obtain ⟨first, more, parts⟩ := List.exists_cons_of_ne_nil (split_ne_nil cs)
      rw [parts] at ih
      simp only [split, if_neg slash, parts, List.mem_cons] at member
      rcases member with rfl | member
      · intro inside
        rcases List.mem_cons.mp inside with same | inside
        · exact slash same.symm
        · exact ih List.mem_cons_self inside
      · exact ih (List.mem_cons_of_mem _ member)

theorem joinParts_cons (part : List Char) {rest : List (List Char)} (more : rest ≠ []) :
    joinParts (part :: rest) = part ++ '/' :: joinParts rest := by
  obtain ⟨next, later, rfl⟩ := List.exists_cons_of_ne_nil more
  rfl

theorem joinParts_split (cs : List Char) : joinParts (split cs) = cs := by
  induction cs with
  | nil => rfl
  | cons c cs ih =>
    by_cases slash : c = '/'
    · simp only [split, slash, if_pos, joinParts_cons [] (split_ne_nil cs), ih, List.nil_append]
    · obtain ⟨first, more, parts⟩ := List.exists_cons_of_ne_nil (split_ne_nil cs)
      simp only [split, if_neg slash, parts]
      rw [parts] at ih
      cases more with
      | nil => exact congrArg (c :: ·) ih
      | cons next later => exact congrArg (c :: ·) ih

theorem split_joinParts {parts : List (List Char)} (nonempty : parts ≠ []) (whole : ∀ part ∈ parts, '/' ∉ part) :
    split (joinParts parts) = parts := by
  induction parts with
  | nil => exact absurd rfl nonempty
  | cons part rest ih =>
    obtain ⟨first, later⟩ := List.forall_mem_cons.mp whole
    by_cases last : rest = []
    · rw [last]
      exact split_of_not_mem first
    · rw [joinParts_cons part last, split_append_slash, split_of_not_mem first, ih last later]
      rfl

theorem joinParts_cons_ne_nil {first : List Char} (nonempty : first ≠ []) (rest : List (List Char)) :
    joinParts (first :: rest) ≠ [] := by
  cases rest with
  | nil => exact nonempty
  | cons next rest => exact List.append_ne_nil_of_left_ne_nil nonempty _

theorem joinParts_isPrefix {front all : List (List Char)} (begins : front <+: all) :
    joinParts front <+: joinParts all := by
  obtain ⟨rest, rfl⟩ := begins
  induction front with
  | nil => exact List.nil_prefix
  | cons part front ih =>
    by_cases last : front = []
    · subst last
      cases rest with
      | nil => exact List.prefix_refl _
      | cons next rest => exact List.prefix_append _ _
    · have more : front ++ rest ≠ [] := List.append_ne_nil_of_left_ne_nil last rest
      rw [List.cons_append, joinParts_cons part last, joinParts_cons part more]
      exact (List.prefix_append_right_inj part).mpr (List.cons_prefix_cons.mpr ⟨rfl, ih⟩)

/-- A part that leads nowhere. -/
def Idle (part : List Char) : Prop := part = [] ∨ part = ['.']

theorem trimRight_go (start : Bool) (parts : List (List Char)) :
    ∃ idle, parts = idle ++ trimRight.go start parts ∧ ∀ part ∈ idle, Idle part := by
  induction parts with
  | nil => exact ⟨[], rfl, nofun⟩
  | cons part earlier ih =>
    unfold trimRight.go
    split
    · rename_i drops
      obtain ⟨idle, same, all⟩ := ih
      refine ⟨part :: idle, congrArg (part :: ·) same, List.forall_mem_cons.mpr ⟨?_, all⟩⟩
      exact drops.imp_right And.left
    · exact ⟨[], rfl, nofun⟩

theorem trimRight_append (start : Bool) (parts : List (List Char)) :
    ∃ idle, parts = trimRight start parts ++ idle ∧ ∀ part ∈ idle, Idle part := by
  obtain ⟨idle, same, all⟩ := trimRight_go start parts.reverse
  refine ⟨idle.reverse, ?_, fun part member => all part (List.mem_reverse.mp member)⟩
  rw [trimRight, ← List.reverse_append, ← same, List.reverse_reverse]

/-- A name at the end stays. -/
theorem trimRight_concat (start : Bool) (parts : List (List Char)) {name : List Char}
    (leads : ¬ Idle name) : trimRight start (parts ++ [name]) = parts ++ [name] := by
  have stays : ¬ (name = [] ∨ (name = ['.'] ∧ ¬ (start ∧ parts.reverse = []))) :=
    fun drops => leads (drops.imp_right And.left)
  rw [trimRight, List.reverse_concat, trimRight.go, if_neg stays, List.reverse_cons, List.reverse_reverse]

theorem trimRight_start {first : List Char} (nonempty : first ≠ []) (parts : List (List Char)) :
    ∃ rest, trimRight true (first :: parts) = first :: rest := by
  have ends : ∀ later : List (List Char), ∃ rest, trimRight.go true (later ++ [first]) = rest ++ [first] := by
    intro later
    induction later with
    | nil => exact ⟨[], by simp [trimRight.go, nonempty]⟩
    | cons part later ih =>
      rw [List.cons_append, trimRight.go]
      split
      · exact ih
      · exact ⟨part :: later, rfl⟩
  obtain ⟨rest, same⟩ := ends parts.reverse
  exact ⟨rest.reverse, by rw [trimRight, List.reverse_cons, same, List.reverse_concat]⟩

/-- The steps that parts stand for. -/
def stepsOf (parts : List (List Char)) : List String :=
  (parts.filter fun part => part ≠ []).map String.ofList

theorem stepsOf_append (front more : List (List Char)) :
    stepsOf (front ++ more) = stepsOf front ++ stepsOf more := by
  rw [stepsOf, List.filter_append, List.map_append]
  rfl

theorem stepsOf_singleton {part : List Char} (nonempty : part ≠ []) : stepsOf [part] = [String.ofList part] := by
  rw [stepsOf, List.filter_cons_of_pos (by simp [nonempty]), List.filter_nil, List.map_singleton]

theorem stepsOf_idle {parts : List (List Char)} (idle : ∀ part ∈ parts, Idle part) :
    ∃ count, stepsOf parts = List.replicate count "." := by
  refine ⟨_, List.eq_replicate_of_mem fun step member => ?_⟩
  obtain ⟨part, inside, rfl⟩ := List.mem_map.mp member
  obtain ⟨inside, held⟩ := List.mem_filter.mp inside
  rcases idle part inside with rfl | rfl
  · exact absurd held (by decide)
  · rfl

theorem stepsOf_split_joinParts {parts : List (List Char)} (whole : ∀ part ∈ parts, '/' ∉ part) :
    stepsOf (split (joinParts parts)) = stepsOf parts := by
  by_cases none : parts = []
  · rw [none]
    rfl
  · rw [split_joinParts none whole]

theorem steps_eq (path : String) : steps path = stepsOf (split path.toList) := rfl

/-- A text that names a file in a directory. -/
structure IsName (name : String) : Prop where
  nonempty : name.toList ≠ []
  whole : '/' ∉ name.toList
  stays : name ≠ "."
  climbs : name ≠ ".."
  nameable : '\x00' ∉ name.toList

theorem IsName.leads {name : String} (proper : IsName name) : ¬ Idle name.toList := by
  rintro (empty | point)
  · exact proper.nonempty empty
  · exact proper.stays (String.toList_injective point)

section
variable {root : String} {stem : List Char}

theorem steps_of_stem (ends : root.toList = stem ∨ root.toList = stem ++ ['/']) :
    steps root = stepsOf (split stem) := by
  rcases ends with same | slashed
  · rw [steps_eq, same]
  · rw [steps_eq, slashed, split_append_slash, stepsOf_append]
    exact List.append_nil _

variable (nonempty : root.toList ≠ [])
include nonempty

theorem toList_join (name : String) : ∃ stem, (join root name).toList = stem ++ '/' :: name.toList ∧
    (root.toList = stem ∨ root.toList = stem ++ ['/']) := by
  by_cases slash : root.toList.getLast? = '/'
  · obtain ⟨stem, ends⟩ := List.getLast?_eq_some_iff.mp slash
    refine ⟨stem, ?_, .inr ends⟩
    rw [join, if_neg nonempty, if_pos slash, String.toList_append, ends]
    simp
  · refine ⟨root.toList, ?_, .inl rfl⟩
    rw [join, if_neg nonempty, if_neg slash, String.toList_append, String.toList_append]
    simp

theorem isPrefix_join (name : String) : root.toList <+: (join root name).toList := by
  simp only [join, if_neg nonempty]
  split_ifs
  · rw [String.toList_append]
    exact List.prefix_append _ _
  · rw [String.toList_append, String.toList_append, List.append_assoc]
    exact List.prefix_append _ _

theorem join_append (name more : String) : join root name ++ more = join root (name ++ more) := by
  simp only [join, if_neg nonempty]
  split_ifs <;> simp only [String.append_assoc]

theorem isAbsolute_join (name : String) : isAbsolute (join root name) = isAbsolute root := by
  have first : (join root name).toList.head? = root.toList.head? := by
    obtain ⟨c, cs, same⟩ := List.exists_cons_of_ne_nil nonempty
    simp only [join, if_neg nonempty]
    split_ifs <;> simp [String.toList_append, same]
  rw [isAbsolute, isAbsolute, first]

/-- The parts of a path below a directory are the name and what stands for the directory: the parts of its
text without the root. -/
theorem parts_join {name : String} (proper : IsName name) :
    ∃ own, parts (join root name) = own ++ [name.toList] ∧ steps root = stepsOf own ∧
      (∀ part ∈ own, '/' ∉ part) ∧
      (isAbsolute root = false → ∃ first rest, own = first :: rest ∧ first ≠ []) ∧
      (if isAbsolute root then ['/'] else []) ++ joinParts own <+: root.toList := by
  obtain ⟨stem, joined, ends⟩ := toList_join nonempty name
  have short : stem <+: root.toList := by
    rcases ends with same | slashed
    · rw [same]
    · exact slashed ▸ List.prefix_append _ _
  have joins : split (join root name).toList = split stem ++ [name.toList] := by
    rw [joined, split_append_slash, split_of_not_mem proper.whole]
  have kept : ∀ start own, trimRight start (own ++ [name.toList]) = own ++ [name.toList] :=
    fun start own => trimRight_concat start own proper.leads
  rw [parts, isAbsolute_join nonempty, joins, steps_of_stem ends]
  cases stem with
  | nil =>
    have slash : root.toList = ['/'] := ends.resolve_left nonempty
    have absolute : isAbsolute root = true := by rw [isAbsolute, slash]; rfl
    rw [absolute, slash]
    exact ⟨[], kept _ [], rfl, nofun, nofun, List.prefix_refl _⟩
  | cons c cs =>
    have first : root.toList.head? = some c := by
      rcases ends with same | slashed
      · rw [same]; rfl
      · rw [slashed]; rfl
    by_cases slash : c = '/'
    · subst slash
      have absolute : isAbsolute root = true := by rw [isAbsolute, first]; rfl
      have own : split ('/' :: cs) = [] :: split cs := rfl
      rw [absolute, own]
      refine ⟨split cs, kept _ _, rfl, fun _ => not_mem_of_mem_split, nofun, ?_⟩
      rw [joinParts_split]
      exact short
    · have relative : isAbsolute root = false := by
        rw [isAbsolute, first]
        simp [slash]
      obtain ⟨part, rest, parts⟩ := List.exists_cons_of_ne_nil (split_ne_nil cs)
      rw [relative]
      refine ⟨split (c :: cs), kept _ _, rfl, fun _ => not_mem_of_mem_split, fun _ => ?_, ?_⟩
      · exact ⟨c :: part, rest, by rw [split, if_neg slash, parts], List.cons_ne_nil c part⟩
      · rw [joinParts_split]
        exact short

/-- The parent of a path below a directory is the beginning of the directory's own path, and leads there. -/
theorem exists_parent_join {name : String} (proper : IsName name) :
    ∃ above idle, parent? (join root name) = some above ∧ above.toList ≠ [] ∧
      above.toList <+: root.toList ∧ steps root = steps above ++ List.replicate idle "." := by
  obtain ⟨own, joins, leads, whole, begins, short⟩ := parts_join nonempty proper
  obtain ⟨idle, same, all⟩ := trimRight_append (!isAbsolute root) own
  obtain ⟨count, points⟩ := stepsOf_idle all
  have kept : ∀ part ∈ trimRight (!isAbsolute root) own, '/' ∉ part := fun part member =>
    whole part (same ▸ List.mem_append_left _ member)
  have found : parent? (join root name) = some (String.ofList ((if isAbsolute root then ['/'] else []) ++
      joinParts (trimRight (!isAbsolute root) own))) := by
    obtain ⟨part, rest, more⟩ := List.exists_cons_of_ne_nil (List.append_ne_nil_of_right_ne_nil own
      (List.cons_ne_nil name.toList []))
    rw [more] at joins
    rw [parent?, joins, isAbsolute_join nonempty]
    simp only
    rw [← more, List.dropLast_concat]
  refine ⟨_, count, found, ?_, ?_, ?_⟩
  · rw [String.toList_ofList]
    cases absolute : isAbsolute root with
    | true => exact List.cons_ne_nil _ _
    | false =>
      obtain ⟨first, rest, rfl, named⟩ := begins absolute
      obtain ⟨rest, stays⟩ := trimRight_start named rest
      rw [Bool.not_false, stays]
      exact joinParts_cons_ne_nil named rest
  · rw [String.toList_ofList]
    refine List.IsPrefix.trans ?_ short
    exact (List.prefix_append_right_inj _).mpr (joinParts_isPrefix ⟨idle, same.symm⟩)
  · have below : stepsOf own = stepsOf (split (joinParts (trimRight (!isAbsolute root) own))) ++
        List.replicate count "." := by
      conv_lhs => rw [same, stepsOf_append, points]
      rw [stepsOf_split_joinParts kept]
    rw [leads, below, steps_eq, String.toList_ofList]
    split_ifs <;> rfl

end

section
variable {root name : String}

theorem join_of_empty (empty : root.toList = []) (name : String) : join root name = name := if_pos empty

theorem steps_name (proper : IsName name) : steps name = [name] := by
  rw [steps_eq, split_of_not_mem proper.whole, stepsOf_singleton proper.nonempty, String.ofList_toList]

theorem steps_join (root : String) (proper : IsName name) : steps (join root name) = steps root ++ [name] := by
  by_cases empty : root.toList = []
  · rw [join_of_empty empty, steps_name proper, steps_eq root, empty]
    rfl
  · obtain ⟨stem, joined, ends⟩ := toList_join empty name
    rw [steps_eq, joined, split_append_slash, stepsOf_append, split_of_not_mem proper.whole,
      stepsOf_singleton proper.nonempty, String.ofList_toList, steps_of_stem ends]

theorem getLast?_join (root : String) (proper : IsName name) : (join root name).toList.getLast? ≠ some '/' := by
  have ends : ∃ front, (join root name).toList = front ++ name.toList := by
    by_cases empty : root.toList = []
    · exact ⟨[], by rw [join_of_empty empty, List.nil_append]⟩
    · obtain ⟨stem, joined, -⟩ := toList_join empty name
      exact ⟨stem ++ ['/'], by rw [joined, List.append_assoc, List.singleton_append]⟩
  obtain ⟨front, joined⟩ := ends
  rw [joined, List.getLast?_append_of_ne_nil _ proper.nonempty]
  exact fun slash => proper.whole (List.mem_of_getLast? slash)

theorem parent?_name (proper : IsName name) : parent? name = some "" := by
  have relative : isAbsolute name = false := by
    rw [isAbsolute, decide_eq_false_iff_not]
    exact fun first => proper.whole (List.mem_of_head? first)
  have only : parts name = [name.toList] := by
    rw [parts, relative, split_of_not_mem proper.whole]
    exact trimRight_concat _ [] proper.leads
  rw [parent?, only, relative]
  rfl

end

theorem splitName_of_point {name : String} {base ending : List Char}
    (ends : name.toList = base ++ '.' :: ending) (nonempty : base ≠ []) (whole : '.' ∉ ending) :
    splitName name = (String.ofList base, some (String.ofList ending)) := by
  have after : ∀ c ∈ ending.reverse, decide (c ≠ '.') = true := by
    intro c member
    rw [decide_eq_true_eq]
    rintro rfl
    exact whole (List.mem_reverse.mp member)
  have split : name.toList.reverse.span (· ≠ '.') = (ending.reverse, '.' :: base.reverse) := by
    rw [ends, List.reverse_append, List.reverse_cons, List.append_assoc, List.span_eq_takeWhile_dropWhile,
      List.takeWhile_append_of_pos after, List.dropWhile_append_of_pos after]
    simp
  obtain ⟨c, cs, same⟩ := List.exists_cons_of_ne_nil (List.reverse_ne_nil_iff.mpr nonempty)
  rw [same] at split
  simp only [splitName, split]
  rw [← same, List.reverse_reverse, List.reverse_reverse]

theorem extension?_of_start {name : String} {rest : List Char} (starts : name.toList = '.' :: rest)
    (whole : '.' ∉ rest) : extension? name = none := by
  have after : ∀ c ∈ rest.reverse, decide (c ≠ '.') = true := by
    intro c member
    rw [decide_eq_true_eq]
    rintro rfl
    exact whole (List.mem_reverse.mp member)
  have split : name.toList.reverse.span (· ≠ '.') = (rest.reverse, ['.']) := by
    rw [starts, List.reverse_cons, List.span_eq_takeWhile_dropWhile, List.takeWhile_append_of_pos after,
      List.dropWhile_append_of_pos after]
    simp
  simp only [extension?, splitName, split]

end Wiring.Path
