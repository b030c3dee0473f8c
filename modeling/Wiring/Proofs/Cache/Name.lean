import Wiring.Cache
import Wiring.Proofs.Disk.Path
import Wiring.Proofs.Instant
import Wiring.Proofs.Token

/-! # The names of a cache's files

The plans of different keys, the snapshot, their locks and the temporary files all have names of their own,
and the listing takes the plans alone. Their extensions tell the three kinds apart.
-/
namespace Wiring

namespace Disk

theorem toList_temporaryName (n : Nat) :
    (temporaryName n).toList = '.' :: 't' :: 'm' :: 'p' :: '-' :: Instant.padded 36 n := by
  have digits : (toString n).toList = Nat.toDigits 10 n := String.toList_ofList
  have length : (toString n).length = (Nat.toDigits 10 n).length := by rw [← digits, String.length_toList]
  simp only [temporaryName, String.toList_append, String.toList_ofList, digits, length, List.append_assoc]
  rfl

theorem temporaryName_injective : Function.Injective temporaryName := by
  intro m n same
  have chars := congrArg String.toList same
  rw [toList_temporaryName, toList_temporaryName] at chars
  have digits : Instant.padded 36 m = Instant.padded 36 n := by simpa using chars
  rw [← Instant.natOf_padded 36 m, digits, Instant.natOf_padded]

theorem isName_temporaryName (n : Nat) : Path.IsName (temporaryName n) := by
  have digit : ∀ c : Char, c.isDigit = false → c ∉ Instant.padded 36 n := by
    intro c other member
    rw [Instant.isDigit_padded 36 n member] at other
    cases other
  have chars := toList_temporaryName n
  refine ⟨?_, ?_, ?_, ?_, ?_⟩
  · simp [chars]
  · simp [chars, digit '/' rfl]
  · rintro same
    rw [same] at chars
    cases chars
  · rintro same
    rw [same] at chars
    cases chars
  · simp [chars, digit '\x00' rfl]

theorem extension?_temporaryName (n : Nat) : Path.extension? (temporaryName n) = none := by
  refine Path.extension?_of_start (toList_temporaryName n) ?_
  have digit : '.' ∉ Instant.padded 36 n := fun member => nomatch Instant.isDigit_padded 36 n member
  simp [digit]

end Disk

namespace Disk.Replace

theorem toList_lockPath (name : String) :
    (lockPath name).toList = name.toList ++ '.' :: ['l', 'o', 'c', 'k'] := by
  rw [lockPath, String.toList_append]
  rfl

theorem isName_lockPath {name : String} (proper : Path.IsName name) : Path.IsName (lockPath name) := by
  have chars := toList_lockPath name
  have long : 4 < (lockPath name).toList.length := by simp [chars]
  refine ⟨?_, ?_, ?_, ?_, ?_⟩
  · simp [chars]
  · simp [chars, proper.whole]
  · intro same
    rw [same] at long
    revert long
    decide
  · intro same
    rw [same] at long
    revert long
    decide
  · simp [chars, proper.nameable]

theorem extension?_lockPath {name : String} (proper : Path.IsName name) :
    Path.extension? (lockPath name) = some "lock" := by
  rw [Path.extension?, Path.splitName_of_point (toList_lockPath name) proper.nonempty (by decide)]

theorem lockPath_injective : Function.Injective lockPath := by
  intro a b same
  have chars := congrArg String.toList same
  rw [toList_lockPath, toList_lockPath] at chars
  exact String.toList_injective (List.append_cancel_right chars)

end Disk.Replace

namespace Cache
open Disk Disk.Replace

theorem toList_planName (key : Key) :
    (planName key).toList = key.token.toList ++ '.' :: ['j', 's', 'o', 'n'] := by
  rw [planName, String.toList_append, String.toList_append]
  simp [planExtension]

theorem splitName_planName (key : Key) : Path.splitName (planName key) = (key.token, some planExtension) := by
  have nonempty : key.token.toList ≠ [] := by
    rw [Key.toList_token]
    simp
  rw [Path.splitName_of_point (toList_planName key) nonempty (by decide), String.ofList_toList]
  rfl

theorem planName_injective : Function.Injective planName := by
  intro a b same
  have split := splitName_planName a
  rw [same, splitName_planName b] at split
  exact Key.token_injective (Prod.mk.inj split).1.symm

theorem dash_mem_planName (key : Key) : '-' ∈ (planName key).toList := by
  rw [toList_planName, Key.toList_token]
  simp

theorem planName_ne_snapshotName (key : Key) : planName key ≠ snapshotName := by
  intro same
  have member := dash_mem_planName key
  rw [same] at member
  revert member
  decide

theorem isName_planName (key : Key) : Path.IsName (planName key) := by
  have chars := toList_planName key
  have other : ∀ c : Char, Key.isPartChar c = false → c ≠ '-' → c ∉ key.token.toList := by
    intro c outside dash member
    rcases Key.isPartChar_token key c member with inside | same
    · rw [inside] at outside
      cases outside
    · exact dash same
  have dashed : ∀ name : String, '-' ∉ name.toList → planName key ≠ name := by
    rintro name without rfl
    exact without (dash_mem_planName key)
  refine ⟨?_, ?_, dashed "." (by decide), dashed ".." (by decide), ?_⟩
  · simp [chars]
  · simp [chars, other '/' (by decide) (by decide)]
  · simp [chars, other '\x00' (by decide) (by decide)]

theorem isName_snapshotName : Path.IsName snapshotName :=
  ⟨by decide, by decide, by decide, by decide, by decide⟩

inductive Artifact where
  | plan (key : Key)
  | snapshot
  deriving DecidableEq

def Artifact.name : Artifact → String
  | .plan key => planName key
  | .snapshot => snapshotName

namespace Artifact

theorem name_injective : Function.Injective name := by
  intro a b same
  cases a with
  | plan key =>
    cases b with
    | plan key' => exact congrArg plan (planName_injective same)
    | snapshot => exact absurd same (planName_ne_snapshotName key)
  | snapshot =>
    cases b with
    | plan key => exact absurd same.symm (planName_ne_snapshotName key)
    | snapshot => rfl

theorem isName (a : Artifact) : Path.IsName a.name := by
  cases a with
  | plan key => exact isName_planName key
  | snapshot => exact isName_snapshotName

theorem extension? (a : Artifact) : Path.extension? a.name = some planExtension := by
  cases a with
  | plan key => rw [name, Path.extension?, splitName_planName]
  | snapshot => decide

end Artifact

/-- The files that a cache has in its directory at some time. -/
inductive File where
  | artifact (a : Artifact)
  | lock (a : Artifact)
  | temporary (n : Nat)

def File.name : File → String
  | .artifact a => a.name
  | .lock a => lockPath a.name
  | .temporary n => temporaryName n

namespace File

def extension? : File → Option String
  | .artifact _ => some planExtension
  | .lock _ => some "lock"
  | .temporary _ => none

theorem extension?_name (f : File) : Path.extension? f.name = f.extension? := by
  cases f with
  | artifact a => exact a.extension?
  | lock a => exact extension?_lockPath a.isName
  | temporary n => exact extension?_temporaryName n

/-- No two files of a cache share a name. -/
theorem name_injective : Function.Injective name := by
  intro f g same
  have kind : f.extension? = g.extension? := by rw [← extension?_name, same, extension?_name]
  have apart : planExtension ≠ "lock" := by decide
  cases f with
  | artifact a =>
    cases g with
    | artifact b => exact congrArg artifact (Artifact.name_injective same)
    | lock b => exact absurd (Option.some.inj kind) apart
    | temporary n => cases kind
  | lock a =>
    cases g with
    | artifact b => exact absurd (Option.some.inj kind).symm apart
    | lock b => exact congrArg lock (Artifact.name_injective (lockPath_injective same))
    | temporary n => cases kind
  | temporary m =>
    cases g with
    | artifact b => cases kind
    | lock b => cases kind
    | temporary n => exact congrArg temporary (temporaryName_injective same)

end File

/-- The listing takes the files of plans and no others. -/
theorem isPlanName_iff (f : File) : isPlanName f.name = true ↔ ∃ key, f = .artifact (.plan key) := by
  simp only [isPlanName, File.extension?_name, Bool.and_eq_true, decide_eq_true_eq]
  constructor
  · rintro ⟨kind, other⟩
    cases f with
    | artifact a =>
      cases a with
      | plan key => exact ⟨key, rfl⟩
      | snapshot => exact absurd rfl other
    | lock a => exact absurd (Option.some.inj kind) (by decide)
    | temporary n => cases kind
  · rintro ⟨key, rfl⟩
    exact ⟨rfl, planName_ne_snapshotName key⟩

end Cache
end Wiring
