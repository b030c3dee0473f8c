import Wiring.Proofs.Cache.Contents
import Wiring.Proofs.Format.Binding
import Mathlib.Data.List.Induction

/-! # A cache is a map

After any writes that went well into an empty directory a cache gives back for each key the last plan
written with it, and the last snapshot, and lists the tokens of the keys written. What was never written is
missing, as far as the system can look for it: it refuses names and paths that are too long.
-/
namespace Wiring

theorem Text.length_le_utf8ByteSize (cs : List Char) : cs.length ≤ (String.ofList cs).utf8ByteSize := by
  induction cs with
  | nil => exact Nat.zero_le _
  | cons c cs ih =>
    have split : String.ofList (c :: cs) = String.singleton c ++ String.ofList cs :=
      String.toList_injective (by simp)
    have byte := c.utf8Size_pos
    rw [split, String.utf8ByteSize_append, String.utf8ByteSize_singleton, List.length_cons]
    omega

namespace Store

inductive Write where
  | plan (plan : Plan)
  | snapshot (snapshot : Snapshot)

namespace Write

def run {σ : Type} [Store σ] : Write → Act σ Unit
  | plan p => writePlan p
  | snapshot s => writeSnapshot s

/-- Whether what is written can be read back from its text. -/
def Textual : Write → Prop
  | plan p => p.Textual
  | snapshot s => s.Textual

def plan? (key : Key) : Write → Option Plan
  | plan p => if p.key = key then some p else none
  | snapshot _ => none

def snapshot? : Write → Option Snapshot
  | plan _ => none
  | snapshot s => some s

end Write

def lastPlan (ws : List Write) (key : Key) : Option Plan := ws.reverse.findSome? (Write.plan? key)

def lastSnapshot (ws : List Write) : Option Snapshot := ws.reverse.findSome? Write.snapshot?

theorem lastPlan_concat (ws : List Write) (w : Write) (key : Key) :
    lastPlan (ws ++ [w]) key = (w.plan? key).or (lastPlan ws key) := by
  rw [lastPlan, List.reverse_concat, List.findSome?_cons]
  cases w.plan? key <;> rfl

theorem lastSnapshot_concat (ws : List Write) (w : Write) :
    lastSnapshot (ws ++ [w]) = w.snapshot?.or (lastSnapshot ws) := by
  rw [lastSnapshot, List.reverse_concat, List.findSome?_cons]
  cases w.snapshot? <;> rfl

theorem mem_of_lastPlan {ws : List Write} {key : Key} {p : Plan} (last : lastPlan ws key = some p) :
    Write.plan p ∈ ws ∧ p.key = key := by
  obtain ⟨w, member, found⟩ := List.exists_of_findSome?_eq_some last
  cases w with
  | snapshot s => cases found
  | plan p' =>
    rw [Write.plan?] at found
    split_ifs at found with named
    cases found
    exact ⟨List.mem_reverse.mp member, named⟩

theorem mem_of_lastSnapshot {ws : List Write} {s : Snapshot} (last : lastSnapshot ws = some s) :
    Write.snapshot s ∈ ws := by
  obtain ⟨w, member, found⟩ := List.exists_of_findSome?_eq_some last
  cases w with
  | plan p => cases found
  | snapshot s' =>
    cases found
    exact List.mem_reverse.mp member

theorem isSome_lastPlan {ws : List Write} {key : Key} :
    (lastPlan ws key).isSome ↔ ∃ p, Write.plan p ∈ ws ∧ p.key = key := by
  constructor
  · intro some
    obtain ⟨p, last⟩ := Option.isSome_iff_exists.mp some
    exact ⟨p, mem_of_lastPlan last⟩
  · rintro ⟨p, member, named⟩
    rw [lastPlan, List.findSome?_isSome_iff]
    exact ⟨.plan p, List.mem_reverse.mpr member, by rw [Write.plan?, if_pos named]; rfl⟩

end Store

namespace Cache
open Store Disk

variable {c c' : Cache} {place : List String} {ws : List Write}

/-- The trees that some writes leave. -/
def written (ws : List Write) : Artifact → Option Json
  | .plan key => (lastPlan ws key).map Plan.toJson
  | .snapshot => (lastSnapshot ws).map Snapshot.toJson

def target : Write → Artifact
  | .plan p => .plan p.key
  | .snapshot _ => .snapshot

def tree : Write → Json
  | .plan p => p.toJson
  | .snapshot s => s.toJson

theorem runOn_run (w : Write) (c : Cache) : w.run.runOn c = (write (c.path (target w)) (tree w)).runOn c := by
  cases w with
  | plan p =>
    change ((get : Act Cache Cache) >>= fun c => write (c.planPath p.key) p.toJson).runOn c = _
    rw [Act.runOn_bind, Act.runOn_get]
    rfl
  | snapshot s =>
    change ((get : Act Cache Cache) >>= fun c => write c.snapshotPath s.toJson).runOn c = _
    rw [Act.runOn_bind, Act.runOn_get]
    rfl

theorem written_concat (ws : List Write) (w : Write) :
    written (ws ++ [w]) = Function.update (written ws) (target w) (some (tree w)) := by
  funext a
  cases a with
  | plan key =>
    rw [written, lastPlan_concat]
    cases w with
    | snapshot s => rfl
    | plan p =>
      by_cases named : p.key = key
      · rw [Write.plan?, if_pos named, target, named, Function.update_self]
        rfl
      · have other : Artifact.plan key ≠ .plan p.key := fun same => named (Artifact.plan.inj same).symm
        rw [Write.plan?, if_neg named, target, Function.update_of_ne other]
        rfl
  | snapshot =>
    rw [written, lastSnapshot_concat]
    cases w with
    | plan p => rfl
    | snapshot s => rfl

theorem written_nil : written [] = fun _ => none := by
  funext a
  cases a <;> rfl

/-- What a run of writes leaves, write by write. -/
theorem Holds.writes (holds : Holds c place fun _ => none) {u : PUnit}
    (ran : (ws.forM Write.run).runOn c = (.ok u, c')) : c'.root = c.root ∧ Holds c' place (written ws) := by
  induction ws using List.reverseRecOn generalizing c' with
  | nil =>
    cases ran
    rw [written_nil]
    exact ⟨rfl, holds⟩
  | append_singleton ws w ih =>
    have split : (ws ++ [w]).forM (Write.run (σ := Cache)) = (do ws.forM Write.run; [w].forM Write.run) :=
      List.forM_append
    rw [split] at ran
    obtain ⟨_, d, before, last⟩ := Act.runOn_bind_eq_ok.mp ran
    obtain ⟨_, _, wrote, ended⟩ := Act.runOn_bind_eq_ok.mp last
    cases ended
    obtain ⟨root, held⟩ := ih before
    rw [runOn_run] at wrote
    obtain ⟨root', -, after⟩ := held.write wrote
    rw [written_concat]
    exact ⟨root'.trans root, after⟩

theorem Holds.readPlan {contents : Artifact → Option Json} (holds : Holds c place contents) {key : Key}
    {value : Option Plan} (held : contents (.plan key) = value.map Plan.toJson)
    (own : ∀ p, value = some p → p.key = key ∧ p.Textual) :
    Store.readPlan c key = c.answer (.plan key) value := by
  have read : c.readFile (c.planPath key) Plan.ofBytes? = c.answer (.plan key) value :=
    holds.readFile (a := .plan key) held fun p last layout blank => Plan.ofText?_print blank (own p last).2
  change Cache.readPlan c key = _
  rw [Cache.readPlan, read]
  cases value with
  | none =>
    unfold answer
    by_cases fits : Fits c.root (Artifact.plan key).name
    · rw [if_pos fits]
      rfl
    · rw [if_neg fits]
      rfl
  | some p =>
    change (if p.key = key then Except.ok (some p) else _) = _
    rw [if_pos (own p rfl).1]
    rfl

theorem Holds.readSnapshot {contents : Artifact → Option Json} (holds : Holds c place contents)
    {value : Option Snapshot} (held : contents .snapshot = value.map Snapshot.toJson)
    (textual : ∀ s, value = some s → s.Textual) : Store.readSnapshot c = c.answer .snapshot value := by
  have read : c.readFile (c.path .snapshot) Snapshot.ofBytes? = c.answer .snapshot value :=
    holds.readFile (a := .snapshot) held fun s last _ blank => Snapshot.ofText?_print blank (textual s last)
  exact read

/-- After writes that went well into an empty directory a cache gives back the last plan of each key and the
last snapshot, has the plans that it gives back, and lists their tokens in order and once each. It says of
what was never written that it is missing, unless the system refuses the name or the path as too long. The
plans of different keys, the snapshot, the locks and the temporary files have names of their own, of which
the listing takes the plans alone, and no temporary file is left. -/
theorem reads_last_written (empty : EmptyDirectory c.disk c.root place) (textual : ∀ w ∈ ws, w.Textual)
    (ran : (ws.forM Write.run).runOn c = (.ok ⟨⟩, c')) :
    (∀ key, Store.readPlan c' key = c.answer (.plan key) (lastPlan ws key)) ∧
    (∀ key, Store.hasPlan c' key = true ↔ ∃ p, Write.plan p ∈ ws ∧ p.key = key) ∧
    Store.readSnapshot c' = c.answer .snapshot (lastSnapshot ws) ∧
    (∃ ts, Store.tokens c' = .ok ts ∧ ts.Pairwise (· < ·) ∧
      ∀ token, token ∈ ts ↔ ∃ p, Write.plan p ∈ ws ∧ p.key.token = token) ∧
    Function.Injective File.name ∧
    (∀ f : File, isPlanName f.name = true ↔ ∃ key, f = .artifact (.plan key)) ∧
    ∀ name, name ≠ ".." → (c'.disk.node? (place ++ [name])).isSome →
      ∃ a : Artifact, name = (File.artifact a).name ∨ name = (File.lock a).name := by
  obtain ⟨root, holds⟩ := (holds_empty empty).writes ran
  refine ⟨fun key => ?_, fun key => ?_, ?_, ⟨c'.tokens, rfl, tokens_ascending c', fun token => ?_⟩,
    File.name_injective, isPlanName_iff, holds.only⟩
  · have own : ∀ p, lastPlan ws key = some p → p.key = key ∧ p.Textual := fun p last =>
      ⟨(mem_of_lastPlan last).2, textual _ (mem_of_lastPlan last).1⟩
    rw [holds.readPlan rfl own, answer_congr root]
  · have there : Store.hasPlan c' key = (written ws (.plan key)).isSome := holds.isFile (.plan key)
    rw [there, written, Option.isSome_map, isSome_lastPlan]
  · have own : ∀ s, lastSnapshot ws = some s → s.Textual := fun s last => textual _ (mem_of_lastSnapshot last)
    rw [holds.readSnapshot rfl own, answer_congr root]
  · rw [holds.mem_tokens]
    simp only [written, Option.isSome_map, isSome_lastPlan]
    constructor
    · rintro ⟨key, ⟨p, member, rfl⟩, rfl⟩
      exact ⟨p, member, rfl⟩
    · rintro ⟨p, member, rfl⟩
      exact ⟨p.key, ⟨p, member, rfl⟩, rfl⟩

def bare : Cache := ⟨Disk.empty.put ["cache"] .directory, "cache", true⟩

theorem emptyDirectory_bare : EmptyDirectory bare.disk bare.root ["cache"] := by
  refine ⟨by decide +kernel, rfl, fun name climbs => ?_⟩
  rw [bare, node?_put rfl, if_neg (by simp), node?, isAbove_concat ["cache"] climbs]
  rfl

def note (name text : String) : Plan :=
  ⟨Plan.currentVersion, ⟨"::Port", name⟩, .singleton, .literal (Json.string text)⟩

theorem textual_note (name text : String) : (note name text).Textual := by
  have depth : (note name text).toJson.depth = 2 := rfl
  refine ⟨?_, ?_, depth ▸ by decide⟩
  · simp [note, Plan.literals, Plan.Body.literals, Json.Sorted, Json.string]
  · simp [note, Plan.literals, Plan.Body.literals, Json.Integral, Json.string]

def midnight : Snapshot :=
  ⟨Snapshot.currentVersion, ⟨17166, 86399, 1999999999⟩, [(⟨"::Port", ""⟩, .literal Json.null)]⟩

theorem textual_midnight : midnight.Textual := by
  refine ⟨⟨?_, ?_, ?_⟩, ?_, ?_, ?_⟩
  · decide +kernel
  · decide +kernel
  · decide +kernel
  · simp [midnight, Snapshot.literals, Binding.literals, Json.Sorted, Json.null]
  · simp [midnight, Snapshot.literals, Binding.literals, Json.Integral, Json.null]
  · decide +kernel

def notes : List Write :=
  [.plan (note "" "first"), .snapshot midnight, .plan (note "é" "other"), .plan (note "" "last")]

theorem reads_notes : (∀ w ∈ notes, w.Textual) ∧ ∃ c', (notes.forM Write.run).runOn bare = (.ok ⟨⟩, c') ∧
    Store.readPlan c' ⟨"::Port", ""⟩ = .ok (some (note "" "last")) ∧
    Store.readPlan c' ⟨"::Port", "other"⟩ = .ok none ∧ Store.readSnapshot c' = .ok (some midnight) := by
  have textual : ∀ w ∈ notes, w.Textual := by
    simp [notes, Write.Textual, textual_note, textual_midnight]
  have went : ((notes.forM Write.run).runOn bare).1.isOk = true := by decide +kernel
  generalize ended : (notes.forM Write.run).runOn bare = ran at went
  obtain ⟨_ | _, c'⟩ := ran
  · cases went
  obtain ⟨plans, -, snapshot, -⟩ := reads_last_written emptyDirectory_bare textual ended
  refine ⟨textual, c', rfl, ?_, ?_, ?_⟩
  · rw [plans]
    rfl
  · rw [plans]
    rfl
  · rw [snapshot]
    rfl

def longKey : Key := .plain (String.ofList (List.replicate 260 'a'))

/-- A plan that was never written is not always found to be missing: its name may be too long to look for. -/
theorem long_key_refused : EmptyDirectory bare.disk bare.root ["cache"] ∧
    (([] : List Write).forM Write.run).runOn bare = (.ok ⟨⟩, bare) ∧ lastPlan [] longKey = none ∧
    Store.readPlan bare longKey = .error (tooLong (bare.planPath longKey)) ∧
    Store.readPlan bare longKey ≠ .ok none := by
  have count : (planName longKey).toList.length = 266 := by
    rw [toList_planName, Key.toList_token, longKey, Key.plain, String.toList_ofList]
    decide +kernel
  have long : ¬ Fits bare.root (planName longKey) := by
    intro fits
    have size : (planName longKey).utf8ByteSize ≤ 255 := fits.2
    have bytes := Text.length_le_utf8ByteSize (planName longKey).toList
    rw [String.ofList_toList] at bytes
    omega
  have refused : Store.readPlan bare longKey = .error (tooLong (bare.planPath longKey)) := by
    have read : Store.readPlan bare longKey = bare.answer (.plan longKey) none := by
      refine (holds_empty emptyDirectory_bare).readPlan rfl ?_
      rintro p ⟨⟩
    rw [read, answer]
    exact if_neg long
  refine ⟨emptyDirectory_bare, rfl, rfl, refused, ?_⟩
  intro missing
  cases refused.symm.trans missing

end Cache
end Wiring
