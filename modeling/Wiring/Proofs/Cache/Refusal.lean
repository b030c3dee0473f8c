import Wiring.Proofs.Cache.Orderly
import Wiring.Proofs.Disk.Standing
import Wiring.Proofs.Refusal

/-! # Files that a runner refuses

Whatever is in the directory of a cache, a runner runs no plan but one of the key it is asked for and of the
current version. A file that gives no such plan, or no snapshot, is refused, with an error that says why, and
it stays as it is: a runner writes plans only where there are none.
-/
namespace Wiring.Cache
open Disk Store Wiring.Runtime

variable {c c' : Cache} {a : Artifact} {key : Key} {e : Error}

/-- The file of an artifact cannot be read, or is no text of an artifact, or is that of another key or of
another version. -/
inductive Refused (c : Cache) : Artifact → Error → Prop
  | unreadable {a : Artifact} {fault : Fault} : c.disk.read (c.path a) = .error fault → fault ≠ .notFound →
    Refused c a (.within .storage ("Failed to read " ++ c.path a) fault.text)
  | noPlan {key : Key} {contents : ByteArray} : c.disk.read (c.path (.plan key)) = .ok contents →
    Plan.ofBytes? contents = none → Refused c (.plan key)
      (.within .storage ("Corrupt artifact " ++ c.path (.plan key)) "not the text of an artifact")
  | noSnapshot {contents : ByteArray} : c.disk.read (c.path .snapshot) = .ok contents →
    Snapshot.ofBytes? contents = none → Refused c .snapshot
      (.within .storage ("Corrupt artifact " ++ c.path .snapshot) "not the text of an artifact")
  | foreign {key : Key} {contents : ByteArray} {p : Plan} : c.disk.read (c.path (.plan key)) = .ok contents →
    Plan.ofBytes? contents = some p → p.key ≠ key → Refused c (.plan key) (.storage
      (c.path (.plan key) ++ " holds the unit of " ++ p.key.display ++ ", not " ++ key.display) none)
  | outdatedPlan {key : Key} {contents : ByteArray} {p : Plan} :
    c.disk.read (c.path (.plan key)) = .ok contents → Plan.ofBytes? contents = some p → p.key = key →
    p.version ≠ Plan.currentVersion →
    Refused c (.plan key) (.formatVersion "compiled unit" Plan.currentVersion p.version)
  | outdatedSnapshot {contents : ByteArray} {snapshot : Snapshot} :
    c.disk.read (c.path .snapshot) = .ok contents → Snapshot.ofBytes? contents = some snapshot →
    snapshot.version ≠ Snapshot.currentVersion →
    Refused c .snapshot (.formatVersion "module snapshot" Snapshot.currentVersion snapshot.version)

theorem readFile_of_read {α : Type} {path : String} {contents : ByteArray} {decode : ByteArray → Option α}
    (read : c.disk.read path = .ok contents) : c.readFile path decode =
      match decode contents with
      | some found => .ok (some found)
      | none => .error (.within .storage ("Corrupt artifact " ++ path) "not the text of an artifact") := by
  cases decoded : decode contents <;> simp only [readFile, read, decoded]

theorem readFile_of_fault {α : Type} {path : String} {fault : Fault} {decode : ByteArray → Option α}
    (read : c.disk.read path = .error fault) (other : fault ≠ .notFound) :
    c.readFile path decode = .error (.within .storage ("Failed to read " ++ path) fault.text) := by
  unfold readFile
  rw [read]
  cases fault with
  | notFound => exact absurd rfl other
  | _ => rfl

theorem readPlan_eq (c : Cache) (key : Key) : Store.readPlan c key =
    match c.readFile (c.path (.plan key)) Plan.ofBytes? with
    | .error e => .error e
    | .ok none => .ok none
    | .ok (some p) => if p.key = key then .ok (some p) else .error (.storage
      (c.path (.plan key) ++ " holds the unit of " ++ p.key.display ++ ", not " ++ key.display) none) := by
  change Cache.readPlan c key = _
  unfold Cache.readPlan
  change (c.readFile (c.path (.plan key)) Plan.ofBytes? >>= _) = _
  rcases c.readFile (c.path (.plan key)) Plan.ofBytes? with e | _ | p <;> rfl

theorem Refused.unloadable (refused : c.Refused (.plan key) e) : Unloadable c key e := by
  cases refused with
  | unreadable read other =>
    refine .unread ?_
    rw [readPlan_eq, readFile_of_fault read other]
  | noPlan read unparsed =>
    refine .unread ?_
    rw [readPlan_eq, readFile_of_read read, unparsed]
  | foreign read parsed other =>
    refine .unread ?_
    rw [readPlan_eq, readFile_of_read read, parsed]
    exact if_neg other
  | outdatedPlan read parsed own old =>
    exact .outdated (readPlan_eq_some.mpr ⟨readFile_eq_some.mpr ⟨_, read, parsed⟩, own⟩) old

theorem Refused.untabled (refused : c.Refused .snapshot e) : Untabled c e := by
  cases refused with
  | unreadable read other => exact .unread (readFile_of_fault read other)
  | noSnapshot read unparsed =>
    refine .unread ((readFile_of_read read).trans ?_)
    rw [unparsed]
  | outdatedSnapshot read parsed old => exact .outdated (readFile_eq_some.mpr ⟨_, read, parsed⟩) old

theorem readPlan_of_notFound (missing : c.disk.read (c.path (.plan key)) = .error .notFound) :
    Store.readPlan c key = .ok none := by
  have absent : c.readFile (c.path (.plan key)) Plan.ofBytes? = .ok none := by
    unfold readFile
    rw [missing]
  rw [readPlan_eq, absent]

/-- Whatever a file holds: it is not there, or it gives a plan that can be run, or it is refused. -/
theorem plan_cases (c : Cache) (key : Key) : c.disk.read (c.path (.plan key)) = .error .notFound ∨
    (∃ p, Store.readPlan c key = .ok (some p) ∧ p.key = key ∧ p.version = Plan.currentVersion) ∨
    ∃ e, c.Refused (.plan key) e := by
  cases read : c.disk.read (c.path (.plan key)) with
  | error fault =>
    by_cases missing : fault = .notFound
    · exact .inl (congrArg Except.error missing)
    · exact .inr (.inr ⟨_, .unreadable read missing⟩)
  | ok contents =>
    refine .inr ?_
    cases parsed : Plan.ofBytes? contents with
    | none => exact .inr ⟨_, .noPlan read parsed⟩
    | some p =>
      by_cases own : p.key = key
      · by_cases current : p.version = Plan.currentVersion
        · exact .inl ⟨p, readPlan_eq_some.mpr ⟨readFile_eq_some.mpr ⟨_, read, parsed⟩, own⟩, own, current⟩
        · exact .inr ⟨_, .outdatedPlan read parsed own current⟩
      · exact .inr ⟨_, .foreign read parsed own⟩

theorem Refused.found (refused : c.Refused a e) : c.disk.read (c.path a) ≠ .error .notFound := by
  intro missing
  cases refused with
  | unreadable read other => exact other (Except.error.inj (read.symm.trans missing))
  | noPlan read _ | noSnapshot read _ | foreign read _ _ | outdatedPlan read _ _ _ | outdatedSnapshot read _ _ =>
    cases read.symm.trans missing

theorem Refused.congr (refused : c.Refused a e) (path : c'.path a = c.path a)
    (same : c'.disk.read (c.path a) = c.disk.read (c.path a)) : c'.Refused a e := by
  rw [← path] at same
  cases refused with
  | unreadable read other => exact path ▸ .unreadable (same.trans (path ▸ read)) other
  | noPlan read unparsed => exact path ▸ .noPlan (same.trans (path ▸ read)) unparsed
  | noSnapshot read unparsed => exact path ▸ .noSnapshot (same.trans (path ▸ read)) unparsed
  | foreign read parsed other => exact path ▸ .foreign (same.trans (path ▸ read)) parsed other
  | outdatedPlan read parsed own old => exact .outdatedPlan (same.trans (path ▸ read)) parsed own old
  | outdatedSnapshot read parsed old => exact .outdatedSnapshot (same.trans (path ▸ read)) parsed old

theorem Refused.write (refused : c.Refused a e) (grounded : Grounded c.disk) {b : Artifact} (other : b ≠ a)
    {j : Json} {r : Except Error Unit} (ran : (Cache.write (c.path b) j).runOn c = (r, c')) :
    Grounded c'.disk ∧ c'.Refused a e := by
  obtain ⟨root, -, n, touches⟩ := touches_write ran
  have path : c'.path a = c.path a := by rw [Cache.path, Cache.path, root]
  rw [runOn_write] at ran
  obtain ⟨-, rfl⟩ := Prod.mk.inj ran
  refine ⟨touches.grounded grounded, refused.congr path ?_⟩
  exact read_standing grounded a.isName b.isName touches (not_mem_touched c.root other.symm n) refused.found

/-- How a runner treats what it finds in a cache, in a run: it evaluates nothing but plans of the keys it is
asked for, of the current version. At a moment at which it is asked for a key whose file is refused, or for one
without a file while the snapshot is refused, it answers with the error of the refusal, and its memory and the
disk are after that as they were. -/
structure Vetted (c : Cache) (registry : Registry) (errands : List (Errand Runner.Question (Runner.Memory Cache)))
    (s : Runner.State Cache) : Prop where
  evaluated : ∀ {users m depth job started}, (Runner.injector registry).Way errands s users m →
    (Runner.injector registry).Makes m depth job started → ∃ p t,
      (Runner.planFor registry m.question.key m.question.point).runOn m.state = (.ok p, t) ∧
      job = Runner.job p.body ∧ p.key = m.question.key ∧ p.version = Plan.currentVersion
  refused : ∀ {users m e}, (Runner.injector registry).Way errands s users m →
    c.Refused (.plan m.question.key) e →
    ((Runner.injector registry).answer m.depth m.question).runOn m.state = (.error e, m.state)
  unbound : ∀ {users m e}, (Runner.injector registry).Way errands s users m →
    c.disk.read (c.path (.plan m.question.key)) = .error .notFound → c.Refused .snapshot e →
    ((Runner.injector registry).answer m.depth m.question).runOn m.state = (.error e, m.state)

theorem key_of_readPlan {p : Plan} (found : Store.readPlan c key = .ok (some p)) : p.key = key :=
  (readPlan_eq_some.mp found).2

/-- A runner that has started on a cache treats it so, whatever files there are and whatever it is asked. -/
theorem foreign_artifacts_never_run (grounded : Grounded c.disk) (registry : Registry) (born : Nat)
    (requests : List (Key × Option Point)) :
    c.Vetted registry (requests.map fun asked => Runner.errand (id, asked)) (Runner.start born c) where
  evaluated {users m depth job started} way makes := by
    obtain ⟨scope, t, due, -, -⟩ := makes.due
    have lasts := Runner.lasts_ownGuard registry key_of_readPlan
    obtain ⟨p, found, own, does⟩ := lasts.found (lasts.holds_way trivial born requests way) due.found
    exact ⟨p, t, found, does, own⟩
  refused {users m e} way refused := by
    have lasts := Runner.lasts_barredGuard registry key_of_readPlan
      (Q := fun c' => Grounded c'.disk ∧ c'.Refused (.plan m.question.key) e)
      (fun _ here => ⟨e, here.2.unloadable⟩) fun here other wrote =>
        here.2.write here.1 (fun same => other (Artifact.plan.inj same)) (write_of_writePlan wrote)
    have holds := lasts.holds_way ⟨grounded, refused⟩ born requests way
    refine Runner.answer_of_planFor (Runner.planFor_of_unloadable ?_ holds.store.2.unloadable _) m.depth
    cases held : m.state.own.plans.get? m.question.key with
    | none => rfl
    | some p => exact absurd rfl (holds.plans held).2
  unbound {users m e} way missing refused := by
    have lasts := Runner.lasts_blankGuard registry key_of_readPlan m.question.key e
    have holds := lasts.holds_way ⟨readPlan_of_notFound missing, refused.untabled⟩ born requests way
    refine Runner.answer_of_planFor (Runner.planFor_of_untabled ?_ holds.store.1 ?_ holds.store.2 _) m.depth
    · cases held : m.state.own.plans.get? m.question.key with
      | none => rfl
      | some p => exact absurd rfl (holds.plans held).2
    · cases held : m.state.own.table with
      | none => rfl
      | some table => exact (holds.table held).elim

section
variable {registry : Registry} {point : Option Point} {s : Runner.State Cache}
  (vetted : c.Vetted registry [Runner.errand (id, key, point)] s)
include vetted

theorem Vetted.request (refused : c.Refused (.plan key) e) :
    (Runner.request registry key point).runOn s = (.error e, s) :=
  vetted.refused (.head (Runner.errand (id, key, point)) [] s) refused

theorem Vetted.request_unbound (missing : c.disk.read (c.path (.plan key)) = .error .notFound)
    (refused : c.Refused .snapshot e) : (Runner.request registry key point).runOn s = (.error e, s) :=
  vetted.unbound (.head (Runner.errand (id, key, point)) [] s) missing refused

end

def stocked (files : List (Artifact × ByteArray)) : Cache where
  disk := files.foldr (fun file disk => disk.put (["cache"] ++ [file.1.name]) (.file file.2)) bare.disk
  root := "cache"
  pretty := false

theorem node?_stocked (files : List (Artifact × ByteArray)) (a : Artifact) :
    (stocked files).disk.node? (["cache"] ++ [a.name]) = (files.lookup a).map .file := by
  induction files with
  | nil => exact emptyDirectory_bare.nothing a.name a.isName.climbs
  | cons file rest ih =>
    obtain ⟨b, contents⟩ := file
    refine (node?_put (isAbove_concat ["cache"] b.isName.climbs) _ _ _).trans ?_
    by_cases same : a = b
    · rw [same, if_pos rfl, List.lookup_cons_self]
      rfl
    · have apart : ["cache"] ++ [a.name] ≠ ["cache"] ++ [b.name] := by
        simpa using fun named => same (Artifact.name_injective named)
      rw [if_neg apart, List.lookup_cons, beq_false_of_ne same]
      exact ih

theorem stocked_in_order (files : List (Artifact × ByteArray)) : Grounded (stocked files).disk ∧
    (stocked files).disk.node? ["cache"] = some .directory := by
  induction files with
  | nil =>
    have free : empty.node? ([] ++ ["cache"]) ≠ some .directory := nofun
    exact ⟨grounded_empty.put rfl (by decide) free .directory, rfl⟩
  | cons file rest ih =>
    obtain ⟨grounded, directory⟩ := ih
    have free : (stocked rest).disk.node? (["cache"] ++ [file.1.name]) ≠ some .directory := by
      rw [node?_stocked]
      cases rest.lookup file.1 <;> nofun
    have climbs := file.1.isName.climbs
    exact ⟨grounded.put directory climbs free _, keeps_put (isAbove_concat ["cache"] climbs) free _ _ directory⟩

theorem leads_stocked (files : List (Artifact × ByteArray)) :
    Leads (stocked files).disk "cache" ["cache"] :=
  ⟨⟨by decide, by decide, by decide⟩, .reach rfl (by decide) (by decide), (stocked_in_order files).2⟩

theorem read_stocked {files : List (Artifact × ByteArray)} (held : Option ByteArray)
    (fits : Disk.Fits "cache" a.name) (found : files.lookup a = held) :
    (stocked files).disk.read ((stocked files).path a) = held.elim (.error .notFound) .ok := by
  refine ((leads_stocked files).read_join a.isName).trans ?_
  rw [node?_stocked, found]
  refine (if_pos fits).trans ?_
  cases held <;> rfl

def strewn (scribble third table : ByteArray) : Cache :=
  stocked [(.plan (.plain "A"), scribble), (.plan (.plain "B"), third), (.snapshot, table)]

variable (scribble third table : ByteArray)

theorem scribble_refused (unparsed : Plan.ofBytes? scribble = none) :
    (strewn scribble third table).Refused (.plan (.plain "A")) (.within .storage
      ("Corrupt artifact " ++ (strewn scribble third table).path (.plan (.plain "A")))
      "not the text of an artifact") :=
  .noPlan (read_stocked (some scribble) (by decide +kernel) rfl) unparsed

theorem third_plan_refused {p : Plan} (parsed : Plan.ofBytes? third = some p) (other : p.key ≠ .plain "B") :
    (strewn scribble third table).Refused (.plan (.plain "B")) (.storage
      ((strewn scribble third table).path (.plan (.plain "B")) ++ " holds the unit of " ++ p.key.display ++
        ", not " ++ (Key.plain "B").display) none) :=
  .foreign (read_stocked (some third) (by decide +kernel) rfl) parsed other

theorem snapshot_refused {snapshot : Snapshot} (parsed : Snapshot.ofBytes? table = some snapshot)
    (old : snapshot.version ≠ Snapshot.currentVersion) : (strewn scribble third table).Refused .snapshot
      (.formatVersion "module snapshot" Snapshot.currentVersion snapshot.version) :=
  .outdatedSnapshot (read_stocked (some table) (by decide +kernel) rfl) parsed old

/-- Of a text that is none of a plan, the plan of a third key and a snapshot of another version none is run,
nor is a class bound that has no plan. -/
theorem strewn_files_refused :
    let third := (note "" "text").toJson.compact.toUTF8
    let table := { midnight with version := 9 }.toJson.compact.toUTF8
    let c := strewn "scribble".toUTF8 third table
    let registry : Registry := .ofClasses [.define "C" "C" fun _ => .ok []]
    let s := Runner.start 0 c
    Grounded c.disk ∧
    (Runner.request registry (.plain "A") none).runOn s = (.error (.within .storage
      ("Corrupt artifact " ++ c.path (.plan (.plain "A"))) "not the text of an artifact"), s) ∧
    (Runner.request registry (.plain "B") none).runOn s = (.error (.storage
      (c.path (.plan (.plain "B")) ++ " holds the unit of " ++ (note "" "text").key.display ++ ", not " ++
        (Key.plain "B").display) none), s) ∧
    (Runner.request registry (.plain "C") none).runOn s =
      (.error (.formatVersion "module snapshot" 1 9), s) := by
  intro third table c registry s
  have unparsed : Plan.ofBytes? "scribble".toUTF8 = none := by decide +kernel
  have parsed : Plan.ofBytes? third = some (note "" "text") :=
    Plan.ofText?_print Json.Layout.blank_compact (textual_note "" "text")
  have textual : { midnight with version := 9 }.Textual := { textual_midnight with shallow := by decide +kernel }
  have decoded : Snapshot.ofBytes? table = some { midnight with version := 9 } :=
    Snapshot.ofText?_print Json.Layout.blank_compact textual
  have grounded : Grounded c.disk := (stocked_in_order _).1
  have vetted : ∀ key, c.Vetted registry [Runner.errand (id, key, none)] s := fun key =>
    foreign_artifacts_never_run grounded registry 0 [(key, none)]
  have missing : c.disk.read (c.path (.plan (.plain "C"))) = .error .notFound :=
    read_stocked none (by decide +kernel) rfl
  refine ⟨grounded, ?_, ?_, ?_⟩
  · exact (vetted _).request (scribble_refused _ _ _ unparsed)
  · exact (vetted _).request (third_plan_refused _ _ _ parsed (by decide))
  · exact (vetted _).request_unbound missing (snapshot_refused _ _ _ decoded (by decide))

end Wiring.Cache
