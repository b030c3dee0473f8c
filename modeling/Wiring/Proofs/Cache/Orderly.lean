import Wiring.Proofs.Cache.Writes
import Wiring.Proofs.Disk.Frame
import Wiring.Proofs.Termination

/-! # Caches are orderly

A cache has a file of its own for each plan that it gives back, and writing a plan puts no other one and
leaves the snapshot, also when the write fails and when the directory was missing before. So every request to
a runner on a cache finishes.
-/
namespace Wiring.Cache
open Disk Disk.Replace Store

variable {c c' : Cache} {a : Artifact} {j : Json} {r : Except Error Unit}

/-- A cache whose directory is there or can be made: its path goes up from directories only that are there. -/
structure Ready (c : Cache) : Prop where
  grounded : Grounded c.disk
  firm : Firm c.disk [] (Path.steps c.root)

theorem touches_write (ran : (write (c.path a) j).runOn c = (r, c')) :
    c'.root = c.root ∧ c'.pretty = c.pretty ∧
      ∃ n, Touches {aim c.root ++ [a.name], aim c.root ++ [lockPath a.name],
        aim c.root ++ [temporaryName n]} c.disk c'.disk := by
  obtain ⟨n, touches⟩ := touches_replaceFile c.root a.isName (isName_lockPath a.isName) isName_temporaryName
    (c.encode j) c.disk
  rw [runOn_write, path] at ran
  generalize (replaceFile (Path.join c.root a.name) (c.encode j)).runOn c.disk = ended at ran touches
  obtain ⟨-, rfl⟩ := Prod.mk.inj ran
  exact ⟨rfl, rfl, n, touches⟩

theorem not_mem_touched (root : String) {b : Artifact} (other : b ≠ a) (n : Nat) :
    aim root ++ [b.name] ∉ ({aim root ++ [a.name], aim root ++ [lockPath a.name],
      aim root ++ [temporaryName n]} : Set (List String)) := by
  have apart : ∀ f : File, File.artifact b ≠ f → b.name ≠ f.name := fun f differ same =>
    differ (File.name_injective same)
  have named := apart (.artifact a) fun same => other (File.artifact.inj same)
  have lock := apart (.lock a) (by rintro ⟨⟩)
  have temp := apart (.temporary n) (by rintro ⟨⟩)
  simp only [File.name] at named lock temp
  simp [named, lock, temp]

theorem Ready.write (ready : Ready c) (ran : (Cache.write (c.path a) j).runOn c = (r, c')) : Ready c' := by
  obtain ⟨root, -, n, touches⟩ := touches_write ran
  refine ⟨touches.grounded ready.grounded, ?_⟩
  rw [root]
  exact ready.firm.mono touches.keeps

/-- What can be read of other artifacts after a write could be read before. -/
theorem Ready.read_back (ready : Ready c) (ran : (Cache.write (c.path a) j).runOn c = (r, c')) {b : Artifact}
    (other : b ≠ a) {contents : ByteArray} (read : c'.disk.read (c'.path b) = .ok contents) :
    c.disk.read (c.path b) = .ok contents := by
  obtain ⟨root, -, n, touches⟩ := touches_write ran
  rw [path, root] at read
  exact Disk.read_back ready.grounded ready.firm touches b.isName (not_mem_touched c.root other n) read

theorem readFile_eq_some {α : Type} {path : String} {decode : ByteArray → Option α} {x : α} :
    c.readFile path decode = .ok (some x) ↔
      ∃ contents, c.disk.read path = .ok contents ∧ decode contents = some x := by
  unfold readFile
  cases c.disk.read path with
  | error fault => cases fault <;> simp
  | ok contents =>
    simp only [Except.ok.injEq, exists_eq_left']
    cases decode contents <;> simp

theorem readPlan_eq_some {key : Key} {p : Plan} : Store.readPlan c key = .ok (some p) ↔
    c.readFile (c.planPath key) Plan.ofBytes? = .ok (some p) ∧ p.key = key := by
  change Cache.readPlan c key = _ ↔ _
  unfold Cache.readPlan
  cases c.readFile (c.planPath key) Plan.ofBytes? with
  | error e => exact ⟨nofun, nofun⟩
  | ok found =>
    cases found with
    | none => exact ⟨nofun, nofun⟩
    | some p' =>
      change (if p'.key = key then Except.ok (some p') else _) = _ ↔ _
      split_ifs with own
      · constructor
        · rintro ⟨⟩
          exact ⟨rfl, own⟩
        · exact And.left
      · constructor
        · rintro ⟨⟩
        · rintro ⟨⟨⟩, own'⟩
          exact absurd own' own

theorem write_of_writePlan {plan : Plan} (wrote : (writePlan plan).runOn c = (r, c')) :
    (Cache.write (c.path (.plan plan.key)) plan.toJson).runOn c = (r, c') := by
  rw [← wrote]
  exact (runOn_run (.plan plan) c).symm

/-- The plans that a cache gives have files of their own on its disk, wherever its directory may be. -/
theorem planned_le_size (c : Cache) : (planned c).encard ≤ c.disk.nodes.size := by
  refine c.disk.nodes.encard_le_size (fun key => aim c.root ++ [planName key]) ?_ fun key there => ?_
  · intro key _ key' _ same
    have names : (Artifact.plan key).name = (Artifact.plan key').name :=
      List.singleton_inj.mp (List.append_cancel_left same)
    exact Artifact.plan.inj (Artifact.name_injective names)
  · obtain ⟨p, found⟩ := there
    obtain ⟨read, -⟩ := readPlan_eq_some.mp found
    obtain ⟨contents, there, -⟩ := readFile_eq_some.mp read
    obtain ⟨place, located, held⟩ := read_eq_ok_iff.mp there
    have proper := isName_planName key
    rw [← aim_of_locate located, planPath, aim_join c.root proper, ← get?_of_name c.disk proper.climbs] at held
    exact SortedMap.mem_keys_iff.mpr ⟨_, held⟩

theorem orderly_ready : Orderly Ready where
  few {c} _ := planned_le_size c
  named _ found := (readPlan_eq_some.mp found).2
  keeps ready wrote := ready.write (write_of_writePlan wrote)
  adds {c c' plan r key p} ready wrote found := by
    by_cases same : key = plan.key
    · exact .inl same
    · obtain ⟨read, own⟩ := readPlan_eq_some.mp found
      obtain ⟨contents, there, decoded⟩ := readFile_eq_some.mp read
      have other : Artifact.plan key ≠ .plan plan.key := fun equal => same (Artifact.plan.inj equal)
      have before := ready.read_back (write_of_writePlan wrote) other there
      exact .inr ⟨p, readPlan_eq_some.mpr ⟨readFile_eq_some.mpr ⟨contents, before, decoded⟩, own⟩⟩
  snapshot {c c' plan r snapshot} ready wrote found := by
    obtain ⟨contents, there, decoded⟩ := readFile_eq_some.mp found
    have other : Artifact.snapshot ≠ .plan plan.key := by rintro ⟨⟩
    have before := ready.read_back (write_of_writePlan wrote) other there
    exact readFile_eq_some.mpr ⟨contents, before, decoded⟩

theorem runner_finishes (ready : Ready c) (registry : Registry) (born : Nat) (key : Key)
    (point : Option Point) :
    Machine.Finishes (Runner.opens registry) (.lookup key point) (Runner.start born c)
      ((Runner.request registry key point).runOn (Runner.start born c))
      (Runner.resolvable registry ⟨c, SortedMap.empty, none⟩) :=
  Runner.request_finishes orderly_ready key point ready rfl

theorem grounded_empty : Grounded Disk.empty := by
  intro place name there
  have above : isAbove (place ++ [name]) = true := by
    by_contra below
    rw [node?, if_neg below] at there
    cases there
  rw [isAbove, List.all_append, Bool.and_eq_true] at above
  rw [node?, isAbove, if_pos above.1]

theorem ready_empty {root : String} (stays : ∀ step ∈ Path.steps root, step ≠ "..") (pretty : Bool) :
    Ready ⟨Disk.empty, root, pretty⟩ :=
  ⟨grounded_empty, firm_of_forall_ne _ _ stays⟩

/-- Writes keep a cache ready, also when one of them fails. -/
theorem Ready.writes {ws : List Write} {u : Except Error PUnit} (ready : Ready c)
    (ran : (ws.forM Write.run).runOn c = (u, c')) : Ready c' := by
  induction ws generalizing c with
  | nil =>
    cases ran
    exact ready
  | cons w ws ih =>
    have split : (w :: ws).forM (Write.run (σ := Cache)) = (do w.run; ws.forM Write.run) := rfl
    rw [split, Act.runOn_bind, runOn_run] at ran
    cases wrote : (Cache.write (c.path (target w)) (tree w)).runOn c with
    | mk outcome d =>
      have ready' := ready.write wrote
      rw [wrote] at ran
      cases outcome with
      | error e =>
        cases ran
        exact ready'
      | ok u => exact ih ready' ran

end Wiring.Cache
