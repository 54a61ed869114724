/-
What the job table is for: a finite map from the ids of jobs to the jobs, which
knows the order they were added in. The table keeps it in slots that are used
again, whatever holes the calls have left.
-/
import Mathlib.Data.List.Find
import Mathlib.Data.List.Perm.Basic
import Mathlib.Order.MinMax
import OsNetworks.Lib.Slots
import OsNetworks.Shell.Jobs

namespace OsNetworks.Shell
open OsNetworks

/-- A call that changes the table. -/
inductive JobCall where
  | add (pid : Nat) (command : Text) (status : JobStatus)
  | remove (jobId : Int)
  /-- `get_job(job_id)->status = status`, if there is such a job -/
  | setStatus (jobId : Int) (status : JobStatus)
  deriving DecidableEq, Repr

namespace JobTable

/-- What `add_job` returns. -/
def addJobReturn (t : JobTable) (pid : Nat) (command : Text) (status : JobStatus) : Int :=
  match Slots.insert { jobId := t.nextJobId, pid, command := command.take (maxCmdLen - 1), status } t.slots with
  | none => -1
  | some _ => t.nextJobId

/-- A call; the ids of jobs are never negative. -/
def call (t : JobTable) : JobCall → Option JobTable
  | .add pid command status => t.addJob pid command status
  | .remove (.ofNat jobId) => some (t.removeJob jobId)
  | .setStatus (.ofNat jobId) status => some (t.setStatus jobId status)
  | .remove (.negSucc _) | .setStatus (.negSucc _) _ => some t

end JobTable

/-! ## The map -/

structure Registry where
  /-- in the order they were added in -/
  entries : List Job := []
  /-- the ids that were given out -/
  issued : List Int := []
  deriving DecidableEq, Repr

namespace Registry

/-- A job is added under a new id `returned`, or none is, and -1 is returned. -/
def add (r : Registry) (returned : Int) (pid : Nat) (command : Text) (status : JobStatus) : Registry :=
  if returned = -1 then r
  else
    { entries := r.entries ++ [{ jobId := returned.toNat, pid, command := command.take (maxCmdLen - 1), status }]
      issued := returned :: r.issued }

def remove (r : Registry) (jobId : Int) : Registry :=
  { r with entries := r.entries.filter fun j => (j.jobId : Int) ≠ jobId }

def setStatus (r : Registry) (jobId : Int) (status : JobStatus) : Registry :=
  { r with entries := r.entries.map fun j => if (j.jobId : Int) = jobId then { j with status } else j }

def find (r : Registry) (jobId : Int) : Option Job := r.entries.find? fun j => (j.jobId : Int) = jobId

/-- The id of the entry that was added last. -/
def last (r : Registry) : Int :=
  match r.entries.getLast? with
  | none => -1
  | some j => j.jobId

end Registry

/-- The table beside the map: the same calls, where the map learns what `add_job` returned. -/
structure Tracked where
  table : JobTable := {}
  registry : Registry := {}

namespace Tracked

def call (x : Tracked) (c : JobCall) : Option Tracked :=
  (x.table.call c).map fun table =>
    { table
      registry :=
        match c with
        | .add pid command status =>
          x.registry.add (x.table.addJobReturn pid command status) pid command status
        | .remove jobId => x.registry.remove jobId
        | .setStatus jobId status => x.registry.setStatus jobId status }

/-- The calls one after another; `none` if `next_job_id` overflows. -/
def calls (x : Tracked) (cs : List JobCall) : Option Tracked := cs.foldlM call x

end Tracked

/-- The table `t` does what the map `r` says. -/
structure JobTable.Implements (t : JobTable) (r : Registry) : Prop where
  inUse : t.jobs.Perm r.entries
  /-- a job is added while a slot is free, under an id that was never given out -/
  full : ∀ pid command status, t.addJobReturn pid command status = -1 ↔ maxJobs ≤ t.jobs.length
  fresh : ∀ pid command status, t.jobs.length < maxJobs → t.addJobReturn pid command status ∉ r.issued
  distinct : (t.jobs.map Job.jobId).Nodup
  bounds : ∀ j ∈ t.jobs, 1 ≤ j.jobId ∧ j.jobId < t.nextJobId
  get : ∀ jobId, t.getJob jobId = r.find jobId
  removed : ∀ jobId t', t.call (.remove jobId) = some t' →
    ∀ other, t'.getJob other = if other = jobId then none else t.getJob other
  last : t.mostRecentJobId = r.last
  none_iff : t.mostRecentJobId = -1 ↔ t.jobs = []

/-- What the calls keep. -/
structure Tracked.Sound (x : Tracked) : Prop where
  slots : x.table.slots.length = maxJobs
  inUse : x.table.jobs.Perm x.registry.entries
  /-- a later entry has a greater id -/
  ordered : x.registry.entries.Pairwise fun j k => j.jobId < k.jobId
  next : 1 ≤ x.table.nextJobId
  issued : ∀ id ∈ x.registry.issued, 1 ≤ id ∧ id < x.table.nextJobId
  known : ∀ j ∈ x.registry.entries, (j.jobId : Int) ∈ x.registry.issued

/-! ## Each function on its own -/

namespace JobTable

variable {t t' : JobTable} {pid : Nat} {command : Text} {status : JobStatus}

theorem addJobReturn_eq (t : JobTable) (pid : Nat) (command : Text) (status : JobStatus) :
    t.addJobReturn pid command status = if t.slots.length ≤ t.jobs.length then -1 else (t.nextJobId : Int) := by
  unfold addJobReturn
  split
  next hi => exact (if_pos (Slots.insert_eq_none_iff.1 hi)).symm
  next slots hi =>
    refine (if_neg fun hle => ?_).symm
    rw [Slots.insert_eq_none_iff.2 hle] at hi
    cases hi

/-- A table that takes the job has it under the id that was next. -/
theorem addJob_free (h : t.addJob pid command status = some t') (hfree : t.jobs.length < t.slots.length) :
    t'.slots.length = t.slots.length ∧ t'.nextJobId = t.nextJobId + 1 ∧
      t'.jobs.Perm (⟨t.nextJobId, pid, command.take (maxCmdLen - 1), status⟩ :: t.jobs) := by
  unfold addJob at h
  split at h
  next hi => exact absurd (Slots.insert_eq_none_iff.1 hi) (Nat.not_le.2 hfree)
  next slots hi =>
    split at h
    next =>
      cases h
      exact ⟨Slots.length_insert hi, rfl, Slots.contents_insert hi⟩
    next => cases h

theorem jobs_call_remove (h : (t.jobs.map Job.jobId).Nodup) {jobId : Int} (hc : t.call (.remove jobId) = some t') :
    t'.slots.length = t.slots.length ∧ t'.nextJobId = t.nextJobId ∧
      t'.jobs = t.jobs.filter fun j => (j.jobId : Int) ≠ jobId := by
  cases jobId with
  | ofNat n =>
    cases hc
    refine ⟨Slots.length_update _, rfl, (Slots.contents_remove h).trans (List.filter_congr fun j _ => ?_)⟩
    exact decide_eq_decide.mpr (not_congr Int.natCast_inj.symm)
  | negSucc n =>
    cases hc
    exact ⟨rfl, rfl, (List.filter_eq_self.2 fun j _ => by simp).symm⟩

theorem jobs_call_setStatus (h : (t.jobs.map Job.jobId).Nodup) {jobId : Int}
    (hc : t.call (.setStatus jobId status) = some t') :
    t'.slots.length = t.slots.length ∧ t'.nextJobId = t.nextJobId ∧
      t'.jobs = t.jobs.map fun j => if (j.jobId : Int) = jobId then { j with status } else j := by
  cases jobId with
  | ofNat n =>
    cases hc
    refine ⟨Slots.length_update _, rfl, (Slots.contents_modify h _).trans (List.map_congr_left fun j _ => ?_)⟩
    exact (if_congr Int.natCast_inj rfl rfl).symm
  | negSucc n =>
    cases hc
    refine ⟨rfl, rfl, ?_⟩
    simp

/-- The greatest id does not depend on the order of the slots. -/
theorem mostRecentJobId_perm {entries : List Job} (h : t.jobs.Perm entries) :
    t.mostRecentJobId = entries.foldl (fun id j => max id (j.jobId : Int)) (-1) := by
  have hcomm : RightCommutative fun (id : Int) (j : Job) => max id (j.jobId : Int) :=
    ⟨fun a j k => max_right_comm a j.jobId k.jobId⟩
  exact h.foldl_eq (-1)

end JobTable

namespace Registry

theorem foldl_max_le {entries : List Job} {a b : Int} (ha : a ≤ b) (h : ∀ j ∈ entries, (j.jobId : Int) ≤ b) :
    entries.foldl (fun id j => max id (j.jobId : Int)) a ≤ b := by
  induction entries generalizing a with
  | nil => exact ha
  | cons j entries ih =>
    rw [List.forall_mem_cons] at h
    exact ih (max_le ha h.1) h.2

/-- In rising order the greatest id is the last. -/
theorem last_eq_foldl {r : Registry} (h : r.entries.Pairwise fun j k => j.jobId < k.jobId) :
    r.last = r.entries.foldl (fun id j => max id (j.jobId : Int)) (-1) := by
  unfold last
  rcases List.eq_nil_or_concat r.entries with hnil | ⟨before, j, hlast⟩
  · rw [hnil]
    rfl
  · rw [List.concat_eq_append] at hlast
    rw [hlast, List.pairwise_append] at h
    have hle : before.foldl (fun id k => max id (k.jobId : Int)) (-1) ≤ j.jobId := by
      refine foldl_max_le (by omega) fun k hk => ?_
      have hlt := h.2.2 k hk j (List.mem_singleton_self j)
      omega
    rw [hlast, List.foldl_append, List.getLast?_concat]
    exact (max_eq_right hle).symm

end Registry

/-! ## The calls -/

namespace Tracked

variable {x x' : Tracked}

theorem Sound.start : ({} : Tracked).Sound where
  slots := rfl
  inUse := .refl _
  ordered := .nil
  next := Nat.le_refl _
  issued := by simp
  known := by simp

theorem Sound.bounds (h : x.Sound) {j : Job} (hj : j ∈ x.table.jobs) : 1 ≤ j.jobId ∧ j.jobId < x.table.nextJobId := by
  have hid := h.issued _ (h.known j (h.inUse.mem_iff.1 hj))
  omega

theorem Sound.distinct (h : x.Sound) : (x.table.jobs.map Job.jobId).Nodup := by
  refine (h.inUse.map Job.jobId).nodup_iff.2 ?_
  rw [List.nodup_iff_pairwise_ne, List.pairwise_map]
  exact h.ordered.imp Nat.ne_of_lt

/-- A job is added to both under the same id, or to neither. -/
theorem Sound.add (h : x.Sound) {pid : Nat} {command : Text} {status : JobStatus} {t : JobTable}
    (ht : x.table.addJob pid command status = some t) :
    Sound ⟨t, x.registry.add (x.table.addJobReturn pid command status) pid command status⟩ := by
  rw [JobTable.addJobReturn_eq]
  by_cases hfull : x.table.slots.length ≤ x.table.jobs.length
  · obtain rfl := Option.some.inj ((JobTable.addJob_full hfull ..).symm.trans ht)
    rw [if_pos hfull]
    exact h
  obtain ⟨hslots, hnext, hjobs⟩ := JobTable.addJob_free ht (Nat.lt_of_not_le hfull)
  have hid : (x.table.nextJobId : Int) ≠ -1 := by omega
  rw [if_neg hfull, Registry.add, if_neg hid]
  constructor
  case slots => exact hslots.trans h.slots
  case inUse => exact (hjobs.trans (h.inUse.cons _)).trans (List.perm_append_singleton _ _).symm
  case ordered =>
    refine List.pairwise_append.2 ⟨h.ordered, List.pairwise_singleton .., fun j hj k hk => ?_⟩
    rw [List.mem_singleton.1 hk]
    exact (h.bounds (h.inUse.mem_iff.2 hj)).2
  case next => exact hnext ▸ Nat.le_add_left 1 _
  case issued =>
    intro id hmem
    have hone := h.next
    dsimp only
    rw [hnext]
    rcases List.mem_cons.1 hmem with rfl | hold
    · omega
    · have hold := h.issued id hold
      omega
  case known =>
    intro j hj
    rcases List.mem_append.1 hj with hold | hnew
    · exact List.mem_cons_of_mem _ (h.known j hold)
    · rw [List.mem_singleton.1 hnew]
      exact List.mem_cons_self

theorem Sound.remove (h : x.Sound) {jobId : Int} {t : JobTable} (ht : x.table.call (.remove jobId) = some t) :
    Sound ⟨t, x.registry.remove jobId⟩ := by
  obtain ⟨hslots, hnext, hjobs⟩ := JobTable.jobs_call_remove h.distinct ht
  constructor
  case slots => exact hslots.trans h.slots
  case inUse => exact hjobs ▸ h.inUse.filter _
  case ordered => exact h.ordered.filter _
  case next => exact hnext ▸ h.next
  case issued => exact hnext ▸ h.issued
  case known => exact fun j hj => h.known j (List.mem_of_mem_filter hj)

theorem Sound.setStatus (h : x.Sound) {jobId : Int} {status : JobStatus} {t : JobTable}
    (ht : x.table.call (.setStatus jobId status) = some t) : Sound ⟨t, x.registry.setStatus jobId status⟩ := by
  obtain ⟨hslots, hnext, hjobs⟩ := JobTable.jobs_call_setStatus h.distinct ht
  have hid : ∀ j : Job, (if (j.jobId : Int) = jobId then { j with status } else j).jobId = j.jobId := by
    intro j
    split <;> rfl
  constructor
  case slots => exact hslots.trans h.slots
  case inUse => exact hjobs ▸ h.inUse.map _
  case ordered =>
    refine List.pairwise_map.2 (h.ordered.imp fun {j k} hlt => ?_)
    rw [hid, hid]
    exact hlt
  case next => exact hnext ▸ h.next
  case issued => exact hnext ▸ h.issued
  case known =>
    intro j hj
    obtain ⟨k, hk, rfl⟩ := List.mem_map.1 hj
    rw [hid]
    exact h.known k hk

theorem Sound.call {c : JobCall} (h : x.Sound) (hc : x.call c = some x') : x'.Sound := by
  obtain ⟨t, ht, rfl⟩ := Option.map_eq_some_iff.1 hc
  cases c with
  | add pid command status => exact h.add ht
  | remove jobId => exact h.remove ht
  | setStatus jobId status => exact h.setStatus ht

theorem Sound.calls {cs : List JobCall} (h : x.Sound) (hc : x.calls cs = some x') : x'.Sound := by
  induction cs generalizing x with
  | nil =>
    cases hc
    exact h
  | cons c cs ih =>
    rw [Tracked.calls, List.foldlM_cons] at hc
    obtain ⟨y, hy, hrest⟩ := Option.bind_eq_some_iff.1 hc
    exact ih (h.call hy) hrest

theorem Sound.get (h : x.Sound) (jobId : Int) : x.table.getJob jobId = x.registry.find jobId := by
  refine List.find?_eq_find?_of_perm h.inUse fun j hj k hk => ?_
  have hids : (j.jobId : Int) = k.jobId := (of_decide_eq_true hj.2).trans (of_decide_eq_true hk.2).symm
  exact List.inj_on_of_nodup_map h.distinct hj.1 hk.1 (Int.natCast_inj.1 hids)

theorem Sound.none_iff (h : x.Sound) : x.table.mostRecentJobId = -1 ↔ x.table.jobs = [] := by
  rw [JobTable.mostRecentJobId_perm h.inUse, ← Registry.last_eq_foldl h.ordered, Registry.last]
  split
  next hlast =>
    have hnil := List.getLast?_eq_none_iff.1 hlast
    exact iff_of_true rfl (List.Perm.eq_nil (hnil ▸ h.inUse))
  next j hlast =>
    refine iff_of_false (by omega) fun hnil => ?_
    have hj := h.inUse.mem_iff.2 (List.mem_of_getLast? hlast)
    rw [hnil] at hj
    cases hj

theorem Sound.implements (h : x.Sound) : x.table.Implements x.registry where
  inUse := h.inUse
  full pid command status := by
    rw [JobTable.addJobReturn_eq, h.slots]
    split
    · exact iff_of_true rfl ‹_›
    · exact iff_of_false (by omega) ‹_›
  fresh pid command status hfree := by
    rw [JobTable.addJobReturn_eq, h.slots, if_neg (Nat.not_le.2 hfree)]
    exact fun hmem => absurd (h.issued _ hmem).2 (Int.lt_irrefl _)
  distinct := h.distinct
  bounds _ := h.bounds
  get := h.get
  removed jobId t' hc other := by
    obtain ⟨-, -, hjobs⟩ := JobTable.jobs_call_remove h.distinct hc
    rw [JobTable.getJob, hjobs, List.find?_filter]
    split
    next heq =>
      subst heq
      exact List.find?_eq_none.2 fun j _ => by simp
    next hne =>
      refine List.find?_congr fun j _ => ?_
      by_cases hj : (j.jobId : Int) = other
      · simp [hj, hne]
      · simp [hj]
  last := (JobTable.mostRecentJobId_perm h.inUse).trans (Registry.last_eq_foldl h.ordered).symm
  none_iff := h.none_iff

end Tracked

/-- After any calls from `init_jobs` the table does what the map of its jobs says. -/
theorem jobTable_implements (cs : List JobCall) {x : Tracked} (h : ({} : Tracked).calls cs = some x) :
    x.table.Implements x.registry :=
  (Tracked.Sound.start.calls h).implements

/-- Two jobs are added, the first is taken out, and a third gets its slot. -/
theorem jobTable_implements_hole :
    ∃ x, ({} : Tracked).calls [.add 7 [97] .running, .add 8 [98] .running, .remove 1, .add 9 [99] .stopped] = some x ∧
      x.table.jobs.map Job.jobId = [3, 2] ∧ x.table.Implements x.registry :=
  ⟨_, rfl, rfl, jobTable_implements
    [.add 7 [97] .running, .add 8 [98] .running, .remove 1, .add 9 [99] .stopped] rfl⟩

end OsNetworks.Shell
