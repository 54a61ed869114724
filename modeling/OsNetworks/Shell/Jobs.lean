/-
The job table of `jobs.c`, and the children of the shell as the kernel keeps
them for `waitpid`. A child that has ended stays until its end is reported; a
stop is reported once, and so is the continuation of a stopped child.

A result `none` means that a counter overflowed.
-/
import Mathlib.Data.List.Nodup
import OsNetworks.Lib.Slots
import OsNetworks.Shell.Bytes

namespace OsNetworks.Shell
open OsNetworks

abbrev maxJobs : Nat := 100

abbrev maxCmdLen : Nat := 1024

/-- `INT_MAX` -/
abbrev intMax : Nat := 2147483647

inductive JobStatus where
  | running
  | stopped
  /-- never set -/
  | done
  deriving DecidableEq, Repr

structure Job where
  jobId : Nat
  pid : Nat
  command : Text
  status : JobStatus
  deriving DecidableEq, Repr

/-- `jobs`, where a slot that is not `in_use` is `none`, and `next_job_id`. -/
structure JobTable where
  slots : List (Option Job) := List.replicate maxJobs none
  nextJobId : Nat := 1

namespace JobTable

/-- The jobs in use, in the order of their slots. -/
def jobs (t : JobTable) : List Job := Slots.contents t.slots

/-- `add_job`; the table is unchanged, and -1 returned, if no slot is free. The result is `none` if
`next_job_id++` overflows. -/
def addJob (t : JobTable) (pid : Nat) (command : Text) (status : JobStatus) : Option JobTable :=
  match Slots.insert { jobId := t.nextJobId, pid, command := command.take (maxCmdLen - 1), status } t.slots with
  | none => some t
  | some slots => if t.nextJobId < intMax then some { slots, nextJobId := t.nextJobId + 1 } else none

/-- `get_job` -/
def getJob (t : JobTable) (jobId : Int) : Option Job := t.jobs.find? fun j => (j.jobId : Int) = jobId

/-- `get_job_by_pid` -/
def getJobByPid (t : JobTable) (pid : Nat) : Option Job := t.jobs.find? fun j => j.pid = pid

/-- `remove_job` -/
def removeJob (t : JobTable) (jobId : Nat) : JobTable :=
  { t with slots := Slots.update Job.jobId jobId (fun _ => none) t.slots }

/-- `job->status = status` -/
def setStatus (t : JobTable) (jobId : Nat) (status : JobStatus) : JobTable :=
  { t with slots := Slots.update Job.jobId jobId (fun j => some { j with status }) t.slots }

/-- `get_most_recent_job_id`; -1 if there is no job. -/
def mostRecentJobId (t : JobTable) : Int := t.jobs.foldl (fun id j => max id j.jobId) (-1)

end JobTable

/-! ## Processes -/

/-- What the kernel knows of a child that has not been reaped. -/
inductive ProcessState where
  /-- `continued`: it was stopped, and that it goes on has not been reported -/
  | running (continued : Bool)
  | stopped (reported : Bool)
  | exited
  deriving DecidableEq, Repr

/-- What a child was started for. -/
inductive Role where
  /-- a command with `&`, of a pipeline the last stage -/
  | background
  /-- a simple command in foreground -/
  | foreground
  /-- the same, since it stopped -/
  | suspended
  /-- any other stage of a pipeline -/
  | stage
  deriving DecidableEq, Repr

/-- Of a child that belongs into the table of jobs. -/
def Role.IsJob (role : Role) : Prop := role = .background ∨ role = .suspended

structure ChildProcess where
  pid : Nat
  role : Role
  state : ProcessState := .running false
  deriving DecidableEq, Repr

/-- What happens to a process, by itself or by a signal. -/
inductive Change where
  | stop
  | continue
  | exit
  deriving DecidableEq, Repr

def Change.apply : Change → ProcessState → ProcessState
  | .stop, .running _ => .stopped false
  | .continue, .stopped _ => .running true
  | .exit, _ => .exited
  | _, state => state

/-- The signals that no process can handle or ignore: `SIGKILL`, `SIGCONT` and `SIGSTOP`. -/
def Change.ofSignal (signal : Int) : Option Change :=
  if signal = 9 then some .exit else if signal = 18 then some .continue else if signal = 19 then some .stop else none

/-- There is something that `waitpid(-1, ..)` reports of a child in this state. -/
def ProcessState.pending : ProcessState → Bool
  | .running continued => continued
  | .stopped reported => !reported
  | .exited => true

/-- The child once it is reported. -/
def ProcessState.report : ProcessState → ProcessState
  | .running _ => .running false
  | .stopped _ => .stopped true
  | .exited => .exited

def ProcessState.isStopped : ProcessState → Bool
  | .stopped _ => true
  | _ => false

/-- What the shell does to a process or hears of it. -/
inductive Notice where
  | started
  /-- by `fg` or `bg` -/
  | resumed
  /-- `WIFCONTINUED` -/
  | continued
  /-- `WIFSTOPPED` -/
  | stopped
  /-- Ctrl-Z while it is in foreground -/
  | interrupted
  deriving DecidableEq, Repr

/-- What the shell then takes its status to be. -/
def Notice.status : Notice → JobStatus
  | .stopped | .interrupted => .stopped
  | _ => .running

/-! ## The books -/

/-- The children, the table of jobs, and what the shell did to its children and heard of them,
the newest first. -/
structure Books where
  children : List ChildProcess := []
  table : JobTable := {}
  notices : List (Nat × Notice) := []

namespace Books

def child (b : Books) (pid : Nat) : Option ChildProcess := b.children.find? fun c => c.pid = pid

/-- The notice that the shell took of a process last. -/
def lastNotice (b : Books) (pid : Nat) : Option Notice := (b.notices.find? fun n => n.1 = pid).map Prod.snd

def note (b : Books) (pid : Nat) (notice : Notice) : Books := { b with notices := (pid, notice) :: b.notices }

/-- `fork` -/
def fork (b : Books) (pid : Nat) (role : Role) : Books :=
  { b with
    children := b.children ++ [ChildProcess.mk pid role (.running false)]
    notices := (pid, .started) :: b.notices }

/-- The forks of stages of a pipeline. -/
def forkStages (b : Books) (pids : List Nat) : Books := pids.foldl (fun b pid => b.fork pid .stage) b

/-- The kernel gives new ids to new processes. -/
def Fresh (b : Books) (pids : List Nat) : Prop :=
  pids.Nodup ∧ ∀ pid ∈ pids, 0 < pid ∧ pid ∉ b.children.map ChildProcess.pid

instance (b : Books) (pids : List Nat) : Decidable (b.Fresh pids) := inferInstanceAs (Decidable (_ ∧ _))

/-- The state of a child changes. -/
def change (b : Books) (pid : Nat) (f : ProcessState → ProcessState) : Books :=
  { b with children := b.children.map fun c => if c.pid = pid then { c with state := f c.state } else c }

/-- The end of a child has been reported. -/
def reap (b : Books) (pid : Nat) : Books := { b with children := b.children.filter fun c => c.pid ≠ pid }

/-- The role of a command in foreground once it was reported to have stopped. -/
def suspend (b : Books) (pid : Nat) : Books :=
  { b with children := b.children.map fun c => if c.pid = pid then { c with role := .suspended } else c }

/-- The status of a job is set, upon a notice of its process. -/
def mark (b : Books) (jobId pid : Nat) (notice : Notice) : Books :=
  { b with table := b.table.setStatus jobId notice.status, notices := (pid, notice) :: b.notices }

/-- The same for the job that `get_job_by_pid` finds. -/
def markPid (b : Books) (pid : Nat) (notice : Notice) : Books :=
  match b.table.getJobByPid pid with
  | none => b.note pid notice
  | some job => b.mark job.jobId pid notice

/-- The body of the loop of `check_background_jobs`, for a report of `waitpid`. -/
def check (b : Books) (pid : Nat) : Books :=
  match (b.child pid).map ChildProcess.state with
  | some .exited =>
    match b.table.getJobByPid pid with
    | none => b.reap pid
    | some job => { b.reap pid with table := b.table.removeJob job.jobId }
  | some (.stopped false) => (b.change pid .report).markPid pid .stopped
  | some (.running true) => (b.change pid .report).markPid pid .continued
  | _ => b

end Books

/-! ## The table after a change -/

/-- The job of a process, with a new status. -/
def Job.marked (pid : Nat) (status : JobStatus) (job : Job) : Job :=
  if job.pid = pid then { job with status } else job

@[simp] theorem Job.pid_marked (pid : Nat) (status : JobStatus) (job : Job) :
    (job.marked pid status).pid = job.pid := by
  unfold Job.marked
  split <;> rfl

@[simp] theorem Job.jobId_marked (pid : Nat) (status : JobStatus) (job : Job) :
    (job.marked pid status).jobId = job.jobId := by
  unfold Job.marked
  split <;> rfl

namespace JobTable

variable {t t' : JobTable} {pid : Nat} {job : Job}

theorem addJob_cases {command : Text} {status : JobStatus} (h : t.addJob pid command status = some t') :
    t'.slots.length = t.slots.length ∧
      (t.slots.length ≤ t.jobs.length ∧ t' = t ∨ t'.nextJobId = t.nextJobId + 1 ∧
        ∃ job : Job, job.jobId = t.nextJobId ∧ job.pid = pid ∧ job.status = status ∧
          t'.jobs.Perm (job :: t.jobs)) := by
  unfold addJob at h
  split at h
  next hi =>
    obtain rfl := Option.some.inj h
    exact ⟨rfl, .inl ⟨Slots.insert_eq_none_iff.mp hi, rfl⟩⟩
  next slots hi =>
    split at h
    · obtain rfl := Option.some.inj h
      exact ⟨Slots.length_insert hi, .inr ⟨rfl, _, rfl, rfl, rfl, Slots.contents_insert hi⟩⟩
    · cases h

/-- A full table stays as it is. -/
theorem addJob_full (h : t.slots.length ≤ t.jobs.length) (pid : Nat) (command : Text) (status : JobStatus) :
    t.addJob pid command status = some t := by
  rw [addJob, Slots.insert_eq_none_iff.mpr h]

theorem addJob_isSome (h : t.nextJobId < intMax) (pid : Nat) (command : Text) (status : JobStatus) :
    ∃ t', t.addJob pid command status = some t' ∧ t'.nextJobId ≤ t.nextJobId + 1 := by
  unfold addJob
  split
  · exact ⟨t, rfl, Nat.le_succ _⟩
  · exact ⟨_, if_pos h, Nat.le_refl _⟩

theorem getJob_some {jobId : Int} (h : t.getJob jobId = some job) : job ∈ t.jobs := List.mem_of_find?_eq_some h

theorem getJobByPid_some (h : t.getJobByPid pid = some job) : job ∈ t.jobs ∧ job.pid = pid := by
  have hpid := List.find?_some h
  exact ⟨List.mem_of_find?_eq_some h, of_decide_eq_true hpid⟩

theorem getJobByPid_none (h : t.getJobByPid pid = none) : pid ∉ t.jobs.map Job.pid := by
  intro hm
  obtain ⟨job, hj, he⟩ := List.mem_map.mp hm
  exact List.find?_eq_none.mp h job hj (decide_eq_true he)

/-- Where neither ids nor processes occur twice, the one tells the same job as the other. -/
theorem jobId_eq_iff (hids : (t.jobs.map Job.jobId).Nodup) (hpids : (t.jobs.map Job.pid).Nodup) {j k : Job}
    (hj : j ∈ t.jobs) (hk : k ∈ t.jobs) : k.jobId = j.jobId ↔ k.pid = j.pid := by
  constructor
  · intro he
    rw [List.inj_on_of_nodup_map hids hk hj he]
  · intro he
    rw [List.inj_on_of_nodup_map hpids hk hj he]

theorem jobs_setStatus (hids : (t.jobs.map Job.jobId).Nodup) (hpids : (t.jobs.map Job.pid).Nodup) (hj : job ∈ t.jobs)
    (status : JobStatus) : (t.setStatus job.jobId status).jobs = t.jobs.map (Job.marked job.pid status) := by
  refine (Slots.contents_modify hids fun j : Job => { j with status }).trans (List.map_congr_left fun k hk => ?_)
  simp only [Job.marked, jobId_eq_iff hids hpids hj hk]

theorem jobs_removeJob (hids : (t.jobs.map Job.jobId).Nodup) (hpids : (t.jobs.map Job.pid).Nodup)
    (hj : job ∈ t.jobs) :
    (t.removeJob job.jobId).jobs = t.jobs.filter fun k => k.pid ≠ job.pid := by
  refine (Slots.contents_remove hids).trans (List.filter_congr fun k hk => ?_)
  simp only [ne_eq, jobId_eq_iff hids hpids hj hk]

end JobTable

end OsNetworks.Shell
