/-
That the table of jobs and the children fit together in every state of the
shell: each entry is of a child that belongs into the table, no two are of the
same, and its status is what the shell heard of it last. That each child that
belongs into the table has an entry is kept as long as `add_job` finds a slot.
-/
import OsNetworks.Shell.JobControl

namespace OsNetworks.Shell
open OsNetworks

namespace Books

/-- The children, without their states. -/
def roles (b : Books) : List (Nat × Role) := b.children.map fun c => (c.pid, c.role)

/-- What holds of the books at any time. -/
structure Sound (b : Books) : Prop where
  size : b.table.slots.length = maxJobs
  children : (b.roles.map Prod.fst).Nodup
  ids : (b.table.jobs.map Job.jobId).Nodup
  next : ∀ job ∈ b.table.jobs, job.jobId < b.table.nextJobId
  pids : (b.table.jobs.map Job.pid).Nodup
  owned : ∀ job ∈ b.table.jobs, ∃ role : Role, (job.pid, role) ∈ b.roles ∧ role.IsJob
  noted : ∀ job ∈ b.table.jobs, (b.lastNotice job.pid).map Notice.status = some job.status

/-- The child has an entry. -/
def Listed (b : Books) (pid : Nat) : Prop := pid ∈ b.table.jobs.map Job.pid

/-- Each child but the stages of pipelines has an entry, or is the one the shell is busy with. -/
def Kept (b : Books) (busy : Option Nat) : Prop :=
  ∀ r ∈ b.roles, r.2 ≠ .stage → b.Listed r.1 ∨ busy = some r.1

/-! ## Each change of the books by itself -/

variable {b b' : Books} {pid : Nat}

theorem Sound.role_unique (h : b.Sound) {role role' : Role} (hr : (pid, role) ∈ b.roles)
    (hr' : (pid, role') ∈ b.roles) : role = role' :=
  (Prod.mk.inj (List.inj_on_of_nodup_map h.children hr hr' rfl)).2

/-- A child with another role has no entry. -/
theorem Sound.not_listed (h : b.Sound) {role : Role} (hr : (pid, role) ∈ b.roles) (hrole : ¬ role.IsJob) :
    ¬ b.Listed pid := by
  intro hl
  obtain ⟨job, hj, rfl⟩ := List.mem_map.mp hl
  obtain ⟨role', hr', hjob⟩ := h.owned job hj
  exact hrole (h.role_unique hr hr' ▸ hjob)

/-- Neither has a process that is no child. -/
theorem Sound.not_listed_of_new (h : b.Sound) (hnew : pid ∉ b.roles.map Prod.fst) : ¬ b.Listed pid := by
  intro hl
  obtain ⟨job, hj, rfl⟩ := List.mem_map.mp hl
  obtain ⟨role, hr, -⟩ := h.owned job hj
  exact hnew (List.mem_map_of_mem hr)

theorem lastNotice_cons {n : Notice} (hn : b'.notices = (pid, n) :: b.notices) (q : Nat) :
    b'.lastNotice q = if pid = q then some n else b.lastNotice q := by
  unfold lastNotice
  rw [hn, List.find?_cons]
  by_cases hq : pid = q <;> simp [hq]

@[simp] theorem roles_change (b : Books) (pid : Nat) (f : ProcessState → ProcessState) :
    (b.change pid f).roles = b.roles := by
  unfold roles change
  rw [List.map_map]
  refine List.map_congr_left fun c _ => ?_
  simp only [Function.comp]
  split <;> rfl

@[simp] theorem roles_reap (b : Books) (pid : Nat) : (b.reap pid).roles = b.roles.filter fun r => r.1 ≠ pid := by
  unfold roles reap
  rw [List.filter_map]
  rfl

@[simp] theorem roles_fork (b : Books) (pid : Nat) (role : Role) :
    (b.fork pid role).roles = b.roles ++ [(pid, role)] := by
  simp [roles, fork]

@[simp] theorem roles_suspend (b : Books) (pid : Nat) :
    (b.suspend pid).roles = b.roles.map fun r => if r.1 = pid then (r.1, .suspended) else r := by
  unfold roles suspend
  rw [List.map_map, List.map_map]
  refine List.map_congr_left fun c _ => ?_
  simp only [Function.comp]
  split <;> rfl

/-- The states of the children do not matter. -/
theorem Sound.change (h : b.Sound) (pid : Nat) (f : ProcessState → ProcessState) : (b.change pid f).Sound := by
  refine ⟨h.size, ?_, h.ids, h.next, h.pids, ?_, h.noted⟩
  · rw [roles_change]
    exact h.children
  · rw [roles_change]
    exact h.owned

/-! ## Notices -/

/-- The books after a notice of a process, which sets the status of its job if it has one. -/
structure Marked (b : Books) (pid : Nat) (n : Notice) (b' : Books) : Prop where
  roles : b'.roles = b.roles
  jobs : b'.table.jobs = b.table.jobs.map (Job.marked pid n.status)
  size : b'.table.slots.length = b.table.slots.length
  next : b'.table.nextJobId = b.table.nextJobId
  notices : b'.notices = (pid, n) :: b.notices

theorem Marked.pids {n : Notice} (hm : Marked b pid n b') :
    b'.table.jobs.map Job.pid = b.table.jobs.map Job.pid := by
  rw [hm.jobs, List.map_map]
  exact List.map_congr_left fun job _ => Job.pid_marked pid n.status job

theorem Marked.job {n : Notice} (hm : Marked b pid n b') {job : Job} (hj : job ∈ b.table.jobs) :
    ∃ job' ∈ b'.table.jobs, job'.jobId = job.jobId ∧ job'.pid = job.pid :=
  ⟨job.marked pid n.status, hm.jobs.symm ▸ List.mem_map_of_mem hj, Job.jobId_marked .., Job.pid_marked ..⟩

theorem Marked.sound {n : Notice} (hm : Marked b pid n b') (h : b.Sound) : b'.Sound where
  size := hm.size.trans h.size
  children := hm.roles ▸ h.children
  ids := by simpa [hm.jobs, Function.comp_def] using h.ids
  next := by simpa [hm.jobs, hm.next] using h.next
  pids := hm.pids ▸ h.pids
  owned := by simpa [hm.jobs, hm.roles] using h.owned
  noted := by
    intro job hjob
    rw [hm.jobs] at hjob
    obtain ⟨old, hold, rfl⟩ := List.mem_map.mp hjob
    rw [lastNotice_cons hm.notices, Job.pid_marked, Job.marked]
    by_cases hpid : old.pid = pid
    · rw [if_pos hpid.symm, if_pos hpid]
      rfl
    · rw [if_neg fun he => hpid he.symm, if_neg hpid]
      exact h.noted old hold

theorem Marked.kept {n : Notice} (hm : Marked b pid n b') {busy : Option Nat} (h : b.Kept busy) : b'.Kept busy := by
  intro r hr hstage
  unfold Listed
  rw [hm.pids]
  exact h r (hm.roles ▸ hr) hstage

theorem marked_note (hl : ¬ b.Listed pid) (n : Notice) : Marked b pid n (b.note pid n) := by
  refine ⟨rfl, ((List.map_congr_left fun job hj => ?_).trans (List.map_id _)).symm, rfl, rfl, rfl⟩
  exact if_neg fun he => hl (List.mem_map.mpr ⟨job, hj, he⟩)

theorem Sound.marked_mark (h : b.Sound) {job : Job} (hj : job ∈ b.table.jobs) (n : Notice) :
    Marked b job.pid n (b.mark job.jobId job.pid n) :=
  ⟨rfl, JobTable.jobs_setStatus h.ids h.pids hj _, Slots.length_update _, rfl, rfl⟩

theorem Sound.marked_markPid (h : b.Sound) (pid : Nat) (n : Notice) : Marked b pid n (b.markPid pid n) := by
  unfold Books.markPid
  split
  next hnone => exact marked_note (JobTable.getJobByPid_none hnone) n
  next job hsome =>
    obtain ⟨hj, rfl⟩ := JobTable.getJobByPid_some hsome
    exact h.marked_mark hj n

/-! ## Ends -/

/-- The books after the end of a child was reported: it is gone, and so is its entry. -/
structure Dropped (b : Books) (pid : Nat) (b' : Books) : Prop where
  roles : b'.roles = b.roles.filter fun r => r.1 ≠ pid
  jobs : b'.table.jobs = b.table.jobs.filter fun job => job.pid ≠ pid
  size : b'.table.slots.length = b.table.slots.length
  next : b'.table.nextJobId = b.table.nextJobId
  notices : b'.notices = b.notices

theorem Dropped.sound (hd : Dropped b pid b') (h : b.Sound) : b'.Sound where
  size := hd.size.trans h.size
  children := hd.roles ▸ h.children.sublist (List.filter_sublist.map _)
  ids := hd.jobs ▸ h.ids.sublist (List.filter_sublist.map _)
  next job hjob := hd.next ▸ h.next job (List.mem_of_mem_filter (hd.jobs ▸ hjob))
  pids := hd.jobs ▸ h.pids.sublist (List.filter_sublist.map _)
  owned := by
    intro job hjob
    rw [hd.jobs, List.mem_filter] at hjob
    obtain ⟨role, hrole, hisJob⟩ := h.owned job hjob.1
    exact ⟨role, hd.roles ▸ List.mem_filter.mpr ⟨hrole, hjob.2⟩, hisJob⟩
  noted := by
    intro job hjob
    have hlast : b'.lastNotice job.pid = b.lastNotice job.pid := by rw [lastNotice, lastNotice, hd.notices]
    exact hlast ▸ h.noted job (List.mem_of_mem_filter (hd.jobs ▸ hjob))

/-- The shell is no longer busy with a child that has ended. -/
theorem Dropped.kept (hd : Dropped b pid b') {busy : Option Nat} (h : b.Kept busy)
    (hb : ∀ q, busy = some q → q = pid) :
    b'.Kept none := by
  intro r hr hstage
  rw [hd.roles, List.mem_filter] at hr
  have hne : r.1 ≠ pid := of_decide_eq_true hr.2
  rcases h r hr.1 hstage with hl | hbusy
  · obtain ⟨job, hj, he⟩ := List.mem_map.mp hl
    refine .inl (List.mem_map.mpr ⟨job, ?_, he⟩)
    rw [hd.jobs]
    exact List.mem_filter.mpr ⟨hj, decide_eq_true (he ▸ hne)⟩
  · exact absurd (hb _ hbusy) hne

theorem dropped_reap (hl : ¬ b.Listed pid) : Dropped b pid (b.reap pid) := by
  refine ⟨roles_reap b pid, (List.filter_eq_self.mpr fun job hj => ?_).symm, rfl, rfl, rfl⟩
  exact decide_eq_true fun he => hl (List.mem_map.mpr ⟨job, hj, he⟩)

theorem Sound.dropped_remove (h : b.Sound) {job : Job} (hj : job ∈ b.table.jobs) :
    Dropped b job.pid { b.reap job.pid with table := b.table.removeJob job.jobId } :=
  ⟨roles_reap b job.pid, JobTable.jobs_removeJob h.ids h.pids hj, Slots.length_update _, rfl, rfl⟩

/-! ## New children, and their way into the table -/

theorem Sound.suspend (h : b.Sound) (pid : Nat) : (b.suspend pid).Sound where
  size := h.size
  children := by
    have hkeys : (b.suspend pid).roles.map Prod.fst = b.roles.map Prod.fst := by
      rw [roles_suspend, List.map_map]
      refine List.map_congr_left fun r _ => ?_
      simp only [Function.comp]
      split <;> rfl
    exact hkeys ▸ h.children
  ids := h.ids
  next := h.next
  pids := h.pids
  owned := by
    intro job hj
    obtain ⟨role, hr, hjob⟩ := h.owned job hj
    rw [roles_suspend]
    by_cases hpid : job.pid = pid
    · exact ⟨.suspended, List.mem_map.mpr ⟨_, hr, if_pos hpid⟩, .inr rfl⟩
    · exact ⟨role, List.mem_map.mpr ⟨_, hr, if_neg hpid⟩, hjob⟩
  noted := h.noted

theorem Sound.fork (h : b.Sound) (hf : pid ∉ b.roles.map Prod.fst) (role : Role) : (b.fork pid role).Sound where
  size := h.size
  children := by
    rw [roles_fork, List.map_append, List.nodup_append_comm]
    exact List.nodup_cons.mpr ⟨hf, h.children⟩
  ids := h.ids
  next := h.next
  pids := h.pids
  owned job hj := by
    obtain ⟨role, hr, hjob⟩ := h.owned job hj
    exact ⟨role, roles_fork b pid _ ▸ List.mem_append_left _ hr, hjob⟩
  noted job hj := by
    have hne : pid ≠ job.pid := fun he => h.not_listed_of_new hf (he ▸ List.mem_map_of_mem hj)
    rw [lastNotice_cons rfl, if_neg hne]
    exact h.noted job hj

theorem Sound.addJob (h : b.Sound) {role : Role} {command : Text} {status : JobStatus} {table : JobTable}
    (hl : ¬ b.Listed pid) (hr : (pid, role) ∈ b.roles) (hrole : role.IsJob)
    (hn : (b.lastNotice pid).map Notice.status = some status) (ha : b.table.addJob pid command status = some table) :
    Sound { b with table } := by
  obtain ⟨hsize, ⟨-, rfl⟩ | ⟨hnext, job, hid, rfl, rfl, hperm⟩⟩ := JobTable.addJob_cases ha
  · exact h
  · have hnew : job.jobId ∉ b.table.jobs.map Job.jobId := by
      intro hm
      obtain ⟨old, hold, he⟩ := List.mem_map.mp hm
      exact absurd (h.next old hold) (by omega)
    refine ⟨hsize.trans h.size, h.children, ?_, fun k hk => ?_, ?_, fun k hk => ?_, fun k hk => ?_⟩
    · exact ((hperm.map _).nodup_iff).mpr (List.nodup_cons.mpr ⟨hnew, h.ids⟩)
    · rw [hnext]
      rcases List.mem_cons.mp (hperm.mem_iff.mp hk) with rfl | hk
      · omega
      · exact Nat.lt_succ_of_lt (h.next k hk)
    · exact ((hperm.map _).nodup_iff).mpr (List.nodup_cons.mpr ⟨hl, h.pids⟩)
    · rcases List.mem_cons.mp (hperm.mem_iff.mp hk) with rfl | hk
      · exact ⟨role, hr, hrole⟩
      · exact h.owned k hk
    · rcases List.mem_cons.mp (hperm.mem_iff.mp hk) with rfl | hk
      · exact hn
      · exact h.noted k hk

theorem Kept.fork {busy : Option Nat} (h : b.Kept none) (role : Role) (hb : role ≠ .stage → busy = some pid) :
    (b.fork pid role).Kept busy := by
  intro r hr hstage
  rw [roles_fork, List.mem_append, List.mem_singleton] at hr
  rcases hr with hr | rfl
  · exact (h r hr hstage).imp_right fun hn => by cases hn
  · exact .inr (hb hstage)

/-- Stages of a pipeline need no entries. -/
theorem forkStages_spec {pids : List Nat} (h : b.Sound) (hf : ∀ pid ∈ pids, pid ∉ b.roles.map Prod.fst)
    (hd : pids.Nodup) :
    (b.forkStages pids).Sound ∧ (b.forkStages pids).roles = b.roles ++ pids.map (·, .stage) ∧
      (b.forkStages pids).table = b.table ∧ (b.Kept none → (b.forkStages pids).Kept none) := by
  induction pids generalizing b with
  | nil => exact ⟨h, (List.append_nil _).symm, rfl, id⟩
  | cons pid pids ih =>
    have hnew := List.nodup_cons.mp hd
    have hnext := @ih (b.fork pid .stage) (h.fork (hf pid (by simp)) .stage) (fun q hq => by
      rw [roles_fork, List.map_append, List.mem_append, not_or]
      refine ⟨hf q (by simp [hq]), fun he => ?_⟩
      obtain rfl : q = pid := by simpa using he
      exact hnew.1 hq) hnew.2
    refine ⟨hnext.1, ?_, hnext.2.2.1, fun hk => hnext.2.2.2 (hk.fork .stage fun hs => absurd rfl hs)⟩
    rw [forkStages, List.foldl_cons]
    exact hnext.2.1.trans (by simp)

theorem Kept.suspend (h : b.Kept (some pid)) : (b.suspend pid).Kept (some pid) := by
  intro r hr hstage
  rw [roles_suspend] at hr
  obtain ⟨old, hold, rfl⟩ := List.mem_map.mp hr
  by_cases hpid : old.1 = pid
  · exact .inr (by simp [hpid])
  · rw [if_neg hpid] at hstage ⊢
    exact h old hold hstage

theorem Kept.addJob {command : Text} {status : JobStatus} {table : JobTable} (h : b.Kept (some pid))
    (ha : b.table.addJob pid command status = some table) (hfits : b.table.jobs.length < b.table.slots.length) :
    Kept { b with table } none := by
  obtain ⟨-, ⟨hfull, -⟩ | ⟨-, job, -, rfl, -, hperm⟩⟩ := JobTable.addJob_cases ha
  · exact absurd hfits (Nat.not_lt_of_le hfull)
  · intro r hr hstage
    refine .inl ((hperm.map Job.pid).mem_iff.mpr ?_)
    rcases h r hr hstage with hl | hbusy
    · exact List.mem_cons_of_mem _ hl
    · exact Option.some.inj hbusy ▸ List.mem_cons_self

end Books

/-! ## The books of the shell -/

/-- The child that the shell is busy with. -/
def Pending.busy : Option Pending → Option Nat
  | some (.addJob pid _ _) | some (.awaitForeground pid _) => some pid
  | _ => none

/-- What is pending is about the right processes. -/
def Pending.Ready (b : Books) : Option Pending → Prop
  | some (.addJob pid _ status) =>
    ¬ b.Listed pid ∧ (∃ role : Role, (pid, role) ∈ b.roles ∧ role.IsJob) ∧
      (b.lastNotice pid).map Notice.status = some status
  | some (.awaitForeground pid _) => (pid, .foreground) ∈ b.roles
  | some (.awaitStages pids) => ∀ r ∈ b.roles, r.1 ∈ pids → r.2 = .stage
  | some (.awaitJob jobId pid) => ∃ job ∈ b.table.jobs, job.jobId = jobId ∧ job.pid = pid
  | none => True

/-- The shell waits for one process, which has the foreground. -/
def Pending.InForeground : Option Pending → Prop
  | some (.awaitForeground _ _) | some (.awaitJob _ _) => True
  | _ => False

/-- The books are in order while `p` is pending; if `fits`, no entry is missing. -/
structure Books.Consistent (fits : Prop) (b : Books) (p : Option Pending) : Prop where
  sound : b.Sound
  kept : fits → b.Kept (Pending.busy p)
  ready : Pending.Ready b p

def Phase.pending : Phase → Option (Option Pending)
  | .checking | .reading => some none
  | .running p _ => some p
  | .lost | .ended => none

/-- The books are in order, unless the behaviour is undefined or the shell has ended. -/
def ShellState.Consistent (fits : Prop) (s : ShellState) : Prop :=
  ∀ p, s.phase.pending = some p → s.books.Consistent fits p ∧ (s.foreground = none ∨ Pending.InForeground p)

section
variable {fits : Prop} {b b' : Books} {p : Option Pending} {pid : Nat}

theorem Books.Consistent.change (h : b.Consistent fits p) (pid : Nat) (f : ProcessState → ProcessState) :
    (b.change pid f).Consistent fits p where
  sound := h.sound.change pid f
  kept hf := by
    intro r hr
    rw [Books.roles_change] at hr
    exact h.kept hf r hr
  ready := by
    have hready := h.ready
    match p with
    | none => trivial
    | some (.addJob q command status) =>
      obtain ⟨hl, ⟨role, hr, hjob⟩, hn⟩ := hready
      exact ⟨hl, ⟨role, (Books.roles_change b pid f).symm ▸ hr, hjob⟩, hn⟩
    | some (.awaitForeground q command) =>
      rw [Pending.Ready, Books.roles_change]
      exact hready
    | some (.awaitStages pids) => exact fun r hr => hready r (Books.roles_change b pid f ▸ hr)
    | some (.awaitJob jobId q) => exact hready

theorem Books.Consistent.marked {n : Notice} (h : b.Consistent fits p) (hp : p = none ∨ Pending.InForeground p)
    (hm : Marked b pid n b') : b'.Consistent fits p where
  sound := hm.sound h.sound
  kept hf := hm.kept (h.kept hf)
  ready := by
    have hready := h.ready
    match p with
    | none => trivial
    | some (.addJob q command status) => simp [Pending.InForeground] at hp
    | some (.awaitForeground q command) =>
      rw [Pending.Ready, hm.roles]
      exact hready
    | some (.awaitStages pids) => simp [Pending.InForeground] at hp
    | some (.awaitJob jobId q) =>
      obtain ⟨job, hj, rfl, rfl⟩ := hready
      exact hm.job hj

/-- Nothing is pending any more. -/
theorem Books.Consistent.done (h : b.Consistent fits p) (hb : Pending.busy p = none) : b.Consistent fits none where
  sound := h.sound
  kept hf := by
    rw [show Pending.busy none = Pending.busy p from hb.symm]
    exact h.kept hf
  ready := trivial

theorem Books.Consistent.dropped (h : b.Consistent fits p) (hd : Dropped b pid b')
    (hb : ∀ q, Pending.busy p = some q → q = pid) : b'.Consistent fits none :=
  ⟨hd.sound h.sound, fun hf => hd.kept (h.kept hf) hb, trivial⟩

/-- The loop of `check_background_jobs`. -/
theorem Books.Consistent.check (h : b.Consistent fits none) (pid : Nat) : (b.check pid).Consistent fits none := by
  have hmark : ∀ n, ((b.change pid ProcessState.report).markPid pid n).Consistent fits none := fun n =>
    (h.change pid _).marked (.inl rfl) ((h.change pid _).sound.marked_markPid pid n)
  unfold Books.check
  split
  · split
    next hnone => exact h.dropped (dropped_reap (JobTable.getJobByPid_none hnone)) fun q hq => by cases hq
    next job hsome =>
      obtain ⟨hj, rfl⟩ := JobTable.getJobByPid_some hsome
      exact h.dropped (h.sound.dropped_remove hj) fun q hq => by cases hq
  · exact hmark .stopped
  · exact hmark .continued
  · exact h

/-! ## What was waited for -/

theorem Books.Consistent.added {command : Text} {status : JobStatus} {table : JobTable}
    (h : b.Consistent fits (some (.addJob pid command status)))
    (ha : b.table.addJob pid command status = some table) (hfits : fits → b.table.jobs.length < maxJobs) :
    Books.Consistent fits { b with table } none := by
  obtain ⟨hl, ⟨role, hr, hjob⟩, hn⟩ := h.ready
  exact ⟨h.sound.addJob hl hr hjob hn ha, fun hf => (h.kept hf).addJob ha (h.sound.size ▸ hfits hf), trivial⟩

section
variable {command : Text} (h : b.Consistent fits (some (.awaitForeground pid command)))
include h

theorem Books.Consistent.foreground_not_listed : ¬ b.Listed pid := h.sound.not_listed h.ready (by simp [Role.IsJob])

theorem Books.Consistent.foregroundEnded : (b.reap pid).Consistent fits none :=
  h.dropped (dropped_reap h.foreground_not_listed) fun _ hq => (Option.some.inj hq).symm

theorem Books.Consistent.foregroundStopped :
    (((b.change pid .report).suspend pid).note pid .stopped).Consistent fits
      (some (.addJob pid command .stopped)) := by
  have hl := h.foreground_not_listed
  have hc := h.change pid .report
  have hm := marked_note (b := (b.change pid .report).suspend pid) hl .stopped
  refine ⟨hm.sound (hc.sound.suspend pid), fun hf => hm.kept (hc.kept hf).suspend, hl, ?_, ?_⟩
  · refine ⟨.suspended, ?_, .inr rfl⟩
    rw [hm.roles, roles_suspend]
    exact List.mem_map.mpr ⟨_, hc.ready, if_pos rfl⟩
  · rw [lastNotice_cons hm.notices, if_pos rfl]
    rfl

end

section
variable {pids : List Nat} (h : b.Consistent fits (some (.awaitStages (pid :: pids))))
include h

theorem Books.Consistent.nextStage : b.Consistent fits (some (.awaitStages pids)) :=
  ⟨h.sound, h.kept, fun r hr hpid => h.ready r hr (List.mem_cons_of_mem _ hpid)⟩

/-- A stage has no entry, whether or not it is still a child. -/
theorem Books.Consistent.stage_not_listed : ¬ b.Listed pid := by
  by_cases hchild : pid ∈ b.roles.map Prod.fst
  · obtain ⟨⟨q, role⟩, hr, rfl⟩ := List.mem_map.mp hchild
    have hstage : role = .stage := h.ready _ hr List.mem_cons_self
    exact h.sound.not_listed hr (by simp [hstage, Role.IsJob])
  · exact h.sound.not_listed_of_new hchild

theorem Books.Consistent.stageEnded : (b.reap pid).Consistent fits (some (.awaitStages pids)) := by
  have hd := h.dropped (dropped_reap h.stage_not_listed) fun q hq => by cases hq
  refine ⟨hd.sound, hd.kept, fun r hr hpid => h.nextStage.ready r ?_ hpid⟩
  exact List.mem_of_mem_filter (roles_reap b pid ▸ hr)

end

section
variable {jobId : Nat} (h : b.Consistent fits (some (.awaitJob jobId pid)))
include h

theorem Books.Consistent.jobEnded :
    Books.Consistent fits { b.reap pid with table := b.table.removeJob jobId } none := by
  obtain ⟨job, hj, rfl, rfl⟩ := h.ready
  exact h.dropped (h.sound.dropped_remove hj) fun q hq => by cases hq

theorem Books.Consistent.jobStopped : ((b.change pid .report).mark jobId pid .stopped).Consistent fits none := by
  obtain ⟨job, hj, rfl, rfl⟩ := h.ready
  have hc := (h.done rfl).change job.pid .report
  exact hc.marked (.inl rfl) (hc.sound.marked_mark hj .stopped)

end

end

/-! ## Each step of the shell -/

theorem Books.Fresh.not_mem {b : Books} {pids : List Nat} (h : b.Fresh pids) :
    ∀ pid ∈ pids, pid ∉ b.roles.map Prod.fst := by
  intro pid hpid
  have hnew := (h.2 pid hpid).2
  rwa [Books.roles, List.map_map]

namespace ShellState

variable {fits : Prop} {s : ShellState} {p : Option Pending} {rest : List (Text × Bool)}

/-- When an entry is about to be made, there is room for it. -/
def Fits (s : ShellState) : Event → Prop
  | .proceed _ =>
    match s.phase with
    | .running (some (.addJob _ _ _)) _ => s.books.table.jobs.length < maxJobs
    | _ => True
  | _ => True

theorem Consistent.intro (hp : s.phase.pending = some p) (h : s.books.Consistent fits p)
    (hf : s.foreground = none ∨ Pending.InForeground p) : s.Consistent fits := by
  intro q hq
  obtain rfl := Option.some.inj (hp.symm.trans hq)
  exact ⟨h, hf⟩

theorem Consistent.of_lost (hp : s.phase.pending = none) : s.Consistent fits := by
  intro q hq
  rw [hp] at hq
  cases hq

theorem kill_consistent (h : s.books.Consistent fits p) (pid signal : Int) :
    (s.kill pid signal).books.Consistent fits p := by
  unfold kill
  split
  · simp only
    split
    · exact h.change _ _
    · exact h
  · exact h

theorem table_kill (s : ShellState) (pid signal : Int) : (s.kill pid signal).books.table = s.books.table := by
  unfold kill
  split
  · simp only
    split <;> rfl
  · rfl

theorem sigint_consistent (h : s.Consistent fits) : s.sigint.Consistent fits := by
  unfold sigint
  split
  · exact h
  · exact fun p hp => ⟨kill_consistent (h p hp).1 _ _, (h p hp).2⟩

theorem sigtstp_consistent (h : s.Consistent fits) : s.sigtstp.Consistent fits := by
  unfold sigtstp
  split
  · exact h
  next pid hfore =>
    intro p hp
    obtain ⟨hb, hf⟩ := h p hp
    rw [hfore] at hf
    have hwait := hf.resolve_left fun hn => by cases hn
    exact ⟨hb.marked (.inr hwait) (hb.sound.marked_markPid pid .interrupted), .inl rfl⟩

theorem selected_mem {t : JobTable} {args : List Text} {job : Job} (h : t.selected args = .ok job) :
    job ∈ t.jobs := by
  unfold JobTable.selected at h
  split at h
  · cases h
  · split at h
    · cases h
    next hget =>
      cases h
      exact JobTable.getJob_some hget

section
variable {job : Job}

theorem cmdFg_consistent (h : s.books.Consistent fits none) (hj : job ∈ s.books.table.jobs) :
    (s.cmdFg job rest).Consistent fits := by
  have hresume : ∀ b : Books, b.Consistent fits none → job ∈ b.table.jobs →
      (b.mark job.jobId job.pid .resumed).Consistent fits (some (.awaitJob job.jobId job.pid)) := by
    intro b hb hj
    have hm := hb.sound.marked_mark hj .resumed
    exact ⟨hm.sound hb.sound, fun hf => hm.kept (hb.kept hf), hm.job hj⟩
  unfold cmdFg
  simp only
  refine .intro rfl ?_ (.inr trivial)
  split
  · exact hresume _ (kill_consistent h _ _) (table_kill s _ _ ▸ hj)
  · exact hresume _ h hj

theorem cmdBg_consistent {s' : ShellState} (h : s.books.Consistent fits none) (hp : s.phase.pending = some none)
    (hfore : s.foreground = none) (hj : job ∈ s.books.table.jobs) (hbg : s.cmdBg job = .ok s') :
    s'.Consistent fits := by
  unfold cmdBg at hbg
  split at hbg
  · cases hbg
  · cases hbg
    have hk := kill_consistent h job.pid 18
    rw [← table_kill s job.pid 18] at hj
    exact .intro hp (hk.marked (.inl rfl) (hk.sound.marked_mark hj .resumed)) (.inl hfore)

end

theorem intrinsic_consistent (h : s.books.Consistent fits none) (hfore : s.foreground = none) (args : List Text) :
    (s.intrinsic args rest).Consistent fits := by
  let next : ShellState := { s with phase := .running none rest }
  rcases s.intrinsic_cases args with hr | ⟨job, hsel, hr⟩ | ⟨job, hsel, hbg⟩ | ⟨pid, signal, hr⟩ |
    ⟨-, hr | ⟨groups, hr⟩⟩
  · exact hr ▸ .intro rfl h (.inl hfore)
  · exact hr ▸ cmdFg_consistent h (selected_mem hsel)
  · exact cmdBg_consistent (s := next) h rfl hfore (selected_mem hsel) hbg
  · exact hr ▸ .intro rfl (kill_consistent (s := next) h pid signal) (.inl hfore)
  · exact hr ▸ .of_lost rfl
  · exact hr ▸ .intro rfl h (.inl hfore)

theorem fork_background {b : Books} (h : b.Sound) (hk : fits → b.Kept none) {pid : Nat}
    (hnew : pid ∉ b.roles.map Prod.fst) (command : Text) :
    (b.fork pid .background).Consistent fits (some (.addJob pid command .running)) := by
  refine ⟨h.fork hnew _, fun hf => (hk hf).fork _ fun _ => rfl, h.not_listed_of_new hnew, ?_, ?_⟩
  · exact ⟨.background, by simp, .inl rfl⟩
  · rw [Books.lastNotice_cons rfl, if_pos rfl]
    rfl

theorem single_consistent (h : s.books.Consistent fits none) (hfore : s.foreground = none) (cmd : ParsedCommand)
    (background : Bool) {pid : Nat} (hf : s.books.Fresh [pid]) :
    (s.single cmd background pid rest).Consistent fits := by
  have hnew := hf.not_mem pid (by simp)
  unfold single
  simp only
  split
  · exact .intro rfl (fork_background h.sound h.kept hnew _) (.inl hfore)
  · refine .intro rfl ⟨h.sound.fork hnew _, fun hfits => (h.kept hfits).fork _ fun _ => rfl, ?_⟩ (.inr trivial)
    rw [Pending.Ready, Books.roles_fork]
    exact List.mem_append_right _ (by simp)

theorem pipeline_consistent (h : s.Consistent fits) (hp : s.phase.pending = some none) (cmds : List ParsedCommand)
    (background : Bool) {pids : List Nat} (hf : s.books.Fresh pids) :
    (s.pipeline cmds background pids rest).Consistent fits := by
  obtain ⟨hb, hfore⟩ := h none hp
  have hfore := hfore.resolve_right id
  have hnew := hf.not_mem
  unfold pipeline
  split
  · exact .of_lost rfl
  split
  · split
    next last cmd hlast _ =>
      have hpids := List.dropLast_append_getLast? last hlast
      have hd : (pids.dropLast ++ [last]).Nodup := hpids.symm ▸ hf.1
      have hmem : ∀ pid ∈ pids.dropLast ++ [last], pid ∉ s.books.roles.map Prod.fst := hpids.symm ▸ hnew
      obtain ⟨hsound, hroles, -, hkept⟩ := Books.forkStages_spec hb.sound
        (fun pid hpid => hmem pid (List.mem_append_left _ hpid)) (List.nodup_append.mp hd).1
      refine .intro rfl (fork_background hsound (fun hfits => hkept (hb.kept hfits)) ?_ _) (.inl hfore)
      have hstages : (pids.dropLast.map fun pid => (pid, Role.stage)).map Prod.fst = pids.dropLast := by
        rw [List.map_map]
        exact List.map_id _
      rw [hroles, List.map_append, hstages, List.mem_append, not_or]
      exact ⟨hmem last (by simp), fun hin => (List.nodup_append.mp hd).2.2 last hin last (by simp) rfl⟩
    · exact h
  · obtain ⟨hsound, hroles, -, hkept⟩ := Books.forkStages_spec hb.sound hnew hf.1
    refine .intro rfl ⟨hsound, fun hfits => hkept (hb.kept hfits), fun r hr hpid => ?_⟩ (.inl hfore)
    rw [hroles, List.mem_append] at hr
    rcases hr with hr | hr
    · exact absurd (List.mem_map_of_mem hr) (hnew r.1 hpid)
    · obtain ⟨pid, -, rfl⟩ := List.mem_map.mp hr
      rfl

theorem execute_consistent (h : s.Consistent fits) (hp : s.phase.pending = some none) (g : Text × Bool)
    (pids : List Nat) : (s.execute g rest pids).Consistent fits := by
  obtain ⟨hb, hfore⟩ := h none hp
  have hfore := hfore.resolve_right id
  rcases s.execute_cases g pids with hr | hr | ⟨run, -, ⟨-, hr⟩ | ⟨cmd, -, -, hr⟩ | ⟨cmd, pid, -, -, hfresh, hr⟩ |
    ⟨cmds, -, hfresh, hr⟩⟩
  · rw [hr]
    exact h
  · exact hr ▸ .of_lost rfl
  · exact hr ▸ .intro rfl hb (.inl hfore)
  · exact hr ▸ intrinsic_consistent hb hfore cmd.args
  · exact hr ▸ single_consistent hb hfore cmd run.background hfresh
  · exact hr ▸ pipeline_consistent h hp cmds run.background hfresh

theorem resolve_consistent {q : Pending} (h : s.Consistent fits) (hp : s.phase.pending = some (some q))
    (hfits : ∀ pid command status, q = .addJob pid command status → fits → s.books.table.jobs.length < maxJobs) :
    (s.resolve rest q).Consistent fits := by
  obtain ⟨hb, hfore⟩ := h _ hp
  cases q with
  | addJob pid command status =>
    have hnone := hfore.resolve_right id
    unfold resolve
    simp only
    split
    · exact .of_lost rfl
    next table ha => exact .intro rfl (hb.added ha (hfits _ _ _ rfl)) (.inl hnone)
  | awaitForeground pid command =>
    unfold resolve
    simp only
    split
    · exact .intro rfl hb.foregroundEnded (.inl rfl)
    · exact .intro rfl hb.foregroundStopped (.inl rfl)
    · exact h
    · exact .of_lost rfl
  | awaitStages pids =>
    have hnone := hfore.resolve_right id
    unfold resolve
    cases pids with
    | nil => exact .intro rfl (hb.done rfl) (.inl hnone)
    | cons pid pids =>
      simp only
      split
      · exact .intro rfl hb.stageEnded (.inl hnone)
      · exact h
      · exact .intro rfl hb.nextStage (.inl hnone)
  | awaitJob jobId pid =>
    unfold resolve
    simp only
    split
    · exact .intro rfl hb.jobEnded (.inl rfl)
    · exact .intro rfl hb.jobStopped (.inl rfl)
    · exact h
    · exact .of_lost rfl

theorem readLine_consistent (h : s.Consistent fits) (hp : s.phase.pending = some none) (stdin : Text) :
    (s.readLine stdin).Consistent fits := by
  obtain ⟨hb, hfore⟩ := h none hp
  unfold readLine
  simp only
  split
  · exact .of_lost rfl
  split
  · exact .intro rfl hb hfore
  split
  · split
    · exact .of_lost rfl
    · exact .intro rfl hb hfore
  · exact .intro rfl hb hfore

theorem step_consistent (h : s.Consistent fits) {e : Event} (hfits : fits → s.Fits e) :
    (s.step e).Consistent fits := by
  cases e with
  | happens pid change => exact fun p hp => ⟨(h p hp).1.change pid _, (h p hp).2⟩
  | ctrlC => exact sigint_consistent h
  | ctrlZ => exact sigtstp_consistent h
  | report pid =>
    simp only [step]
    split
    next hphase =>
      have hp : s.phase.pending = some none := by rw [hphase]; rfl
      exact .intro hp ((h none hp).1.check pid) (h none hp).2
    · exact h
  | noReport =>
    simp only [step]
    split
    next hphase =>
      have hp : s.phase.pending = some none := by rw [hphase]; rfl
      split
      · exact h
      · exact .intro rfl (h none hp).1 (h none hp).2
    · exact h
  | input stdin =>
    simp only [step]
    split
    next hphase => exact readLine_consistent h (by rw [hphase]; rfl) stdin
    · exact h
  | readError =>
    simp only [step]
    split
    next hphase =>
      have hp : s.phase.pending = some none := by rw [hphase]; rfl
      exact .intro rfl (h none hp).1 (h none hp).2
    · exact h
  | proceed pids =>
    simp only [step]
    split
    next pending rest hphase =>
      refine resolve_consistent h (by rw [hphase]; rfl) fun pid command status hq hf => ?_
      have hfree := hfits hf
      simpa only [Fits, hphase, hq] using hfree
    next g rest hphase => exact execute_consistent h (by rw [hphase]; rfl) g pids
    next hphase =>
      have hp : s.phase.pending = some none := by rw [hphase]; rfl
      exact .intro rfl (h none hp).1 (h none hp).2
    · exact h

/-- Up to missing entries the books are in order in every run. -/
theorem step_sound (s : ShellState) (e : Event) (h : s.Consistent False) : (s.step e).Consistent False :=
  step_consistent h False.elim

theorem boot_consistent (file : Option Text) : (boot file).Consistent fits := by
  have hjobs : (boot file).books.table.jobs = [] := by
    change Slots.contents (List.replicate maxJobs none) = []
    decide
  have hsize : (boot file).books.table.slots.length = maxJobs := List.length_replicate
  refine .intro rfl ⟨⟨hsize, List.nodup_nil, ?_, ?_, ?_, ?_, ?_⟩, fun _ r hr => ?_, trivial⟩ (.inl rfl)
  all_goals simp_all [Books.roles, boot]

end ShellState

end OsNetworks.Shell
