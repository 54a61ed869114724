/-
What `activities` prints: `list_jobs` collects the jobs in use, sorts them by
their commands, and prints a line for each. It takes any status but running for
stopped, and is right in that no job ever has another.
-/
import Mathlib.Data.List.Lex
import OsNetworks.Lib.ExchangeSort
import OsNetworks.Lib.Runs
import OsNetworks.Shell.Bookkeeping

namespace OsNetworks.Shell
open OsNetworks Runs

/-- `strcmp`, as the difference of the first bytes that differ. -/
def strcmp : Text → Text → Int
  | c :: s, d :: t => if c = d ∧ c ≠ 0 then strcmp s t else (c.toNat : Int) - d.toNat
  | s, t => ((peek s).toNat : Int) - (peek t).toNat

/-- What a status is called; the code has no word for the last. -/
def JobStatus.word : JobStatus → String
  | .running => "Running"
  | .stopped => "Stopped"
  | .done => "Done"

/-- `status_str` -/
def JobStatus.printed (status : JobStatus) : String := if status = .running then "Running" else "Stopped"

theorem JobStatus.printed_eq_word {status : JobStatus} (h : status ≠ .done) : status.printed = status.word := by
  cases status with
  | done => exact absurd rfl h
  | _ => rfl

/-- `printf("[%d] : %s - %s\n", pid, command, word)` -/
def jobLine (pid : Nat) (command : Text) (word : String) : Text :=
  ("[" ++ toString pid ++ "] : ").toUTF8.toList ++ command ++ (" - " ++ word ++ "\n").toUTF8.toList

/-- `active_jobs` once it is sorted. -/
def JobTable.activeJobs (t : JobTable) : List Job :=
  ExchangeSort.sort (fun j k => 0 < strcmp j.command k.command) t.jobs

/-- `list_jobs`, by the lines it prints. -/
def JobTable.listJobs (t : JobTable) : List Text :=
  t.activeJobs.map fun job => jobLine job.pid job.command job.status.printed

/-! ## The order of the lines -/

/-- What `strcmp` compares: the bytes before the first NUL. -/
def cstr (s : Text) : List Nat := (s.takeWhile (· ≠ 0)).map UInt8.toNat

theorem cstr_cons {c : UInt8} (hc : c ≠ 0) (s : Text) : cstr (c :: s) = c.toNat :: cstr s := by
  simp [cstr, hc]

theorem cstr_zero (s : Text) : cstr (0 :: s) = [] := by simp [cstr]

theorem toNat_pos {c : UInt8} (hc : c ≠ 0) : 0 < c.toNat :=
  Nat.pos_of_ne_zero fun h => hc (UInt8.toNat_inj.mp h)

/-- `strcmp` compares by the lexicographic order. -/
theorem strcmp_pos_iff (s t : Text) : 0 < strcmp s t ↔ cstr t < cstr s := by
  induction s generalizing t with
  | nil =>
    have hnil : ¬ cstr t < cstr [] := List.not_lt_nil _
    cases t <;> simp [strcmp, hnil]
  | cons c s ih =>
    cases t with
    | nil =>
      by_cases hc : c = 0
      · simp [strcmp, hc, cstr]
      · have hpos := toNat_pos hc
        rw [cstr_cons hc]
        simp only [strcmp, peek_cons, peek_nil]
        exact iff_of_true (by simpa using hpos) (List.nil_lt_cons _ _)
    | cons d t =>
      rw [strcmp]
      split
      next h =>
        obtain ⟨rfl, hc⟩ := h
        rw [ih, cstr_cons hc, cstr_cons hc, List.cons_lt_cons_iff]
        simp
      next h =>
        by_cases hc : c = 0
        · subst hc
          rw [cstr_zero]
          exact iff_of_false (by simp) (List.not_lt_nil _)
        by_cases hd : d = 0
        · have hpos := toNat_pos hc
          subst hd
          rw [cstr_zero, cstr_cons hc]
          exact iff_of_true (by simpa using hpos) (List.nil_lt_cons _ _)
        have hne : c.toNat ≠ d.toNat := fun he => h ⟨UInt8.toNat_inj.mp he, hc⟩
        rw [cstr_cons hc, cstr_cons hd, List.cons_lt_cons_iff]
        omega

namespace JobTable

variable {t t' : JobTable}

theorem activeJobs_perm (t : JobTable) : t.activeJobs.Perm t.jobs := ExchangeSort.sort_perm _

theorem activeJobs_pairwise (t : JobTable) :
    t.activeJobs.Pairwise fun j k => strcmp j.command k.command ≤ 0 := by
  refine (ExchangeSort.sort_pairwise ?_ ?_ t.jobs).imp fun h => Int.not_lt.mp h
  · intro j k h
    rw [strcmp_pos_iff] at h ⊢
    exact lt_asymm h
  · intro j k l h h'
    rw [strcmp_pos_iff, not_lt] at *
    exact h.trans h'

/-! ## The words for the statuses -/

/-- The statuses in the table are running and stopped. -/
def Told (t : JobTable) : Prop := ∀ job ∈ t.jobs, job.status ≠ .done

theorem Told.setStatus (h : t.Told) (jobId : Nat) {status : JobStatus} (hs : status ≠ .done) :
    (t.setStatus jobId status).Told := by
  intro job hjob
  obtain hold | ⟨old, -, hold⟩ := Slots.mem_contents_update hjob
  · exact h job hold
  · obtain rfl := Option.some.inj hold
    exact hs

theorem Told.removeJob (h : t.Told) (jobId : Nat) : (t.removeJob jobId).Told := by
  intro job hjob
  obtain hold | ⟨old, -, hold⟩ := Slots.mem_contents_update hjob
  · exact h job hold
  · cases hold

theorem Told.addJob (h : t.Told) {pid : Nat} {command : Text} {status : JobStatus} (hs : status ≠ .done)
    (ha : t.addJob pid command status = some t') : t'.Told := by
  obtain ⟨-, ⟨-, rfl⟩ | ⟨-, new, -, -, rfl, hperm⟩⟩ := addJob_cases ha
  · exact h
  · intro job hjob
    obtain rfl | hold := List.mem_cons.mp (hperm.mem_iff.mp hjob)
    · exact hs
    · exact h job hold

end JobTable

theorem Notice.status_ne_done (n : Notice) : n.status ≠ .done := by cases n <;> decide

namespace Books

variable {b : Books}

@[simp] theorem table_forkStages (b : Books) (pids : List Nat) : (b.forkStages pids).table = b.table := by
  induction pids generalizing b with
  | nil => rfl
  | cons pid pids ih => exact ih (b.fork pid .stage)

theorem told_mark (h : b.table.Told) (jobId pid : Nat) (n : Notice) : (b.mark jobId pid n).table.Told :=
  h.setStatus jobId n.status_ne_done

theorem told_markPid (h : b.table.Told) (pid : Nat) (n : Notice) : (b.markPid pid n).table.Told := by
  unfold markPid
  split
  · exact h
  · exact told_mark h _ pid n

theorem told_check (h : b.table.Told) (pid : Nat) : (b.check pid).table.Told := by
  unfold check
  split
  · split
    · exact h
    · exact h.removeJob _
  · exact told_markPid (b := b.change pid .report) h pid .stopped
  · exact told_markPid (b := b.change pid .report) h pid .continued
  · exact h

end Books

/-- And so is the status of a job that is about to be added. -/
def Phase.Told : Phase → Prop
  | .running (some (.addJob _ _ status)) _ => status ≠ .done
  | _ => True

namespace ShellState

structure Told (s : ShellState) : Prop where
  table : s.books.table.Told
  phase : s.phase.Told

variable {s : ShellState} {rest : List (Text × Bool)}

theorem Told.kill (h : s.Told) (pid signal : Int) : (s.kill pid signal).Told where
  table := by
    rw [table_kill]
    exact h.table
  phase := h.phase

theorem Told.intrinsic (h : s.Told) (args : List Text) : (s.intrinsic args rest).Told := by
  rcases s.intrinsic_cases args with hr | ⟨job, -, hr⟩ | ⟨job, -, hbg⟩ | ⟨pid, signal, hr⟩ | ⟨-, hr | ⟨groups, hr⟩⟩
  · exact hr ▸ ⟨h.table, trivial⟩
  · rw [hr, cmdFg]
    refine ⟨Books.told_mark ?_ _ _ _, trivial⟩
    split
    · exact (h.kill job.pid 18).table
    · exact h.table
  · unfold cmdBg at hbg
    split at hbg
    · cases hbg
    · rw [← Except.ok.inj hbg]
      have hnext : ShellState.Told { s with phase := .running none rest } := ⟨h.table, trivial⟩
      exact ⟨Books.told_mark (hnext.kill job.pid 18).table _ _ _, trivial⟩
  · have hnext : ShellState.Told { s with phase := .running none rest } := ⟨h.table, trivial⟩
    exact hr ▸ hnext.kill pid signal
  · exact hr ▸ ⟨h.table, trivial⟩
  · exact hr ▸ ⟨h.table, trivial⟩

theorem Told.single (h : s.Told) (cmd : ParsedCommand) (background : Bool) (pid : Nat) :
    (s.single cmd background pid rest).Told := by
  unfold ShellState.single
  simp only
  split
  · exact ⟨h.table, by simp [Phase.Told]⟩
  · exact ⟨h.table, trivial⟩

theorem Told.pipeline (h : s.Told) (cmds : List ParsedCommand) (background : Bool) (pids : List Nat) :
    (s.pipeline cmds background pids rest).Told := by
  have hfork (pids : List Nat) : (s.books.forkStages pids).table.Told := by
    rw [Books.table_forkStages]
    exact h.table
  unfold ShellState.pipeline
  split
  · exact ⟨h.table, trivial⟩
  split
  · split
    · exact ⟨hfork _, by simp [Phase.Told]⟩
    · exact h
  · exact ⟨hfork pids, trivial⟩

theorem Told.execute (h : s.Told) (g : Text × Bool) (pids : List Nat) : (s.execute g rest pids).Told := by
  rcases s.execute_cases g pids with hr | hr | ⟨run, -, ⟨-, hr⟩ | ⟨cmd, -, -, hr⟩ | ⟨cmd, pid, -, -, -, hr⟩ |
    ⟨cmds, -, -, hr⟩⟩
  · rw [hr]
    exact h
  · exact hr ▸ ⟨h.table, trivial⟩
  · exact hr ▸ ⟨h.table, trivial⟩
  · exact hr ▸ h.intrinsic cmd.args
  · exact hr ▸ h.single cmd run.background pid
  · exact hr ▸ h.pipeline cmds run.background pids

theorem Told.resolve {q : Pending} (h : s.Told) (hq : Phase.Told (.running (some q) rest)) :
    (s.resolve rest q).Told := by
  cases q with
  | addJob pid command status =>
    unfold ShellState.resolve
    simp only
    split
    · exact ⟨h.table, trivial⟩
    next ha => exact ⟨h.table.addJob hq ha, trivial⟩
  | awaitForeground pid command =>
    unfold ShellState.resolve
    simp only
    split
    · exact ⟨h.table, trivial⟩
    · exact ⟨h.table, by simp [Phase.Told]⟩
    · exact h
    · exact ⟨h.table, trivial⟩
  | awaitStages pids =>
    unfold ShellState.resolve
    cases pids with
    | nil => exact ⟨h.table, trivial⟩
    | cons pid pids =>
      simp only
      split
      · exact ⟨h.table, trivial⟩
      · exact h
      · exact ⟨h.table, trivial⟩
  | awaitJob jobId pid =>
    unfold ShellState.resolve
    simp only
    split
    · exact ⟨h.table.removeJob jobId, trivial⟩
    · exact ⟨Books.told_mark (b := s.books.change pid .report) h.table jobId pid .stopped, trivial⟩
    · exact h
    · exact ⟨h.table, trivial⟩

theorem Told.readLine (h : s.Told) (stdin : Text) : (s.readLine stdin).Told := by
  unfold ShellState.readLine
  simp only
  split
  · exact ⟨h.table, trivial⟩
  split
  · exact ⟨h.table, trivial⟩
  split
  · split
    · exact ⟨h.table, trivial⟩
    · exact ⟨h.table, trivial⟩
  · exact ⟨h.table, trivial⟩

theorem step_told (s : ShellState) (e : Event) (h : s.Told) : (s.step e).Told := by
  cases e with
  | happens pid change => exact ⟨h.table, h.phase⟩
  | ctrlC =>
    simp only [step, sigint]
    split
    · exact h
    · exact h.kill _ 2
  | ctrlZ =>
    simp only [step, sigtstp]
    split
    · exact h
    next pid _ => exact ⟨Books.told_markPid h.table pid .interrupted, h.phase⟩
  | report pid =>
    simp only [step]
    split
    · exact ⟨Books.told_check h.table pid, h.phase⟩
    · exact h
  | noReport =>
    simp only [step]
    split
    · split
      · exact h
      · exact ⟨h.table, trivial⟩
    · exact h
  | input stdin =>
    simp only [step]
    split
    · exact h.readLine stdin
    · exact h
  | readError =>
    simp only [step]
    split
    · exact ⟨h.table, trivial⟩
    · exact h
  | proceed pids =>
    simp only [step]
    split
    next pending rest hphase => exact h.resolve (hphase ▸ h.phase)
    next g rest _ => exact h.execute g pids
    · exact ⟨h.table, trivial⟩
    · exact h

theorem boot_told (file : Option Text) : (boot file).Told where
  table := by
    have hempty : (boot file).books.table.jobs = [] := rfl
    rw [JobTable.Told, hempty]
    simp
  phase := trivial

/-- Each job in use has its line, with the word for its status, and the lines are sorted. -/
theorem listJobs_sorted_permutation (file : Option Text) (events : List Event) :
    let t := (run step (boot file) events).books.table
    ∃ order : List Job, order.Perm t.jobs ∧
      (order.Pairwise fun j k => strcmp j.command k.command ≤ 0) ∧
      t.listJobs = order.map fun job => jobLine job.pid job.command job.status.word := by
  intro t
  have htold : t.Told := (run_inv step_told (boot_told file) events).table
  refine ⟨t.activeJobs, t.activeJobs_perm, t.activeJobs_pairwise, List.map_congr_left fun job hjob => ?_⟩
  have hstatus := htold job (t.activeJobs_perm.mem_iff.mp hjob)
  rw [JobStatus.printed_eq_word hstatus]

end ShellState

end OsNetworks.Shell
