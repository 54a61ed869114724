/-
When the table of jobs has exactly one entry for each child that belongs into
it. If `add_job` finds the table full it returns -1, which none of its callers
looks at, and the child never gets an entry.
-/
import Mathlib.Data.List.Perm.Subperm
import OsNetworks.Lib.Runs
import OsNetworks.Shell.Bookkeeping
import OsNetworks.Shell.Execution

namespace OsNetworks.Shell
open OsNetworks OsNetworks.Runs

/-- Each child that belongs into the table has exactly one entry, each entry is of such a child,
and no child counts as a command in foreground. -/
structure Books.Accounted (b : Books) : Prop where
  once : ∀ c ∈ b.children, c.role.IsJob → (b.table.jobs.map Job.pid).count c.pid = 1
  owned : ∀ job ∈ b.table.jobs, ∃ c ∈ b.children, c.pid = job.pid ∧ c.role.IsJob
  idle : ∀ c ∈ b.children, c.role ≠ .foreground

theorem Books.Consistent.accounted {b : Books} (h : b.Consistent True none) : b.Accounted := by
  have hrole : ∀ c ∈ b.children, (c.pid, c.role) ∈ b.roles := fun c hc => List.mem_map.mpr ⟨c, hc, rfl⟩
  have hlisted : ∀ c ∈ b.children, c.role ≠ .stage → b.Listed c.pid := fun c hc hstage =>
    (h.kept trivial _ (hrole c hc) hstage).resolve_right fun hn => by cases hn
  refine ⟨fun c hc hjob => ?_, fun job hj => ?_, fun c hc hfore => ?_⟩
  · refine List.count_eq_one_of_mem h.sound.pids (hlisted c hc fun hstage => ?_)
    rw [hstage] at hjob
    rcases hjob with hjob | hjob <;> cases hjob
  · obtain ⟨role, hr, hjob⟩ := h.sound.owned job hj
    obtain ⟨c, hc, he⟩ := List.mem_map.mp hr
    obtain ⟨hpid, rfl⟩ := Prod.mk.inj he
    exact ⟨c, hc, hpid, hjob⟩
  · have hnot := h.sound.not_listed (hrole c hc) (by simp [hfore, Role.IsJob])
    exact hnot (hlisted c hc (by simp [hfore]))

theorem Phase.pending_of_between {phase : Phase} (h : phase.BetweenCommands) : phase.pending = some none := by
  match phase with
  | .checking | .reading | .running none _ => rfl

namespace ShellState

variable {s : ShellState}

/-- An entry for which there is no slot is missing afterwards. -/
theorem not_accounted_of_full (h : s.Consistent True) {e : Event} (hfull : ¬ s.Fits e) :
    (s.step e).phase.BetweenCommands ∧ ¬ (s.step e).books.Accounted := by
  cases e with
  | proceed pids =>
    simp only [Fits] at hfull
    split at hfull
    next pid command status rest hphase =>
      have hb := (h _ (by rw [hphase]; rfl)).1
      obtain ⟨hl, ⟨role, hr, hjob⟩, -⟩ := hb.ready
      obtain ⟨c, hc, he⟩ := List.mem_map.mp hr
      obtain ⟨rfl, rfl⟩ := Prod.mk.inj he
      have hstep : s.step (.proceed pids) = { s with phase := .running none rest } := by
        have hsize : s.books.table.slots.length ≤ s.books.table.jobs.length := hb.sound.size ▸ Nat.le_of_not_lt hfull
        simp only [step, hphase, resolve, JobTable.addJob_full hsize]
      rw [hstep]
      refine ⟨trivial, fun ha => hl ?_⟩
      exact List.count_pos_iff.mp (Nat.lt_of_lt_of_eq Nat.zero_lt_one (ha.once c hc hjob).symm)
    · exact absurd trivial hfull
  | _ => exact absurd trivial hfull

/-- **When no job is lost.** In a run of the shell, whatever it is given and happens to its
children, every state between commands has exactly one entry for each child that belongs
into the table, and no other entries, if and only if every entry is made in a free slot. -/
theorem no_job_lost_iff (file : Option Text) (events : List Event) :
    Along step (fun s e => (s.step e).phase.BetweenCommands → (s.step e).books.Accounted) (boot file) events ↔
      Along step Fits (boot file) events := by
  refine (Along.iff (I := Consistent True) (fun s e hs => ?_) (fun s e hs hfits => step_consistent hs fun _ => hfits)
    (boot_consistent file) events).symm
  constructor
  · intro hfits hbetween
    have hnext := step_consistent hs fun _ => hfits
    exact (hnext none (Phase.pending_of_between hbetween)).1.accounted
  · intro ha
    by_contra hfull
    obtain ⟨hbetween, hnot⟩ := not_accounted_of_full hs hfull
    exact hnot (ha hbetween)

/-! ## A full table -/

theorem readLine_oneWord (s : ShellState) (stdin : Text) (name : Name) (background : Bool) (hstdin : stdin ≠ [])
    (hread : (Line.read stdin).skipBlanks.bytes = (oneWord name background).text)
    (hi : isIgnored (oneWord name background).text = false) :
    s.readLine stdin =
      { s with
        log := logAddCommand s.log (Line.read stdin).skipBlanks
        phase := .running none [(name.text, background)] } := by
  have hlen := hread ▸ (Line.read stdin).skipBlanks.fits
  unfold readLine
  simp only [hstdin, if_false, hread, hi, Bool.false_eq_true, parseInput_complete, if_true,
    splitGroups_oneWord name background hlen]

/-- `a` -/
def letterName : Name := (repeated 0).name

/-- The line `a&` is read and executed. -/
def startLetter (pid : Nat) : List Event :=
  [.noReport, .input [97, 38, 10], .proceed [pid], .proceed [], .proceed []]

theorem run_startLetter {pid : Nat} {table : JobTable} (hphase : s.phase = .checking)
    (hquiet : ∀ c ∈ s.books.children, c.state.pending = false) (hf : s.books.Fresh [pid])
    (ha : s.books.table.addJob pid [97] .running = some table) :
    ∃ log, run step s (startLetter pid) =
      { s with books := { s.books.fork pid .background with table }, log, phase := .checking } := by
  have hnone : ¬ ∃ c ∈ s.books.children, c.state.pending = true := by
    intro ⟨c, hc, hp⟩
    rw [hquiet c hc] at hp
    cases hp
  have hgroup := executePipeline_oneWord letterName true (by decide)
  have hcmd : ParsedCommand.runsInShell { args := [letterName.text] } = false := by decide
  -- the states on the way
  let reading : ShellState := { s with phase := .reading }
  let log := logAddCommand s.log (Line.read [97, 38, 10]).skipBlanks
  let started : ShellState := { s with log, phase := .running none [(letterName.text, true)] }
  let forked : ShellState :=
    { started with
      books := s.books.fork pid .background
      phase := .running (some (.addJob pid letterName.text .running)) [] }
  let added : ShellState :=
    { started with books := { s.books.fork pid .background with table }, phase := .running none [] }
  have h1 : s.step .noReport = reading := by simp only [step, hphase, if_neg hnone, reading]
  have h2 : reading.step (.input [97, 38, 10]) = started :=
    readLine_oneWord reading [97, 38, 10] letterName true (by decide) rfl (by decide)
  have h3 : started.step (.proceed [pid]) = forked := by
    simp only [step, started, execute, hgroup, hcmd, Bool.false_eq_true, if_false, if_pos hf]
    rfl
  have h4 : forked.step (.proceed []) = added := by
    have ha' : (s.books.fork pid .background).table.addJob pid letterName.text .running = some table := ha
    simp only [step, forked, resolve, ha']
    rfl
  refine ⟨log, ?_⟩
  rw [startLetter, run_cons, h1, run_cons, h2, run_cons, h3, run_cons, h4]
  rfl

/-- The line `a&`, `n` times. -/
def startLetters (n : Nat) : List Event := (List.range n).flatMap fun i => startLetter (i + 1)

theorem run_startLetters {n : Nat} (hn : n < intMax) :
    let s := run step (boot none) (startLetters n)
    s.phase = .checking ∧ s.books.children = (List.range n).map (fun i => ⟨i + 1, .background, .running false⟩) ∧
      s.books.table.nextJobId ≤ n + 1 := by
  induction n with
  | zero => exact ⟨rfl, rfl, Nat.le_refl _⟩
  | succ n ih =>
    obtain ⟨hphase, hchildren, hnext⟩ := ih (by omega)
    obtain ⟨table, ha, hnext'⟩ := JobTable.addJob_isSome (Nat.lt_of_le_of_lt hnext hn) (n + 1) [97] .running
    have hquiet : ∀ c ∈ (run step (boot none) (startLetters n)).books.children, c.state.pending = false := by
      intro c hc
      rw [hchildren] at hc
      obtain ⟨i, -, rfl⟩ := List.mem_map.mp hc
      rfl
    have hfresh : (run step (boot none) (startLetters n)).books.Fresh [n + 1] := by
      refine ⟨by simp, fun pid hpid => ?_⟩
      obtain rfl := List.mem_singleton.mp hpid
      rw [hchildren]
      simp
    obtain ⟨log, hrun⟩ := run_startLetter hphase hquiet hfresh ha
    have hsplit : startLetters (n + 1) = startLetters n ++ startLetter (n + 1) := by
      simp [startLetters, List.range_succ]
    simp only [hsplit, run_append, hrun, Books.fork, hchildren, List.range_succ, List.map_append]
    exact ⟨trivial, rfl, by omega⟩

/-- One of more jobs than there are slots has no entry. -/
theorem missing_entry {b : Books} (h : b.Sound) {n : Nat} (hn : maxJobs < n)
    (hchildren : b.children = (List.range n).map (fun i => ⟨i + 1, .background, .running false⟩)) :
    ∃ c ∈ b.children, c.role.IsJob ∧ (b.table.jobs.map Job.pid).count c.pid ≠ 1 := by
  by_contra hall
  have hlisted : (List.range n).map (· + 1) ⊆ b.table.jobs.map Job.pid := by
    intro pid hpid
    obtain ⟨i, hi, rfl⟩ := List.mem_map.mp hpid
    by_contra hmissing
    refine hall ⟨⟨i + 1, .background, .running false⟩, hchildren ▸ List.mem_map.mpr ⟨i, hi, rfl⟩, .inl rfl, ?_⟩
    rw [List.count_eq_zero_of_not_mem hmissing]
    decide
  have hnodup : ((List.range n).map (· + 1)).Nodup := List.nodup_range.map fun _ _ h => Nat.succ.inj h
  have hle := (hnodup.subperm hlisted).length_le
  rw [List.length_map, List.length_range, List.length_map] at hle
  have hjobs := Slots.length_contents_le b.table.slots
  rw [h.size] at hjobs
  exact absurd (hle.trans hjobs) (Nat.not_le_of_lt hn)

/-- The hundred and first job has no entry. -/
theorem job_lost :
    let s := run step (boot none) (startLetters 101)
    s.phase.BetweenCommands ∧ ∃ c ∈ s.books.children, c.role.IsJob ∧
      (s.books.table.jobs.map Job.pid).count c.pid ≠ 1 := by
  obtain ⟨hphase, hchildren, -⟩ := run_startLetters (by decide : 101 < intMax)
  have hs : ShellState.Consistent False _ := run_inv step_sound (boot_consistent none) (startLetters 101)
  have hsound := (hs none (by rw [hphase]; rfl)).1.sound
  exact ⟨by rw [hphase]; trivial, missing_entry hsound (by decide) hchildren⟩

end ShellState

end OsNetworks.Shell
