/-
The accounts of the MLFQ scheduler on one CPU: what is left of the quantum of
each process, through stints of any length, sleep, boosts and the wrap of the
count of ticks. An interrupt can come while the scheduler holds no lock: before
its test for a boost, and between two entries of a loop.
-/
import OsNetworks.Lib.Runs
import OsNetworks.Xv6.Fcfs
import OsNetworks.Xv6.Mlfq

namespace OsNetworks.Xv6.Quantum
open OsNetworks.Runs
open OsNetworks.Xv6.Fcfs (ticksChan)

/-- Where the CPU is. -/
inductive Cpu where
  /-- before the test for a boost -/
  | scheduling
  /-- in the loop that boosts -/
  | boosting (pos : Nat)
  /-- in the loop that looks for a process of the queue `q` -/
  | searching (q pos : Nat)
  | running (i : Nat) (startTicks : UInt64)
  deriving DecidableEq, Repr

structure Kernel where
  procs : List Proc
  ticks : UInt32 := 0
  lastBoost : UInt64 := 0
  nextpid : Nat := 1
  cpu : Cpu := .scheduling
  /-- the ticks that the process of a slot has used since its quantum was set last; no code reads
  this, nor the next -/
  consumed : Nat → Nat := fun _ => 0
  /-- the ticks of the current stint -/
  stint : Nat := 0

inductive Event where
  /-- the scheduler goes on -/
  | go
  | clock
  | yield
  | wakeup (chan : Nat)
  | sleep (chan : Nat)
  | exit
  | kill (pid : Nat)
  | alloc (memory : Bool)
  | ready (i : Nat)
  | free (i : Nat)

/-- `proc[i]` -/
def entry (procs : List Proc) (i : Nat) : Proc := procs.getD i {}

/-- The count of the slot `i` starts again. -/
def restart (consumed : Nat → Nat) (i j : Nat) : Nat := if j = i then 0 else consumed j

/-- The body of the loop that boosts. -/
def boostEntry (s : Kernel) (pos : Nat) : Kernel :=
  let p := entry s.procs pos
  { s with
    procs := s.procs.modify pos Proc.boosted
    consumed := if p.state = .runnable ∨ p.state = .running then restart s.consumed pos else s.consumed }

/-- The scheduler up to the next point at which it holds no lock, or has switched to a process. -/
def go (s : Kernel) : Kernel :=
  match s.cpu with
  | .scheduling => { s with cpu := if Mlfq.intervalOver s.ticks s.lastBoost then .boosting 0 else .searching 0 0 }
  | .boosting pos =>
    if pos < s.procs.length then { boostEntry s pos with cpu := .boosting (pos + 1) }
    else { s with lastBoost := s.ticks.toUInt64, cpu := .searching 0 0 }
  | .searching q pos =>
    if pos < s.procs.length then
      if (entry s.procs pos).state = .runnable ∧ (entry s.procs pos).queue = q then
        { s with
          procs := s.procs.modify pos fun p => { p with state := .running }
          cpu := .running pos s.ticks.toUInt64
          stint := 0 }
      else { s with cpu := .searching q (pos + 1) }
    else { s with cpu := if q + 1 < queueCount then .searching (q + 1) 0 else .scheduling }
  | .running _ _ => s

/-- `selected->time_slice <= 0` after the process has run for `elapsed` ticks. -/
def exhausted (p : Proc) (elapsed : UInt64) : Prop := (p.timeSlice - elapsed.toNat).bmod UInt32.size ≤ 0

instance (p : Proc) (elapsed : UInt64) : Decidable (exhausted p elapsed) := inferInstanceAs (Decidable (_ ≤ _))

/-- The running process changes its entry and switches back to the scheduler, which updates the
entry. -/
def switchBack (s : Kernel) (f : Proc → Proc) : Kernel :=
  match s.cpu with
  | .running i startTicks =>
    let elapsed := s.ticks.toUInt64 - startTicks
    { s with
      procs := (s.procs.modify i f).modify i fun p => p.spent elapsed
      cpu := .scheduling
      consumed := fun j =>
        if j = i then if exhausted (entry s.procs i) elapsed then 0 else s.consumed i + s.stint else s.consumed j
      stint := 0 }
  | _ => s

/-- The running process changes the table. -/
def syscall (s : Kernel) (f : List Proc → List Proc) : Kernel :=
  match s.cpu with
  | .running _ _ => { s with procs := f s.procs }
  | _ => s

/-- `allocproc` sets the quantum of the entry that it takes. -/
def alloc (s : Kernel) (memory : Bool) : Kernel :=
  match s.cpu, firstUnused s.procs, allocproc s.procs s.nextpid s.ticks memory with
  | .running _ _, some i, some procs =>
    { s with procs, nextpid := s.nextpid + 1, consumed := restart s.consumed i }
  | _, _, _ => s

def step (s : Kernel) : Event → Kernel
  | .go => go s
  | .clock =>
    { s with
      ticks := s.ticks + 1
      procs := Xv6.wakeup s.procs ticksChan
      stint :=
        match s.cpu with
        | .running _ _ => s.stint + 1
        | _ => 0 }
  | .yield => switchBack s fun p => { p with state := .runnable }
  | .wakeup chan => { s with procs := Xv6.wakeup s.procs chan }
  | .sleep chan => switchBack s fun p => p.asleep chan
  | .exit => switchBack s fun p => { p with state := .zombie }
  | .kill pid => syscall s fun procs => kkill procs pid
  | .alloc memory => alloc s memory
  | .ready i => syscall s fun procs => procs.modify i Proc.ready
  | .free i => syscall s fun procs => procs.modify i Proc.reaped

/-- `procinit` and `userinit` -/
def boot (count : Nat) : Kernel where
  procs := ((allocproc (List.replicate count {}) 1 0 true).getD []).map Proc.ready
  nextpid := 2

/-! ## What the accounts should say -/

/-- `queue_time_slices[q]` -/
def quantum (q : Nat) : Int := queueTimeSlices.getD q 0

/-- The process on the CPU. -/
def current (s : Kernel) : Option Nat :=
  match s.cpu with
  | .running i _ => some i
  | _ => none

/-- The process whose stint ends with the event. -/
def leaving (s : Kernel) : Event → Option Nat
  | .yield | .sleep _ | .exit => current s
  | _ => none

/-- A stint is shorter than 2^31 ticks. -/
def Short (s : Kernel) (_ : Event) : Prop := s.stint < 2147483648

instance (s : Kernel) (e : Event) : Decidable (Short s e) := inferInstanceAs (Decidable (_ < _))

/-- With the current stint the process has used up its quantum. -/
def UsedUp (s : Kernel) (i : Nat) : Prop := quantum (entry s.procs i).queue ≤ s.consumed i + s.stint

/-- `p` went down a level, or was given more time on its level. -/
def Renewed (p p' : Proc) : Prop := p.queue < p'.queue ∨ p.queue = p'.queue ∧ p.timeSlice < p'.timeSlice

/-- The accounts of all processes in a state, and at the step from it. -/
structure Accounted (s : Kernel) (e : Event) : Prop where
  queue : ∀ i, stateOf s.procs i ≠ .unused → (entry s.procs i).queue ≤ 3
  pos : ∀ i, stateOf s.procs i ≠ .unused → 1 ≤ (entry s.procs i).timeSlice
  le : ∀ i, stateOf s.procs i ≠ .unused → (entry s.procs i).timeSlice ≤ quantum (entry s.procs i).queue
  left : ∀ i, stateOf s.procs i ≠ .unused →
    (entry s.procs i).timeSlice = quantum (entry s.procs i).queue - s.consumed i
  /-- with the quantum used up, one level down at the end of the stint, or the quantum again -/
  down : ∀ i, leaving s e = some i → UsedUp s i →
    (entry (step s e).procs i).queue = min 3 ((entry s.procs i).queue + 1) ∧
      (entry (step s e).procs i).timeSlice = quantum (entry (step s e).procs i).queue
  /-- and not otherwise -/
  only : ∀ i, stateOf s.procs i ≠ .unused → Renewed (entry s.procs i) (entry (step s e).procs i) →
    leaving s e = some i ∧ UsedUp s i

/-! ## The end of a stint -/

/-- The accounts of one process that has used `consumed` ticks of its quantum. -/
structure Quota (p : Proc) (consumed : Nat) : Prop where
  queue : p.queue ≤ 3
  pos : 1 ≤ p.timeSlice
  left : p.timeSlice = quantum p.queue - consumed

theorem quantum_le {q : Nat} (h : q ≤ 3) : 1 ≤ quantum q ∧ quantum q ≤ 16 := by
  have hall : ∀ q < 4, 1 ≤ quantum q ∧ quantum q ≤ 16 := by decide
  exact hall q (Nat.lt_succ_of_le h)

section
variable {p p' : Proc} {consumed : Nat} {start ticks : UInt32} {n : Nat}

theorem left_eq (h : Quota p consumed) (hticks : ticks = start + UInt32.ofNat n) (hn : n < 2147483648) :
    (p.timeSlice - (ticks.toUInt64 - start.toUInt64).toNat).bmod UInt32.size = p.timeSlice - n := by
  have hq := (quantum_le h.queue).2
  have hleft := h.left
  exact Mlfq.slice_left h.pos (by omega) hticks hn

theorem exhausted_iff (h : Quota p consumed) (hticks : ticks = start + UInt32.ofNat n) (hn : n < 2147483648) :
    exhausted p (ticks.toUInt64 - start.toUInt64) ↔ quantum p.queue ≤ ((consumed + n : Nat) : Int) := by
  rw [exhausted, left_eq h hticks hn, h.left]
  omega

theorem spent_exhausted {elapsed : UInt64} (h : exhausted p elapsed) (hq : p.queue ≤ 3) :
    (p.spent elapsed).queue = min 3 (p.queue + 1) ∧
      (p.spent elapsed).timeSlice = quantum (p.spent elapsed).queue := by
  have hspent : p.spent elapsed =
      { p with
        queue := if p.queue < queueCount - 1 then p.queue + 1 else p.queue
        timeSlice := quantum (if p.queue < queueCount - 1 then p.queue + 1 else p.queue) } := if_pos h
  rw [hspent]
  refine ⟨?_, rfl⟩
  have hcount : queueCount = 4 := rfl
  show (if p.queue < queueCount - 1 then p.queue + 1 else p.queue) = min 3 (p.queue + 1)
  split <;> omega

theorem spent_left {elapsed : UInt64} (h : ¬ exhausted p elapsed) :
    (p.spent elapsed).queue = p.queue ∧
      (p.spent elapsed).timeSlice = (p.timeSlice - elapsed.toNat).bmod UInt32.size := by
  have hspent : p.spent elapsed = { p with timeSlice := (p.timeSlice - elapsed.toNat).bmod UInt32.size } := if_neg h
  rw [hspent]
  exact ⟨rfl, rfl⟩

/-- The update leaves a process with its accounts in order. -/
theorem Quota.spent (h : Quota p consumed) (hticks : ticks = start + UInt32.ofNat n) (hn : n < 2147483648) :
    Quota (p.spent (ticks.toUInt64 - start.toUInt64))
      (if exhausted p (ticks.toUInt64 - start.toUInt64) then 0 else consumed + n) := by
  split
  next hex =>
    obtain ⟨hqueue, hslice⟩ := spent_exhausted hex h.queue
    have hle : (p.spent (ticks.toUInt64 - start.toUInt64)).queue ≤ 3 := hqueue ▸ Nat.min_le_left _ _
    exact ⟨hle, hslice ▸ (quantum_le hle).1, by simp [hslice]⟩
  next hex =>
    obtain ⟨hqueue, hslice⟩ := spent_left hex
    have hfew := mt (exhausted_iff h hticks hn).2 hex
    have hleft := h.left
    rw [left_eq h hticks hn] at hslice
    refine ⟨hqueue ▸ h.queue, ?_, ?_⟩
    · rw [hslice]
      omega
    · rw [hslice, hqueue]
      omega

/-! ## What a step does to an entry -/

/-- Neither the level nor the rest of the quantum changes, and no process is created. -/
structure Keeps (p p' : Proc) : Prop where
  queue : p'.queue = p.queue
  timeSlice : p'.timeSlice = p.timeSlice
  state : p'.state ≠ .unused → p.state ≠ .unused

theorem Keeps.refl (p : Proc) : Keeps p p := ⟨rfl, rfl, id⟩

theorem Keeps.woken (p : Proc) (chan : Nat) : Keeps p (p.woken chan) := by
  unfold Proc.woken
  split
  next h => exact ⟨rfl, rfl, fun _ => by simp [h.1]⟩
  next => exact .refl p

theorem Keeps.ready (p : Proc) : Keeps p p.ready := by
  unfold Proc.ready
  split
  next h => exact ⟨rfl, rfl, fun _ => by simp [h]⟩
  next => exact .refl p

theorem Keeps.reaped (p : Proc) : Keeps p p.reaped := by
  unfold Proc.reaped
  split
  next => exact ⟨rfl, rfl, fun h => absurd rfl h⟩
  next => exact .refl p

/-- The body of `kkill`. -/
theorem Keeps.killed (p : Proc) : Keeps p (if p.state = .sleeping then { p with state := .runnable } else p) := by
  split
  next h => exact ⟨rfl, rfl, fun _ => by simp [h]⟩
  next => exact .refl p

theorem Quota.keeps (h : Quota p consumed) (hk : Keeps p p') : Quota p' consumed := by
  refine ⟨hk.queue ▸ h.queue, hk.timeSlice ▸ h.pos, ?_⟩
  rw [hk.timeSlice, hk.queue]
  exact h.left

theorem Keeps.not_renewed (hk : Keeps p p') : ¬ Renewed p p' := by
  rw [Renewed, hk.queue, hk.timeSlice]
  omega

end

/-- What a step does to the entry of a slot, and to what its process has consumed. -/
inductive Moves (s : Kernel) (e : Event) (i : Nat) : Proc → Nat → Prop
  | kept {p' : Proc} : leaving s e = none → Keeps (entry s.procs i) p' → Moves s e i p' (s.consumed i)
  | other {k : Nat} : leaving s e = some k → k ≠ i → Moves s e i (entry s.procs i) (s.consumed i)
  | boosted {p' : Proc} : stateOf s.procs i ≠ .unused → leaving s e = none → p'.queue = 0 → p'.timeSlice = 1 →
      Moves s e i p' 0
  | created {p' : Proc} : stateOf s.procs i = .unused → leaving s e = none → p'.queue = 0 → p'.timeSlice = 1 →
      Moves s e i p' 0
  | left {p : Proc} {startTicks : UInt64} : s.cpu = .running i startTicks → leaving s e = some i →
      p.queue = (entry s.procs i).queue → p.timeSlice = (entry s.procs i).timeSlice →
      Moves s e i (p.spent (s.ticks.toUInt64 - startTicks))
        (if exhausted (entry s.procs i) (s.ticks.toUInt64 - startTicks) then 0 else s.consumed i + s.stint)

section
variable {s : Kernel} {e : Event} {i : Nat}

theorem entry_modify (procs : List Proc) (i j : Nat) (f : Proc → Proc) :
    entry (procs.modify j f) i = if j = i ∧ i < procs.length then f (entry procs i) else entry procs i :=
  getD_modify_eq procs i j f

theorem keeps_modify (procs : List Proc) (j : Nat) {f : Proc → Proc} (hf : ∀ p, Keeps p (f p)) (i : Nat) :
    Keeps (entry procs i) (entry (procs.modify j f) i) := by
  rw [entry_modify]
  split
  · exact hf _
  · exact .refl _

theorem keeps_wakeup (procs : List Proc) (chan i : Nat) : Keeps (entry procs i) (entry (Xv6.wakeup procs chan) i) := by
  have hentry : entry (Xv6.wakeup procs chan) i = (entry procs i).woken chan := getD_map_of procs rfl i
  rw [hentry]
  exact .woken _ chan

theorem keeps_kkill (procs : List Proc) (pid i : Nat) : Keeps (entry procs i) (entry (kkill procs pid) i) := by
  unfold kkill
  split
  · exact .refl _
  · exact keeps_modify procs _ Keeps.killed i

/-- A boost is for a process that is RUNNABLE or RUNNING. -/
theorem boostEntry_moves (s : Kernel) {pos : Nat} (hpos : pos < s.procs.length) (i : Nat) :
    Moves s .go i (entry (boostEntry s pos).procs i) ((boostEntry s pos).consumed i) := by
  simp only [boostEntry, entry_modify]
  by_cases hi : pos = i
  · subst hi
    rw [if_pos ⟨rfl, hpos⟩]
    unfold Proc.boosted
    split
    next hrun =>
      have hstate : stateOf s.procs pos ≠ .unused := by
        intro hunused
        have hentry : (entry s.procs pos).state = .unused := hunused
        simp [hentry] at hrun
      simp only [restart, if_true]
      exact .boosted hstate rfl rfl rfl
    next => exact .kept rfl (.refl _)
  · rw [if_neg fun h => hi h.1]
    have hsame : (if (entry s.procs pos).state = .runnable ∨ (entry s.procs pos).state = .running then
        restart s.consumed pos else s.consumed) i = s.consumed i := by
      split
      · exact if_neg (Ne.symm hi)
      · rfl
    rw [hsame]
    exact .kept rfl (.refl _)

theorem go_moves (s : Kernel) (i : Nat) : Moves s .go i (entry (go s).procs i) ((go s).consumed i) := by
  unfold go
  split
  next => exact .kept rfl (.refl _)
  next pos _ =>
    split
    next hpos => exact boostEntry_moves s hpos i
    next => exact .kept rfl (.refl _)
  next q pos _ =>
    split
    next hpos =>
      split
      next hsel =>
        refine .kept rfl ?_
        rw [entry_modify]
        split
        next hi =>
          rw [hi.1] at hsel
          exact ⟨rfl, rfl, fun _ => by simp [hsel.1]⟩
        next => exact .refl _
      next => exact .kept rfl (.refl _)
    next => exact .kept rfl (.refl _)
  next => exact .kept rfl (.refl _)

/-- The process that runs, if any, gives up the CPU after `f`. -/
theorem switchBack_moves (f : Proc → Proc) (hf : ∀ p, (f p).queue = p.queue ∧ (f p).timeSlice = p.timeSlice)
    (hrun : ∀ i startTicks, s.cpu = .running i startTicks → i < s.procs.length)
    (hleave : leaving s e = current s) (i : Nat) :
    Moves s e i (entry (switchBack s f).procs i) ((switchBack s f).consumed i) := by
  unfold switchBack
  unfold current at hleave
  cases hcpu : s.cpu with
  | running k startTicks =>
    rw [hcpu] at hleave
    dsimp only
    rw [entry_modify, entry_modify, List.length_modify]
    by_cases hi : k = i
    · subst hi
      have hlt := hrun k startTicks hcpu
      rw [if_pos ⟨rfl, hlt⟩, if_pos ⟨rfl, hlt⟩, if_pos rfl]
      exact .left hcpu hleave (hf _).1 (hf _).2
    · rw [if_neg fun h => hi h.1, if_neg fun h => hi h.1, if_neg (Ne.symm hi)]
      exact .other hleave hi
  | scheduling =>
    rw [hcpu] at hleave
    exact .kept hleave (.refl _)
  | boosting pos =>
    rw [hcpu] at hleave
    exact .kept hleave (.refl _)
  | searching q pos =>
    rw [hcpu] at hleave
    exact .kept hleave (.refl _)

theorem alloc_moves (s : Kernel) (memory : Bool) (i : Nat) :
    Moves s (.alloc memory) i (entry (alloc s memory).procs i) ((alloc s memory).consumed i) := by
  unfold alloc
  split
  next k procs _ hfirst halloc =>
    rw [allocproc, hfirst] at halloc
    cases halloc
    obtain ⟨hlt, hunused⟩ := stateOf_firstUnused hfirst
    dsimp only
    rw [entry_modify, restart]
    by_cases hi : k = i
    · subst hi
      rw [if_pos ⟨rfl, hlt⟩, if_pos rfl]
      refine .created hunused rfl ?_ ?_
      · cases memory <;> rfl
      · cases memory <;> rfl
    · rw [if_neg fun h => hi h.1, if_neg (Ne.symm hi)]
      exact .kept rfl (.refl _)
  next => exact .kept rfl (.refl _)

theorem syscall_moves {f : List Proc → List Proc} (hf : Keeps (entry s.procs i) (entry (f s.procs) i))
    (hleave : leaving s e = none) : Moves s e i (entry (syscall s f).procs i) ((syscall s f).consumed i) := by
  unfold syscall
  split
  next => exact .kept hleave hf
  next => exact .kept hleave (.refl _)

theorem step_moves (s : Kernel) (hrun : ∀ i startTicks, s.cpu = .running i startTicks → i < s.procs.length)
    (e : Event) (i : Nat) : Moves s e i (entry (step s e).procs i) ((step s e).consumed i) := by
  cases e with
  | go => exact go_moves s i
  | clock => exact .kept rfl (keeps_wakeup _ _ i)
  | yield =>
    exact switchBack_moves (e := .yield) (fun p => { p with state := .runnable }) (fun _ => ⟨rfl, rfl⟩) hrun rfl i
  | wakeup chan => exact .kept rfl (keeps_wakeup _ chan i)
  | sleep chan => exact switchBack_moves (e := .sleep chan) (fun p => p.asleep chan) (fun _ => ⟨rfl, rfl⟩) hrun rfl i
  | exit => exact switchBack_moves (e := .exit) (fun p => { p with state := .zombie }) (fun _ => ⟨rfl, rfl⟩) hrun rfl i
  | kill pid => exact syscall_moves (keeps_kkill _ pid i) rfl
  | alloc memory => exact alloc_moves s memory i
  | ready j => exact syscall_moves (keeps_modify _ j Keeps.ready i) rfl
  | free j => exact syscall_moves (keeps_modify _ j Keeps.reaped i) rfl

/-! ## The invariant -/

/-- The accounts of all processes are in order, and `start_ticks` is as old as the stint. -/
structure Metered (s : Kernel) : Prop where
  quota : ∀ i, stateOf s.procs i ≠ .unused → Quota (entry s.procs i) (s.consumed i)
  running : ∀ i startTicks, s.cpu = .running i startTicks → Quota (entry s.procs i) (s.consumed i) ∧
    ∃ start : UInt32, startTicks = start.toUInt64 ∧ s.ticks = start + UInt32.ofNat s.stint

theorem Quota.lt_length {procs : List Proc} {consumed : Nat} (h : Quota (entry procs i) consumed) :
    i < procs.length := by
  refine Nat.lt_of_not_le fun hle => ?_
  have hentry : entry procs i = {} := by
    rw [entry, List.getD_eq_getElem?_getD, List.getElem?_eq_none hle, Option.getD_none]
  have hpos := h.pos
  rw [hentry] at hpos
  exact absurd hpos (by decide)

theorem Metered.lt_length (h : Metered s) : ∀ i startTicks, s.cpu = .running i startTicks → i < s.procs.length :=
  fun i startTicks hcpu => (h.running i startTicks hcpu).1.lt_length

theorem exhausted_congr {p p' : Proc} (h : p.timeSlice = p'.timeSlice) (elapsed : UInt64) :
    exhausted p elapsed ↔ exhausted p' elapsed := by
  rw [exhausted, exhausted, h]

/-- What runs is charged for the ticks of its stint. -/
theorem Metered.left (h : Metered s) (hs : Short s e) {p : Proc} {startTicks : UInt64}
    (hcpu : s.cpu = .running i startTicks) (hq : p.queue = (entry s.procs i).queue)
    (ht : p.timeSlice = (entry s.procs i).timeSlice) :
    Quota (p.spent (s.ticks.toUInt64 - startTicks))
        (if exhausted (entry s.procs i) (s.ticks.toUInt64 - startTicks) then 0 else s.consumed i + s.stint) ∧
      (exhausted p (s.ticks.toUInt64 - startTicks) ↔ UsedUp s i) := by
  obtain ⟨hquota, start, rfl, hticks⟩ := h.running i _ hcpu
  have hp : Quota p (s.consumed i) := by
    refine ⟨hq ▸ hquota.queue, ht ▸ hquota.pos, ?_⟩
    rw [ht, hq]
    exact hquota.left
  simp only [← exhausted_congr ht]
  refine ⟨hp.spent hticks hs, (exhausted_iff hp hticks hs).trans ?_⟩
  rw [UsedUp, hq]
  simp

/-- A process whose accounts are in order keeps them so, and a created process gets them so. -/
theorem Moves.quota {p' : Proc} {consumed : Nat} (hm : Moves s e i p' consumed) (h : Metered s) (hs : Short s e)
    (hi : p'.state ≠ .unused ∨ Quota (entry s.procs i) (s.consumed i)) : Quota p' consumed := by
  have hfirst (hq : p'.queue = 0) (ht : p'.timeSlice = 1) : Quota p' 0 :=
    ⟨hq ▸ Nat.zero_le 3, Int.le_of_eq ht.symm, by rw [ht, hq]; rfl⟩
  cases hm with
  | kept _ hk => exact (hi.elim (fun hi => h.quota i (hk.state hi)) id).keeps hk
  | other => exact hi.elim (h.quota i) id
  | boosted _ _ hq ht => exact hfirst hq ht
  | created _ _ hq ht => exact hfirst hq ht
  | left hcpu _ hq ht => exact (h.left hs hcpu hq ht).1

/-- The process on the CPU after a step was there before, or has just been selected. -/
theorem step_running {startTicks : UInt64} (h : (step s e).cpu = .running i startTicks) :
    (s.cpu = .running i startTicks ∧
        ((step s e).ticks = s.ticks ∧ (step s e).stint = s.stint ∨
          (step s e).ticks = s.ticks + 1 ∧ (step s e).stint = s.stint + 1)) ∨
      stateOf s.procs i = .runnable ∧ startTicks = s.ticks.toUInt64 ∧ (step s e).ticks = s.ticks ∧
        (step s e).stint = 0 := by
  have hback {f : Proc → Proc} (h : (switchBack s f).cpu = .running i startTicks) : False := by
    unfold switchBack at h
    split at h
    next => cases h
    next hnot => exact hnot _ _ h
  cases e with
  | go =>
    simp only [step, go] at h ⊢
    split at h
    next => split at h <;> cases h
    next => split at h <;> cases h
    next q pos _ =>
      split at h
      next hpos =>
        split at h
        next hsel =>
          cases h
          rw [if_pos hpos, if_pos hsel]
          exact .inr ⟨hsel.1, rfl, rfl, rfl⟩
        next => cases h
      next => split at h <;> cases h
    next => exact .inl ⟨h, .inl ⟨rfl, rfl⟩⟩
  | clock =>
    have hcpu : s.cpu = .running i startTicks := h
    refine .inl ⟨hcpu, .inr ⟨rfl, ?_⟩⟩
    simp only [step, hcpu]
  | yield => exact (hback h).elim
  | wakeup chan => exact .inl ⟨h, .inl ⟨rfl, rfl⟩⟩
  | sleep chan => exact (hback h).elim
  | exit => exact (hback h).elim
  | kill pid =>
    simp only [step, syscall] at h ⊢
    split at h <;> exact .inl ⟨h, .inl ⟨rfl, rfl⟩⟩
  | alloc memory =>
    simp only [step, alloc] at h ⊢
    split at h <;> exact .inl ⟨h, .inl ⟨rfl, rfl⟩⟩
  | ready j =>
    simp only [step, syscall] at h ⊢
    split at h <;> exact .inl ⟨h, .inl ⟨rfl, rfl⟩⟩
  | free j =>
    simp only [step, syscall] at h ⊢
    split at h <;> exact .inl ⟨h, .inl ⟨rfl, rfl⟩⟩

theorem Metered.step (h : Metered s) (e : Event) (hs : Short s e) : Metered (step s e) where
  quota i hi := (step_moves s h.lt_length e i).quota h hs (.inl hi)
  running i startTicks hcpu := by
    have hmoves := step_moves s h.lt_length e i
    rcases step_running hcpu with ⟨hold, hclock⟩ | ⟨hrun, hstart, hticks, hstint⟩
    · obtain ⟨hquota, start, hstart, hticks⟩ := h.running i startTicks hold
      refine ⟨hmoves.quota h hs (.inr hquota), start, hstart, ?_⟩
      rcases hclock with ⟨ht, hn⟩ | ⟨ht, hn⟩
      · rw [ht, hn, hticks]
      · rw [ht, hn, hticks, UInt32.ofNat_add, UInt32.add_assoc]
        rfl
    · refine ⟨hmoves.quota h hs (.inr (h.quota i (live_of_runnable hrun))), s.ticks, hstart, ?_⟩
      rw [hticks, hstint]
      exact (UInt32.add_zero _).symm

/-- At a step that keeps the stints short, the accounts are in order and change as they should. -/
theorem Metered.accounted (h : Metered s) (e : Event) (hs : Short s e) : Accounted s e where
  queue i hi := (h.quota i hi).queue
  pos i hi := (h.quota i hi).pos
  le i hi := by
    rw [(h.quota i hi).left]
    omega
  left i hi := (h.quota i hi).left
  down i hleave hused := by
    have hmoves := step_moves s h.lt_length e i
    generalize entry (Quantum.step s e).procs i = p', (Quantum.step s e).consumed i = c at hmoves ⊢
    cases hmoves with
    | kept hnone => cases hnone.symm.trans hleave
    | other hk hne => exact absurd (Option.some.inj (hk.symm.trans hleave)) hne
    | boosted _ hnone => cases hnone.symm.trans hleave
    | created _ hnone => cases hnone.symm.trans hleave
    | @left p startTicks hcpu _ hq ht =>
      have hex := (h.left hs hcpu hq ht).2.2 hused
      have hle : p.queue ≤ 3 := hq ▸ (h.running i _ hcpu).1.queue
      exact hq ▸ spent_exhausted hex hle
  only i hi hrenewed := by
    have hmoves := step_moves s h.lt_length e i
    generalize entry (Quantum.step s e).procs i = p', (Quantum.step s e).consumed i = c at hmoves hrenewed
    cases hmoves with
    | kept _ hk => exact absurd hrenewed hk.not_renewed
    | other => exact absurd hrenewed (Keeps.refl _).not_renewed
    | boosted _ _ hq ht =>
      have hpos := (h.quota i hi).pos
      rw [Renewed, hq, ht] at hrenewed
      omega
    | created hunused => exact absurd hunused hi
    | @left p startTicks hcpu hleave hq ht =>
      obtain ⟨hquota, hiff⟩ := h.left hs hcpu hq ht
      refine ⟨hleave, hiff.1 (Decidable.byContradiction fun hex => ?_)⟩
      rw [if_neg (mt (exhausted_congr ht _).2 hex)] at hquota
      have hleft := hquota.left
      have hleft' := (h.quota i hi).left
      rw [Renewed] at hrenewed
      rw [(spent_left hex).1, hq] at hrenewed hleft
      omega

end

/-- The process that `userinit` creates has its first quantum. -/
theorem boot_metered (count : Nat) : Metered (boot count) where
  quota i hi := by
    have hentry : entry (boot count).procs i =
        (entry ((allocproc (List.replicate count {}) 1 0 true).getD []) i).ready := getD_map_of _ rfl i
    have hempty : entry (List.replicate count {}) i = {} := by
      rw [entry, List.getD_eq_getElem?_getD, List.getElem?_replicate]
      split <;> rfl
    have hstate : (entry (boot count).procs i).state ≠ .unused := hi
    rw [hentry] at hstate ⊢
    cases hfirst : firstUnused (List.replicate count {}) with
    | none =>
      rw [allocproc, hfirst] at hstate
      exact absurd rfl hstate
    | some k =>
      rw [allocproc, hfirst, Option.map_some, Option.getD_some, entry_modify, hempty] at hstate ⊢
      split at hstate
      next hk =>
        rw [if_pos hk]
        exact ⟨Nat.zero_le 3, Int.le_refl 1, rfl⟩
      next => exact absurd rfl hstate
  running _ _ hcpu := by cases hcpu

/-- **The quanta of MLFQ.** In every run of stints shorter than 2^31 ticks the accounts of all
processes are in order at every step. -/
theorem mlfq_accounted (count : Nat) (events : List Event) (h : Along step Short (boot count) events) :
    Along step Accounted (boot count) events :=
  Along.imp (fun _ e hm hs => hm.accounted e hs) (fun _ e hm hs => hm.step e hs) (boot_metered count) h

/-- The first process runs for a tick, and goes down a level. -/
theorem mlfq_accounted_first :
    (entry (run step (boot 2) [.go, .go, .clock, .yield]).procs 0).queue = 1 ∧
      Along step Accounted (boot 2) [.go, .go, .clock, .yield] :=
  ⟨by decide, mlfq_accounted 2 [.go, .go, .clock, .yield] (by decide)⟩

end OsNetworks.Xv6.Quantum
