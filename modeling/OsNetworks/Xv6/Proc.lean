/-
The process table of the kernel, as far as its schedulers use it: the fields of
`struct proc`, how `allocproc` fills an entry, and how entries change when a
process is created, sleeps, is woken and is freed. Page tables, files and
messages are left out, and so is `nice`, which is always 0.
-/
import OsNetworks.Lib.Selection

namespace OsNetworks.Xv6

/-- `enum procstate` -/
inductive ProcState where
  | unused
  | used
  | sleeping
  | runnable
  | running
  | zombie
  deriving DecidableEq, Repr

/-- `struct proc` -/
structure Proc where
  state : ProcState := .unused
  chan : Nat := 0
  pid : Nat := 0
  ctime : UInt64 := 0
  vruntime : UInt64 := 0
  weight : UInt64 := 0
  runtime : UInt64 := 0
  queue : Nat := 0
  timeSlice : Int := 0
  deriving DecidableEq, Repr

/-- `p->state == RUNNABLE` -/
def Proc.isRunnable (p : Proc) : Bool := p.state = .runnable

/-- The number of processes that are RUNNABLE. -/
def runnableCount (procs : List Proc) : Nat := procs.countP Proc.isRunnable

/-- The process is RUNNABLE, none that is has a smaller key, and none before it in the table the
same. -/
def LeastRunnable (key : Proc → Nat) (procs : List Proc) (p : Nat) : Prop :=
  ∃ q, procs[p]? = some q ∧ q.state = .runnable ∧ ∀ k r, procs[k]? = some r → r.state = .runnable →
    key q < key r ∨ key q = key r ∧ p ≤ k

/-! ## Creation -/

/-- `calculate_weight` -/
def calculateWeight (nice : Int) : UInt64 :=
  if nice = 0 then 1024
  else if nice < 0 then Nat.iterate (fun weight => weight * 5 / 4) (-nice).toNat 1024
  else max 15 (Nat.iterate (fun weight => weight * 4 / 5) nice.toNat 1024)

/-- What `allocproc` puts into an entry. -/
def Proc.allocated (p : Proc) (pid : Nat) (ticks : UInt32) : Proc :=
  { p with
    state := .used
    pid
    ctime := ticks.toUInt64
    vruntime := 0
    weight := calculateWeight 0
    runtime := 0
    queue := 0
    timeSlice := 1 }

/-- `freeproc` -/
def Proc.freed (p : Proc) : Proc := { p with state := .unused, chan := 0, pid := 0 }

/-- `kfork` frees a process that is USED, and `kwait` one that is a ZOMBIE. -/
def Proc.reaped (p : Proc) : Proc := if p.state = .used ∨ p.state = .zombie then p.freed else p

/-- The entry that `allocproc` takes. -/
def firstUnused (procs : List Proc) : Option Nat := procs.findIdx? fun p => p.state = .unused

/-- `allocproc`, with the next id; without memory for the process its entry is freed again. The
result is `none` if no entry is unused. -/
def allocproc (procs : List Proc) (pid : Nat) (ticks : UInt32) (memory : Bool) : Option (List Proc) :=
  (firstUnused procs).map fun i =>
    procs.modify i fun p => if memory then p.allocated pid ticks else (p.allocated pid ticks).freed

/-- The end of `kfork`. -/
def Proc.ready (p : Proc) : Proc := if p.state = .used then { p with state := .runnable } else p

/-! ## Sleeping -/

/-- `sleep` -/
def Proc.asleep (p : Proc) (chan : Nat) : Proc := { p with state := .sleeping, chan }

/-- The body of the loop of `wakeup`. -/
def Proc.woken (p : Proc) (chan : Nat) : Proc :=
  if p.state = .sleeping ∧ p.chan = chan then { p with state := .runnable } else p

/-- `wakeup`; the process that calls it is not asleep. -/
def wakeup (procs : List Proc) (chan : Nat) : List Proc := procs.map fun p => p.woken chan

/-- `kkill` wakes the first process with the id. -/
def kkill (procs : List Proc) (pid : Nat) : List Proc :=
  match procs.findIdx? fun p => p.pid = pid with
  | none => procs
  | some i => procs.modify i fun p => if p.state = .sleeping then { p with state := .runnable } else p

/-! ## Processes that are RUNNABLE or RUNNING -/

section
variable {p : Proc}

theorem Proc.woken_busy (h : p.state = .runnable ∨ p.state = .running) (chan : Nat) : p.woken chan = p :=
  if_neg fun hs => by simp [hs.1] at h

theorem Proc.ready_busy (h : p.state = .runnable ∨ p.state = .running) : p.ready = p :=
  if_neg fun hs => by simp [hs] at h

theorem Proc.reaped_busy (h : p.state = .runnable ∨ p.state = .running) : p.reaped = p := by
  refine if_neg fun hs => ?_
  rcases hs with hs | hs
  · simp [hs] at h
  · simp [hs] at h

/-- The body of `kkill`. -/
theorem Proc.killed_busy (h : p.state = .runnable ∨ p.state = .running) :
    (if p.state = .sleeping then { p with state := .runnable } else p) = p :=
  if_neg fun hs => by simp [hs] at h

end

/-! ## The entries of the table -/

/-- `proc[i].state` -/
def stateOf (procs : List Proc) (i : Nat) : ProcState := (procs.getD i {}).state

/-- `proc[i].pid` -/
def pidOf (procs : List Proc) (i : Nat) : Nat := (procs.getD i {}).pid

/-- `proc[i].ctime` -/
def ctimeOf (procs : List Proc) (i : Nat) : UInt64 := (procs.getD i {}).ctime

theorem stateOf_of_getElem? {procs : List Proc} {i : Nat} {p : Proc} (h : procs[i]? = some p) :
    stateOf procs i = p.state := by
  rw [stateOf, List.getD_eq_getElem?_getD, h, Option.getD_some]

theorem getElem?_of_stateOf {procs : List Proc} {i : Nat} (h : stateOf procs i ≠ .unused) :
    ∃ p, procs[i]? = some p ∧ p.state = stateOf procs i := by
  cases hp : procs[i]? with
  | none =>
    rw [stateOf, List.getD_eq_getElem?_getD, hp] at h
    exact absurd rfl h
  | some p => exact ⟨p, rfl, (stateOf_of_getElem? hp).symm⟩

theorem live_of_runnable {procs : List Proc} {i : Nat} (h : stateOf procs i = .runnable) :
    stateOf procs i ≠ .unused :=
  ne_of_eq_of_ne h (by decide)

theorem getElem?_of_runnable {procs : List Proc} {i : Nat} (h : stateOf procs i = .runnable) :
    ∃ p, procs[i]? = some p ∧ p.state = .runnable := by
  obtain ⟨p, hp, hstate⟩ := getElem?_of_stateOf (live_of_runnable h)
  exact ⟨p, hp, hstate.trans h⟩

theorem stateOf_firstUnused {procs : List Proc} {i : Nat} (h : firstUnused procs = some i) :
    i < procs.length ∧ stateOf procs i = .unused := by
  obtain ⟨hi, hstate, -⟩ := List.findIdx?_eq_some_iff_getElem.mp h
  refine ⟨hi, ?_⟩
  rw [stateOf_of_getElem? (List.getElem?_eq_getElem hi)]
  simpa using hstate

theorem getElem?_modify_of (procs : List Proc) (i j : Nat) (f : Proc → Proc) :
    (procs.modify i f)[j]? = procs[j]?.map fun p => if i = j then f p else p := by
  rw [List.getElem?_modify]
  rfl

theorem stateOf_modify_ne {i j : Nat} (h : i ≠ j) (procs : List Proc) (f : Proc → Proc) :
    stateOf (procs.modify i f) j = stateOf procs j := by
  rw [stateOf, stateOf, List.getD_eq_getElem?_getD, List.getD_eq_getElem?_getD, List.getElem?_modify_ne _ _ h]

theorem getD_modify {i : Nat} (procs : List Proc) {j : Nat} (hj : j < procs.length) (f : Proc → Proc) :
    (procs.modify j f).getD i {} = if j = i then f (procs.getD i {}) else procs.getD i {} := by
  simp only [List.getD_eq_getElem?_getD, getElem?_modify_of]
  by_cases h : j = i
  · subst h
    rw [List.getElem?_eq_getElem hj]
    simp
  · simp [h]

theorem getD_modify_eq (procs : List Proc) (i j : Nat) (f : Proc → Proc) :
    (procs.modify j f).getD i {} =
      if j = i ∧ i < procs.length then f (procs.getD i {}) else procs.getD i {} := by
  by_cases hj : j < procs.length
  · rw [getD_modify procs hj]
    by_cases h : j = i
    · subst h
      rw [if_pos rfl, if_pos ⟨rfl, hj⟩]
    · rw [if_neg h, if_neg fun h' => h h'.1]
  · rw [List.modify_eq_self (Nat.le_of_not_lt hj), if_neg]
    rintro ⟨rfl, hi⟩
    exact hj hi

theorem getD_map_of (procs : List Proc) {f : Proc → Proc} (hf : f {} = {}) (i : Nat) :
    (procs.map f).getD i {} = f (procs.getD i {}) := by
  rw [List.getD_eq_getElem?_getD, List.getD_eq_getElem?_getD, List.getElem?_map]
  cases procs[i]? with
  | none => exact hf.symm
  | some p => rfl

theorem lt_length_of_stateOf {procs : List Proc} {i : Nat} (h : stateOf procs i ≠ .unused) : i < procs.length := by
  obtain ⟨p, hp, -⟩ := getElem?_of_stateOf h
  exact (List.getElem?_eq_some_iff.mp hp).1

/-- The slots of the processes that are RUNNABLE. -/
def runnableSlots (procs : List Proc) : List Nat :=
  (List.range procs.length).filter fun i => stateOf procs i = .runnable

theorem mem_runnableSlots {procs : List Proc} {i : Nat} :
    i ∈ runnableSlots procs ↔ stateOf procs i = .runnable := by
  simp only [runnableSlots, List.mem_filter, List.mem_range, decide_eq_true_eq, and_iff_right_iff_imp]
  intro h
  exact lt_length_of_stateOf (live_of_runnable h)

theorem nodup_runnableSlots (procs : List Proc) : (runnableSlots procs).Nodup := List.nodup_range.filter _

theorem length_runnableSlots (procs : List Proc) : (runnableSlots procs).length = runnableCount procs := by
  have hmap : procs = (List.range procs.length).map fun i => procs.getD i {} := by
    refine List.ext_getElem (by simp) fun i h1 h2 => ?_
    simp [List.getElem?_eq_getElem h1]
  conv_rhs => rw [runnableCount, hmap, List.countP_map]
  rw [runnableSlots, ← List.countP_eq_length_filter]
  rfl

theorem runnableCount_congr {procs procs' : List Proc} (h : ∀ i, stateOf procs' i = stateOf procs i) :
    runnableCount procs' = runnableCount procs := by
  rw [← length_runnableSlots, ← length_runnableSlots]
  refine ((List.perm_ext_iff_of_nodup (nodup_runnableSlots _) (nodup_runnableSlots _)).mpr fun i => ?_).length_eq
  rw [mem_runnableSlots, mem_runnableSlots, h]

/-- A process that is RUNNABLE, once it runs, is one less. -/
theorem runnableCount_switched {procs : List Proc} {i : Nat} (h : stateOf procs i = .runnable) :
    runnableCount (procs.modify i fun q => { q with state := .running }) + 1 = runnableCount procs := by
  obtain ⟨p, hp, hrun⟩ := getElem?_of_runnable h
  obtain ⟨hi, rfl⟩ := List.getElem?_eq_some_iff.1 hp
  have hpos : 0 < runnableCount procs :=
    List.countP_pos_iff.2 ⟨_, List.getElem_mem hi, by simp [Proc.isRunnable, hrun]⟩
  rw [runnableCount] at hpos
  rw [runnableCount, runnableCount, List.modify_eq_set_getElem?, hp, Option.map_eq_map, Option.map_some,
    Option.getD_some, List.countP_set hi]
  simp only [Proc.isRunnable, hrun, decide_true, if_true, reduceCtorEq, decide_false, Bool.false_eq_true, if_false]
  omega

end OsNetworks.Xv6
