/-
What CFS charges a process for a stint on the CPU, from the switch to it to the
switch back, and how long the stint may be. The charge is made from the count
that `usertrap` keeps in `runtime`; the length is computed by the scheduler
before the switch and by `usertrap` after it.
-/
import OsNetworks.Xv6.Cfs
import OsNetworks.Xv6.TimeSlice

namespace OsNetworks.Xv6

/-! ## The charge -/

/-- What a process meets during a stint. -/
inductive StintEvent where
  /-- a trap that is handled to its end, or until it yields -/
  | trap (e : TrapEvent)
  /-- a trap from user mode in which the process sleeps or exits, before `usertrap` counts it -/
  | sleeps
  /-- the rest of a trap from user mode that an earlier stint did not come to the end of -/
  | returns

namespace StintEvent

/-- The new count, and whether the process gives up the CPU. -/
def handle (runtime : UInt64) : StintEvent → UInt64 × Bool
  | .trap e => Xv6.handle e.procs runtime e.trap
  | .sleeps => (runtime, true)
  | .returns => (runtime + 1, false)

def isTick : StintEvent → Bool
  | .trap e => e.trap.isTick
  | .sleeps | .returns => false

/-- `p->runtime++` is executed. -/
def isCounted : StintEvent → Bool
  | .trap e => e.trap ≠ .kernelDevice ∧ e.trap ≠ .kernelTimer
  | .sleeps => false
  | .returns => true

/-- It is counted, and no tick. -/
def isOther (e : StintEvent) : Bool := e.isCounted && !e.isTick

/-- A tick that is not counted: one in the kernel. -/
def isMissed (e : StintEvent) : Bool := e.isTick && !e.isCounted

end StintEvent

/-- The CPU is given up at the last event, and before at none. -/
def IsStint : (runtime : UInt64) → List StintEvent → Prop
  | _, [] => False
  | runtime, [e] => (e.handle runtime).2 = true
  | runtime, e :: events => (e.handle runtime).2 = false ∧ IsStint (e.handle runtime).1 events

/-- The ticks during a stint. -/
def ticksOf (events : List StintEvent) : Nat := events.countP StintEvent.isTick

def runtimeAfter (runtime : UInt64) (events : List StintEvent) : UInt64 :=
  events.foldl (fun runtime e => (e.handle runtime).1) runtime

/-- The process after the charge for a stint. -/
def Proc.afterStint (p : Proc) (events : List StintEvent) : Proc :=
  { p with runtime := runtimeAfter p.runtime events }.charged p.runtime

/-- The process is charged for the ticks of the stint. -/
def ChargesTicks (p : Proc) (events : List StintEvent) : Prop :=
  (p.afterStint events).runtime = p.runtime + UInt64.ofNat (ticksOf events) ∧
    (p.afterStint events).vruntime = p.vruntime + UInt64.ofNat (ticksOf events) * 1024 / p.weight

theorem StintEvent.handle_fst (runtime : UInt64) (e : StintEvent) :
    (e.handle runtime).1 = if e.isCounted then runtime + 1 else runtime := by
  cases e with
  | trap e =>
    cases ht : e.trap <;> simp [handle, Xv6.handle, isCounted, ht]
  | sleeps => rfl
  | returns => rfl

theorem runtimeAfter_eq (runtime : UInt64) (events : List StintEvent) :
    runtimeAfter runtime events = runtime + UInt64.ofNat (events.countP StintEvent.isCounted) := by
  induction events generalizing runtime with
  | nil => exact (UInt64.add_zero runtime).symm
  | cons e events ih =>
    rw [runtimeAfter, List.foldl_cons]
    refine (ih _).trans ?_
    rw [e.handle_fst, List.countP_cons]
    split
    next =>
      rw [UInt64.ofNat_add, UInt64.add_assoc, UInt64.add_comm 1]
      rfl
    next => rfl

/-- What is counted and what ticks differ by the others and the ticks that are missed. -/
theorem counted_add_missed (events : List StintEvent) :
    events.countP StintEvent.isCounted + events.countP StintEvent.isMissed =
      ticksOf events + events.countP StintEvent.isOther := by
  induction events with
  | nil => rfl
  | cons e events ih =>
    rw [ticksOf] at ih ⊢
    have hmissed : e.isMissed = (e.isTick && !e.isCounted) := rfl
    have hother : e.isOther = (e.isCounted && !e.isTick) := rfl
    simp only [List.countP_cons, hmissed, hother]
    cases hcounted : e.isCounted <;> cases htick : e.isTick <;> simp <;> omega

/-- A stint is charged as its ticks, for every process and every table at its traps, exactly if as
many other traps are counted during it as ticks are missed. -/
theorem chargesTicks_iff (p : Proc) (events : List StintEvent) :
    ChargesTicks p events ↔
      UInt64.ofNat (events.countP StintEvent.isOther) = UInt64.ofNat (events.countP StintEvent.isMissed) := by
  have hsum := congrArg UInt64.ofNat (counted_add_missed events)
  rw [UInt64.ofNat_add, UInt64.ofNat_add] at hsum
  have hiff : UInt64.ofNat (events.countP StintEvent.isCounted) = UInt64.ofNat (ticksOf events) ↔
      UInt64.ofNat (events.countP StintEvent.isOther) = UInt64.ofNat (events.countP StintEvent.isMissed) := by
    constructor
    · intro heq
      rw [heq] at hsum
      exact ((UInt64.add_right_inj _).1 hsum).symm
    · intro heq
      rw [heq] at hsum
      exact (UInt64.add_left_inj _).1 hsum
  rw [← hiff]
  constructor
  · intro h
    exact (UInt64.add_right_inj _).1 ((runtimeAfter_eq p.runtime events).symm.trans h.1)
  · intro heq
    have hruntime : runtimeAfter p.runtime events = p.runtime + UInt64.ofNat (ticksOf events) := by
      rw [runtimeAfter_eq, heq]
    refine ⟨hruntime, ?_⟩
    show p.vruntime + (runtimeAfter p.runtime events - p.runtime) * 1024 / p.weight = _
    rw [hruntime, UInt64.add_comm p.runtime, UInt64.add_sub_cancel]

/-- Two processes of one weight that such stints charge are charged the same for the same ticks. -/
theorem ChargesTicks.equal {p q : Proc} {events events' : List StintEvent} (hp : ChargesTicks p events)
    (hq : ChargesTicks q events') (hweight : p.weight = q.weight) (hticks : ticksOf events = ticksOf events') :
    (p.afterStint events).vruntime - p.vruntime = (q.afterStint events').vruntime - q.vruntime := by
  rw [hp.2, hq.2, hweight, hticks, UInt64.add_comm, UInt64.add_sub_cancel, UInt64.add_comm, UInt64.add_sub_cancel]

/-- A process that makes a system call and sleeps in the next has used no tick, and is charged one. -/
theorem systemCall_charged :
    IsStint 0 [.trap ⟨.syscall, twoProcs⟩, .sleeps] ∧
      ¬ ChargesTicks (({} : Proc).allocated 1 0) [.trap ⟨.syscall, twoProcs⟩, .sleeps] := by
  refine ⟨⟨rfl, rfl⟩, fun h => ?_⟩
  have hruntime := h.1
  revert hruntime
  decide

/-! ## The time slice -/

/-- The table after the switch to the process `i`. -/
def switched (procs : List Proc) (i : Nat) : List Proc := procs.modify i fun q => { q with state := .running }

/-- The time slice of the scheduler is the one that `usertrap` computes while no process but the
chosen one `i` has changed its state, and up to 16 processes share the latency. -/
def SlicesAgree (procs : List Proc) (i : Nat) : Prop :=
  ∀ procs', (∀ j, stateOf procs' j = stateOf (switched procs i) j) →
    timeSlice (runnableCount procs') = timeSlice (runnableCount procs) ∧
      (runnableCount procs ≤ 16 → runnableCount procs * timeSlice (runnableCount procs') ≤ 48)

theorem timeSlice_many {n : Nat} (h : 16 ≤ n) : timeSlice n = 3 := by
  have hle : 48 / n ≤ 3 := Nat.div_le_of_le_mul (by omega)
  have hpos : n > 0 := by omega
  simp only [timeSlice, hpos, if_true]
  split <;> omega

theorem timeSlice_pred_iff (n : Nat) (hpos : 0 < n) :
    (timeSlice (n - 1) = timeSlice n ∧ (n ≤ 16 → n * timeSlice (n - 1) ≤ 48)) ↔ n ∈ [1, 8, 11, 12] ∨ 14 ≤ n := by
  by_cases hn : n < 17
  · revert hpos
    revert hn
    revert n
    decide
  · refine iff_of_true ⟨?_, fun hle => absurd hle (by omega)⟩ (.inr (by omega))
    rw [timeSlice_many (by omega), timeSlice_many (by omega)]

/-- The two time slices agree, whatever the table of which the scheduler chooses the process `i`,
exactly for some numbers of RUNNABLE processes. -/
theorem slicesAgree_iff {procs : List Proc} {i : Nat} (h : Cfs.LeastVruntime procs i) :
    SlicesAgree procs i ↔ runnableCount procs ∈ [1, 8, 11, 12] ∨ 14 ≤ runnableCount procs := by
  obtain ⟨q, hq, hrun, -⟩ := h
  have hcount := runnableCount_switched ((stateOf_of_getElem? hq).trans hrun)
  have hpred : runnableCount (switched procs i) = runnableCount procs - 1 := by
    rw [← hcount]
    rfl
  rw [← timeSlice_pred_iff _ (hcount ▸ Nat.succ_pos _), ← hpred]
  constructor
  · intro hagree
    exact hagree (switched procs i) fun _ => rfl
  · intro hagree procs' hstates
    rw [runnableCount_congr hstates]
    exact hagree

theorem slicesAgree_iff_alone :
    SlicesAgree [(({} : Proc).allocated 1 0).ready] 0 ∧ runnableCount [(({} : Proc).allocated 1 0).ready] = 1 := by
  have hleast : Cfs.LeastVruntime [(({} : Proc).allocated 1 0).ready] 0 := by
    refine ⟨_, rfl, rfl, fun k r hr _ => .inr ⟨?_, Nat.zero_le k⟩⟩
    rw [List.getElem?_singleton] at hr
    obtain ⟨-, heq⟩ := Option.ite_none_right_eq_some.1 hr
    rw [Option.some.inj heq]
  exact ⟨(slicesAgree_iff hleast).2 (.inl (by decide)), rfl⟩

/-- With two processes the scheduler computes 24 ticks, and `usertrap` 48. -/
theorem slices_differ :
    ∃ b, Cfs.minVruntime [(({} : Proc).allocated 1 0).ready, (({} : Proc).allocated 2 0).ready] = some b ∧
      ¬ SlicesAgree [(({} : Proc).allocated 1 0).ready, (({} : Proc).allocated 2 0).ready] b.2 := by
  refine ⟨_, rfl, fun h => ?_⟩
  have hslice := (h _ fun _ => rfl).1
  revert hslice
  decide

end OsNetworks.Xv6
