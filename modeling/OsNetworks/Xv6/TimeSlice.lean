/-
How long a process keeps the CPU under CFS: the part of `usertrap` that counts
traps in `runtime` and gives up the CPU at a timer interrupt if the count is a
multiple of the time slice. The count goes on from one time on the CPU to the
next.
-/
import OsNetworks.Lib.Runs
import OsNetworks.Xv6.Proc

namespace OsNetworks.Xv6
open OsNetworks.Runs

/-- The traps that a running process takes: four kinds from user mode, which `usertrap` handles,
and interrupts from the kernel, which `kerneltrap` handles. -/
inductive Trap where
  | syscall
  | pageFault
  | device
  | timer
  | kernelDevice
  | kernelTimer
  deriving DecidableEq, Repr

def Trap.isTick : Trap → Bool
  | .timer | .kernelTimer => true
  | _ => false

/-- `time_slice` -/
def timeSlice (runnableCount : Nat) : Nat :=
  let slice := 48 / (if runnableCount > 0 then runnableCount else 1)
  if slice < 3 then 3 else slice

/-- `usertrap` and `kerneltrap`: the new count, and whether the process yields. -/
def handle (procs : List Proc) (runtime : UInt64) : Trap → UInt64 × Bool
  | .timer => (runtime + 1, (runtime + 1) % UInt64.ofNat (timeSlice (runnableCount procs)) = 0)
  | .kernelTimer => (runtime, true)
  | .kernelDevice => (runtime, false)
  | _ => (runtime + 1, false)

/-- A trap, and the table as it is then. -/
structure TrapEvent where
  trap : Trap
  procs : List Proc

/-- The count of a process, and the ticks since it was switched in. -/
structure Stint where
  runtime : UInt64
  ticks : Nat := 0

namespace Stint

/-- The ticks up to and with an event. -/
def consumed (s : Stint) (e : TrapEvent) : Nat := if e.trap.isTick then s.ticks + 1 else s.ticks

/-- A process that yields is switched in again later. -/
def step (s : Stint) (e : TrapEvent) : Stint :=
  let handled := handle e.procs s.runtime e.trap
  { runtime := handled.1, ticks := if handled.2 then 0 else s.consumed e }

/-- The count comes to a multiple of the time slice `slice` only at a timer interrupt. -/
def Aligned (slice : Nat) (s : Stint) (e : TrapEvent) : Prop :=
  e.trap = .syscall ∨ e.trap = .pageFault ∨ e.trap = .device → (s.runtime + 1) % UInt64.ofNat slice ≠ 0

end Stint

theorem timeSlice_bounds (n : Nat) : 3 ≤ timeSlice n ∧ timeSlice n ≤ 48 := by
  have hle : 48 / (if n > 0 then n else 1) ≤ 48 := Nat.div_le_self _ _
  generalize hq : 48 / (if n > 0 then n else 1) = q at hle
  simp only [timeSlice, hq]
  split <;> omega

namespace Stint

variable {n : Nat}

theorem toNat_slice (n : Nat) : (UInt64.ofNat (timeSlice n)).toNat = timeSlice n := by
  have := (timeSlice_bounds n).2
  rw [UInt64.toNat_ofNat']
  omega

/-- The next count is a multiple of the slice, or further above one. -/
theorem count_next (n : Nat) (runtime : UInt64) :
    (runtime + 1) % UInt64.ofNat (timeSlice n) = 0 ∨
      (runtime + 1).toNat % timeSlice n = runtime.toNat % timeSlice n + 1 := by
  have hpos := (timeSlice_bounds n).1
  have hzero : (runtime + 1) % UInt64.ofNat (timeSlice n) = 0 ↔ (runtime + 1).toNat % timeSlice n = 0 := by
    rw [← UInt64.toNat_inj, UInt64.toNat_mod, toNat_slice]
    rfl
  rw [hzero]
  have hlt := runtime.toNat_lt
  have hadd : (runtime + 1).toNat = (runtime.toNat + 1) % 2 ^ 64 := UInt64.toNat_add runtime 1
  by_cases hwrap : runtime.toNat + 1 = 2 ^ 64
  · rw [hadd, hwrap, Nat.mod_self, Nat.zero_mod]
    exact .inl rfl
  · have hsucc : (runtime + 1).toNat = runtime.toNat + 1 := hadd.trans (Nat.mod_eq_of_lt (by omega))
    have hmod := Nat.mod_lt runtime.toNat (show 0 < timeSlice n by omega)
    have hsum : runtime.toNat + 1 = timeSlice n * (runtime.toNat / timeSlice n) + (runtime.toNat % timeSlice n + 1) := by
      rw [← Nat.add_assoc, Nat.div_add_mod]
    rw [hsucc, hsum, Nat.mul_add_mod]
    by_cases hfull : runtime.toNat % timeSlice n + 1 = timeSlice n
    · rw [hfull, Nat.mod_self]
      exact .inl rfl
    · exact .inr (Nat.mod_eq_of_lt (by omega))

/-- Fewer ticks have passed than the count is above a multiple of the slice. -/
def Within (n : Nat) (s : Stint) : Prop := s.ticks ≤ s.runtime.toNat % timeSlice n

theorem Within.consumed {s : Stint} (h : s.Within n) (e : TrapEvent) : s.consumed e ≤ timeSlice n := by
  have hmod := Nat.mod_lt s.runtime.toNat (show 0 < timeSlice n by have := (timeSlice_bounds n).1; omega)
  unfold Within at h
  unfold Stint.consumed
  split <;> omega

theorem Within.step {s : Stint} (h : s.Within n) {e : TrapEvent} (hn : runnableCount e.procs = n)
    (ha : s.Aligned (timeSlice n) e) : (s.step e).Within n := by
  have hnext := count_next n s.runtime
  unfold Within at h ⊢
  unfold Aligned at ha
  cases ht : e.trap with
  | timer =>
    simp only [Stint.step, handle, ht, hn, Stint.consumed, Trap.isTick, decide_eq_true_eq, if_true]
    split
    · exact Nat.zero_le _
    next hne =>
      rw [hnext.resolve_left hne]
      omega
  | kernelTimer => simp [Stint.step, handle, ht]
  | kernelDevice => simpa [Stint.step, handle, ht, Stint.consumed, Trap.isTick] using h
  | _ =>
    simp only [Stint.step, handle, ht, Stint.consumed, Trap.isTick, Bool.false_eq_true, if_false]
    rw [hnext.resolve_left (ha (by simp [ht]))]
    omega

end Stint

open Stint

/-- **The time slice is kept** in every run in which the count of traps comes to a multiple of the
slice only at timer interrupts: between being switched in and yielding, a process
consumes no more ticks than its time slice. The number of RUNNABLE processes stays the same. -/
theorem slice_kept {n : Nat} {events : List TrapEvent} (hn : ∀ e ∈ events, runnableCount e.procs = n)
    (runtime : UInt64) (ha : Along step (Aligned (timeSlice n)) { runtime } events) :
    Along step (fun s e => s.consumed e ≤ timeSlice n) { runtime } events := by
  have hstart : (Stint.mk runtime 0).Within n := Nat.zero_le _
  generalize Stint.mk runtime 0 = s at ha hstart
  induction events generalizing s with
  | nil => trivial
  | cons e events ih =>
    obtain ⟨halign, hrest⟩ := ha
    have hstep := hstart.step (hn e List.mem_cons_self) halign
    exact ⟨hstart.consumed e, ih (fun f hf => hn f (List.mem_cons_of_mem e hf)) _ hrest hstep⟩

/-- The running process and one other. -/
def twoProcs : List Proc := [{ state := .running, pid := 1 }, { state := .runnable, pid := 2 }]

theorem slice_kept_timer :
    Along step (fun s e => s.consumed e ≤ timeSlice 1) { runtime := 0 } (List.replicate 2 ⟨.timer, twoProcs⟩) :=
  slice_kept (n := 1) (by decide) 0 ⟨fun h => by simp at h, fun h => by simp at h, trivial⟩

/-- 47 ticks, a system call at which the count comes to the time slice of 48, and two more. -/
def skippedYield : List TrapEvent :=
  List.replicate 47 ⟨.timer, twoProcs⟩ ++ [⟨.syscall, twoProcs⟩, ⟨.timer, twoProcs⟩]

theorem slice_exceeded :
    (∀ e ∈ skippedYield ++ [⟨.timer, twoProcs⟩], runnableCount e.procs = 1) ∧ timeSlice 1 = 48 ∧
      ¬ Along step (fun s e => s.consumed e ≤ timeSlice 1) { runtime := 0 } (skippedYield ++ [⟨.timer, twoProcs⟩]) := by
  refine ⟨by decide, rfl, fun h => ?_⟩
  have hlast := (Along.append.mp h).2.1
  exact absurd hlast (by decide)

end OsNetworks.Xv6
