/-
What an iteration of a scheduler should do with the locks of processes, and an
iteration of the FCFS scheduler, while no other CPU changes the table. Its loop
keeps the lock of the earliest process so far.
-/
import OsNetworks.Lib.Locks
import OsNetworks.Xv6.Cfs

namespace OsNetworks.Xv6
open OsNetworks.Locks

/-- What an iteration should do that the CPU enters without a process lock: it takes and gives
back locks without a panic, it selects the RUNNABLE process with the least key, of the table
`searched`, and comes to `swtch` with its lock alone, or selects none as none is RUNNABLE, and it
ends without a lock. -/
structure OrderlySelection (key : Proc → Nat) (procs searched : List Proc)
    (toSwtch : Locked (List Proc) (Option Nat)) (iteration : Locked (List Proc) Unit) : Prop where
  swtch : ∃ chosen s, toSwtch.run ⟨procs, []⟩ = .ok (chosen, s) ∧ s.held = chosen.toList ∧
    (chosen = none ↔ ∀ q ∈ procs, q.state ≠ .runnable) ∧ ∀ p, chosen = some p → LeastRunnable key searched p
  finish : ∃ s, iteration.run ⟨procs, []⟩ = .ok ((), s) ∧ s.held = []

namespace FcfsLocks
open OsNetworks.Selection
open OsNetworks.Xv6.Cfs (Kernel entry setEntry keeping run_entry run_visit)

/-- The body of the loop. -/
def scanEntry (earliest : Option Nat) (p : Nat) : Kernel (Option Nat) := do
  acquire p
  let q ← entry p
  if q.isRunnable then
    match earliest with
    | none => return some p
    | some e =>
      let best ← entry e
      if q.ctime < best.ctime then
        release e
        return some p
      else
        release p
        return some e
  else
    release p
    return earliest

/-- The loop. -/
def findEarliest (count : Nat) : Kernel (Option Nat) := (List.range count).foldlM scanEntry none

/-- An iteration up to `swtch`. -/
def toSwtch (count : Nat) : Kernel (Option Nat) := do
  match ← findEarliest count with
  | none => return none
  | some p =>
    setEntry p fun q => { q with state := .running }
    return some p

/-- An iteration; `swtch` is what the process `p` does to the table until it switches back. -/
def iteration (swtch : Nat → List Proc → List Proc) (count : Nat) : Kernel Unit := do
  match ← toSwtch count with
  | none => return
  | some p =>
    modify fun s => { s with data := swtch p s.data }
    release p

/-! ## The loop -/

/-- The entry of the least `ctime` of those that are RUNNABLE, the first one of them. -/
def minCtime (procs : List Proc) : Option (Proc × Nat) := least (fun q => q.ctime.toNat) Proc.isRunnable procs.zipIdx

variable {procs : List Proc}

/-- A round of the loop, at an entry after the earliest one so far. -/
theorem run_scanEntry {best : Option (Proc × Nat)} {q : Proc} {p : Nat} (hq : procs[p]? = some q)
    (hbest : ∀ b ∈ best, b.2 < p ∧ procs[b.2]? = some b.1) :
    (scanEntry (best.map Prod.snd) p).run (keeping procs best) =
      .ok ((keep (fun q => q.ctime.toNat) Proc.isRunnable best (q, p)).map Prod.snd,
        keeping procs (keep (fun q => q.ctime.toNat) Proc.isRunnable best (q, p))) := by
  unfold scanEntry
  rw [run_visit hq fun b hb => (hbest b hb).1]
  cases hok : q.isRunnable with
  | false =>
    simp only [keep, hok, Bool.false_eq_true, false_and, if_false]
    rw [run_bind_ok (run_release_last _ _)]
    rfl
  | true =>
    cases best with
    | none =>
      simp only [keep, hok, if_true, true_and, Option.all_none]
      rfl
    | some b =>
      obtain ⟨hlt, hb⟩ := hbest b rfl
      have hless : q.ctime < b.1.ctime ↔ q.ctime.toNat < b.1.ctime.toNat := UInt64.lt_iff_toNat_lt
      simp only [keep, hok, if_true, true_and, Option.map_some, Option.all_some, decide_eq_true_eq]
      rw [run_bind_ok (run_entry hb)]
      simp only [hless]
      split
      · refine (run_bind_ok (run_release_other (Nat.ne_of_gt hlt) procs)).trans ?_
        rfl
      · rw [run_bind_ok (run_release_last _ _)]
        rfl

/-- The loop finds the earliest entry and holds its lock. -/
theorem run_findEarliest (procs : List Proc) :
    (findEarliest procs.length).run ⟨procs, []⟩ =
      .ok ((minCtime procs).map Prod.snd, keeping procs (minCtime procs)) := by
  have hview : (⟨procs, []⟩ : Holding (List Proc)) = keeping procs none := rfl
  rw [findEarliest, hview]
  exact run_least fun best q p hq hbest => run_scanEntry hq hbest

theorem minCtime_none : minCtime procs = none ↔ ∀ q ∈ procs, q.state ≠ .runnable := by
  rw [minCtime, least_table_none]
  simp [Proc.isRunnable]

theorem minCtime_some {b : Proc × Nat} (h : minCtime procs = some b) :
    LeastRunnable (fun q => q.ctime.toNat) procs b.2 := by
  obtain ⟨hb, hok, hle⟩ := least_table_some h
  refine ⟨b.1, hb, by simpa [Proc.isRunnable] using hok, fun k r hr hrun => ?_⟩
  exact hle k r hr (by simp [Proc.isRunnable, hrun])

/-! ## An iteration -/

/-- The table at `swtch`. -/
def switchedTable (procs : List Proc) (chosen : Option Nat) : List Proc :=
  match chosen with
  | none => procs
  | some p => procs.modify p fun q => { q with state := .running }

theorem run_toSwtch (procs : List Proc) :
    (toSwtch procs.length).run ⟨procs, []⟩ =
      .ok ((minCtime procs).map Prod.snd,
        ⟨switchedTable procs ((minCtime procs).map Prod.snd), ((minCtime procs).map Prod.snd).toList⟩) := by
  unfold toSwtch
  rw [run_bind_ok (run_findEarliest procs)]
  cases minCtime procs with
  | none => rfl
  | some b => rfl

/-- **The lock protocol of FCFS.** For every table, and whatever the selected process does, an
iteration selects the earliest process that is RUNNABLE and keeps to the protocol. -/
theorem fcfs_iteration_orderly (swtch : Nat → List Proc → List Proc) (procs : List Proc) :
    OrderlySelection (fun q => q.ctime.toNat) procs procs (toSwtch procs.length)
      (iteration swtch procs.length) := by
  have hrun := run_toSwtch procs
  refine ⟨⟨_, _, hrun, rfl, ?_, fun p hp => ?_⟩, ?_⟩
  · rw [Option.map_eq_none_iff]
    exact minCtime_none
  · obtain ⟨b, hb, rfl⟩ := Option.map_eq_some_iff.1 hp
    exact minCtime_some hb
  · unfold iteration
    rw [run_bind_ok hrun]
    cases minCtime procs with
    | none => exact ⟨_, rfl, rfl⟩
    | some b => exact ⟨_, run_release_last _ [], rfl⟩

end FcfsLocks

end OsNetworks.Xv6
