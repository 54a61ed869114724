/-
An iteration of the CFS scheduler, with the locks it takes. The loop that looks
for the least `vruntime` keeps the lock of the best process so far; the loop
that logs the table then takes all locks once more, also the one that is kept.

The text that is logged is left out, and so are `runnable_count` and
`time_slice`, which are computed and not used.
-/
import OsNetworks.Lib.Locks
import OsNetworks.Xv6.Proc

namespace OsNetworks.Xv6
open OsNetworks.Locks OsNetworks.Selection

/-- `min_proc->vruntime += (elapsed * 1024) / min_proc->weight;` -/
def Proc.charged (p : Proc) (startTime : UInt64) : Proc :=
  { p with vruntime := p.vruntime + (p.runtime - startTime) * 1024 / p.weight }

namespace Cfs

/-- Code of one CPU in the kernel. -/
abbrev Kernel := Locked (List Proc)

/-- `proc[p]` -/
def entry (p : Nat) : Kernel Proc := do
  let s ← get
  return s.data.getD p {}

def setEntry (p : Nat) (f : Proc → Proc) : Kernel Unit := modify fun s => { s with data := s.data.modify p f }

/-- The local variables of the first loop. -/
structure MinScan where
  minProc : Option Nat := none
  /-- at first -1 -/
  minVruntime : UInt64 := 18446744073709551615

/-- The body of the first loop. -/
def scanEntry (m : MinScan) (p : Nat) : Kernel MinScan := do
  acquire p
  let q ← entry p
  if q.isRunnable then
    if m.minProc = none ∨ q.vruntime < m.minVruntime then
      match m.minProc with
      | some e => release e
      | none => pure ()
      return { minProc := some p, minVruntime := q.vruntime }
    else
      release p
      return m
  else
    release p
    return m

/-- Find process with minimum vruntime. -/
def findMin (count : Nat) : Kernel MinScan := (List.range count).foldlM scanEntry {}

/-- Log scheduling decision. -/
def logTable (count : Nat) : Kernel Unit :=
  (List.range count).forM fun p => do
    acquire p
    release p

/-- An iteration up to `swtch`, with `start_time`. -/
def toSwtch (count : Nat) : Kernel (Option (Nat × UInt64)) := do
  let m ← findMin count
  match m.minProc with
  | none => return none
  | some p =>
    logTable count
    setEntry p fun q => { q with state := .running }
    let q ← entry p
    return some (p, q.runtime)

/-- An iteration after `swtch`. -/
def fromSwtch (p : Nat) (startTime : UInt64) : Kernel Unit := do
  setEntry p fun q => q.charged startTime
  release p

/-- An iteration; `swtch` is what the process `p` does to the table until it switches back. -/
def iteration (swtch : Nat → List Proc → List Proc) (count : Nat) : Kernel Unit := do
  match ← toSwtch count with
  | none => return
  | some (p, startTime) =>
    modify fun s => { s with data := swtch p s.data }
    fromSwtch p startTime

/-! ## The first loop -/

/-- The entry of the least `vruntime` of those that are RUNNABLE, the first one of them. -/
def minVruntime (procs : List Proc) : Option (Proc × Nat) :=
  least (fun q => q.vruntime.toNat) Proc.isRunnable procs.zipIdx

/-- The variables of the loop, for the best entry so far. -/
def MinScan.of (best : Option (Proc × Nat)) : MinScan where
  minProc := best.map Prod.snd
  minVruntime := (best.map fun b => b.1.vruntime).getD 18446744073709551615

/-- The CPU holds the lock of the best entry so far. -/
def keeping (procs : List Proc) (best : Option (Proc × Nat)) : Holding (List Proc) :=
  ⟨procs, (best.map Prod.snd).toList⟩

section
variable {procs : List Proc} {swtch : Nat → List Proc → List Proc}

theorem run_entry {s : Holding (List Proc)} {p : Nat} {q : Proc} (h : s.data[p]? = some q) :
    (entry p).run s = .ok (q, s) := by
  have hq : s.data.getD p {} = q := by rw [List.getD_eq_getElem?_getD, h, Option.getD_some]
  rw [← hq]
  rfl

/-- A round of the loop begins with the lock of its entry, after the one that is kept. -/
theorem run_visit {β : Type} {best : Option (Proc × Nat)} {q : Proc} {p : Nat} (hq : procs[p]? = some q)
    (hbest : ∀ b ∈ best, b.2 < p) (f : Proc → Kernel β) :
    (acquire p >>= fun _ => entry p >>= f).run (keeping procs best) =
      (f q).run { keeping procs best with held := p :: (keeping procs best).held } := by
  have hfree : p ∉ (keeping procs best).held := by
    cases best with
    | none => simp [keeping]
    | some b => simpa [keeping] using (Nat.ne_of_lt (hbest b rfl)).symm
  have hentry : (entry p).run { keeping procs best with held := p :: (keeping procs best).held } =
      .ok (q, { keeping procs best with held := p :: (keeping procs best).held }) := run_entry hq
  rw [run_bind_ok (run_acquire hfree), run_bind_ok hentry]

/-- A round of the loop, at an entry after the best one so far. -/
theorem run_scanEntry {best : Option (Proc × Nat)} {q : Proc} {p : Nat} (hq : procs[p]? = some q)
    (hbest : ∀ b ∈ best, b.2 < p) :
    (scanEntry (.of best) p).run (keeping procs best) =
      .ok (.of (keep (fun q => q.vruntime.toNat) Proc.isRunnable best (q, p)),
        keeping procs (keep (fun q => q.vruntime.toNat) Proc.isRunnable best (q, p))) := by
  unfold scanEntry
  rw [run_visit hq hbest]
  cases hok : q.isRunnable with
  | false =>
    simp only [keep, hok, Bool.false_eq_true, false_and, if_false]
    rw [run_bind_ok (run_release_last _ _)]
    rfl
  | true =>
    cases best with
    | none =>
      simp only [keep, hok, if_true, true_and, MinScan.of, Option.map_none, true_or, Option.all_none]
      rfl
    | some b =>
      have hlt : q.vruntime < b.1.vruntime ↔ q.vruntime.toNat < b.1.vruntime.toNat := UInt64.lt_iff_toNat_lt
      simp only [keep, hok, if_true, true_and, MinScan.of, Option.map_some, reduceCtorEq, false_or, Option.getD_some,
        hlt, Option.all_some, decide_eq_true_eq]
      split
      · refine (run_bind_ok (run_release_other (Nat.ne_of_gt (hbest b rfl)) procs)).trans ?_
        rfl
      · rw [run_bind_ok (run_release_last _ _)]
        rfl

/-- The first loop finds the least entry and holds its lock. -/
theorem run_findMin (procs : List Proc) :
    (findMin procs.length).run ⟨procs, []⟩ = .ok (.of (minVruntime procs), keeping procs (minVruntime procs)) := by
  have hstart : ({} : MinScan) = .of none := rfl
  have hview : (⟨procs, []⟩ : Holding (List Proc)) = keeping procs none := rfl
  rw [findMin, hstart, hview]
  exact run_least fun best q p hq hbest => run_scanEntry hq fun b hb => (hbest b hb).1

theorem minVruntime_none : minVruntime procs = none ↔ ∀ q ∈ procs, q.state ≠ .runnable := by
  rw [minVruntime, least_table_none]
  simp [Proc.isRunnable]

/-- The process is RUNNABLE, none that is has a smaller `vruntime`, and none before it in the
table the same. -/
def LeastVruntime (procs : List Proc) (p : Nat) : Prop :=
  ∃ q, procs[p]? = some q ∧ q.state = .runnable ∧ ∀ k r, procs[k]? = some r → r.state = .runnable →
    q.vruntime < r.vruntime ∨ q.vruntime = r.vruntime ∧ p ≤ k

theorem minVruntime_some {b : Proc × Nat} (h : minVruntime procs = some b) :
    procs[b.2]? = some b.1 ∧ LeastVruntime procs b.2 := by
  obtain ⟨hb, hok, hle⟩ := least_table_some h
  refine ⟨hb, b.1, hb, by simpa [Proc.isRunnable] using hok, fun k r hr hrun => ?_⟩
  have hrank := hle k r hr (by simp [Proc.isRunnable, hrun])
  rwa [UInt64.lt_iff_toNat_lt, ← UInt64.toNat_inj]

/-! ## The log -/

/-- The loop that logs the table panics at the lock that is kept. -/
theorem run_logTable {b : Proc × Nat} (hb : b.2 < procs.length) :
    (logTable procs.length).run (keeping procs (some b)) = .error .acquire := by
  have hrange : List.range procs.length =
      List.range b.2 ++ b.2 :: (List.range (procs.length - b.2 - 1)).map (b.2 + 1 + ·) := by
    have hsplit : procs.length = b.2 + 1 + (procs.length - b.2 - 1) := by omega
    conv_lhs => rw [hsplit, List.range_add, List.range_succ]
    simp
  rw [logTable, hrange]
  refine run_forM_error (fun p hp => ?_) (run_bind_error (run_acquire_held (by simp [keeping])))
  have hne : p ≠ b.2 := Nat.ne_of_lt (List.mem_range.mp hp)
  rw [run_bind_ok (run_acquire (by simpa [keeping] using hne))]
  exact run_release_last _ _

/-- An iteration that finds a process does not come to `swtch`. -/
theorem run_toSwtch (procs : List Proc) :
    (toSwtch procs.length).run ⟨procs, []⟩ =
      if minVruntime procs = none then .ok (none, ⟨procs, []⟩) else .error .acquire := by
  unfold toSwtch
  rw [run_bind_ok (run_findMin procs)]
  cases hmin : minVruntime procs with
  | none => rfl
  | some b =>
    have hb := (List.getElem?_eq_some_iff.mp (minVruntime_some hmin).1).1
    exact run_bind_error (run_logTable hb)

/-- What an iteration should do that the CPU enters without a process lock: no lock is acquired that
is held, `swtch` is called with the lock of the chosen process alone, the chosen process is
RUNNABLE with the least `vruntime`, and no lock is held at the end. -/
def Orderly (swtch : Nat → List Proc → List Proc) (procs : List Proc) : Prop :=
  (∃ chosen s, (toSwtch procs.length).run ⟨procs, []⟩ = .ok (chosen, s) ∧
    ∀ p startTime, chosen = some (p, startTime) → s.held = [p] ∧ LeastVruntime procs p) ∧
  ∃ s, (iteration swtch procs.length).run ⟨procs, []⟩ = .ok ((), s) ∧ s.held = []

/-- **The lock protocol of an iteration.** For every table, and whatever the chosen process does, an
iteration keeps to it exactly if no process is RUNNABLE. -/
theorem iteration_orderly_iff (swtch : Nat → List Proc → List Proc) (procs : List Proc) :
    Orderly swtch procs ↔ ∀ q ∈ procs, q.state ≠ .runnable := by
  rw [← minVruntime_none]
  have hrun := run_toSwtch procs
  constructor
  · intro h
    obtain ⟨⟨chosen, s, hok, -⟩, -⟩ := h
    by_cases hmin : minVruntime procs = none
    · exact hmin
    · rw [hrun, if_neg hmin] at hok
      cases hok
  · intro hmin
    rw [if_pos hmin] at hrun
    refine ⟨⟨none, _, hrun, fun _ _ h => by cases h⟩, ⟨procs, []⟩, ?_, rfl⟩
    rw [iteration, run_bind_ok hrun]
    rfl

end

/-- A table with the first process alone: the log asks for the lock that is held. -/
theorem iteration_panics :
    (toSwtch 1).run ⟨[(({} : Proc).allocated 1 0).ready], []⟩ = .error .acquire ∧
      ¬ Orderly (fun _ procs => procs) [(({} : Proc).allocated 1 0).ready] :=
  ⟨rfl, fun ⟨⟨_, _, h, _⟩, _⟩ => by cases h⟩

end Cfs

end OsNetworks.Xv6
