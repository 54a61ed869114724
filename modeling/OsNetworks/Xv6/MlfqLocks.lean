/-
An iteration of the MLFQ scheduler, with the locks it takes, while no other CPU
changes the table: a pass that may boost, and a search through the queues that
keeps the lock of the process it finds.
-/
import OsNetworks.Xv6.FcfsLocks
import OsNetworks.Xv6.Mlfq

namespace OsNetworks.Xv6.MlfqLocks
open OsNetworks.Locks
open OsNetworks.Xv6.Cfs (Kernel entry setEntry run_entry)

/-- The body of the loop that boosts. -/
def boostEntry (p : Nat) : Kernel Unit := do
  acquire p
  setEntry p Proc.boosted
  release p

/-- Priority boost every 48 ticks. -/
def boost (ticks : UInt32) (lastBoost : UInt64) (count : Nat) : Kernel Unit :=
  if Mlfq.intervalOver ticks lastBoost then (List.range count).forM boostEntry else pure ()

/-- The inner loop of the search, over the entries that are left; it ends with the first process of
the queue. -/
def searchQueue (q : Nat) : List Nat → Kernel (Option Nat)
  | [] => return none
  | p :: ps => do
    acquire p
    let r ← entry p
    if r.state = .runnable ∧ r.queue = q then
      return some p
    else
      release p
      searchQueue q ps

/-- The outer loop, over the queues that are left. -/
def search (count : Nat) : List Nat → Kernel (Option Nat)
  | [] => return none
  | q :: qs => do
    match ← searchQueue q (List.range count) with
    | some p => return some p
    | none => search count qs

/-- An iteration up to `swtch`. -/
def toSwtch (ticks : UInt32) (lastBoost : UInt64) (count : Nat) : Kernel (Option Nat) := do
  boost ticks lastBoost count
  match ← search count (List.range queueCount) with
  | none => return none
  | some p =>
    setEntry p fun r => { r with state := .running }
    return some p

/-- An iteration; `swtch` is what the process `p` does to the table until it switches back, and
`elapsed` the ticks that this takes. -/
def iteration (ticks : UInt32) (lastBoost : UInt64) (swtch : Nat → List Proc → List Proc) (elapsed : UInt64)
    (count : Nat) : Kernel Unit := do
  match ← toSwtch ticks lastBoost count with
  | none => return
  | some p =>
    modify fun s => { s with data := swtch p s.data }
    setEntry p fun r => r.spent elapsed
    release p

/-! ## The boost -/

/-- The table after the boost. -/
def boosted (ticks : UInt32) (lastBoost : UInt64) (procs : List Proc) : List Proc :=
  if Mlfq.intervalOver ticks lastBoost then procs.map Proc.boosted else procs

variable {procs : List Proc}

theorem run_boostEntry (procs : List Proc) (p : Nat) :
    (boostEntry p).run ⟨procs, []⟩ = .ok ((), ⟨procs.modify p Proc.boosted, []⟩) := by
  unfold boostEntry
  rw [run_bind_ok (run_acquire (by simp))]
  exact run_release_last _ []

theorem run_boostEntries (ps : List Nat) (procs : List Proc) :
    (ps.forM boostEntry).run ⟨procs, []⟩ =
      .ok ((), ⟨ps.foldl (fun procs p => procs.modify p Proc.boosted) procs, []⟩) := by
  induction ps generalizing procs with
  | nil => rfl
  | cons p ps ih =>
    show (boostEntry p >>= fun _ => ps.forM boostEntry).run _ = _
    rw [run_bind_ok (run_boostEntry procs p)]
    exact ih _

/-- After `n` rounds the first `n` entries are boosted. -/
theorem getElem?_boosted (procs : List Proc) (n i : Nat) :
    ((List.range n).foldl (fun procs p => procs.modify p Proc.boosted) procs)[i]? =
      procs[i]?.map fun p => if i < n then p.boosted else p := by
  induction n with
  | zero => simp
  | succ n ih =>
    rw [List.range_succ, List.foldl_append, List.foldl_cons, List.foldl_nil, getElem?_modify_of, ih, Option.map_map]
    congr 1
    funext p
    by_cases hi : n = i
    · simp [hi]
    · have hiff : i < n + 1 ↔ i < n := by omega
      simp [hi, hiff]

theorem run_boost (ticks : UInt32) (lastBoost : UInt64) (procs : List Proc) :
    (boost ticks lastBoost procs.length).run ⟨procs, []⟩ = .ok ((), ⟨boosted ticks lastBoost procs, []⟩) := by
  have hall : (List.range procs.length).foldl (fun procs p => procs.modify p Proc.boosted) procs =
      procs.map Proc.boosted := by
    refine List.ext_getElem? fun i => ?_
    rw [getElem?_boosted, List.getElem?_map]
    cases hi : procs[i]? with
    | none => rfl
    | some p =>
      have hlt := (List.getElem?_eq_some_iff.1 hi).1
      simp [hlt]
  unfold boost boosted
  split
  · rw [run_boostEntries, hall]
  · rfl

theorem length_boosted (ticks : UInt32) (lastBoost : UInt64) (procs : List Proc) :
    (boosted ticks lastBoost procs).length = procs.length := by
  unfold boosted
  split
  · exact List.length_map _
  · rfl

theorem boosted_state (p : Proc) : p.boosted.state = p.state := by
  unfold Proc.boosted
  split <;> rfl

/-- The boost gives no level that there is not. -/
theorem boosted_queue {ticks : UInt32} {lastBoost : UInt64} (h : ∀ r ∈ procs, r.queue ≤ 3) :
    ∀ r ∈ boosted ticks lastBoost procs, r.queue ≤ 3 := by
  intro r hr
  unfold boosted at hr
  split at hr
  · obtain ⟨p, hp, rfl⟩ := List.mem_map.1 hr
    unfold Proc.boosted
    split
    · exact Nat.zero_le 3
    · exact h p hp
  · exact h r hr

theorem boosted_runnable (ticks : UInt32) (lastBoost : UInt64) (procs : List Proc) :
    (∀ q ∈ boosted ticks lastBoost procs, q.state ≠ .runnable) ↔ ∀ q ∈ procs, q.state ≠ .runnable := by
  unfold boosted
  split
  · simp [boosted_state]
  · rfl

/-! ## The search -/

/-- The process is RUNNABLE and in the queue `q`. -/
def inQueue (procs : List Proc) (q p : Nat) : Bool :=
  (procs.getD p {}).state = .runnable ∧ (procs.getD p {}).queue = q

theorem run_searchQueue (procs : List Proc) (q : Nat) (ps : List Nat) :
    (searchQueue q ps).run ⟨procs, []⟩ =
      .ok (ps.find? (inQueue procs q), ⟨procs, (ps.find? (inQueue procs q)).toList⟩) := by
  induction ps with
  | nil => rfl
  | cons p ps ih =>
    have hentry : (entry p).run ⟨procs, [p]⟩ = .ok (procs.getD p {}, ⟨procs, [p]⟩) := rfl
    unfold searchQueue
    rw [run_bind_ok (run_acquire (by simp)), run_bind_ok hentry, List.find?_cons]
    by_cases hin : (procs.getD p {}).state = .runnable ∧ (procs.getD p {}).queue = q
    · have htrue : inQueue procs q p = true := decide_eq_true hin
      rw [if_pos hin, htrue]
      rfl
    · have hfalse : inQueue procs q p = false := decide_eq_false hin
      rw [if_neg hin, hfalse, run_bind_ok (run_release_last _ _)]
      exact ih

/-- The process that the search finds. -/
def found (procs : List Proc) (qs : List Nat) : Option Nat :=
  qs.findSome? fun q => (List.range procs.length).find? (inQueue procs q)

theorem run_search (procs : List Proc) (qs : List Nat) :
    (search procs.length qs).run ⟨procs, []⟩ = .ok (found procs qs, ⟨procs, (found procs qs).toList⟩) := by
  induction qs with
  | nil => rfl
  | cons q qs ih =>
    unfold search
    rw [run_bind_ok (run_searchQueue procs q _)]
    unfold found
    rw [List.findSome?_cons]
    cases (List.range procs.length).find? (inQueue procs q) with
    | none => exact ih
    | some p => rfl

theorem inQueue_iff {q p : Nat} {r : Proc} (h : procs[p]? = some r) :
    inQueue procs q p = true ↔ r.state = .runnable ∧ r.queue = q := by
  have hentry : procs.getD p {} = r := by rw [List.getD_eq_getElem?_getD, h, Option.getD_some]
  rw [inQueue, hentry, decide_eq_true_iff]

/-- The search finds the process that `Mlfq.select` does. -/
theorem found_eq_select (procs : List Proc) : found procs (List.range queueCount) = Mlfq.select procs := by
  unfold found Mlfq.select
  congr 1
  funext q
  refine Option.ext fun p => ?_
  rw [List.find?_range_eq_some, List.findIdx?_eq_some_iff_getElem]
  constructor
  · rintro ⟨hin, hp, hfirst⟩
    have hlt := List.mem_range.1 hp
    refine ⟨hlt, ?_, fun j hj => ?_⟩
    · simpa using (inQueue_iff (List.getElem?_eq_getElem hlt)).1 hin
    · have hnot := hfirst j hj
      rw [Bool.not_eq_true', Bool.eq_false_iff, Ne, inQueue_iff (List.getElem?_eq_getElem (hj.trans hlt))] at hnot
      simpa using hnot
  · rintro ⟨hlt, hin, hfirst⟩
    refine ⟨(inQueue_iff (List.getElem?_eq_getElem hlt)).2 (by simpa using hin), List.mem_range.2 hlt, fun j hj => ?_⟩
    rw [Bool.not_eq_true', Bool.eq_false_iff, Ne, inQueue_iff (List.getElem?_eq_getElem (hj.trans hlt))]
    simpa using hfirst j hj

theorem found_none (hqueues : ∀ r ∈ procs, r.queue ≤ 3) :
    found procs (List.range queueCount) = none ↔ ∀ r ∈ procs, r.state ≠ .runnable := by
  rw [found_eq_select]
  constructor
  · intro h r hr hrun
    obtain ⟨k, hk⟩ := List.mem_iff_getElem?.1 hr
    exact absurd (Mlfq.select_none h hk hrun) (Nat.not_le.2 (Nat.lt_succ_of_le (hqueues r hr)))
  · intro h
    cases hs : Mlfq.select procs with
    | none => rfl
    | some i =>
      obtain ⟨r, hr, hrun, -⟩ := Mlfq.select_least hs
      exact absurd hrun (h r (List.mem_of_getElem? hr))

/-! ## An iteration -/

theorem run_toSwtch (ticks : UInt32) (lastBoost : UInt64) (procs : List Proc) :
    (toSwtch ticks lastBoost procs.length).run ⟨procs, []⟩ =
      .ok (found (boosted ticks lastBoost procs) (List.range queueCount),
        ⟨FcfsLocks.switchedTable (boosted ticks lastBoost procs)
            (found (boosted ticks lastBoost procs) (List.range queueCount)),
          (found (boosted ticks lastBoost procs) (List.range queueCount)).toList⟩) := by
  unfold toSwtch
  have hsearch := run_search (boosted ticks lastBoost procs) (List.range queueCount)
  rw [length_boosted] at hsearch
  rw [run_bind_ok (run_boost ticks lastBoost procs), run_bind_ok hsearch]
  cases found (boosted ticks lastBoost procs) (List.range queueCount) with
  | none => rfl
  | some p => rfl

/-- **The lock protocol of MLFQ.** For every table with levels up to 3, and whatever the selected
process does, an iteration selects the first process of the highest queue after the boost and keeps
to the protocol. -/
theorem mlfq_iteration_orderly (ticks : UInt32) (lastBoost : UInt64) (swtch : Nat → List Proc → List Proc)
    (elapsed : UInt64) {procs : List Proc} (hqueues : ∀ r ∈ procs, r.queue ≤ 3) :
    OrderlySelection Proc.queue procs (boosted ticks lastBoost procs) (toSwtch ticks lastBoost procs.length)
      (iteration ticks lastBoost swtch elapsed procs.length) := by
  have hrun := run_toSwtch ticks lastBoost procs
  refine ⟨⟨_, _, hrun, rfl, ?_, fun p hp => ?_⟩, ?_⟩
  · rw [found_none (boosted_queue hqueues), boosted_runnable]
  · exact Mlfq.select_least (found_eq_select _ ▸ hp)
  · unfold iteration
    rw [run_bind_ok hrun]
    cases found (boosted ticks lastBoost procs) (List.range queueCount) with
    | none => exact ⟨_, rfl, rfl⟩
    | some p => exact ⟨_, run_release_last _ [], rfl⟩

/-- Two fresh processes, of which the second has gone down a level. -/
theorem mlfq_iteration_orderly_two :
    (toSwtch 5 0 2).run ⟨[{ state := .runnable, queue := 1 }, { state := .runnable, timeSlice := 1 }], []⟩ =
        .ok (some 1, ⟨[{ state := .runnable, queue := 1 }, { state := .running, timeSlice := 1 }], [1]⟩) ∧
      OrderlySelection Proc.queue [{ state := .runnable, queue := 1 }, { state := .runnable, timeSlice := 1 }]
        (boosted 5 0 [{ state := .runnable, queue := 1 }, { state := .runnable, timeSlice := 1 }])
        (toSwtch 5 0 2) (iteration 5 0 (fun _ procs => procs) 1 2) :=
  ⟨rfl, mlfq_iteration_orderly 5 0 (fun _ procs => procs) 1 (by simp)⟩

end OsNetworks.Xv6.MlfqLocks
