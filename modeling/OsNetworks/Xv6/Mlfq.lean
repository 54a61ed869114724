/-
The MLFQ scheduler on one CPU, with processes that use the CPU up to each timer
tick: the boost, the search through the queues, and what a process pays for a
tick. Selection starts over at the front of the highest queue in each round, so
who is reached before the next boost depends on how many rounds there are.
-/
import Mathlib.Data.List.Perm.Subperm
import OsNetworks.Lib.Runs
import OsNetworks.Xv6.Proc

namespace OsNetworks.Xv6

/-- `QUEUE_COUNT` -/
def queueCount : Nat := 4

/-- `queue_time_slices` -/
def queueTimeSlices : List Int := [1, 4, 8, 16]

/-- The body of the loop that boosts. -/
def Proc.boosted (p : Proc) : Proc :=
  if p.state = .runnable ∨ p.state = .running then { p with queue := 0, timeSlice := queueTimeSlices.getD 0 0 } else p

/-- The update after a process has run for `elapsed` ticks; `time_slice` is an `int`. -/
def Proc.spent (p : Proc) (elapsed : UInt64) : Proc :=
  let left := (p.timeSlice - elapsed.toNat).bmod UInt32.size
  if left ≤ 0 then
    let queue := if p.queue < queueCount - 1 then p.queue + 1 else p.queue
    { p with queue, timeSlice := queueTimeSlices.getD queue 0 }
  else { p with timeSlice := left }

namespace Mlfq
open OsNetworks.Runs

structure Kernel where
  procs : List Proc
  ticks : UInt32
  /-- `last_boost` -/
  lastBoost : UInt64 := 0

/-- The ticks that arrive while no process is on the CPU: from the round before to the test for a
boost, and in the pass that boosts. -/
structure Late where
  before : Nat := 0
  boosting : Nat := 0

/-- `ticks - last_boost >= BOOST_INTERVAL` -/
def intervalOver (ticks : UInt32) (lastBoost : UInt64) : Bool := 48 ≤ ticks.toUInt64 - lastBoost

/-- This round boosts. -/
def due (s : Kernel) (l : Late) : Bool := intervalOver (s.ticks + UInt32.ofNat l.before) s.lastBoost

/-- The start of a round. -/
def boost (s : Kernel) (l : Late) : Kernel :=
  let ticks := s.ticks + UInt32.ofNat l.before
  if due s l then
    let boosted := ticks + UInt32.ofNat l.boosting
    { procs := s.procs.map Proc.boosted, ticks := boosted, lastBoost := boosted.toUInt64 }
  else { s with ticks }

/-- The search through the queues, each from the front of the table. -/
def select (procs : List Proc) : Option Nat :=
  (List.range queueCount).findSome? fun q => procs.findIdx? fun p => p.state = .runnable ∧ p.queue = q

/-- The process `i` runs until the next tick, at which it yields. -/
def serve (s : Kernel) (i : Nat) : Kernel :=
  let running := s.procs.modify i fun p => { p with state := .running }
  let startTicks := s.ticks.toUInt64
  let ticks := s.ticks + 1
  let yielded := running.modify i fun p => { p with state := .runnable }
  { s with procs := yielded.modify i fun p => p.spent (ticks.toUInt64 - startTicks), ticks }

/-- A round of `scheduler`. -/
def step (s : Kernel) (l : Late) : Kernel :=
  match select (boost s l).procs with
  | none => boost s l
  | some i => serve (boost s l) i

/-- The process that a round selects. -/
def selection (s : Kernel) (l : Late) : Option Nat := select (boost s l).procs

/-- The processes that the rounds select. -/
def selections (s : Kernel) : List Late → List Nat
  | [] => []
  | l :: ls => (selection s l).toList ++ selections (step s l) ls

/-! ## One round -/

theorem findIdx?_runnable {procs : List Proc} {q i : Nat}
    (h : (procs.findIdx? fun p => p.state = .runnable ∧ p.queue = q) = some i) :
    ∃ p, procs[i]? = some p ∧ p.state = .runnable ∧ p.queue = q := by
  obtain ⟨hi, hp, -⟩ := List.findIdx?_eq_some_iff_getElem.mp h
  exact ⟨procs[i], List.getElem?_eq_getElem hi, by simpa using hp⟩

/-- In a queue in which nothing was found is no RUNNABLE process. -/
theorem findIdx?_none {procs : List Proc} {q k : Nat} {r : Proc}
    (h : (procs.findIdx? fun p => p.state = .runnable ∧ p.queue = q) = none) (hr : procs[k]? = some r)
    (hrun : r.state = .runnable) : r.queue ≠ q := by
  intro hq
  have hnot := List.findIdx?_eq_none_iff.mp h r (List.mem_of_getElem? hr)
  simp [hrun, hq] at hnot

/-- The process selected is the first of the highest queue that has one. -/
theorem select_least {procs : List Proc} {i : Nat} (h : select procs = some i) : LeastRunnable Proc.queue procs i := by
  obtain ⟨before, q, after, hrange, hfind, hbefore⟩ := List.findSome?_eq_some_iff.mp h
  obtain ⟨p, hp, hrun, hpq⟩ := findIdx?_runnable hfind
  obtain ⟨_, -, hfirst⟩ := List.findIdx?_eq_some_iff_getElem.mp hfind
  refine ⟨p, hp, hrun, fun k r hr hrunk => ?_⟩
  rw [hpq]
  rcases Nat.lt_trichotomy r.queue q with hless | heq | hmore
  · -- all queues before `q` were searched
    have hmem : r.queue ∈ before ++ q :: after := by
      rw [← hrange]
      have hqmem : q ∈ List.range queueCount := hrange ▸ List.mem_append_right _ List.mem_cons_self
      exact List.mem_range.mpr (hless.trans (List.mem_range.mp hqmem))
    have hsorted := hrange ▸ List.pairwise_lt_range (n := queueCount)
    rcases List.mem_append.mp hmem with hmem | hmem
    · exact absurd rfl (findIdx?_none (hbefore _ hmem) hr hrunk)
    · rcases List.mem_cons.mp hmem with heq | hmem
      · omega
      · have hafter := (List.pairwise_cons.mp (List.pairwise_append.mp hsorted).2.1).1 _ hmem
        omega
  · refine .inr ⟨heq.symm, Nat.le_of_not_lt fun hk => ?_⟩
    obtain ⟨hlt, rfl⟩ := List.getElem?_eq_some_iff.mp hr
    have hnot := hfirst k hk
    simp [hrunk, heq] at hnot
  · exact .inl hmore

/-- A RUNNABLE process that is not selected is in none of the queues. -/
theorem select_none {procs : List Proc} (h : select procs = none) {k : Nat} {r : Proc} (hr : procs[k]? = some r)
    (hrun : r.state = .runnable) : queueCount ≤ r.queue := by
  refine Nat.le_of_not_lt fun hq => ?_
  rw [select, List.findSome?_eq_none_iff] at h
  exact findIdx?_none (h r.queue (List.mem_range.mpr hq)) hr hrun rfl

/-- The process selected is RUNNABLE, and none is in a higher queue. -/
theorem select_spec {procs : List Proc} {i : Nat} {p : Proc} (hi : procs[i]? = some p) (hp : p.state = .runnable)
    (hq : p.queue < queueCount) :
    ∃ j r, select procs = some j ∧ procs[j]? = some r ∧ r.state = .runnable ∧ r.queue ≤ p.queue := by
  cases hs : select procs with
  | none => exact absurd (select_none hs hi hp) (Nat.not_le.mpr hq)
  | some j =>
    obtain ⟨r, hr, hrun, hleast⟩ := select_least hs
    exact ⟨j, r, rfl, hr, hrun, (hleast i p hi hp).elim Nat.le_of_lt fun h => Nat.le_of_eq h.1⟩

theorem spent_state (p : Proc) (elapsed : UInt64) : (p.spent elapsed).state = p.state := by
  unfold Proc.spent
  dsimp only
  split <;> rfl

theorem spent_queue {p : Proc} (hq : p.queue < queueCount) (elapsed : UInt64) :
    p.queue ≤ (p.spent elapsed).queue ∧ (p.spent elapsed).queue < queueCount := by
  unfold queueCount at hq
  unfold Proc.spent queueCount
  dsimp only
  split
  · dsimp only
    split <;> omega
  · exact ⟨Nat.le_refl _, hq⟩

/-- The subtraction gives what is left, also when the count of ticks has started over. -/
theorem slice_left {slice : Int} {start ticks : UInt32} {n : Nat} (hpos : 1 ≤ slice) (hle : slice ≤ 16)
    (hticks : ticks = start + UInt32.ofNat n) (hn : n < 2147483648) :
    (slice - (ticks.toUInt64 - start.toUInt64).toNat).bmod UInt32.size = slice - n := by
  have hstart := start.toNat_lt
  have hsum : ticks.toNat = (start.toNat + n) % 4294967296 := by
    rw [hticks, UInt32.toNat_add, UInt32.toNat_ofNat', Nat.add_mod_mod]
  rw [UInt64.toNat_sub, UInt32.toNat_toUInt64, UInt32.toNat_toUInt64, Int.bmod_eq_iff (by decide)]
  unfold UInt32.size
  omega

/-- One tick uses up a slice of 1. -/
theorem spent_first {p : Proc} (hq : p.queue = 0) (hslice : p.timeSlice = 1) (t : UInt32) :
    (p.spent ((t + 1).toUInt64 - t.toUInt64)).queue = 1 := by
  have hleft := slice_left (n := 1) (Int.le_of_eq hslice.symm) (by omega) (rfl : t + 1 = t + 1) (by decide)
  unfold Proc.spent
  dsimp only
  rw [hleft, hslice, if_pos (by decide), hq]
  rfl

/-! ## Between two boosts -/

/-- Since the last boost just the processes in `seen` have been selected. -/
structure Fresh (s : Kernel) (seen : List Nat) : Prop where
  unseen : ∀ i p, s.procs[i]? = some p → p.state = .runnable → i ∉ seen → p.queue = 0 ∧ p.timeSlice = 1
  seen : ∀ i p, s.procs[i]? = some p → p.state = .runnable → i ∈ seen → 0 < p.queue ∧ p.queue < queueCount

theorem Fresh.queue_lt {s : Kernel} {seen : List Nat} (h : Fresh s seen) {i : Nat} {p : Proc}
    (hi : s.procs[i]? = some p) (hp : p.state = .runnable) : p.queue < queueCount := by
  by_cases hmem : i ∈ seen
  · exact (h.seen i p hi hp hmem).2
  · rw [(h.unseen i p hi hp hmem).1]
    decide

/-- While a process is left that has not been selected, such a one is selected. -/
theorem Fresh.select {s : Kernel} {seen : List Nat} (h : Fresh s seen) {k : Nat}
    (hk : stateOf s.procs k = .runnable) :
    ∃ i, select s.procs = some i ∧ stateOf s.procs i = .runnable ∧ (k ∉ seen → i ∉ seen) := by
  obtain ⟨p, hp, hstate⟩ := getElem?_of_runnable hk
  obtain ⟨i, r, hsel, hr, hrun, hle⟩ := select_spec hp hstate (h.queue_lt hp hstate)
  refine ⟨i, hsel, by rw [stateOf_of_getElem? hr, hrun], fun hunseen hseen => ?_⟩
  have hzero := (h.unseen k p hp hstate hunseen).1
  have hpos := (h.seen i r hr hrun hseen).1
  omega

/-- The entries after a process has run. -/
theorem getElem?_serve (s : Kernel) (i j : Nat) :
    (serve s i).procs[j]? = s.procs[j]?.map fun p =>
      if i = j then { p with state := .runnable }.spent ((s.ticks + 1).toUInt64 - s.ticks.toUInt64) else p := by
  simp only [serve, getElem?_modify_of, Option.map_map]
  congr 1
  funext p
  by_cases h : i = j <;> simp [h]

theorem stateOf_serve {s : Kernel} {i : Nat} (hi : stateOf s.procs i = .runnable) (j : Nat) :
    stateOf (serve s i).procs j = stateOf s.procs j := by
  unfold stateOf at hi ⊢
  rw [List.getD_eq_getElem?_getD] at hi ⊢
  rw [List.getD_eq_getElem?_getD, getElem?_serve]
  cases hp : s.procs[j]? with
  | none => rfl
  | some p =>
    by_cases h : i = j
    · subst h
      rw [hp] at hi
      simp only [Option.map_some, if_true, Option.getD_some, spent_state]
      exact hi.symm
    · simp [h]

theorem Fresh.serve {s : Kernel} {seen : List Nat} (h : Fresh s seen) {i : Nat}
    (hi : stateOf s.procs i = .runnable) : Fresh (serve s i) (i :: seen) := by
  refine ⟨fun j p hj hp hmem => ?_, fun j p hj hp hmem => ?_⟩
  all_goals
    rw [getElem?_serve, Option.map_eq_some_iff] at hj
    obtain ⟨r, hr, rfl⟩ := hj
  · have hne : i ≠ j := fun heq => hmem (heq ▸ List.mem_cons_self)
    rw [if_neg hne] at hp ⊢
    exact h.unseen j r hr hp fun hseen => hmem (List.mem_cons_of_mem i hseen)
  · by_cases hij : i = j
    · subst hij
      have hrun : r.state = .runnable := (stateOf_of_getElem? hr).symm.trans hi
      simp only [if_true]
      by_cases hseen : i ∈ seen
      · obtain ⟨hpos, hlt⟩ := h.seen i r hr hrun hseen
        obtain ⟨hle, hlt'⟩ := spent_queue (p := { r with state := .runnable }) hlt _
        exact ⟨Nat.lt_of_lt_of_le hpos hle, hlt'⟩
      · obtain ⟨hzero, hone⟩ := h.unseen i r hr hrun hseen
        rw [spent_first (p := { r with state := .runnable }) hzero hone]
        decide
    · rw [if_neg hij] at hp ⊢
      exact h.seen j r hr hp ((List.mem_cons.mp hmem).resolve_left fun heq => hij heq.symm)

theorem due_boost {s : Kernel} {l : Late} (h : due s l) :
    boost s l =
      { procs := s.procs.map Proc.boosted, ticks := s.ticks + UInt32.ofNat l.before + UInt32.ofNat l.boosting,
        lastBoost := (s.ticks + UInt32.ofNat l.before + UInt32.ofNat l.boosting).toUInt64 } :=
  if_pos h

theorem quiet_boost {s : Kernel} {l : Late} (h : due s l = false) :
    boost s l = { s with ticks := s.ticks + UInt32.ofNat l.before } :=
  if_neg (by simp [h])

theorem stateOf_boost (s : Kernel) (l : Late) (i : Nat) : stateOf (boost s l).procs i = stateOf s.procs i := by
  cases h : due s l with
  | false => rw [quiet_boost h]
  | true =>
    rw [due_boost h, stateOf, stateOf, getD_map_of _ rfl]
    unfold Proc.boosted
    split <;> rfl

theorem Fresh.boost {s : Kernel} {l : Late} (h : due s l) : Fresh (boost s l) [] := by
  refine ⟨fun i p hi hp _ => ?_, fun _ _ _ _ hmem => nomatch hmem⟩
  rw [due_boost h, List.getElem?_map, Option.map_eq_some_iff] at hi
  obtain ⟨r, -, rfl⟩ := hi
  unfold Proc.boosted at hp ⊢
  split at hp
  next hboost =>
    rw [if_pos hboost]
    exact ⟨rfl, rfl⟩
  next hnot => exact absurd (.inl hp) hnot

theorem Fresh.quiet {s : Kernel} {seen : List Nat} (h : Fresh s seen) {l : Late} (hl : due s l = false) :
    Fresh (Mlfq.boost s l) seen := by
  rw [quiet_boost hl]
  exact ⟨h.unseen, h.seen⟩

/-- A round, as long as some process is RUNNABLE. -/
theorem Fresh.round {s : Kernel} {l : Late} {seen : List Nat} (h : Fresh (Mlfq.boost s l) seen) {k : Nat}
    (hk : stateOf s.procs k = .runnable) :
    ∃ i, selection s l = some i ∧ step s l = Mlfq.serve (Mlfq.boost s l) i ∧ stateOf s.procs i = .runnable ∧
      (k ∉ seen → i ∉ seen) ∧ Fresh (step s l) (i :: seen) ∧
      ∀ j, stateOf (step s l).procs j = stateOf s.procs j := by
  obtain ⟨i, hsel, hi, hnew⟩ := h.select (k := k) (by rw [stateOf_boost, hk])
  have hstep : step s l = Mlfq.serve (Mlfq.boost s l) i := by rw [step, hsel]
  refine ⟨i, hsel, hstep, (stateOf_boost s l i).symm.trans hi, hnew, hstep ▸ h.serve hi, fun j => ?_⟩
  rw [hstep, stateOf_serve hi, stateOf_boost]

/-- So many processes cannot all be among fewer. -/
theorem runnableCount_le {procs : List Proc} {is : List Nat} (h : ∀ i, stateOf procs i = .runnable → i ∈ is) :
    runnableCount procs ≤ is.length := by
  rw [← length_runnableSlots]
  exact (List.subperm_of_subset (nodup_runnableSlots procs) fun i hi => h i (mem_runnableSlots.mp hi)).length_le

theorem all_of_runnableCount_le {procs : List Proc} {is : List Nat} (hnodup : is.Nodup)
    (hrun : ∀ i ∈ is, stateOf procs i = .runnable) (hle : runnableCount procs ≤ is.length) :
    ∀ i, stateOf procs i = .runnable → i ∈ is := by
  intro i hi
  have hsub := List.subperm_of_subset hnodup fun j hj => mem_runnableSlots.mpr (hrun j hj)
  have hperm := hsub.perm_of_length_le (by rwa [length_runnableSlots])
  exact hperm.mem_iff.mpr (mem_runnableSlots.mpr hi)

theorem length_selections (s : Kernel) (ls : List Late) : (selections s ls).length ≤ ls.length := by
  induction ls generalizing s with
  | nil => exact Nat.le_refl 0
  | cons l ls ih =>
    have htail := ih (step s l)
    have hhead : (selection s l).toList.length ≤ 1 := by cases selection s l <;> simp
    simp only [selections, List.length_append, List.length_cons]
    omega

/-- Enough rounds without a boost reach every process. -/
theorem Fresh.covered {s : Kernel} {seen : List Nat} {ls : List Late} (h : Fresh s seen) (hnodup : seen.Nodup)
    (hrun : ∀ i ∈ seen, stateOf s.procs i = .runnable) (hquiet : Along step (fun s l => due s l = false) s ls)
    (hle : runnableCount s.procs ≤ seen.length + ls.length) :
    ∀ i, stateOf s.procs i = .runnable → i ∈ seen ++ selections s ls := by
  induction ls generalizing s seen with
  | nil => simpa [selections] using all_of_runnableCount_le hnodup hrun hle
  | cons l ls ih =>
    intro j hj
    by_cases hall : ∃ k, stateOf s.procs k = .runnable ∧ k ∉ seen
    · obtain ⟨k, hk, hunseen⟩ := hall
      obtain ⟨i, hsel, -, hi, hnew, hfresh, hstate⟩ := (h.quiet hquiet.1).round hk
      have hcovered := ih hfresh (List.nodup_cons.mpr ⟨hnew hunseen, hnodup⟩)
        (List.forall_mem_cons.mpr ⟨(hstate i).trans hi, fun m hm => (hstate m).trans (hrun m hm)⟩) hquiet.2
        (by rw [runnableCount_congr hstate]; simp only [List.length_cons] at hle ⊢; omega) j ((hstate j).trans hj)
      simp only [List.cons_append, List.mem_cons, List.mem_append] at hcovered
      simp only [selections, hsel, Option.toList_some, List.mem_append, List.mem_singleton]
      tauto
    · refine List.mem_append_left _ (by_contra fun hunseen => hall ⟨j, hj, hunseen⟩)

/-! ## The length of the interval -/

/-- The count of ticks at the last of the tests, in rounds that follow one at `start` and in which a process runs. -/
def testTicks (start : UInt32) (ls : List Late) : UInt32 :=
  ls.foldl (fun t l => t + 1 + UInt32.ofNat l.before) start

/-- None of the tests that come before the choice of the last of `n` processes finds the interval over. -/
def Ample (n : Nat) (start : UInt32) (ls : List Late) : Prop :=
  ∀ m, 0 < m → m < n → intervalOver (testTicks start (ls.take m)) start.toUInt64 = false

theorem Fresh.due_run {s : Kernel} {seen : List Nat} {ls : List Late} (h : Fresh s seen) {k : Nat}
    (hk : stateOf s.procs k = .runnable) (hquiet : Along step (fun s l => due s l = false) s ls) {t : UInt32}
    (ht : s.ticks = t + 1) (l : Late) :
    due (run step s ls) l = intervalOver (testTicks t (ls ++ [l])) s.lastBoost := by
  induction ls generalizing s seen t with
  | nil => rw [run_nil, due, ht]; rfl
  | cons f ls ih =>
    obtain ⟨i, -, hstep, -, -, hfresh, hstate⟩ := (h.quiet hquiet.1).round hk
    have hticks : (step s f).ticks = t + 1 + UInt32.ofNat f.before + 1 := by
      rw [hstep, quiet_boost hquiet.1, ← ht]
      rfl
    have hboost : (step s f).lastBoost = s.lastBoost := by
      rw [hstep, quiet_boost hquiet.1]
      rfl
    rw [run_cons, ih hfresh ((hstate k).trans hk) hquiet.2 hticks, hboost]
    rfl

/-- The tests of the rounds between two boosts find the interval running, and the last finds it over. So there are
enough of them for `n` processes just if `Ample` says so. -/
theorem ample_iff {n : Nat} {start : UInt32} {ls : List Late} {last : Late}
    (hquiet : 0 < n → ∀ m (hm : m < ls.length),
      intervalOver (testTicks start (ls.take m ++ [ls[m]])) start.toUInt64 = false)
    (hlast : 0 < n → intervalOver (testTicks start (ls ++ [last])) start.toUInt64 = true) :
    Ample n start (ls ++ [last]) ↔ n ≤ ls.length + 1 := by
  constructor
  · intro hample
    refine Nat.le_of_not_lt fun hlt => ?_
    have hfalse := hample (ls.length + 1) (Nat.succ_pos _) hlt
    rw [List.take_of_length_le (by simp), hlast (by omega)] at hfalse
    cases hfalse
  · intro hle m hpos hm
    obtain ⟨m, rfl⟩ := Nat.exists_eq_succ_of_ne_zero (Nat.pos_iff_ne_zero.mp hpos)
    have hlt : m < ls.length := by omega
    rw [List.take_append_of_le_length hlt, List.take_succ_eq_append_getElem hlt]
    exact hquiet (by omega) m hlt

/-- **Every process is selected between two boosts** just if fewer processes are RUNNABLE than tests are
made until one finds the interval over, or as many. -/
theorem all_selected_iff {s : Kernel} {first last : Late} {ls : List Late} (hfirst : due s first)
    (hquiet : Along step (fun s l => due s l = false) (step s first) ls)
    (hlast : due (run step s (first :: ls)) last) :
    (∀ i, stateOf s.procs i = .runnable → i ∈ selections s (first :: ls)) ↔
      Ample (runnableCount s.procs) (s.ticks + UInt32.ofNat first.before + UInt32.ofNat first.boosting)
        (ls ++ [last]) := by
  generalize hstart : s.ticks + UInt32.ofNat first.before + UInt32.ofNat first.boosting = start
  by_cases hnone : ∀ k, stateOf s.procs k ≠ .runnable
  · have hle : runnableCount s.procs ≤ ([] : List Nat).length := runnableCount_le fun i hi => absurd hi (hnone i)
    have hzero : runnableCount s.procs = 0 := Nat.le_zero.mp hle
    rw [hzero]
    exact ⟨fun _ _ hpos hm => absurd hm (Nat.not_lt_zero _), fun _ i hi => absurd hi (hnone i)⟩
  push Not at hnone
  obtain ⟨k, hk⟩ := hnone
  obtain ⟨i, hsel, hstep, hi, -, hfresh, hstate⟩ := (Fresh.boost hfirst).round hk
  have hticks : (step s first).ticks = start + 1 := by
    rw [hstep, due_boost hfirst, ← hstart]
    rfl
  have hboost : (step s first).lastBoost = start.toUInt64 := by
    rw [hstep, due_boost hfirst, ← hstart]
    rfl
  have hdue {ls : List Late} (hq : Along step (fun s l => due s l = false) (step s first) ls) (l : Late) :
      due (run step (step s first) ls) l = intervalOver (testTicks start (ls ++ [l])) start.toUInt64 :=
    hboost ▸ hfresh.due_run ((hstate k).trans hk) hq hticks l
  rw [ample_iff]
  · constructor
    · intro h
      exact (runnableCount_le h).trans (length_selections s (first :: ls))
    · intro hle j hj
      have hcovered := hfresh.covered (List.pairwise_singleton _ i)
        (fun m hm => List.mem_singleton.mp hm ▸ (hstate i).trans hi) hquiet
        (by rw [runnableCount_congr hstate, List.length_singleton]; omega) j ((hstate j).trans hj)
      simpa [selections, hsel] using hcovered
  · intro _ m hm
    have hsplit : ls = ls.take m ++ ls[m] :: ls.drop (m + 1) := by simp
    rw [hsplit] at hquiet
    obtain ⟨hbefore, hhere, -⟩ := Along.append.mp hquiet
    rw [← hdue hbefore]
    exact hhere
  · intro _
    rw [← hdue hquiet]
    exact hlast

/-- Two RUNNABLE processes, when a boost is due. -/
def twoRunnable : Kernel := { procs := List.replicate 2 { state := .runnable, timeSlice := 1 }, ticks := 48 }

theorem all_selected_two :
    (∀ i, stateOf twoRunnable.procs i = .runnable → i ∈ selections twoRunnable [{}, {}]) ↔
      Ample (runnableCount twoRunnable.procs) (48 + UInt32.ofNat 0 + UInt32.ofNat 0) [{}, { before := 46 }] :=
  have hfirst : due twoRunnable {} := by decide
  have hquiet : Along step (fun s l => due s l = false) (step twoRunnable {}) [{}] := by decide
  have hlast : due (run step twoRunnable [{}, {}]) { before := 46 } := by decide
  all_selected_iff hfirst hquiet hlast

/-- As many RUNNABLE processes as the table has entries for, when a boost is due. -/
def fullTable : Kernel := { procs := List.replicate 64 { state := .runnable, timeSlice := 1 }, ticks := 48 }

theorem late_entry_starves :
    due fullTable {} ∧ Along step (fun s l => due s l = false) (step fullTable {}) (List.replicate 47 {}) ∧
      due (run step fullTable (List.replicate 48 {})) {} ∧
      stateOf fullTable.procs 48 = .runnable ∧ 48 ∉ selections fullTable (List.replicate 48 {}) := by
  decide +kernel

/-- While the scheduler takes no ticks itself, and the count of ticks does not start over, 48 processes are
reached, and no more. -/
theorem ample_idle {n : Nat} {start : UInt32} (hstart : start.toNat + 48 < UInt32.size) :
    Ample n start (List.replicate 48 {}) ↔ n ≤ 48 := by
  have htest (m : Nat) : testTicks start (List.replicate m {}) = start + UInt32.ofNat m := by
    induction m with
    | zero => simp [testTicks]
    | succ m ih =>
      rw [List.replicate_succ', testTicks, List.foldl_append]
      change testTicks start (List.replicate m {}) + 1 + 0 = _
      rw [ih, UInt32.add_zero, UInt32.ofNat_add, UInt32.add_assoc]
      rfl
  have hover {m : Nat} (hm : m ≤ 48) :
      intervalOver (testTicks start ((List.replicate 48 {}).take m)) start.toUInt64 = decide (48 ≤ m) := by
    rw [List.take_replicate, Nat.min_eq_left hm, htest, intervalOver, decide_eq_decide, UInt64.le_iff_toNat_le,
      UInt64.toNat_sub, UInt32.toNat_toUInt64, UInt32.toNat_toUInt64, UInt32.toNat_add, UInt32.toNat_ofNat']
    have : (48 : UInt64).toNat = 48 := rfl
    unfold UInt32.size at hstart
    omega
  constructor
  · intro h
    refine Nat.le_of_not_lt fun hlt => ?_
    have := h 48 (by decide) hlt
    rw [hover (Nat.le_refl 48)] at this
    exact absurd this (by decide)
  · intro hle m _ hm
    rw [hover (by omega)]
    exact decide_eq_false (by omega)

end Mlfq

end OsNetworks.Xv6
