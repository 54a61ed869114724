/-
Fairness of CFS among processes that are RUNNABLE whenever they are not running:
rounds in which the scheduler picks the least `vruntime` and charges it when the
process has run. They are iterations without the log, at which an iteration
panics.
-/
import OsNetworks.Lib.Runs
import OsNetworks.Xv6.Cfs

namespace OsNetworks.Xv6.Cfs
open OsNetworks.Runs OsNetworks.Locks OsNetworks.Selection

/-- How long the process that is picked runs, and its weight when it is charged. -/
structure Turn where
  elapsed : UInt64
  weight : UInt64
  weight_pos : 0 < weight

/-- `(elapsed * 1024) / min_proc->weight` -/
def Turn.charge (t : Turn) : UInt64 := t.elapsed * 1024 / t.weight

/-- What the process does to its entry until it has yielded. -/
def Turn.runs (t : Turn) (p : Proc) : Proc :=
  { p with state := .runnable, runtime := p.runtime + t.elapsed, weight := t.weight }

/-- `iteration` without the log -/
def quietIteration (t : Turn) (count : Nat) : Kernel Unit := do
  let m ← findMin count
  match m.minProc with
  | none => return
  | some p =>
    setEntry p fun q => { q with state := .running }
    let q ← entry p
    setEntry p t.runs
    fromSwtch p q.runtime

/-- The table after a round. -/
def afterRound (procs : List Proc) (t : Turn) : List Proc :=
  match minVruntime procs with
  | none => procs
  | some b => procs.modify b.2 fun p => (t.runs p).charged p.runtime

/-- A round takes the table to `afterRound`, and all locks are free again. -/
theorem run_quietIteration (t : Turn) (procs : List Proc) :
    (quietIteration t procs.length).run ⟨procs, []⟩ = .ok ((), ⟨afterRound procs t, []⟩) := by
  unfold quietIteration
  rw [run_bind_ok (run_findMin procs)]
  cases hmin : minVruntime procs with
  | none =>
    rw [afterRound, hmin]
    rfl
  | some b =>
    have hb := (minVruntime_some hmin).1
    have hfirst (f : Proc → Proc) : (setEntry b.2 f).run ⟨procs, [b.2]⟩ = .ok ((), ⟨procs.modify b.2 f, [b.2]⟩) := rfl
    have hset (f g : Proc → Proc) :
        (setEntry b.2 g).run ⟨procs.modify b.2 f, [b.2]⟩ = .ok ((), ⟨procs.modify b.2 (g ∘ f), [b.2]⟩) := by
      rw [← List.modify_modify_eq]
      rfl
    have hentry (f : Proc → Proc) :
        (entry b.2).run ⟨procs.modify b.2 f, [b.2]⟩ = .ok (f b.1, ⟨procs.modify b.2 f, [b.2]⟩) :=
      run_entry (by simp [hb])
    have hkeeping : keeping procs (some b) = ⟨procs, [b.2]⟩ := rfl
    have htable : procs.modify b.2 ((fun q => q.charged b.1.runtime) ∘ t.runs ∘ fun q => { q with state := .running }) =
        afterRound procs t := by
      rw [afterRound, hmin]
      refine List.ext_getElem? fun i => ?_
      rw [getElem?_modify_of, getElem?_modify_of]
      by_cases hi : b.2 = i
      · simp [← hi, hb, Turn.runs]
      · simp [hi]
    simp only [MinScan.of, Option.map_some, hkeeping]
    rw [run_bind_ok (hfirst _), run_bind_ok (hentry _), run_bind_ok (hset _ _), fromSwtch, run_bind_ok (hset _ _)]
    refine (run_release List.mem_cons_self).trans ?_
    simp only [List.erase_cons_head]
    rw [← htable]

/-! ## Fair shares -/

/-- The table, and the largest charge so far. -/
structure Ledger where
  procs : List Proc
  largest : Nat := 0

def Ledger.step (l : Ledger) (t : Turn) : Ledger where
  procs := afterRound l.procs t
  largest := if minVruntime l.procs = none then l.largest else max l.largest t.charge.toNat

/-- `proc[i].vruntime` -/
def vruntimeOf (procs : List Proc) (i : Nat) : Nat := (procs.getD i {}).vruntime.toNat

/-- The charge is computed without overflow, and so is the new `vruntime`. -/
def Fits (l : Ledger) (t : Turn) : Prop :=
  t.elapsed.toNat * 1024 < UInt64.size ∧ ∀ b ∈ minVruntime l.procs, b.1.vruntime.toNat + t.charge.toNat < UInt64.size

/-- The processes that are RUNNABLE are as `allocproc` has left them. -/
def Fresh (procs : List Proc) : Prop :=
  ∀ p ∈ procs, p.state = .runnable → ∃ q pid ticks, p = (Proc.allocated q pid ticks).ready

/-- The processes that are RUNNABLE have had their shares, up to the largest charge. -/
def Ledger.Fair (l : Ledger) : Prop :=
  Balanced (fun i => stateOf l.procs i = .runnable) (vruntimeOf l.procs) l.largest

theorem getD_afterRound {procs : List Proc} {b : Proc × Nat} (hmin : minVruntime procs = some b) (t : Turn) (i : Nat) :
    (afterRound procs t).getD i {} = if b.2 = i then (t.runs b.1).charged b.1.runtime else procs.getD i {} := by
  have hb := (minVruntime_some hmin).1
  rw [afterRound, hmin]
  dsimp only
  rw [getD_modify _ (List.getElem?_eq_some_iff.mp hb).1]
  split
  next hi =>
    rw [← hi, List.getD_eq_getElem?_getD, hb]
    rfl
  next => rfl

/-- What is charged is the time for which the process has run, by its weight. -/
theorem charged_runs {p : Proc} {t : Turn} (hfits : p.vruntime.toNat + t.charge.toNat < UInt64.size) :
    ((t.runs p).charged p.runtime).vruntime.toNat = p.vruntime.toNat + t.charge.toNat := by
  have helapsed : p.runtime + t.elapsed - p.runtime = t.elapsed := by
    rw [UInt64.add_comm, UInt64.add_sub_cancel]
  show (p.vruntime + (p.runtime + t.elapsed - p.runtime) * 1024 / t.weight).toNat = _
  rw [helapsed, UInt64.toNat_add]
  exact Nat.mod_eq_of_lt hfits

theorem Ledger.Fair.step {l : Ledger} (h : l.Fair) {t : Turn} (hfits : Fits l t) : (l.step t).Fair := by
  cases hmin : minVruntime l.procs with
  | none =>
    have hsame : l.step t = l := by simp [Ledger.step, afterRound, hmin]
    rwa [hsame]
  | some b =>
    obtain ⟨hb, q, hq, hrun, hleast⟩ := minVruntime_some hmin
    obtain rfl : b.1 = q := Option.some.inj (hb.symm.trans hq)
    have hstate (i : Nat) : stateOf (l.step t).procs i = .runnable ↔ stateOf l.procs i = .runnable := by
      rw [stateOf, Ledger.step, getD_afterRound hmin]
      split
      next hi =>
        subst hi
        exact iff_of_true rfl ((stateOf_of_getElem? hb).trans hrun)
      next => rfl
    have hold : vruntimeOf l.procs b.2 = b.1.vruntime.toNat := by
      rw [vruntimeOf, List.getD_eq_getElem?_getD, hb, Option.getD_some]
    have hlargest : (l.step t).largest = max l.largest t.charge.toNat := if_neg (by simp [hmin])
    unfold Ledger.Fair at h ⊢
    simp only [hstate, hlargest]
    refine h.add (i := b.2) (fun j hj => ?_) ?_ fun j hj => ?_
    · obtain ⟨r, hr, hrstate⟩ := getElem?_of_runnable hj
      rw [hold, vruntimeOf, List.getD_eq_getElem?_getD, hr]
      rcases hleast j r hr hrstate with hlt | ⟨heq, -⟩
      · exact (UInt64.lt_iff_toNat_lt.mp hlt).le
      · exact (congrArg UInt64.toNat heq).le
    · rw [hold, vruntimeOf, Ledger.step, getD_afterRound hmin, if_pos rfl]
      exact charged_runs (hfits.2 b hmin)
    · rw [vruntimeOf, Ledger.step, getD_afterRound hmin, if_neg hj.symm]
      rfl

theorem fair_of_fresh {procs : List Proc} (h : Fresh procs) : Ledger.Fair { procs } := by
  have hzero {i : Nat} (hi : stateOf procs i = .runnable) : vruntimeOf procs i = 0 := by
    obtain ⟨p, hp, hstate⟩ := getElem?_of_runnable hi
    obtain ⟨q, pid, ticks, rfl⟩ := h p (List.mem_of_getElem? hp) hstate
    rw [vruntimeOf, List.getD_eq_getElem?_getD, hp]
    rfl
  intro i j hi hj
  rw [hzero hi, hzero hj]
  exact Nat.zero_le _

/-- **Fairness.** After any rounds, the `vruntime`s of two processes differ by no more than the largest
charge made. -/
theorem vruntime_le {procs : List Proc} (hstart : Fresh procs) {turns : List Turn}
    (hfits : Along Ledger.step Fits { procs } turns) {i j : Nat}
    (hi : stateOf (run Ledger.step { procs } turns).procs i = .runnable)
    (hj : stateOf (run Ledger.step { procs } turns).procs j = .runnable) :
    vruntimeOf (run Ledger.step { procs } turns).procs i ≤
      vruntimeOf (run Ledger.step { procs } turns).procs j + (run Ledger.step { procs } turns).largest :=
  run_inv_along (I := Ledger.Fair) (fun _ _ h hfits => h.step hfits) (fair_of_fresh hstart) hfits i j hi hj

/-- Two processes as they are created. -/
def twoFresh : List Proc := [(Proc.allocated {} 1 0).ready, (Proc.allocated {} 2 0).ready]

/-- The first runs for 10 ticks, and then the second with half its weight for 3. -/
def twoTurns : List Turn := [⟨10, 1024, by decide⟩, ⟨3, 512, by decide⟩]

theorem vruntime_le_two :
    vruntimeOf (run Ledger.step { procs := twoFresh } twoTurns).procs 0 ≤
      vruntimeOf (run Ledger.step { procs := twoFresh } twoTurns).procs 1 +
        (run Ledger.step { procs := twoFresh } twoTurns).largest := by
  have hfresh : Fresh twoFresh := by
    intro p hp _
    rcases List.mem_cons.mp hp with rfl | hp
    · exact ⟨{}, 1, 0, rfl⟩
    · obtain rfl := List.mem_singleton.mp hp
      exact ⟨{}, 2, 0, rfl⟩
  have hfits : Along Ledger.step Fits { procs := twoFresh } twoTurns :=
    ⟨⟨by decide, by decide +kernel⟩, ⟨by decide, by decide +kernel⟩, trivial⟩
  exact vruntime_le hfresh hfits (by decide +kernel) (by decide +kernel)

end OsNetworks.Xv6.Cfs
