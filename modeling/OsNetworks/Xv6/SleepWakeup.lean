/-
`sleep` and `wakeup` lock by lock, under the code of any monitor: the processes
hold its lock `lk` whenever they look at its data, call `sleep` and call
`wakeup`. A step is one acquire or release, or what is done between the two, and
steps of different processes come in any order. Schedulers of any number of CPUs
look at the processes that do not run, and `kkill` may wake any process.

However the steps come, `sleep` and `wakeup` show as if they were done at once.
A process that is preempted takes no steps for a while, and is then RUNNABLE,
which neither function looks at; so preemption is left out.
-/
import OsNetworks.Lib.Monitor
import OsNetworks.Lib.Refinement
import OsNetworks.Xv6.Proc

namespace OsNetworks.Xv6.SleepWakeup
open OsNetworks.Monitor OsNetworks.Runs

/-- Where a process is. It goes on from `l`. -/
inductive Pc (n : Nat) (τ χ : Type) where
  | outside (l : τ)
  /-- between the statements of the monitor, with `lk` -/
  | inside (l : τ)
  /-- in `sleep`, about to acquire `p->lock` -/
  | sleep (c : χ) (l : τ)
  /-- about to release `lk` -/
  | sleepLocked (c : χ) (l : τ)
  /-- about to set `p->chan` and `p->state` -/
  | sleepReleased (c : χ) (l : τ)
  /-- in `sched`, and the scheduler of its CPU is about to release `p->lock` -/
  | sched (l : τ)
  | off (l : τ)
  /-- `sched` has returned -/
  | resumed (l : τ)
  /-- about to acquire `lk` -/
  | reacquire (l : τ)
  /-- in the loop of `wakeup`, about to look at the entry `i` -/
  | wakeup (c : χ) (i : Nat) (l : τ)
  /-- with the lock of the entry `i` -/
  | waking (c : χ) (i : Fin n) (l : τ)

/-- Who holds the lock of a process. -/
inductive Holder (n : Nat) where
  | proc (p : Fin n)
  | scheduler
  | kkill
  deriving DecidableEq

/-- `NPROC` is `n`. -/
structure Machine (n : Nat) (σ τ χ : Type) where
  /-- what `lk` guards -/
  data : σ
  lk : Option (Fin n) := none
  state : Fin n → ProcState := fun _ => .running
  chan : Fin n → Option χ := fun _ => none
  /-- `p->lock` -/
  lock : Fin n → Option (Holder n) := fun _ => none
  pc : Fin n → Pc n τ χ

inductive Act (n : Nat) (ι : Type) where
  | go (p : Fin n) (i : ι)
  /-- the loop of a scheduler comes to the entry -/
  | scheduler (q : Fin n)
  | kkill (q : Fin n)

section
variable {n : Nat} {ι σ τ χ : Type}

namespace Machine

def goto (s : Machine n σ τ χ) (p : Fin n) (pc : Pc n τ χ) : Machine n σ τ χ := { s with pc := Function.update s.pc p pc }

/-- `acquire(lk)` -/
def acquireLk (s : Machine n σ τ χ) (p : Fin n) (pc : Pc n τ χ) : Machine n σ τ χ :=
  if s.lk.isNone then { s.goto p pc with lk := some p } else s

/-- `release(lk)` -/
def releaseLk (s : Machine n σ τ χ) (p : Fin n) (pc : Pc n τ χ) : Machine n σ τ χ := { s.goto p pc with lk := none }

/-- `acquire` of the lock of `q` -/
def acquire (s : Machine n σ τ χ) (q : Fin n) (h : Holder n) : Machine n σ τ χ :=
  { s with lock := Function.update s.lock q (some h) }

def release (s : Machine n σ τ χ) (q : Fin n) : Machine n σ τ χ := { s with lock := Function.update s.lock q none }

def setState (s : Machine n σ τ χ) (q : Fin n) (state : ProcState) : Machine n σ τ χ :=
  { s with state := Function.update s.state q state }

def setChan (s : Machine n σ τ χ) (q : Fin n) (chan : Option χ) : Machine n σ τ χ :=
  { s with chan := Function.update s.chan q chan }

end Machine

/-! ## The locks -/

/-- The process has `lk`. -/
def Pc.hasLk : Pc n τ χ → Prop
  | .inside _ | .sleep _ _ | .sleepLocked _ _ | .wakeup _ _ _ | .waking _ _ _ => True
  | _ => False

/-- The lock of a process that `p` has. -/
def Pc.locks (p : Fin n) : Pc n τ χ → Option (Fin n)
  | .sleepLocked _ _ | .sleepReleased _ _ | .sched _ | .resumed _ => some p
  | .waking _ i _ => some i
  | _ => none

structure Inv (s : Machine n σ τ χ) : Prop where
  lk : ∀ p, s.lk = some p ↔ (s.pc p).hasLk
  lock : ∀ q p, s.lock q = some (.proc p) ↔ (s.pc p).locks p = some q
  sleeping : ∀ q, s.state q = .sleeping → s.chan q ≠ none ∧ ∃ l, s.pc q = .sched l ∨ s.pc q = .off l
  sched : ∀ q l, s.pc q = .sched l → s.state q = .sleeping

variable {s t : Machine n σ τ χ} {p q : Fin n} {pc : Pc n τ χ}

theorem lk_same (hs : Inv s) (hpc : pc.hasLk ↔ (s.pc p).hasLk) (q : Fin n) :
    s.lk = some q ↔ (Function.update s.pc p pc q).hasLk := by
  by_cases hq : q = p
  · subst hq
    rw [Function.update_self, hs.lk, hpc]
  · rw [Function.update_of_ne hq, hs.lk]

theorem lk_acquired (hs : Inv s) (hfree : s.lk = none) (hpc : pc.hasLk) (q : Fin n) :
    some p = some q ↔ (Function.update s.pc p pc q).hasLk := by
  by_cases hq : q = p
  · subst hq
    rw [Function.update_self]
    exact iff_of_true rfl hpc
  · rw [Function.update_of_ne hq, ← hs.lk, hfree]
    exact iff_of_false (fun heq => hq (Option.some.inj heq).symm) nofun

theorem lk_released (hs : Inv s) (hold : (s.pc p).hasLk) (hpc : ¬ pc.hasLk) (q : Fin n) :
    none = some q ↔ (Function.update s.pc p pc q).hasLk := by
  by_cases hq : q = p
  · subst hq
    rw [Function.update_self]
    exact iff_of_false nofun hpc
  · rw [Function.update_of_ne hq, ← hs.lk, (hs.lk p).mpr hold]
    exact iff_of_false nofun fun heq => hq (Option.some.inj heq).symm

theorem lock_same (hs : Inv s) (hpc : pc.locks p = (s.pc p).locks p) (q r : Fin n) :
    s.lock q = some (.proc r) ↔ (Function.update s.pc p pc r).locks r = some q := by
  by_cases hr : r = p
  · subst hr
    rw [Function.update_self, hs.lock, hpc]
  · rw [Function.update_of_ne hr, hs.lock]

/-- A process gets a lock that no process had. -/
theorem lock_acquired (hs : Inv s) (hfree : ∀ r, s.lock q ≠ some (.proc r)) (hold : (s.pc p).locks p = none)
    (hpc : pc.locks p = some q) (r u : Fin n) :
    Function.update s.lock q (some (.proc p)) r = some (.proc u) ↔ (Function.update s.pc p pc u).locks u = some r := by
  by_cases hu : u = p
  · subst hu
    rw [Function.update_self, hpc]
    by_cases hr : r = q
    · subst hr
      rw [Function.update_self]
      exact iff_of_true rfl rfl
    · rw [Function.update_of_ne hr, hs.lock, hold]
      exact iff_of_false nofun fun heq => hr (Option.some.inj heq).symm
  · rw [Function.update_of_ne hu]
    by_cases hr : r = q
    · subst hr
      rw [Function.update_self, ← hs.lock]
      exact iff_of_false (fun heq => hu (Holder.proc.inj (Option.some.inj heq)).symm) (hfree u)
    · rw [Function.update_of_ne hr, hs.lock]

theorem lock_released (hs : Inv s) (hold : (s.pc p).locks p = some q) (hpc : pc.locks p = none) (r u : Fin n) :
    Function.update s.lock q none r = some (.proc u) ↔ (Function.update s.pc p pc u).locks u = some r := by
  have hlock := (hs.lock q p).mpr hold
  by_cases hu : u = p
  · subst hu
    rw [Function.update_self, hpc]
    refine iff_of_false (fun heq => ?_) nofun
    by_cases hr : r = q
    · subst hr
      rw [Function.update_self] at heq
      cases heq
    · rw [Function.update_of_ne hr, hs.lock, hold] at heq
      exact hr (Option.some.inj heq).symm
  · rw [Function.update_of_ne hu]
    by_cases hr : r = q
    · subst hr
      rw [Function.update_self, ← hs.lock, hlock]
      exact iff_of_false nofun fun heq => hu (Holder.proc.inj (Option.some.inj heq)).symm
    · rw [Function.update_of_ne hr, hs.lock]

/-- Who is no process gets or gives up a lock that no process has. -/
theorem lock_others (hs : Inv s) (hfree : ∀ r, s.lock q ≠ some (.proc r)) {new : Option (Holder n)}
    (hnew : ∀ r, new ≠ some (.proc r)) (r u : Fin n) :
    Function.update s.lock q new r = some (.proc u) ↔ (s.pc u).locks u = some r := by
  by_cases hr : r = q
  · subst hr
    rw [Function.update_self, ← hs.lock]
    exact iff_of_false (hnew u) (hfree u)
  · rw [Function.update_of_ne hr, hs.lock]

/-- A process that goes on is not asleep. -/
theorem Inv.awake (hs : Inv s) (hpc : ∀ l, s.pc p ≠ .sched l ∧ s.pc p ≠ .off l) : s.state p ≠ .sleeping := fun hp => by
  obtain ⟨-, l, hl | hl⟩ := hs.sleeping p hp
  · exact (hpc l).1 hl
  · exact (hpc l).2 hl

/-- A process that is not asleep moves on. -/
theorem Inv.move (hs : Inv s) (hold : ∀ l, s.pc p ≠ .sched l ∧ s.pc p ≠ .off l) (hnew : ∀ l, pc ≠ .sched l)
    (hpc : t.pc = Function.update s.pc p pc) (hlk : ∀ q, t.lk = some q ↔ (Function.update s.pc p pc q).hasLk)
    (hlock : ∀ q r, t.lock q = some (.proc r) ↔ (Function.update s.pc p pc r).locks r = some q)
    (hstate : t.state = s.state) (hchan : ∀ q, q ≠ p → t.chan q = s.chan q) : Inv t := by
  refine ⟨?_, ?_, fun q hq => ?_, fun q l hq => ?_⟩
  · rw [hpc]
    exact hlk
  · rw [hpc]
    exact hlock
  · rw [hstate] at hq
    have hne : q ≠ p := fun heq => hs.awake hold (heq ▸ hq)
    rw [hpc, hchan q hne, Function.update_of_ne hne]
    exact hs.sleeping q hq
  · rw [hpc] at hq
    rw [hstate]
    by_cases hqp : q = p
    · subst hqp
      rw [Function.update_self] at hq
      exact absurd hq (hnew l)
    · rw [Function.update_of_ne hqp] at hq
      exact hs.sched q l hq

/-- A lock that no process has is taken, or given up. -/
theorem Inv.others (hs : Inv s) (hfree : ∀ r, s.lock q ≠ some (.proc r)) {new : Option (Holder n)}
    (hnew : ∀ r, new ≠ some (.proc r)) : Inv { s with lock := Function.update s.lock q new } :=
  ⟨hs.lk, lock_others hs hfree hnew, hs.sleeping, hs.sched⟩

/-! ## The steps -/

section
variable [DecidableEq χ]

namespace Machine

/-- A process takes its next step. -/
def go (m : Program ι σ τ χ) (s : Machine n σ τ χ) (p : Fin n) (i : ι) : Machine n σ τ χ :=
  match s.pc p with
  | .outside l => s.acquireLk p (.inside (m.enter i l))
  | .inside l =>
    match m.body i s.data l with
    | .go d l => { s.goto p (.inside l) with data := d }
    | .wake c l => s.goto p (.wakeup c 0 l)
    | .sleep c l => s.goto p (.sleep c l)
    | .leave l => s.releaseLk p (.outside l)
  | .sleep c l => if (s.lock p).isNone then (s.acquire p (.proc p)).goto p (.sleepLocked c l) else s
  | .sleepLocked c l => s.releaseLk p (.sleepReleased c l)
  | .sleepReleased c l => ((s.setChan p (some c)).setState p .sleeping).goto p (.sched l)
  | .sched l => (s.release p).goto p (.off l)
  | .off _ => s
  | .resumed l => ((s.setChan p none).release p).goto p (.reacquire l)
  | .reacquire l => s.acquireLk p (.inside l)
  | .wakeup c i l =>
    if h : i < n then
      if i = p then s.goto p (.wakeup c (i + 1) l)
      else if (s.lock ⟨i, h⟩).isNone then (s.acquire ⟨i, h⟩ (.proc p)).goto p (.waking c ⟨i, h⟩ l)
      else s
    else s.goto p (.inside l)
  | .waking c i l =>
    let woken := if s.state i = .sleeping ∧ s.chan i = some c then s.setState i .runnable else s
    (woken.release i).goto p (.wakeup c (i + 1) l)

def step (m : Program ι σ τ χ) (s : Machine n σ τ χ) : Act n ι → Machine n σ τ χ
  | .go p i => s.go m p i
  | .scheduler q =>
    match s.lock q with
    | none => s.acquire q .scheduler
    | some .scheduler =>
      match s.state q, s.pc q with
      | .runnable, .off l => ((s.setState q .running).acquire q (.proc q)).goto q (.resumed l)
      | _, _ => s.release q
    | _ => s
  | .kkill q =>
    match s.lock q with
    | none => s.acquire q .kkill
    | some .kkill => (if s.state q = .sleeping then s.setState q .runnable else s).release q
    | _ => s

end Machine

/-! ## As if done at once -/

/-- The channel that is being woken, and how far `wakeup` has come. -/
def Pc.waker : Pc n τ χ → Option (χ × Nat)
  | .wakeup c i _ => some (c, i)
  | .waking c i _ => some (c, i)
  | _ => none

def Machine.waker (s : Machine n σ τ χ) : Option (χ × Nat) := s.lk.bind fun p => (s.pc p).waker

/-- A process asleep on `c`, unless `wakeup` is still to come to it. -/
def dozing (w : Option (χ × Nat)) (q : Fin n) (c : χ) (l : τ) : Place τ χ :=
  match w with
  | some (c', i) => if c' = c ∧ i ≤ q then .woken l else .asleep c l
  | none => .asleep c l

def placeOf (w : Option (χ × Nat)) (q : Fin n) (state : ProcState) (chan : Option χ) : Pc n τ χ → Place τ χ
  | .outside l => .outside l
  | .inside l | .wakeup _ _ l | .waking _ _ l => .inside l
  | .sleep c l | .sleepLocked c l => .asleep c l
  | .sleepReleased c l => dozing w q c l
  | .sched l | .off l =>
    match state, chan with
    | .sleeping, some c => dozing w q c l
    | _, _ => .woken l
  | .resumed l | .reacquire l => .woken l

/-- A process in `sleep` shows as without the lock. -/
def Pc.shows : Pc n τ χ → Bool
  | .sleep _ _ | .sleepLocked _ _ => false
  | _ => true

def view (s : Machine n σ τ χ) : State (Fin n) σ τ χ where
  data := s.data
  lock := s.lk.filter fun p => (s.pc p).shows
  place q := placeOf s.waker q (s.state q) (s.chan q) (s.pc q)

/-- What a step shows as. -/
def label (s : Machine n σ τ χ) : Act n ι → Option (Event (Fin n) ι)
  | .go p i =>
    match s.pc p with
    | .outside _ | .reacquire _ => if s.lk.isNone then some (.go p i) else none
    | .inside _ => some (.go p i)
    | _ => none
  | .scheduler _ => none
  | .kkill q => if s.lock q = some .kkill ∧ s.state q = .sleeping then some (.rouse q) else none

variable {m : Program ι σ τ χ}

theorem view_holder (hlk : s.lk = some p) : view s =
    ⟨s.data, if (s.pc p).shows then some p else none,
      fun q => placeOf (s.pc p).waker q (s.state q) (s.chan q) (s.pc q)⟩ := by
  simp only [view, Machine.waker, hlk, Option.filter_some, Option.bind_some]

theorem view_free (hlk : s.lk = none) : view s =
    ⟨s.data, none, fun q => placeOf none q (s.state q) (s.chan q) (s.pc q)⟩ := by
  simp only [view, Machine.waker, hlk, Option.filter_none, Option.bind_none]

/-- A process without `lk` moves to where it shows the same. -/
theorem view_same (hlk : s.lk ≠ some p) (hdata : t.data = s.data) (hlk' : t.lk = s.lk)
    (hpc : t.pc = Function.update s.pc p pc) (hothers : ∀ q, q ≠ p → t.state q = s.state q ∧ t.chan q = s.chan q)
    (hsame : placeOf s.waker p (t.state p) (t.chan p) pc = placeOf s.waker p (s.state p) (s.chan p) (s.pc p)) :
    view t = view s := by
  have hplace (q : Fin n) : placeOf s.waker q (t.state q) (t.chan q) (t.pc q) =
      placeOf s.waker q (s.state q) (s.chan q) (s.pc q) := by
    by_cases hq : q = p
    · subst hq
      rw [hpc, Function.update_self, hsame]
    · rw [hpc, Function.update_of_ne hq, (hothers q hq).1, (hothers q hq).2]
  cases hfree : s.lk with
  | none =>
    have hwaker : s.waker = none := by simp only [Machine.waker, hfree, Option.bind_none]
    rw [hwaker] at hplace
    rw [view_free hfree, view_free (hlk'.trans hfree), hdata]
    simp only [hplace]
  | some r =>
    have hr : r ≠ p := fun heq => hlk (heq ▸ hfree)
    have hwaker : s.waker = (s.pc r).waker := by simp only [Machine.waker, hfree, Option.bind_some]
    have hholder : t.pc r = s.pc r := by rw [hpc, Function.update_of_ne hr]
    rw [hwaker] at hplace
    rw [view_holder hfree, view_holder (hlk'.trans hfree), hdata, hholder]
    simp only [hplace]

/-- A process comes in, or back from `sleep`. -/
theorem acquireLk_keeps (hs : Inv s) {l : τ} (i : ι) (hp : ∀ l, s.pc p ≠ .sched l ∧ s.pc p ≠ .off l)
    (hlock : (s.pc p).locks p = none) (htake : (view s).step m (.go p i) = (view s).take p l) :
    Inv (s.acquireLk p (.inside l)) ∧ view (s.acquireLk p (.inside l)) =
      (if s.lk.isNone then some (.go p i) else none).elim (view s) ((view s).step m) := by
  unfold Machine.acquireLk
  cases hfree : s.lk with
  | some q => exact ⟨hs, rfl⟩
  | none =>
    refine ⟨hs.move hp (by simp) rfl (lk_acquired hs hfree trivial) (lock_same hs hlock.symm) rfl fun _ _ => rfl, ?_⟩
    simp only [Option.isNone_none, if_true, Option.elim_some, htake]
    rw [view_holder (p := p) rfl, view_free hfree]
    simp only [Machine.goto, Function.update_self, Pc.shows, if_true, Pc.waker, State.take, Option.isNone_none, State.goto]
    refine State.ext rfl rfl (funext fun q => ?_)
    by_cases hq : q = p
    · subst hq
      simp only [Function.update_self, placeOf]
    · simp only [Function.update_of_ne hq]

/-- `wakeup` shows as done once it begins. -/
theorem placeOf_wake (c : χ) (q : Fin n) (state : ProcState) (chan : Option χ) (pc : Pc n τ χ)
    (hpc : ∀ c l, pc ≠ .sleep c l ∧ pc ≠ .sleepLocked c l) :
    placeOf (some (c, 0)) q state chan pc = (placeOf none q state chan pc).wake c := by
  have hdozing (c' : χ) (l : τ) : dozing (some (c, 0)) q c' l = (dozing none q c' l).wake c := by
    simp only [dozing, Nat.zero_le, and_true, Place.wake, eq_comm]
  cases pc with
  | sleep c l => exact absurd rfl (hpc c l).1
  | sleepLocked c l => exact absurd rfl (hpc c l).2
  | sleepReleased c l => exact hdozing c l
  | sched l | off l =>
    simp only [placeOf]
    split
    · exact hdozing _ _
    · rfl
  | _ => rfl

theorem body_keeps (hs : Inv s) {l : τ} (hp : s.pc p = .inside l) (i : ι) :
    Inv (s.go m p i) ∧ view (s.go m p i) = (view s).step m (.go p i) := by
  have hlk : s.lk = some p := (hs.lk p).mpr (by rw [hp]; trivial)
  have hold : ∀ l, s.pc p ≠ .sched l ∧ s.pc p ≠ .off l := by simp [hp]
  have hstep : (view s).step m (.go p i) = (view s).move p (m.body i s.data l) := by
    simp only [State.step, view, hp, placeOf]
  have hview : view s = ⟨s.data, some p, fun q => placeOf none q (s.state q) (s.chan q) (s.pc q)⟩ := by
    rw [view_holder hlk, hp]
    rfl
  rw [hstep, hview]
  simp only [Machine.go, hp]
  cases m.body i s.data l with
  | go d l' =>
    refine ⟨hs.move hold (by simp) rfl (lk_same hs (by simp [hp, Pc.hasLk])) (lock_same hs (by rw [hp]; rfl)) rfl
      fun _ _ => rfl, Eq.trans (view_holder (p := p) hlk) ?_⟩
    simp only [Machine.goto, Function.update_self, Pc.shows, if_true, Pc.waker, State.move, State.goto]
    refine State.ext rfl rfl (funext fun q => ?_)
    by_cases hq : q = p
    · subst hq
      simp only [Function.update_self, placeOf]
    · simp only [Function.update_of_ne hq]
  | wake c l' =>
    refine ⟨hs.move hold (by simp) rfl (lk_same hs (by simp [hp, Pc.hasLk])) (lock_same hs (by rw [hp]; rfl)) rfl
      fun _ _ => rfl, Eq.trans (view_holder (p := p) hlk) ?_⟩
    simp only [Machine.goto, Function.update_self, Pc.shows, if_true, Pc.waker, State.move, State.wakeAll, State.goto]
    refine State.ext rfl rfl (funext fun q => ?_)
    by_cases hq : q = p
    · subst hq
      simp only [Function.update_self, placeOf]
    · simp only [Function.update_of_ne hq]
      refine placeOf_wake c q _ _ _ fun c' l₂ => ⟨fun hpc => hq ?_, fun hpc => hq ?_⟩
      · exact Option.some.inj (((hs.lk q).mpr (by rw [hpc]; trivial)).symm.trans hlk)
      · exact Option.some.inj (((hs.lk q).mpr (by rw [hpc]; trivial)).symm.trans hlk)
  | sleep c l' =>
    refine ⟨hs.move hold (by simp) rfl (lk_same hs (by simp [hp, Pc.hasLk])) (lock_same hs (by rw [hp]; rfl)) rfl
      fun _ _ => rfl, Eq.trans (view_holder (p := p) hlk) ?_⟩
    simp only [Machine.goto, Function.update_self, Pc.shows, Pc.waker, State.move, State.goto]
    refine State.ext rfl rfl (funext fun q => ?_)
    by_cases hq : q = p
    · subst hq
      simp only [Function.update_self, placeOf]
    · simp only [Function.update_of_ne hq]
  | leave l' =>
    refine ⟨hs.move hold (by simp) rfl (lk_released hs (by rw [hp]; trivial) (by simp [Pc.hasLk]))
      (lock_same hs (by rw [hp]; rfl)) rfl fun _ _ => rfl, Eq.trans (view_free rfl) ?_⟩
    simp only [Machine.releaseLk, Machine.goto, State.move, State.goto]
    refine State.ext rfl rfl (funext fun q => ?_)
    by_cases hq : q = p
    · subst hq
      simp only [Function.update_self, placeOf]
    · simp only [Function.update_of_ne hq]

/-- The holder of `lk` moves to where it shows the same. -/
theorem view_holder_same (hlk : s.lk = some p) (hdata : t.data = s.data) (hlk' : t.lk = some p)
    (hpc : t.pc = Function.update s.pc p pc) (hshows : pc.shows = (s.pc p).shows)
    (hplace : placeOf pc.waker p (t.state p) (t.chan p) pc = placeOf (s.pc p).waker p (s.state p) (s.chan p) (s.pc p))
    (hothers : ∀ q, q ≠ p → placeOf pc.waker q (t.state q) (t.chan q) (s.pc q) =
      placeOf (s.pc p).waker q (s.state q) (s.chan q) (s.pc q)) : view t = view s := by
  rw [view_holder hlk, view_holder hlk', hpc, Function.update_self, hshows, hdata]
  refine State.ext rfl rfl (funext fun q => ?_)
  by_cases hq : q = p
  · subst hq
    simp only [Function.update_self, hplace]
  · simp only [Function.update_of_ne hq, hothers q hq]

/-- The first half of `sleep`, up to `sched`. -/
theorem sleep_keeps (hs : Inv s) {c : χ} {l : τ}
    (hp : s.pc p = .sleep c l ∨ s.pc p = .sleepLocked c l ∨ s.pc p = .sleepReleased c l) (i : ι) :
    Inv (s.go m p i) ∧ view (s.go m p i) = view s := by
  rcases hp with hp | hp | hp
  · simp only [Machine.go, hp]
    split
    next hfree =>
      have hlk : s.lk = some p := (hs.lk p).mpr (by rw [hp]; trivial)
      have hnone : s.lock p = none := Option.isNone_iff_eq_none.mp hfree
      refine ⟨hs.move (by simp [hp]) (by simp) rfl (lk_same hs (by simp [hp, Pc.hasLk]))
        (lock_acquired hs (by simp [hnone]) (by rw [hp]; rfl) rfl) rfl fun _ _ => rfl, ?_⟩
      refine view_holder_same hlk rfl hlk rfl (by rw [hp]; rfl) (by rw [hp]; rfl) fun q _ => by rw [hp]; rfl
    · exact ⟨hs, rfl⟩
  · have hlk : s.lk = some p := (hs.lk p).mpr (by rw [hp]; trivial)
    simp only [Machine.go, hp]
    refine ⟨hs.move (by simp [hp]) (by simp) rfl (lk_released hs (by rw [hp]; trivial) (by simp [Pc.hasLk]))
      (lock_same hs (by rw [hp]; rfl)) rfl fun _ _ => rfl, ?_⟩
    rw [view_holder hlk, hp]
    refine Eq.trans (view_free rfl) (State.ext rfl rfl (funext fun q => ?_))
    simp only [Machine.releaseLk, Machine.goto]
    by_cases hq : q = p
    · subst hq
      simp only [Function.update_self, hp, placeOf, dozing]
    · simp only [Function.update_of_ne hq, Pc.waker]
  · simp only [Machine.go, hp]
    have hlk : s.lk ≠ some p := fun hlk => by
      have hhas := (hs.lk p).mp hlk
      rw [hp] at hhas
      exact hhas
    refine ⟨⟨?_, ?_, fun q hq => ?_, fun q l' hq => ?_⟩, ?_⟩
    · exact lk_same hs (by simp [hp, Pc.hasLk])
    · exact lock_same hs (by rw [hp]; rfl)
    · by_cases hqp : q = p
      · subst hqp
        exact ⟨by simp [Machine.goto, Machine.setState, Machine.setChan], l, .inl (Function.update_self ..)⟩
      · simp only [Machine.goto, Machine.setState, Machine.setChan, Function.update_of_ne hqp] at hq ⊢
        exact hs.sleeping q hq
    · by_cases hqp : q = p
      · subst hqp
        exact Function.update_self ..
      · simp only [Machine.goto, Machine.setState, Machine.setChan, Function.update_of_ne hqp] at hq ⊢
        exact hs.sched q l' hq
    · refine view_same hlk rfl rfl rfl (fun q hq => ⟨Function.update_of_ne hq .., Function.update_of_ne hq ..⟩) ?_
      simp only [Machine.goto, Machine.setState, Machine.setChan, Function.update_self, hp, placeOf]

/-- The scheduler of the CPU goes on. -/
theorem sched_keeps (hs : Inv s) {l : τ} (hp : s.pc p = .sched l) (i : ι) :
    Inv (s.go m p i) ∧ view (s.go m p i) = view s := by
  simp only [Machine.go, hp]
  have hlk : s.lk ≠ some p := fun hlk => by
    have hhas := (hs.lk p).mp hlk
    rw [hp] at hhas
    exact hhas
  refine ⟨⟨?_, ?_, fun q hq => ?_, fun q l' hq => ?_⟩, ?_⟩
  · exact lk_same hs (by simp [hp, Pc.hasLk])
  · exact lock_released hs (by rw [hp]; rfl) rfl
  · obtain ⟨hchan, l', hpc⟩ := hs.sleeping q hq
    refine ⟨hchan, ?_⟩
    by_cases hqp : q = p
    · subst hqp
      exact ⟨l, .inr (Function.update_self ..)⟩
    · simp only [Machine.goto, Machine.release, Function.update_of_ne hqp]
      exact ⟨l', hpc⟩
  · by_cases hqp : q = p
    · subst hqp
      simp [Machine.goto] at hq
    · simp only [Machine.goto, Machine.release, Function.update_of_ne hqp] at hq
      exact hs.sched q l' hq
  · exact view_same hlk rfl rfl rfl (fun _ _ => ⟨rfl, rfl⟩) (by rw [hp]; rfl)

theorem resumed_keeps (hs : Inv s) {l : τ} (hp : s.pc p = .resumed l) (i : ι) :
    Inv (s.go m p i) ∧ view (s.go m p i) = view s := by
  have hlk : s.lk ≠ some p := fun hlk => by
    have hhas := (hs.lk p).mp hlk
    rw [hp] at hhas
    exact hhas
  simp only [Machine.go, hp]
  refine ⟨hs.move (by simp [hp]) (by simp) rfl (lk_same hs (by simp [hp, Pc.hasLk]))
    (lock_released (s := s) hs (by rw [hp]; rfl) rfl) rfl fun q hq => Function.update_of_ne hq .., ?_⟩
  exact view_same hlk rfl rfl rfl (fun q hq => ⟨rfl, Function.update_of_ne hq ..⟩) (by rw [hp]; rfl)

theorem placeOf_congr {w w' : Option (χ × Nat)} {state : ProcState} {chan : Option χ}
    (hreleased : ∀ c l, pc = .sleepReleased c l → dozing w q c l = dozing w' q c l)
    (hasleep : ∀ c (l : τ), state = .sleeping → chan = some c → dozing w q c l = dozing w' q c l) :
    placeOf w q state chan pc = placeOf w' q state chan pc := by
  cases pc with
  | sleepReleased c l => exact hreleased c l rfl
  | sched l | off l =>
    simp only [placeOf]
    split
    next c => exact hasleep c l rfl rfl
    · rfl
  | _ => rfl

/-- `wakeup` has come past an entry that does not sleep on the channel. -/
theorem placeOf_next {c : χ} {i : Nat} {state : ProcState} {chan : Option χ}
    (hpc : q = i → ∀ c l, pc ≠ .sleepReleased c l) (hstate : q = i → state = .sleeping → chan ≠ some c) :
    placeOf (some (c, i + 1)) q state chan pc = placeOf (some (c, i)) q state chan pc := by
  have hdozing (c' : χ) (l : τ) (hc : q = i → c ≠ c') : dozing (some (c, i + 1)) q c' l = dozing (some (c, i)) q c' l := by
    have hiff : (c = c' ∧ i + 1 ≤ q) ↔ (c = c' ∧ i ≤ q) := by
      refine and_congr_right fun heq => ?_
      have hne : (q : Nat) ≠ i := fun hq => hc hq heq
      omega
    simp only [dozing, hiff]
  exact placeOf_congr (fun c' l heq => hdozing c' l fun hq => absurd heq (hpc hq c' l))
    fun c' l hasleep hchan => hdozing c' l fun hq heq => hstate hq hasleep (heq ▸ hchan)

theorem wakeup_keeps (hs : Inv s) {c : χ} {k : Nat} {l : τ} (hp : s.pc p = .wakeup c k l) (i : ι) :
    Inv (s.go m p i) ∧ view (s.go m p i) = view s := by
  have hlk : s.lk = some p := (hs.lk p).mpr (by rw [hp]; trivial)
  have hold : ∀ l, s.pc p ≠ .sched l ∧ s.pc p ≠ .off l := by simp [hp]
  simp only [Machine.go, hp]
  split
  next hk =>
    split
    next hself =>
      refine ⟨hs.move hold (by simp) rfl (lk_same hs (by simp [hp, Pc.hasLk])) (lock_same hs (by rw [hp]; rfl)) rfl
        fun _ _ => rfl, ?_⟩
      refine view_holder_same hlk rfl hlk rfl (by rw [hp]; rfl) (by rw [hp]; rfl) fun q hq => ?_
      rw [hp]
      have hne : (q : Nat) ≠ k := fun heq => hq (Fin.ext (heq.trans hself))
      exact placeOf_next (fun heq => absurd heq hne) fun heq => absurd heq hne
    next hself =>
      split
      next hfree =>
        have hnone : s.lock ⟨k, hk⟩ = none := Option.isNone_iff_eq_none.mp hfree
        refine ⟨hs.move hold (by simp) rfl (lk_same hs (by simp [hp, Pc.hasLk]))
          (lock_acquired hs (by simp [hnone]) (by rw [hp]; rfl) rfl) rfl fun _ _ => rfl, ?_⟩
        exact view_holder_same hlk rfl hlk rfl (by rw [hp]; rfl) (by rw [hp]; rfl) fun q _ => by rw [hp]; rfl
      · exact ⟨hs, rfl⟩
  next hk =>
    refine ⟨hs.move hold (by simp) rfl (lk_same hs (by simp [hp, Pc.hasLk])) (lock_same hs (by rw [hp]; rfl)) rfl
      fun _ _ => rfl, ?_⟩
    refine view_holder_same hlk rfl hlk rfl (by rw [hp]; rfl) (by rw [hp]; rfl) fun q _ => ?_
    -- nobody is left to be woken
    have hdozing (c' : χ) (l' : τ) : dozing none q c' l' = dozing (some (c, k)) q c' l' := by
      have hpast : ¬ (c = c' ∧ k ≤ q) := fun hle => by have := q.isLt; omega
      simp only [dozing, hpast, if_false]
    rw [hp]
    exact placeOf_congr (fun c' l' _ => hdozing c' l') fun c' l' _ _ => hdozing c' l'

theorem waking_keeps (hs : Inv s) {c : χ} {k : Fin n} {l : τ} (hp : s.pc p = .waking c k l) (i : ι) :
    Inv (s.go m p i) ∧ view (s.go m p i) = view s := by
  have hlk : s.lk = some p := (hs.lk p).mpr (by rw [hp]; trivial)
  have hold : ∀ l, s.pc p ≠ .sched l ∧ s.pc p ≠ .off l := by simp [hp]
  have hlock : s.lock k = some (.proc p) := (hs.lock k p).mpr (by rw [hp]; rfl)
  -- the entry is not in the middle of `sleep`
  have hentry (hk : k ≠ p) : ∀ c l, s.pc k ≠ .sleepReleased c l ∧ s.pc k ≠ .sched l := by
    refine fun c l => ⟨fun hpc => hk ?_, fun hpc => hk ?_⟩
    · have hown := (hs.lock k k).mpr (by rw [hpc]; rfl)
      exact Holder.proc.inj (Option.some.inj (hown.symm.trans hlock))
    · have hown := (hs.lock k k).mpr (by rw [hpc]; rfl)
      exact Holder.proc.inj (Option.some.inj (hown.symm.trans hlock))
  simp only [Machine.go, hp]
  split
  next hasleep =>
    have hk : k ≠ p := fun heq => hs.awake hold (heq ▸ hasleep.1)
    refine ⟨⟨?_, ?_, fun q hq => ?_, fun q l' hq => ?_⟩, ?_⟩
    · exact lk_same hs (by simp [hp, Pc.hasLk])
    · exact lock_released (s := s) hs (by rw [hp]; rfl) rfl
    · have hqk : q ≠ k := fun heq => by
        subst heq
        simp [Machine.goto, Machine.release, Machine.setState] at hq
      have hstate : s.state q = .sleeping := (Function.update_of_ne hqk ..).symm.trans hq
      have hqp : q ≠ p := fun heq => hs.awake hold (heq ▸ hstate)
      simp only [Machine.goto, Function.update_of_ne hqp]
      exact hs.sleeping q hstate
    · have hqp : q ≠ p := fun heq => by
        subst heq
        simp [Machine.goto] at hq
      have hpc : s.pc q = .sched l' := (Function.update_of_ne hqp ..).symm.trans hq
      have hqk : q ≠ k := fun heq => (hentry hk c l').2 (heq ▸ hpc)
      exact (Function.update_of_ne hqk ..).trans (hs.sched q l' hpc)
    · refine view_holder_same hlk rfl hlk rfl (by rw [hp]; rfl) (by rw [hp]; rfl) fun q hq => ?_
      rw [hp]
      by_cases hqk : q = k
      · subst hqk
        obtain ⟨-, l', hpc⟩ := hs.sleeping q hasleep.1
        have hoff : s.pc q = .off l' := hpc.resolve_left (hentry hq c l').2
        simp only [Machine.goto, Machine.release, Machine.setState, Function.update_self, hoff, placeOf, Pc.waker,
          hasleep.1, hasleep.2, dozing, le_refl, and_self, if_true]
      · refine Eq.trans ?_ (placeOf_next (fun heq => absurd (Fin.ext heq) hqk) fun heq => absurd (Fin.ext heq) hqk)
        simp only [Machine.goto, Machine.release, Machine.setState, Function.update_of_ne hqk]
        rfl
  next hawake =>
    refine ⟨hs.move hold (by simp) rfl (lk_same hs (by simp [hp, Pc.hasLk])) (lock_released hs (by rw [hp]; rfl) rfl) rfl
      fun _ _ => rfl, ?_⟩
    refine view_holder_same hlk rfl hlk rfl (by rw [hp]; rfl) (by rw [hp]; rfl) fun q hq => ?_
    rw [hp]
    refine placeOf_next (fun heq c l => ?_) fun heq hstate hchan => ?_
    · obtain rfl := Fin.ext heq
      exact (hentry hq c l).1
    · obtain rfl := Fin.ext heq
      exact hawake ⟨hstate, hchan⟩

theorem scheduler_keeps (hs : Inv s) (q : Fin n) :
    Inv (s.step m (.scheduler q)) ∧ view (s.step m (.scheduler q)) = view s := by
  simp only [Machine.step]
  split
  next hfree => exact ⟨hs.others (by simp [hfree]) (by simp), rfl⟩
  next hlock =>
    split
    next l hstate hpc =>
      have hlk : s.lk ≠ some q := fun hlk => by
        have hhas := (hs.lk q).mp hlk
        rw [hpc] at hhas
        exact hhas
      refine ⟨⟨?_, ?_, fun r hr => ?_, fun r l' hr => ?_⟩, ?_⟩
      · exact lk_same hs (by simp [hpc, Pc.hasLk])
      · exact lock_acquired (s := s) hs (by simp [hlock]) (by rw [hpc]; rfl) rfl
      · have hrq : r ≠ q := fun heq => by
          subst heq
          simp [Machine.goto, Machine.acquire, Machine.setState] at hr
        simp only [Machine.goto, Machine.acquire, Machine.setState, Function.update_of_ne hrq] at hr ⊢
        exact hs.sleeping r hr
      · have hrq : r ≠ q := fun heq => by
          subst heq
          simp [Machine.goto] at hr
        simp only [Machine.goto, Machine.acquire, Machine.setState, Function.update_of_ne hrq] at hr ⊢
        exact hs.sched r l' hr
      · refine view_same hlk rfl rfl rfl (fun r hr => ⟨Function.update_of_ne hr .., rfl⟩) ?_
        rw [hpc]
        simp only [placeOf, hstate]
    · exact ⟨hs.others (by simp [hlock]) (by simp), rfl⟩
  · exact ⟨hs, rfl⟩

theorem dozing_rouse (w : Option (χ × Nat)) (q : Fin n) (c : χ) (l : τ) : (dozing w q c l).rouse = .woken l := by
  unfold dozing
  split
  · split <;> rfl
  · rfl

theorem kkill_keeps (hs : Inv s) (q : Fin n) : Inv (s.step m (.kkill q)) ∧
    view (s.step m (.kkill q)) = (label s (.kkill q)).elim (view s) ((view s).step m) := by
  simp only [Machine.step, label]
  split
  next hfree =>
    simp only [hfree, reduceCtorEq, false_and, if_false, Option.elim_none]
    exact ⟨hs.others (by simp [hfree]) (by simp), rfl⟩
  next hlock =>
    simp only [hlock, true_and]
    split
    next hstate =>
      obtain ⟨hchan, l, hpc⟩ := hs.sleeping q hstate
      have hoff : s.pc q = .off l := hpc.resolve_left fun hsched => by
        have hown := (hs.lock q q).mpr (by rw [hsched]; rfl)
        cases hlock.symm.trans hown
      obtain ⟨c, hc⟩ := Option.ne_none_iff_exists'.mp hchan
      have hstep : (view s).step m (.rouse q) = (view s).goto q (.woken l) := by
        have hplace : (view s).place q = dozing s.waker q c l := by
          simp only [view, hoff, placeOf, hstate, hc]
        rw [State.step, hplace, dozing_rouse]
      refine ⟨⟨hs.lk, lock_others hs (by simp [hlock]) (by simp), fun r hr => ?_, fun r l' hr => ?_⟩, ?_⟩
      · have hrq : r ≠ q := fun heq => by
          subst heq
          simp [Machine.release, Machine.setState] at hr
        exact hs.sleeping r ((Function.update_of_ne hrq ..).symm.trans hr)
      · have hrq : r ≠ q := fun heq => by
          subst heq
          cases hoff.symm.trans hr
        exact (Function.update_of_ne hrq ..).trans (hs.sched r l' hr)
      · simp only [Option.elim_some, hstep]
        refine State.ext rfl rfl (funext fun r => ?_)
        by_cases hr : r = q
        · subst hr
          simp only [view, Machine.release, Machine.setState, State.goto, Function.update_self, hoff, placeOf]
        · simp only [view, Machine.release, Machine.setState, State.goto, Function.update_of_ne hr]
          rfl
    next hstate =>
      simp only [Option.elim_none]
      exact ⟨hs.others (by simp [hlock]) (by simp), rfl⟩
  next hlock hother =>
    rw [if_neg fun h => hother h.1]
    exact ⟨hs, rfl⟩

/-- However the steps come between each other, `sleep` shows as giving up the lock and falling asleep
at once, `wakeup` as waking all who sleep on the channel at once, and the rest as it is or not at all. -/
theorem sleep_wakeup_atomic (m : Program ι σ τ χ) :
    Traces (Machine.step m : Machine n σ τ χ → Act n ι → Machine n σ τ χ) Inv view label (State.step m) := by
  have hkeeps (s : Machine n σ τ χ) (a : Act n ι) (hs : Inv s) :
      Inv (s.step m a) ∧ view (s.step m a) = (label s a).elim (view s) ((view s).step m) := by
    cases a with
    | scheduler q => exact scheduler_keeps hs q
    | kkill q => exact kkill_keeps hs q
    | go p i =>
      simp only [Machine.step, label]
      cases hp : s.pc p with
      | outside l =>
        have hkeep := acquireLk_keeps (m := m) hs i (by simp [hp]) (by rw [hp]; rfl)
          (show _ = (view s).take p (m.enter i l) by simp only [State.step, view, hp, placeOf])
        simpa only [Machine.go, hp] using hkeep
      | inside l => exact body_keeps hs hp i
      | sleep c l => exact sleep_keeps hs (.inl hp) i
      | sleepLocked c l => exact sleep_keeps hs (.inr (.inl hp)) i
      | sleepReleased c l => exact sleep_keeps hs (.inr (.inr hp)) i
      | sched l => exact sched_keeps hs hp i
      | off l =>
        simp only [Machine.go, hp]
        exact ⟨hs, rfl⟩
      | resumed l => exact resumed_keeps hs hp i
      | reacquire l =>
        have hkeep := acquireLk_keeps (m := m) hs i (by simp [hp]) (by rw [hp]; rfl)
          (show _ = (view s).take p l by simp only [State.step, view, hp, placeOf])
        simpa only [Machine.go, hp] using hkeep
      | wakeup c k l => exact wakeup_keeps hs hp i
      | waking c k l => exact waking_keeps hs hp i
  exact ⟨fun s a hs => (hkeeps s a hs).1, fun s a hs => (hkeeps s a hs).2⟩

/-- Nobody is in the monitor. -/
def boot (d : σ) (l : Fin n → τ) : Machine n σ τ χ := { data := d, pc := fun p => .outside (l p) }

omit [DecidableEq χ] in
theorem inv_boot (d : σ) (l : Fin n → τ) : Inv (boot d l : Machine n σ τ χ) :=
  ⟨fun p => by simp [boot, Pc.hasLk], fun q p => by simp [boot, Pc.locks], fun q hq => (nomatch hq),
    fun q l' hq => (nomatch hq)⟩

/-- **Every run of `sleep` and `wakeup` shows as a run of the monitor.** -/
theorem run_atomic (m : Program ι σ τ χ) (d : σ) (l : Fin n → τ) (acts : List (Act n ι)) :
    view (run (Machine.step m) (boot d l) acts) =
      run (State.step m) ⟨d, none, fun p => .outside (l p)⟩ (trace (Machine.step m) label (boot d l) acts) :=
  (sleep_wakeup_atomic m).run (inv_boot d l) acts

theorem inv_run (m : Program ι σ τ χ) (d : σ) (l : Fin n → τ) (acts : List (Act n ι)) :
    Inv (run (Machine.step m) (boot d l) acts) :=
  Runs.run_inv (sleep_wakeup_atomic m).inv (inv_boot d l) acts

/-- What a process goes on from. -/
def Pc.loc : Pc n τ χ → τ
  | .outside l | .inside l | .sleep _ l | .sleepLocked _ l | .sleepReleased _ l | .sched l | .off l | .resumed l
  | .reacquire l | .wakeup _ _ l | .waking _ _ l => l

theorem locals_view (s : Machine n σ τ χ) : (view s).locals = fun p => (s.pc p).loc := by
  have hdozing (w : Option (χ × Nat)) (q : Fin n) (c : χ) (l : τ) : (dozing w q c l).loc = l := by
    unfold dozing
    split
    · split <;> rfl
    · rfl
  funext p
  simp only [State.locals, view]
  cases s.pc p with
  | sleepReleased c l => exact hdozing _ _ _ _
  | sched l | off l =>
    simp only [placeOf]
    split
    · exact hdozing _ _ _ _
    · rfl
  | _ => rfl

/-- A process that is about to go on may do so. -/
def Permits (ok : ι → σ → τ → Prop) (s : Machine n σ τ χ) : Act n ι → Prop
  | .go p i => ∀ l, s.pc p = .inside l → ok i s.data l
  | _ => True

/-- What goes on as permitted shows as allowed. -/
theorem allowed_trace {ok : ι → σ → τ → Prop} {d : σ} {l : Fin n → τ} {acts : List (Act n ι)}
    (h : Along (Machine.step m) (Permits ok) (boot d l) acts) :
    Along (State.step m) (Allowed ok) (view (boot d l)) (trace (Machine.step m) label (boot d l) acts) := by
  have hshow (s : Machine n σ τ χ) (a : Act n ι) (ha : Permits ok s a) (e : Event (Fin n) ι) (he : label s a = some e) :
      Allowed ok (view s) e := by
    cases a with
    | scheduler q => cases he
    | kkill q =>
      simp only [label] at he
      split at he <;> cases he
      trivial
    | go p i =>
      cases hp : s.pc p with
      | inside l' =>
        simp only [label, hp, Option.some.injEq] at he
        subst he
        intro l₂ hl
        simp only [view, hp, placeOf] at hl
        obtain rfl := Place.inside.inj hl
        exact ha l' hp
      | outside l' | reacquire l' =>
        simp only [label, hp, Option.ite_none_right_eq_some, Option.some.injEq] at he
        obtain ⟨-, rfl⟩ := he
        intro l₂ hl
        simp [view, hp, placeOf] at hl
      | _ => simp [label, hp] at he
  refine (sleep_wakeup_atomic m).along (inv_boot d l) ?_
  exact Along.imp (I := fun _ => True) (fun s a _ ha => hshow s a ha) (fun _ _ _ _ => trivial) trivial h

/-- A process that sleeps while nobody has the lock shows as asleep. -/
theorem asleep_of_sleeping (hs : Inv s) (hfree : s.lk = none) (hq : s.state q = .sleeping) {c : χ} (hc : s.chan q = some c) :
    ∃ l, (view s).place q = .asleep c l := by
  obtain ⟨-, l, hpc⟩ := hs.sleeping q hq
  refine ⟨l, ?_⟩
  rw [view_free hfree]
  rcases hpc with hpc | hpc <;> simp only [hpc, placeOf, hq, hc, dozing]

/-! ## No deadlock -/

/-- The steps after which the lock of `q` is free, at most. -/
def Machine.untilFree (s : Machine n σ τ χ) (q : Fin n) : Nat :=
  match s.lock q with
  | none => 0
  | some .kkill => 1
  | some .scheduler => 2
  | some (.proc r) =>
    match s.pc r with
    | .sleepReleased _ _ => 2
    | _ => 1

/-- Whoever has the lock of a process, other than the holder of `lk`, gives it up without `lk`. -/
theorem lock_freed (m : Program ι σ τ χ) (i : ι) (hs : Inv s) (hlk : s.lk = some p) (hother : s.lock q ≠ some (.proc p)) :
    ∃ t, Reaches (Machine.step m) (fun _ => True) s t ∧
      (Inv t ∧ t.lk = some p ∧ t.pc p = s.pc p ∧ t.data = s.data) ∧ t.lock q = none := by
  refine Reaches.descend
    (P := fun t => (Inv t ∧ t.lk = some p ∧ t.pc p = s.pc p ∧ t.data = s.data) ∧ t.lock q ≠ some (.proc p))
    (fun t => t.untilFree q) (fun t ⟨⟨ht, htlk, htpc, htd⟩, htq⟩ => ?_) ⟨⟨hs, hlk, rfl, rfl⟩, hother⟩
  have hinv (a : Act n ι) := (sleep_wakeup_atomic m).inv t a ht
  cases hlock : t.lock q with
  | none => exact .inl ⟨t, .refl t, ⟨ht, htlk, htpc, htd⟩, hlock⟩
  | some h =>
    cases h with
    | kkill =>
      have hfree : (t.step m (.kkill q)).lock q = none := by
        simp only [Machine.step, hlock, Machine.release, Function.update_self]
      refine .inl ⟨_, .one trivial, ⟨hinv (.kkill q), ?_⟩, hfree⟩
      simp only [Machine.step, hlock]
      split <;> exact ⟨htlk, htpc, htd⟩
    | scheduler =>
      have hstep : t.step m (.scheduler q) = (match t.state q, t.pc q with
          | .runnable, .off l => ((t.setState q .running).acquire q (.proc q)).goto q (.resumed l)
          | _, _ => t.release q) := by
        simp only [Machine.step, hlock]
      split at hstep
      next l _ hpc =>
        -- the process is dispatched, and has its lock for one more step
        have hqp : q ≠ p := fun heq => by
          have hhas := (ht.lk p).mp htlk
          rw [← heq, hpc] at hhas
          exact hhas
        refine .inr ⟨_, .one (i := .scheduler q) trivial, ⟨⟨hinv (.scheduler q), ?_⟩, ?_⟩, ?_⟩
        · rw [hstep]
          exact ⟨htlk, (Function.update_of_ne hqp.symm ..).trans htpc, htd⟩
        · rw [hstep]
          simp [Machine.goto, Machine.acquire, hqp]
        · rw [hstep]
          simp [Machine.untilFree, Machine.goto, Machine.acquire, Machine.setState, hlock]
      · refine .inl ⟨_, .one (i := .scheduler q) trivial, ⟨hinv (.scheduler q), ?_⟩, ?_⟩
        · rw [hstep]
          exact ⟨htlk, htpc, htd⟩
        · rw [hstep]
          simp only [Machine.release, Function.update_self]
    | proc r =>
      have hrp : r ≠ p := fun heq => htq (heq ▸ hlock)
      have hlocks := (ht.lock q r).mp hlock
      have hnot : ¬ (t.pc r).hasLk := fun hhas =>
        hrp (Option.some.inj (((ht.lk r).mpr hhas).symm.trans htlk))
      cases hpc : t.pc r with
      | sleepReleased c l =>
        have hstep : t.step m (.go r i) = ((t.setChan r (some c)).setState r .sleeping).goto r (.sched l) := by
          simp only [Machine.step, Machine.go, hpc]
        refine .inr ⟨_, .one (i := .go r i) trivial, ⟨⟨hinv (.go r i), ?_⟩, ?_⟩, ?_⟩
        · rw [hstep]
          exact ⟨htlk, (Function.update_of_ne hrp.symm ..).trans htpc, htd⟩
        · rw [hstep]
          exact htq
        · rw [hstep]
          simp [Machine.untilFree, Machine.goto, Machine.setState, Machine.setChan, hlock, hpc]
      | sched l =>
        obtain rfl : r = q := by simpa [hpc, Pc.locks] using hlocks
        refine .inl ⟨_, .one (i := .go r i) trivial, ⟨hinv (.go r i), ?_⟩, ?_⟩
        · simp only [Machine.step, Machine.go, hpc]
          exact ⟨htlk, (Function.update_of_ne hrp.symm ..).trans htpc, htd⟩
        · simp only [Machine.step, Machine.go, hpc]
          exact Function.update_self ..
      | resumed l =>
        obtain rfl : r = q := by simpa [hpc, Pc.locks] using hlocks
        refine .inl ⟨_, .one (i := .go r i) trivial, ⟨hinv (.go r i), ?_⟩, ?_⟩
        · simp only [Machine.step, Machine.go, hpc]
          exact ⟨htlk, (Function.update_of_ne hrp.symm ..).trans htpc, htd⟩
        · simp only [Machine.step, Machine.go, hpc]
          exact Function.update_self ..
      | sleepLocked c l => exact absurd (by rw [hpc]; trivial) hnot
      | waking c k l => exact absurd (by rw [hpc]; trivial) hnot
      | _ => simp [hpc, Pc.locks] at hlocks

/-- How far the holder of `lk` is from being done in `sleep` or `wakeup`. -/
def Pc.left : Pc n τ χ → Nat
  | .sleep _ _ => 2
  | .sleepLocked _ _ => 1
  | .wakeup _ i _ => 2 * (n - i) + 1
  | .waking _ i _ => 2 * (n - i)
  | _ => 0

/-- **`sleep` and `wakeup` do not deadlock.** In every state that a run leads to, the process with `lk`
gets to its next statement or gives `lk` up, with the data as they are and nobody coming in: all that
stands in its way are locks of processes, and whoever has one of those gives it up without `lk`. -/
theorem holder_goes_on (m : Program ι σ τ χ) (i : ι) (d : σ) (l : Fin n → τ) (acts : List (Act n ι)) (p : Fin n) :
    let s := run (Machine.step m) (boot d l) acts
    s.lk = some p → ∃ t, Reaches (Machine.step m) (fun _ => True) s t ∧ t.data = s.data ∧
      (t.lk = none ∨ t.lk = some p ∧ ∃ l, t.pc p = .inside l) := by
  intro s hlk
  have hs : Inv s := inv_run m d l acts
  refine Reaches.descend (P := fun t => Inv t ∧ t.lk = some p ∧ t.data = s.data) (fun t => (t.pc p).left)
    (fun t ⟨ht, htlk, htd⟩ => ?_) ⟨hs, hlk, rfl⟩
  have hinv (u : Machine n σ τ χ) (hu : Inv u) : Inv (u.step m (.go p i)) := (sleep_wakeup_atomic m).inv u _ hu
  have hhas := (ht.lk p).mp htlk
  cases hpc : t.pc p with
  | inside l' => exact .inl ⟨t, .refl t, htd, .inr ⟨htlk, l', hpc⟩⟩
  | sleep c l' =>
    have hother : t.lock p ≠ some (.proc p) := fun hlock => by
      have hlocks := (ht.lock p p).mp hlock
      rw [hpc] at hlocks
      cases hlocks
    obtain ⟨u, hreach, ⟨hu, hulk, hupc, hud⟩, hfree⟩ := lock_freed m i ht htlk hother
    have hstep : u.step m (.go p i) = (u.acquire p (.proc p)).goto p (.sleepLocked c l') := by
      simp only [Machine.step, Machine.go, hupc, hpc, hfree, Option.isNone_none, if_true]
    refine .inr ⟨_, hreach.trans (.one (i := .go p i) trivial), ⟨hinv u hu, ?_⟩, ?_⟩
    · rw [hstep]
      exact ⟨hulk, hud.trans htd⟩
    · rw [hstep]
      simp [Machine.goto, Pc.left]
  | sleepLocked c l' =>
    have hstep : t.step m (.go p i) = t.releaseLk p (.sleepReleased c l') := by
      simp only [Machine.step, Machine.go, hpc]
    refine .inl ⟨_, .one (i := .go p i) trivial, ?_⟩
    rw [hstep]
    exact ⟨htd, .inl rfl⟩
  | wakeup c k l' =>
    by_cases hk : k < n
    · by_cases hself : k = p
      · have hstep : t.step m (.go p i) = t.goto p (.wakeup c (k + 1) l') := by
          simp only [Machine.step, Machine.go, hpc, hself, dif_pos, if_true, Fin.is_lt]
        refine .inr ⟨_, .one (i := .go p i) trivial, ⟨hinv t ht, ?_⟩, ?_⟩
        · rw [hstep]
          exact ⟨htlk, htd⟩
        · rw [hstep]
          simp only [Machine.goto, Function.update_self, Pc.left]
          omega
      · have hother : t.lock ⟨k, hk⟩ ≠ some (.proc p) := fun hlock => by
          have hlocks := (ht.lock _ p).mp hlock
          rw [hpc] at hlocks
          cases hlocks
        obtain ⟨u, hreach, ⟨hu, hulk, hupc, hud⟩, hfree⟩ := lock_freed m i ht htlk hother
        have hstep : u.step m (.go p i) = (u.acquire ⟨k, hk⟩ (.proc p)).goto p (.waking c ⟨k, hk⟩ l') := by
          simp only [Machine.step, Machine.go, hupc, hpc, hk, dif_pos, hself, if_false, hfree, Option.isNone_none, if_true]
        refine .inr ⟨_, hreach.trans (.one (i := .go p i) trivial), ⟨hinv u hu, ?_⟩, ?_⟩
        · rw [hstep]
          exact ⟨hulk, hud.trans htd⟩
        · rw [hstep]
          simp [Machine.goto, Pc.left]
    · have hstep : t.step m (.go p i) = t.goto p (.inside l') := by
        simp only [Machine.step, Machine.go, hpc, hk, dif_neg, not_false_iff]
      refine .inl ⟨_, .one (i := .go p i) trivial, ?_⟩
      rw [hstep]
      exact ⟨htd, .inr ⟨htlk, l', Function.update_self ..⟩⟩
  | waking c k l' =>
    refine .inr ⟨_, .one (i := .go p i) trivial, ⟨hinv t ht, ?_⟩, ?_⟩
    · simp only [Machine.step, Machine.go, hpc]
      split <;> exact ⟨htlk, htd⟩
    · have hpc' : (t.step m (.go p i)).pc p = .wakeup c (k + 1) l' := by
        simp only [Machine.step, Machine.go, hpc, Machine.goto, Function.update_self]
      rw [hpc']
      have := k.isLt
      simp only [Pc.left]
      omega
  | _ =>
    rw [hpc] at hhas
    exact absurd hhas id

end

end

/-- Process 0 has come in and calls `wakeup` while process 1 is outside. -/
theorem holder_goes_on_first :
    let m : Program Unit Nat Unit Unit := ⟨fun _ l => l, fun _ _ l => .wake () l⟩
    let s := run (Machine.step m) (boot 7 fun _ : Fin 2 => ()) [.go 0 (), .go 0 ()]
    ∃ t, Reaches (Machine.step m) (fun _ => True) s t ∧ t.data = s.data ∧
      (t.lk = none ∨ t.lk = some 0 ∧ ∃ l, t.pc 0 = .inside l) :=
  holder_goes_on _ () 7 _ _ 0 rfl

end OsNetworks.Xv6.SleepWakeup
