/-
The FCFS scheduler on one CPU, together with the code that runs between its
choices: traps, system calls and interrupts. An interrupt can come while the
scheduler looks for a process, but only before it has found the first one: from
then on it holds a lock, and the rest of its loop is one step.
-/
import OsNetworks.Lib.Runs
import OsNetworks.Xv6.Proc

namespace OsNetworks.Xv6.Fcfs
open OsNetworks.Runs OsNetworks.Selection

/-- `&ticks`, as a channel -/
def ticksChan : Nat := 1

/-- The CPU is in the loop of `scheduler`, which comes to an entry next and holds no lock, or it is
in a process. -/
inductive Cpu where
  | scheduling (pos : Nat)
  | running (i : Nat)
  deriving DecidableEq, Repr

structure Kernel where
  procs : List Proc
  ticks : UInt32 := 0
  /-- what `allocpid` returns next -/
  nextpid : Nat := 1
  cpu : Cpu := .scheduling 0

/-- After a clock interrupt `usertrap` and `kerneltrap` yield, unless the process has been killed. -/
inductive Event where
  | scan
  | clock
  | yield
  | wakeup (chan : Nat)
  | sleep (chan : Nat)
  | exit
  | kill (pid : Nat)
  | alloc (memory : Bool)
  | ready (i : Nat)
  | free (i : Nat)

/-- The loop of `scheduler` from the entry `pos` on. -/
def earliest (procs : List Proc) (pos : Nat) : Option (Proc × Nat) :=
  least (fun p => p.ctime.toNat) Proc.isRunnable (procs.zipIdx.drop pos)

/-- The process that the scheduler selects, if it comes to a RUNNABLE process next. -/
def choice (s : Kernel) : Option Nat :=
  match s.cpu with
  | .running _ => none
  | .scheduling pos => if stateOf s.procs pos = .runnable then (earliest s.procs pos).map Prod.snd else none

/-- The scheduler goes on with an entry that is not RUNNABLE, or selects a process. -/
def scan (s : Kernel) : Kernel :=
  match s.cpu with
  | .running _ => s
  | .scheduling pos =>
    match choice s with
    | some i => { s with procs := s.procs.modify i fun p => { p with state := .running }, cpu := .running i }
    | none => { s with cpu := .scheduling (if pos < s.procs.length then pos + 1 else 0) }

/-- The running process changes its entry and switches back to the scheduler. -/
def switchBack (s : Kernel) (f : Proc → Proc) : Kernel :=
  match s.cpu with
  | .scheduling _ => s
  | .running i => { s with procs := s.procs.modify i f, cpu := .scheduling 0 }

/-- The running process changes the table. -/
def syscall (s : Kernel) (f : List Proc → List Proc) : Kernel :=
  match s.cpu with
  | .scheduling _ => s
  | .running _ => { s with procs := f s.procs }

def step (s : Kernel) : Event → Kernel
  | .scan => scan s
  | .clock => { s with ticks := s.ticks + 1, procs := Xv6.wakeup s.procs ticksChan }
  | .yield => switchBack s fun p => { p with state := .runnable }
  | .wakeup chan => { s with procs := Xv6.wakeup s.procs chan }
  | .sleep chan => switchBack s fun p => p.asleep chan
  | .exit => switchBack s fun p => { p with state := .zombie }
  | .kill pid => syscall s fun procs => kkill procs pid
  | .alloc memory =>
    match s.cpu, allocproc s.procs s.nextpid s.ticks memory with
    | .running _, some procs => { s with procs, nextpid := s.nextpid + 1 }
    | _, _ => s
  | .ready i => syscall s fun procs => procs.modify i Proc.ready
  | .free i => syscall s fun procs => procs.modify i Proc.reaped

/-- `procinit` and `userinit` -/
def boot (count : Nat) : Kernel where
  procs := ((allocproc (List.replicate count {}) 1 0 true).getD []).map Proc.ready
  nextpid := 2

/-- The process that an event selects. -/
def selected (s : Kernel) : Event → Option Nat
  | .scan => choice s
  | _ => none

/-! ## The choice -/

/-- The scan prefers the process in slot `i` to that in slot `j`. -/
def Earlier (procs : List Proc) (i j : Nat) : Prop :=
  ctimeOf procs i < ctimeOf procs j ∨ ctimeOf procs i = ctimeOf procs j ∧ i < j

theorem earlier_iff {procs : List Proc} {i j : Nat} :
    Earlier procs i j ↔
      rank (fun p : Proc => p.ctime.toNat) (procs.getD i {}, i) < rank (fun p => p.ctime.toNat) (procs.getD j {}, j) := by
  rw [Earlier, rank_lt_iff, UInt64.lt_iff_toNat_lt, ← UInt64.toNat_inj]
  rfl

theorem Earlier.trans {procs : List Proc} {i j k : Nat} (hij : Earlier procs i j) (hjk : Earlier procs j k) :
    Earlier procs i k :=
  earlier_iff.mpr ((earlier_iff.mp hij).trans (earlier_iff.mp hjk))

theorem Earlier.asymm {procs : List Proc} {i j : Nat} (hij : Earlier procs i j) : ¬ Earlier procs j i :=
  fun hji => lt_asymm (earlier_iff.mp hij) (earlier_iff.mp hji)

theorem mem_slots {procs : List Proc} {pos i : Nat} (hle : pos ≤ i) (hi : i < procs.length) :
    (procs.getD i {}, i) ∈ procs.zipIdx.drop pos := by
  rw [mem_entries, List.getElem?_eq_getElem hi, List.getD_eq_getElem?_getD, List.getElem?_eq_getElem hi]
  exact ⟨hle, rfl⟩

/-- From an entry that is RUNNABLE on, the loop selects the earliest process. -/
theorem choice_spec {s : Kernel} {pos : Nat} (hcpu : s.cpu = .scheduling pos) (hpos : stateOf s.procs pos = .runnable) :
    ∃ i, choice s = some i ∧ pos ≤ i ∧ stateOf s.procs i = .runnable ∧
      ∀ j, pos ≤ j → stateOf s.procs j = .runnable → j = i ∨ Earlier s.procs i j := by
  have hmem {j : Nat} (hle : pos ≤ j) (hj : stateOf s.procs j = .runnable) :
      (s.procs.getD j {}, j) ∈ s.procs.zipIdx.drop pos :=
    mem_slots hle (lt_length_of_stateOf (live_of_runnable hj))
  have hok {j : Nat} (hj : stateOf s.procs j = .runnable) : (s.procs.getD j {}).isRunnable = true := by
    simpa [Proc.isRunnable, stateOf] using hj
  have hchoice : choice s = (earliest s.procs pos).map Prod.snd := by rw [choice, hcpu]; exact if_pos hpos
  rw [hchoice]
  cases hl : earliest s.procs pos with
  | none =>
    have := (least_eq_none_iff (entries_pairwise _ _)).mp hl _ (hmem (Nat.le_refl pos) hpos)
    rw [hok hpos] at this
    cases this
  | some e =>
    obtain ⟨he, heok, hleast⟩ := least_spec (entries_pairwise _ _) hl
    obtain ⟨hle, hget⟩ := mem_entries.mp he
    have hd : s.procs.getD e.2 {} = e.1 := by rw [List.getD_eq_getElem?_getD, hget, Option.getD_some]
    refine ⟨e.2, rfl, hle, ?_, fun j hj hrun => ?_⟩
    · rw [stateOf_of_getElem? hget]
      simpa [Proc.isRunnable] using heok
    · rw [earlier_iff, hd]
      rcases (hleast _ (hmem hj hrun) (hok hrun)).eq_or_lt with heq | hlt
      · exact .inl (congrArg (fun r => (ofLex r).2) heq).symm
      · exact .inr hlt

/-- A choice is made at an entry that is RUNNABLE, and is the earliest process from there on. -/
theorem choice_some {s : Kernel} {i : Nat} (h : choice s = some i) :
    ∃ pos, s.cpu = .scheduling pos ∧ stateOf s.procs pos = .runnable ∧ pos ≤ i ∧ stateOf s.procs i = .runnable ∧
      ∀ j, pos ≤ j → stateOf s.procs j = .runnable → j = i ∨ Earlier s.procs i j := by
  cases hcpu : s.cpu with
  | running k => simp [choice, hcpu] at h
  | scheduling pos =>
    have hpos : stateOf s.procs pos = .runnable := by
      by_contra hpos
      simp [choice, hcpu, hpos] at h
    obtain ⟨k, hk, hspec⟩ := choice_spec hcpu hpos
    obtain rfl : k = i := Option.some.inj (hk.symm.trans h)
    exact ⟨pos, rfl, hpos, hspec⟩

/-! ## The table -/

/-- Processes that are RUNNABLE or RUNNING are left alone. -/
def Spares (procs procs' : List Proc) : Prop :=
  ∀ i, stateOf procs i = .runnable ∨ stateOf procs i = .running → procs'.getD i {} = procs.getD i {}

theorem Spares.stateOf {procs procs' : List Proc} (h : Spares procs procs') {i : Nat}
    (hi : stateOf procs i = .runnable ∨ stateOf procs i = .running) : stateOf procs' i = stateOf procs i :=
  congrArg Proc.state (h i hi)

theorem spares_modify (procs : List Proc) (i : Nat) {f : Proc → Proc}
    (h : stateOf procs i = .runnable ∨ stateOf procs i = .running → f (procs.getD i {}) = procs.getD i {}) :
    Spares procs (procs.modify i f) := by
  intro j hj
  rw [getD_modify_eq]
  split
  next hij =>
    obtain ⟨rfl, -⟩ := hij
    exact h hj
  next => rfl

theorem spares_wakeup (procs : List Proc) (chan : Nat) : Spares procs (wakeup procs chan) := by
  intro i hi
  rw [wakeup, getD_map_of _ (by rfl)]
  exact Proc.woken_busy hi chan

theorem spares_kkill (procs : List Proc) (pid : Nat) : Spares procs (kkill procs pid) := by
  unfold kkill
  split
  · exact fun _ _ => rfl
  next i _ => exact spares_modify procs i fun hi => Proc.killed_busy hi

theorem spares_alloc {procs procs' : List Proc} {pid : Nat} {ticks : UInt32} {memory : Bool}
    (h : allocproc procs pid ticks memory = some procs') : Spares procs procs' := by
  obtain ⟨i, hi, rfl⟩ := Option.map_eq_some_iff.mp h
  refine spares_modify procs i fun hstate => ?_
  rw [(stateOf_firstUnused hi).2] at hstate
  simp at hstate

theorem spares_ready (procs : List Proc) (i : Nat) : Spares procs (procs.modify i Proc.ready) :=
  spares_modify procs i fun hi => Proc.ready_busy hi

theorem spares_free (procs : List Proc) (i : Nat) : Spares procs (procs.modify i Proc.reaped) :=
  spares_modify procs i fun hi => Proc.reaped_busy hi

/-! ## Whose turn it is -/

/-- The kernel, and the process selected last, for as long as it has not slept or exited since. -/
structure Watched where
  kernel : Kernel
  turn : Option Nat := none

def Watched.step (w : Watched) (e : Event) : Watched where
  kernel := Fcfs.step w.kernel e
  turn :=
    match e, w.kernel.cpu with
    | .sleep _, .running _ | .exit, .running _ => none
    | e, _ => (selected w.kernel e).or w.turn

/-- No other process is selected. -/
def NonPreemptive (w : Watched) (e : Event) : Prop := ∀ i ∈ selected w.kernel e, ∀ last ∈ w.turn, i = last

/-- When the scheduler comes to select a process and the last one is still RUNNABLE, no other from
there on is preferred to it. -/
def Unpreceded (w : Watched) : Event → Prop
  | .scan => ∀ last ∈ w.turn, ∀ pos, w.kernel.cpu = .scheduling pos → stateOf w.kernel.procs pos = .runnable →
      ∀ j, pos ≤ j → stateOf w.kernel.procs j = .runnable → j = last ∨ Earlier w.kernel.procs last j
  | _ => True

/-- The process whose turn it is has the CPU, or waits for it in a slot that the scan has not passed. -/
structure Held (w : Watched) : Prop where
  running : ∀ i, w.kernel.cpu = .running i → w.turn = some i ∧ stateOf w.kernel.procs i = .running
  waiting : ∀ i pos, w.turn = some i → w.kernel.cpu = .scheduling pos →
    pos ≤ i ∧ stateOf w.kernel.procs i = .runnable

namespace Held
variable {w w' : Watched}

theorem spares (h : Held w) (hcpu : w'.kernel.cpu = w.kernel.cpu) (hturn : w'.turn = w.turn)
    (hprocs : Spares w.kernel.procs w'.kernel.procs) : Held w' := by
  refine ⟨fun i hi => ?_, fun i pos hi hpos => ?_⟩
  · obtain ⟨h1, h2⟩ := h.running i (hcpu ▸ hi)
    exact ⟨hturn.trans h1, (hprocs.stateOf (.inr h2)).trans h2⟩
  · obtain ⟨h1, h2⟩ := h.waiting i pos (hturn ▸ hi) (hcpu ▸ hpos)
    exact ⟨h1, (hprocs.stateOf (.inl h2)).trans h2⟩

theorem stay (h : Held w) (hkernel : w'.kernel = w.kernel) (hturn : w'.turn = w.turn) : Held w' :=
  h.spares (congrArg Kernel.cpu hkernel) hturn (by rw [hkernel]; exact fun _ _ => rfl)

theorem syscall (h : Held w) {f : List Proc → List Proc} (hf : ∀ procs, Spares procs (f procs)) :
    Held { w with kernel := Fcfs.syscall w.kernel f } := by
  unfold Fcfs.syscall
  split
  · exact h
  · exact h.spares rfl rfl (hf _)

/-- The scheduler starts over; the process that yields still waits. -/
theorem switchBack (h : Held w) (f : Proc → Proc) {turn : Option Nat}
    (hturn : ∀ i, w.kernel.cpu = .running i → turn = none ∨ ∀ p, (f p).state = .runnable)
    (hsame : ∀ i, turn = some i → w.turn = some i) :
    Held { kernel := Fcfs.switchBack w.kernel f, turn } := by
  unfold Fcfs.switchBack
  split
  next pos hcpu =>
    exact ⟨fun i hi => absurd hi (by simp [hcpu]), fun i q hi hq => h.waiting i q (hsame i hi) hq⟩
  next k hcpu =>
    refine ⟨fun i hi => (by simp at hi), fun i pos hi hpos => ?_⟩
    obtain ⟨hlast, hstate⟩ := h.running k hcpu
    obtain rfl : i = k := Option.some.inj ((hsame i hi).symm.trans hlast)
    obtain rfl : 0 = pos := by simpa using hpos
    refine ⟨Nat.zero_le i, ?_⟩
    rcases hturn i hcpu with hnone | hrun
    · rw [hnone] at hi
      cases hi
    · rw [stateOf, getD_modify _ (lt_length_of_stateOf (by rw [hstate]; decide)), if_pos rfl, hrun]

theorem scan (h : Held w) : Held (w.step .scan) := by
  cases hcpu : w.kernel.cpu with
  | running i =>
    have hchoice : choice w.kernel = none := by rw [choice, hcpu]
    refine h.stay ?_ ?_
    · simp [Watched.step, Fcfs.step, Fcfs.scan, hcpu]
    · simp [Watched.step, selected, hchoice]
  | scheduling pos =>
    by_cases hpos : stateOf w.kernel.procs pos = .runnable
    · obtain ⟨i, hi, -, hrun, -⟩ := choice_spec hcpu hpos
      have hlt : i < w.kernel.procs.length := lt_length_of_stateOf (live_of_runnable hrun)
      refine ⟨fun k hk => ?_, fun k q _ hq => ?_⟩
      · simp only [Watched.step, Fcfs.step, Fcfs.scan, hcpu, hi, Cpu.running.injEq] at hk
        subst hk
        refine ⟨by simp [Watched.step, selected, hi], ?_⟩
        simp only [Watched.step, Fcfs.step, Fcfs.scan, hcpu, hi]
        rw [stateOf, getD_modify _ hlt, if_pos rfl]
      · simp [Watched.step, Fcfs.step, Fcfs.scan, hcpu, hi] at hq
    · have hchoice : choice w.kernel = none := by rw [choice, hcpu]; exact if_neg hpos
      refine ⟨fun k hk => ?_, fun k q hk hq => ?_⟩
      · simp [Watched.step, Fcfs.step, Fcfs.scan, hcpu, hchoice] at hk
      · simp only [Watched.step, Fcfs.step, Fcfs.scan, hcpu, hchoice, selected, Option.none_or,
          Cpu.scheduling.injEq] at hk hq ⊢
        obtain ⟨hle, hstate⟩ := h.waiting k pos hk hcpu
        refine ⟨?_, hstate⟩
        -- the entry that is passed is not RUNNABLE, so it is not the one whose turn it is
        have hne : pos ≠ k := fun heq => hpos (heq ▸ hstate)
        split at hq <;> omega

theorem step (h : Held w) (e : Event) : Held (w.step e) := by
  have hturn : ∀ i, (none : Option Nat) = some i → w.turn = some i := fun _ hi => nomatch hi
  cases e with
  | scan => exact h.scan
  | clock => exact h.spares rfl rfl (spares_wakeup _ _)
  | wakeup chan => exact h.spares rfl rfl (spares_wakeup _ _)
  | yield => exact h.switchBack _ (fun _ _ => .inr fun _ => rfl) fun _ hi => hi
  | sleep chan | exit =>
    cases hcpu : w.kernel.cpu with
    | running i =>
      simp only [Watched.step, hcpu]
      exact h.switchBack _ (fun _ _ => .inl rfl) hturn
    | scheduling pos =>
      refine h.stay ?_ ?_
      · simp [Watched.step, Fcfs.step, Fcfs.switchBack, hcpu]
      · simp [Watched.step, selected, hcpu]
  | kill pid => exact h.syscall fun procs => spares_kkill procs pid
  | ready i => exact h.syscall fun procs => spares_ready procs i
  | free i => exact h.syscall fun procs => spares_free procs i
  | alloc memory =>
    have hsame : (w.step (.alloc memory)).turn = w.turn := by simp [Watched.step, selected]
    cases hcpu : w.kernel.cpu with
    | scheduling pos => exact h.stay (by simp [Watched.step, Fcfs.step, hcpu]) hsame
    | running i =>
      cases halloc : allocproc w.kernel.procs w.kernel.nextpid w.kernel.ticks memory with
      | none => exact h.stay (by simp [Watched.step, Fcfs.step, hcpu, halloc]) hsame
      | some procs =>
        refine h.spares ?_ hsame ?_
        · simp [Watched.step, Fcfs.step, hcpu, halloc]
        · simpa [Watched.step, Fcfs.step, hcpu, halloc] using spares_alloc halloc

/-- The choice is the process whose turn it is just if none is preferred to it. -/
theorem nonPreemptive_iff (h : Held w) (e : Event) : NonPreemptive w e ↔ Unpreceded w e := by
  cases e with
  | scan =>
    simp only [NonPreemptive, Unpreceded, selected]
    constructor
    · intro hsame last hlast pos hcpu hpos j hj hrun
      obtain ⟨i, hi, -, -, hfirst⟩ := choice_spec hcpu hpos
      obtain rfl := hsame i hi last hlast
      exact hfirst j hj hrun
    · intro hfirst i hi last hlast
      obtain ⟨pos, hcpu, hpos, hle, hrun, hleast⟩ := choice_some hi
      obtain ⟨hwait, hstate⟩ := h.waiting last pos hlast hcpu
      refine (hfirst last hlast pos hcpu hpos i hle hrun).resolve_right fun hbefore => ?_
      rcases hleast last hwait hstate with heq | hafter
      · exact absurd (heq ▸ hbefore) fun hself => hself.asymm hself
      · exact hbefore.asymm hafter
  | _ => exact iff_of_true (fun _ hi => nomatch hi) trivial

theorem boot (count : Nat) : Held { kernel := Fcfs.boot count } :=
  ⟨fun _ hi => (nomatch hi), fun _ _ hi => nomatch hi⟩

end Held

/-- **FCFS is non-preemptive** in just those runs in which no RUNNABLE process is ever preferred to one
that has only yielded. -/
theorem nonPreemptive_iff_unpreceded (count : Nat) (events : List Event) :
    Along Watched.step NonPreemptive { kernel := boot count } events ↔
      Along Watched.step Unpreceded { kernel := boot count } events :=
  Along.iff (fun _ e h => h.nonPreemptive_iff e) (fun _ e h _ => h.step e) (Held.boot count) events

/-- The first process creates a second one in a later tick and sleeps; the second is running when the
first is woken, and at the next clock interrupt it loses the CPU. -/
def wokenFirst : List Event :=
  [.scan, .clock, .yield, .scan, .alloc true, .ready 1, .sleep 7, .scan, .scan, .wakeup 7, .clock, .yield, .scan]

theorem wokenFirst_preempts :
    (run Watched.step { kernel := boot 64 } (wokenFirst.take 9)).kernel.cpu = .running 1 ∧
      (run Watched.step { kernel := boot 64 } wokenFirst).kernel.cpu = .running 0 ∧
      ¬ Along Watched.step NonPreemptive { kernel := boot 64 } wokenFirst := by
  refine ⟨by decide +kernel, by decide +kernel, fun h => ?_⟩
  have hsplit : wokenFirst = wokenFirst.take 12 ++ [.scan] := rfl
  rw [hsplit, Along.append] at h
  exact absurd (h.2.1 0 (by decide +kernel) 1 (by decide +kernel)) (by decide)

end OsNetworks.Xv6.Fcfs
