/-
Whether FCFS selects processes in the order in which they were created. The scan
goes by the tick of creation and then by slot, so this follows where these agree
with the order of the ids, which depends on how slots are used again.
-/
import OsNetworks.Xv6.Fcfs

namespace OsNetworks.Xv6

/-- The entry `q` is for the same process as `p`, or for none. -/
def Proc.Keeps (p q : Proc) : Prop := q.state ≠ .unused → p.state ≠ .unused ∧ q.pid = p.pid ∧ q.ctime = p.ctime

namespace Fcfs
open OsNetworks.Runs

/-- No process is created. -/
def Keeps (procs procs' : List Proc) : Prop := ∀ i, (procs.getD i {}).Keeps (procs'.getD i {})

theorem keeps_refl (procs : List Proc) : Keeps procs procs := fun _ hi => ⟨hi, rfl, rfl⟩

theorem keeps_modify (procs : List Proc) (i : Nat) {f : Proc → Proc}
    (h : (procs.getD i {}).Keeps (f (procs.getD i {}))) : Keeps procs (procs.modify i f) := by
  intro j
  rw [getD_modify_eq]
  split
  next hij =>
    obtain ⟨rfl, -⟩ := hij
    exact h
  next => exact keeps_refl procs j

theorem keeps_if {c : Prop} [Decidable c] {p q : Proc} (h : c → p.Keeps q) : p.Keeps (if c then q else p) := by
  split
  next hc => exact h hc
  next => exact fun hp => ⟨hp, rfl, rfl⟩

theorem keeps_live {p q : Proc} (hp : p.state ≠ .unused) (hpid : q.pid = p.pid) (hctime : q.ctime = p.ctime) :
    p.Keeps q :=
  fun _ => ⟨hp, hpid, hctime⟩

theorem keeps_freed (p q : Proc) : p.Keeps q.freed := fun h => absurd rfl h

theorem keeps_wakeup (procs : List Proc) (chan : Nat) : Keeps procs (wakeup procs chan) := by
  intro i
  rw [wakeup, getD_map_of _ (by rfl)]
  exact keeps_if fun h => keeps_live (by rw [h.1]; decide) rfl rfl

theorem keeps_kkill (procs : List Proc) (pid : Nat) : Keeps procs (kkill procs pid) := by
  unfold kkill
  split
  · exact keeps_refl procs
  · exact keeps_modify procs _ (keeps_if fun h => keeps_live (by rw [h]; decide) rfl rfl)

theorem keeps_ready (procs : List Proc) (i : Nat) : Keeps procs (procs.modify i Proc.ready) :=
  keeps_modify procs i (keeps_if fun h => keeps_live (by rw [h]; decide) rfl rfl)

theorem keeps_free (procs : List Proc) (i : Nat) : Keeps procs (procs.modify i Proc.reaped) :=
  keeps_modify procs i (keeps_if fun _ => keeps_freed _ _)

/-! ## The order of the ids -/

/-- Of two processes the one with the smaller id is the earlier one. -/
structure Ordered (s : Kernel) : Prop where
  pid : ∀ i, stateOf s.procs i ≠ .unused → pidOf s.procs i < s.nextpid
  ctime : ∀ i, stateOf s.procs i ≠ .unused → ctimeOf s.procs i ≤ s.ticks.toUInt64
  order : ∀ i j, stateOf s.procs i ≠ .unused → stateOf s.procs j ≠ .unused →
    pidOf s.procs i < pidOf s.procs j → Earlier s.procs i j

theorem Ordered.keeps {s s' : Kernel} (h : Ordered s) (hprocs : Keeps s.procs s'.procs)
    (hpid : s.nextpid ≤ s'.nextpid) (hticks : s.ticks.toUInt64 ≤ s'.ticks.toUInt64) : Ordered s' := by
  refine ⟨fun i hi => ?_, fun i hi => ?_, fun i j hi hj hlt => ?_⟩
  · obtain ⟨hlive, hsame, -⟩ := hprocs i hi
    rw [pidOf, hsame]
    exact Nat.lt_of_lt_of_le (h.pid i hlive) hpid
  · obtain ⟨hlive, -, hsame⟩ := hprocs i hi
    rw [ctimeOf, hsame]
    exact UInt64.le_trans (h.ctime i hlive) hticks
  · obtain ⟨hi', hpi, hci⟩ := hprocs i hi
    obtain ⟨hj', hpj, hcj⟩ := hprocs j hj
    rw [pidOf, pidOf, hpi, hpj] at hlt
    rw [Earlier, ctimeOf, ctimeOf, hci, hcj]
    exact h.order i j hi' hj' hlt

/-- What keeps the order: the count of ticks does not start over, no process is created in a slot below
one created in the same tick, and of the processes behind the scan none is before all those ahead of it. -/
def InOrder (s : Kernel) : Event → Prop
  | .clock => s.ticks.toNat + 1 < UInt32.size
  | .alloc true => ∀ slot ∈ firstUnused s.procs, ∀ j, slot < j → stateOf s.procs j ≠ .unused →
      ctimeOf s.procs j ≠ s.ticks.toUInt64
  | .scan => ∀ pos, s.cpu = .scheduling pos → stateOf s.procs pos = .runnable →
      ∀ j, j < pos → stateOf s.procs j = .runnable →
        ∃ k, pos ≤ k ∧ stateOf s.procs k = .runnable ∧ Earlier s.procs k j
  | _ => True

/-- The process that is selected has the least id of those that are RUNNABLE. -/
def ServesFirst (s : Kernel) (e : Event) : Prop :=
  ∀ i ∈ selected s e, ∀ j, stateOf s.procs j = .runnable → pidOf s.procs i ≤ pidOf s.procs j

theorem Ordered.servesFirst {s : Kernel} (h : Ordered s) {e : Event} (he : InOrder s e) : ServesFirst s e := by
  intro i hi j hj
  cases e with
  | scan =>
    obtain ⟨pos, hcpu, hpos, -, hrun, hleast⟩ := choice_some hi
    have hfirst : j = i ∨ Earlier s.procs i j := by
      by_cases hjp : pos ≤ j
      · exact hleast j hjp hj
      · obtain ⟨m, hm, hmrun, hearlier⟩ := he pos hcpu hpos j (Nat.lt_of_not_le hjp) hj
        rcases hleast m hm hmrun with rfl | him
        · exact .inr hearlier
        · exact .inr (him.trans hearlier)
    refine Nat.le_of_not_lt fun hlt => ?_
    have hji := h.order j i (live_of_runnable hj) (live_of_runnable hrun) hlt
    rcases hfirst with rfl | hij
    · exact absurd hlt (Nat.lt_irrefl _)
    · exact hji.asymm hij
  | _ => cases hi

/-- Once a process is created in the slot `slot`, an entry in use is the new one, or as before. -/
theorem created_cases {procs : List Proc} {slot pid : Nat} {ticks : UInt32} (hslot : slot < procs.length) {i : Nat}
    (hi : stateOf (procs.modify slot fun p => p.allocated pid ticks) i ≠ .unused) :
    let next := procs.modify slot fun p => p.allocated pid ticks
    i = slot ∧ pidOf next i = pid ∧ ctimeOf next i = ticks.toUInt64 ∨
      i ≠ slot ∧ stateOf procs i ≠ .unused ∧ pidOf next i = pidOf procs i ∧ ctimeOf next i = ctimeOf procs i := by
  simp only [stateOf, pidOf, ctimeOf, getD_modify procs hslot] at hi ⊢
  by_cases heq : slot = i
  · rw [if_pos heq]
    exact .inl ⟨heq.symm, rfl, rfl⟩
  · rw [if_neg heq] at hi ⊢
    exact .inr ⟨Ne.symm heq, hi, rfl, rfl⟩

/-- A process is created in the slot `slot`. -/
theorem Ordered.created {s : Kernel} (h : Ordered s) {slot : Nat} (hslot : firstUnused s.procs = some slot)
    (hbelow : ∀ j, slot < j → stateOf s.procs j ≠ .unused → ctimeOf s.procs j ≠ s.ticks.toUInt64) :
    Ordered { s with
      procs := s.procs.modify slot fun p => p.allocated s.nextpid s.ticks
      nextpid := s.nextpid + 1 } := by
  have hlt := (stateOf_firstUnused hslot).1
  refine ⟨fun i hi => ?_, fun i hi => ?_, fun i j hi hj hpid => ?_⟩
  · rcases created_cases hlt hi with ⟨-, hnew, -⟩ | ⟨-, hlive, hold, -⟩
    · exact Nat.lt_succ_of_le (Nat.le_of_eq hnew)
    · exact Nat.lt_succ_of_lt (lt_of_eq_of_lt hold (h.pid i hlive))
  · rcases created_cases hlt hi with ⟨-, -, hnew⟩ | ⟨-, hlive, -, hold⟩
    · exact UInt64.le_of_eq hnew
    · exact UInt64.le_trans (UInt64.le_of_eq hold) (h.ctime i hlive)
  · simp only at hpid
    rw [Earlier]
    rcases created_cases hlt hi with ⟨-, hpi, -⟩ | ⟨hine, hilive, hpi, hci⟩
    · -- no process has a larger id than the new one
      exfalso
      rcases created_cases hlt hj with ⟨-, hpj, -⟩ | ⟨-, hjlive, hpj, -⟩
      · rw [hpi, hpj] at hpid
        exact Nat.lt_irrefl _ hpid
      · rw [hpi, hpj] at hpid
        exact Nat.lt_asymm hpid (h.pid j hjlive)
    · rcases created_cases hlt hj with ⟨rfl, -, hcj⟩ | ⟨-, hjlive, hpj, hcj⟩
      · rw [hci, hcj]
        rcases (UInt64.le_iff_lt_or_eq.mp (h.ctime i hilive)) with hbefore | hsame
        · exact .inl hbefore
        · refine .inr ⟨hsame, Nat.lt_of_le_of_ne (Nat.le_of_not_lt fun hgt => ?_) hine⟩
          exact hbelow i hgt hilive hsame
      · rw [hci, hcj]
        rw [hpi, hpj] at hpid
        exact h.order i j hilive hjlive hpid

theorem Ordered.syscall {s : Kernel} (h : Ordered s) {f : List Proc → List Proc} (hf : Keeps s.procs (f s.procs)) :
    Ordered (Fcfs.syscall s f) := by
  unfold Fcfs.syscall
  split
  · exact h
  · exact h.keeps hf (Nat.le_refl _) (UInt64.le_refl _)

theorem Ordered.switchBack {s : Kernel} (h : Ordered s) (hrun : ∀ i, s.cpu = .running i → stateOf s.procs i = .running)
    {f : Proc → Proc} (hf : ∀ p, (f p).pid = p.pid ∧ (f p).ctime = p.ctime) : Ordered (Fcfs.switchBack s f) := by
  unfold Fcfs.switchBack
  split
  · exact h
  next i hcpu =>
    have hlive : (s.procs.getD i {}).state ≠ .unused := by
      rw [show (s.procs.getD i {}).state = .running from hrun i hcpu]
      decide
    exact h.keeps (keeps_modify _ i (keeps_live hlive (hf _).1 (hf _).2)) (Nat.le_refl _) (UInt64.le_refl _)

theorem Ordered.scan {s : Kernel} (h : Ordered s) : Ordered (Fcfs.scan s) := by
  unfold Fcfs.scan
  split
  · exact h
  next pos hcpu =>
    split
    next i hi =>
      obtain ⟨-, -, -, -, hrun, -⟩ := choice_some hi
      exact h.keeps (keeps_modify _ i (keeps_live (live_of_runnable hrun) rfl rfl)) (Nat.le_refl _) (UInt64.le_refl _)
    · exact h.keeps (keeps_refl _) (Nat.le_refl _) (UInt64.le_refl _)

theorem Ordered.step {s : Kernel} (h : Ordered s) (hrun : ∀ i, s.cpu = .running i → stateOf s.procs i = .running)
    {e : Event} (he : InOrder s e) : Ordered (Fcfs.step s e) := by
  cases e with
  | scan => exact h.scan
  | clock =>
    refine h.keeps (keeps_wakeup _ _) (Nat.le_refl _) ?_
    have hadd : (s.ticks + 1).toNat = (s.ticks.toNat + 1) % UInt32.size := UInt32.toNat_add s.ticks 1
    have hlt : s.ticks.toNat + 1 < UInt32.size := he
    rw [UInt64.le_iff_toNat_le, UInt32.toNat_toUInt64]
    show s.ticks.toNat ≤ (s.ticks + 1).toUInt64.toNat
    rw [UInt32.toNat_toUInt64, hadd, Nat.mod_eq_of_lt hlt]
    exact Nat.le_succ _
  | wakeup chan => exact h.keeps (keeps_wakeup _ _) (Nat.le_refl _) (UInt64.le_refl _)
  | yield | sleep chan | exit => exact h.switchBack hrun fun _ => ⟨rfl, rfl⟩
  | kill pid => exact h.syscall (f := fun procs => kkill procs pid) (keeps_kkill _ pid)
  | ready i => exact h.syscall (f := fun procs => procs.modify i Proc.ready) (keeps_ready _ i)
  | free i => exact h.syscall (f := fun procs => procs.modify i Proc.reaped) (keeps_free _ i)
  | alloc memory =>
    unfold Fcfs.step
    dsimp only
    split
    next procs _ halloc =>
      obtain ⟨slot, hslot, rfl⟩ := Option.map_eq_some_iff.mp halloc
      cases memory with
      | true => exact h.created hslot (he slot hslot)
      | false => exact h.keeps (keeps_modify _ slot (keeps_freed _ _)) (Nat.le_succ _) (UInt64.le_refl _)
    · exact h

theorem Ordered.boot (count : Nat) : Ordered (Fcfs.boot count) := by
  have hblank (i : Nat) : stateOf (List.replicate count {}) i = .unused := by
    rw [stateOf, List.getD_eq_getElem?_getD, List.getElem?_replicate]
    split <;> rfl
  have hstart : Ordered { procs := List.replicate count {} } :=
    ⟨fun i hi => absurd (hblank i) hi, fun i hi => absurd (hblank i) hi, fun i _ hi => absurd (hblank i) hi⟩
  have hready (procs : List Proc) : Keeps procs (procs.map Proc.ready) := by
    intro i
    rw [getD_map_of _ (by rfl)]
    exact keeps_if fun h => keeps_live (by rw [h]; decide) rfl rfl
  unfold Fcfs.boot allocproc
  cases hslot : firstUnused (List.replicate count {}) with
  | none => exact ⟨fun _ hi => absurd rfl hi, fun _ hi => absurd rfl hi, fun _ _ hi => absurd rfl hi⟩
  | some slot =>
    have hcreated := hstart.created hslot fun j _ hj => absurd (hblank j) hj
    exact hcreated.keeps (hready _) (Nat.le_refl _) (UInt64.le_refl _)

/-- **FCFS serves in the order of creation** in every run whose steps are all `InOrder`. -/
theorem servesFirst_of_inOrder (count : Nat) {events : List Event}
    (h : Along step InOrder (boot count) events) : Along step ServesFirst (boot count) events := by
  have hheld : ∃ turn, Held { kernel := boot count, turn } := ⟨none, Held.boot count⟩
  refine Along.imp (I := fun s => Ordered s ∧ ∃ turn, Held { kernel := s, turn }) (fun s e hs he => hs.1.servesFirst he)
    (fun s e hs he => ?_) ⟨Ordered.boot count, hheld⟩ h
  obtain ⟨hordered, turn, hturn⟩ := hs
  exact ⟨hordered.step (fun i hi => (hturn.running i hi).2) he, _, hturn.step e⟩

theorem servesFirst_twoTicks :
    Along step ServesFirst (boot 2) [.scan, .clock, .yield, .scan, .alloc true, .ready 1, .sleep 7, .scan, .scan] := by
  have hfront {s : Kernel} (hs : s.cpu = .scheduling 0) : InOrder s .scan := by
    intro pos hpos _ j hj
    obtain rfl : 0 = pos := Cpu.scheduling.inj (hs.symm.trans hpos)
    exact absurd hj (Nat.not_lt_zero j)
  have hclock : (0 : UInt32).toNat + 1 < UInt32.size := by decide
  refine servesFirst_of_inOrder 2
    ⟨hfront rfl, hclock, trivial, hfront rfl, ?_, trivial, trivial, hfront rfl, ?_, trivial⟩
  · intro slot hslot j hj hlive
    obtain rfl : 1 = slot := Option.some.inj hslot
    exact absurd (lt_length_of_stateOf hlive) (Nat.not_lt_of_le hj)
  · intro pos hpos _ j hj hrun
    obtain rfl : 1 = pos := Cpu.scheduling.inj hpos
    obtain rfl : j = 0 := Nat.lt_one_iff.mp hj
    exact absurd hrun (by decide)

/-- All in one tick, the first process creates two, of which the first exits, and then a third, which takes the
slot of the one that has exited; the third is selected before the second. -/
def slotReused : List Event :=
  [.scan, .alloc true, .ready 1, .alloc true, .ready 2, .sleep 7, .scan, .scan, .wakeup 7, .exit, .scan, .free 1,
    .alloc true, .ready 1, .sleep 7, .scan, .scan]

theorem slotReused_outOfOrder :
    (run step (boot 64) slotReused).cpu = .running 1 ∧ ¬ Along step ServesFirst (boot 64) slotReused := by
  refine ⟨by decide +kernel, fun h => ?_⟩
  have hsplit : slotReused = slotReused.take 16 ++ [.scan] := rfl
  rw [hsplit, Along.append] at h
  exact absurd (h.2.1 1 (by decide +kernel) 2 (by decide +kernel)) (by decide +kernel)

end Fcfs

end OsNetworks.Xv6
