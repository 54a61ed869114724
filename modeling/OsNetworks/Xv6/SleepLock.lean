/-
Sleep locks, as buffers and inodes have them. The fields of the lock are the data
of a monitor, whose lock is `lk->lk`. A process may ask for the lock whenever it
is outside, and may let go of it as `brelse` and `iunlock` do: they panic unless
`holdingsleep`.
-/
import OsNetworks.Lib.Monitor
import OsNetworks.Xv6.SleepWakeup

namespace OsNetworks.Xv6.SleepLocks
open OsNetworks.Monitor OsNetworks.Runs OsNetworks.Xv6.SleepWakeup

/-- `struct sleeplock`, as `initsleeplock` leaves it. -/
@[ext] structure SleepLock where
  locked : Bool := false
  pid : Nat := 0
  deriving DecidableEq

/-- Where a process is. -/
inductive At where
  | idle
  /-- `while (lk->locked)` -/
  | acquiring
  /-- about to return from `acquiresleep` -/
  | acquired
  /-- in `holdingsleep` -/
  | holding
  /-- `holdingsleep` has returned 1 to `brelse` -/
  | held
  | releasing
  /-- about to wake those who wait -/
  | released
  /-- about to return from `releasesleep` -/
  | woke
  | panicked
  deriving DecidableEq

structure Local where
  /-- `myproc()->pid` -/
  pid : Nat
  pc : At := .idle
  /-- The process has taken the lock and not let go of it. -/
  owns : Bool := false
  deriving DecidableEq

inductive Call where
  | acquiresleep
  | brelse
  deriving DecidableEq

def Local.goto (l : Local) (pc : At) : Local := { l with pc }

def enter (i : Call) (l : Local) : Local :=
  match l.pc, i with
  | .held, _ => l.goto .releasing
  | .panicked, _ => l
  | _, .acquiresleep => l.goto .acquiring
  | _, .brelse => l.goto .holding

/-- The statements of `acquiresleep`, `holdingsleep` and `releasesleep`. -/
def body (_ : Call) (lk : SleepLock) (l : Local) : Move SleepLock Local Unit :=
  match l.pc with
  | .acquiring =>
    if lk.locked then .sleep () l else .go { locked := true, pid := l.pid } { l with pc := .acquired, owns := true }
  | .acquired => .leave (l.goto .idle)
  | .holding => .leave (l.goto (if lk.locked ∧ lk.pid = l.pid then .held else .panicked))
  | .releasing => .go { locked := false, pid := 0 } { l with pc := .released, owns := false }
  | .released => .wake () (l.goto .woke)
  | .woke => .leave (l.goto .idle)
  | _ => .leave l

def program : Program Call SleepLock Local Unit := ⟨enter, body⟩

/-- Nobody has the lock. -/
def fresh {n : Nat} (pids : Fin n → Nat) : Machine n SleepLock Local Unit := boot {} fun p => { pid := pids p }

/-! ## Who has the lock -/

section
variable {κ : Type} {pids : κ → Nat} {lk : SleepLock} {ls : κ → Local}

/-- The lock says who has it. -/
structure Owned (pids : κ → Nat) (lk : SleepLock) (ls : κ → Local) : Prop where
  pid : ∀ p, (ls p).pid = pids p
  owner : ∀ p, (ls p).owns = true ↔ lk.locked = true ∧ lk.pid = pids p
  locked : lk.locked = true → ∃ p, (ls p).owns = true
  held : ∀ p, (ls p).pc = .held ∨ (ls p).pc = .releasing → (ls p).owns = true

variable [DecidableEq κ]

/-- A process goes on, and goes where it has the lock only with the lock. -/
theorem Owned.goto (h : Owned pids lk ls) (p : κ) {pc : At} (hpc : pc = .held ∨ pc = .releasing → (ls p).owns = true) :
    Owned pids lk (Function.update ls p ((ls p).goto pc)) := by
  have howns (q : κ) : (Function.update ls p ((ls p).goto pc) q).owns = (ls q).owns := by
    by_cases hq : q = p
    · subst hq
      rw [Function.update_self, Local.goto]
    · rw [Function.update_of_ne hq]
  refine ⟨?_, fun q => by rw [howns, h.owner], fun hlocked => ?_, fun q hq => ?_⟩
  · exact (Function.forall_update_iff _ fun q (l : Local) => l.pid = pids q).mpr ⟨h.pid p, fun q _ => h.pid q⟩
  · obtain ⟨q, hq⟩ := h.locked hlocked
    exact ⟨q, (howns q).trans hq⟩
  · rw [howns]
    by_cases hqp : q = p
    · subst hqp
      rw [Function.update_self] at hq
      exact hpc hq
    · rw [Function.update_of_ne hqp] at hq
      exact h.held q hq

theorem Owned.acquire (h : Owned pids lk ls) (hpids : pids.Injective) (hfree : lk.locked = false) (p : κ) :
    Owned pids { locked := true, pid := (ls p).pid } (Function.update ls p { ls p with pc := .acquired, owns := true }) := by
  refine ⟨?_, ?_, fun _ => ⟨p, by rw [Function.update_self]⟩, fun q hq => ?_⟩
  · exact (Function.forall_update_iff _ fun q (l : Local) => l.pid = pids q).mpr ⟨h.pid p, fun q _ => h.pid q⟩
  · refine (Function.forall_update_iff _ fun q (l : Local) => l.owns = true ↔ true = true ∧ (ls p).pid = pids q).mpr
      ⟨iff_of_true rfl ⟨rfl, h.pid p⟩, fun q hq => ?_⟩
    -- nobody had the lock, and the pids are different
    refine iff_of_false (fun howns => ?_) fun hpid => hq (hpids ((h.pid p).symm.trans hpid.2)).symm
    exact absurd (hfree.symm.trans ((h.owner q).mp howns).1) (by decide)
  · by_cases hqp : q = p
    · subst hqp
      rw [Function.update_self]
    · rw [Function.update_of_ne hqp] at hq ⊢
      exact h.held q hq

theorem Owned.release (h : Owned pids lk ls) (hpids : pids.Injective) {p : κ} (hp : (ls p).pc = .releasing) :
    Owned pids { locked := false, pid := 0 } (Function.update ls p { ls p with pc := .released, owns := false }) := by
  have howner (q : κ) (hq : (ls q).owns = true) : q = p := by
    have hpid := ((h.owner q).mp hq).2.symm.trans ((h.owner p).mp (h.held p (.inr hp))).2
    exact hpids hpid
  refine ⟨?_, ?_, nofun, fun q hq => ?_⟩
  · exact (Function.forall_update_iff _ fun q (l : Local) => l.pid = pids q).mpr ⟨h.pid p, fun q _ => h.pid q⟩
  · refine (Function.forall_update_iff _ fun q (l : Local) => l.owns = true ↔ false = true ∧ 0 = pids q).mpr
      ⟨iff_of_false nofun nofun, fun q hq => iff_of_false (fun howns => hq (howner q howns)) nofun⟩
  · by_cases hqp : q = p
    · subst hqp
      rw [Function.update_self] at hq
      rcases hq with hq | hq <;> cases hq
    · rw [Function.update_of_ne hqp] at hq
      exact absurd (howner q (h.held q hq)) hqp

/-- Every move keeps it. -/
def owned (hpids : pids.Injective) : Together κ program where
  inv := Owned pids
  enter lk ls p i h := by
    simp only [program, SleepLocks.enter]
    split
    next hpc => exact h.goto p fun _ => h.held p (.inl hpc)
    next hpc => rwa [Function.update_eq_self]
    · exact h.goto p nofun
    · exact h.goto p nofun
  body lk ls p i h := by
    simp only [program, SleepLocks.body]
    cases hpc : (ls p).pc with
    | acquiring =>
      cases hlocked : lk.locked with
      | true =>
        simp only [if_true, Function.update_eq_self]
        exact h
      | false => exact h.acquire hpids hlocked p
    | holding =>
      refine h.goto p fun hheld => ?_
      split at hheld
      next hlk => exact (h.owner p).mpr ⟨hlk.1, hlk.2.trans (h.pid p)⟩
      · rcases hheld with hheld | hheld <;> cases hheld
    | releasing => exact h.release hpids hpc
    | acquired | released | woke => exact h.goto p nofun
    | _ =>
      simp only [Function.update_eq_self]
      exact h

/-- A process sleeps only while the lock is taken, unless the process with `lk->lk` is to wake it. -/
def wakes (κ : Type) : @Wakes κ _ _ _ _ program (fun _ => True) fun _ _ _ => True where
  cond _ lk := lk.locked = true
  may _ lk l := lk.locked = true ∨ l.pc = .released
  enter _ _ _ _ _ _ _ h := .inl h
  again _ _ _ _ _ _ h := .inl h
  body s p i l _ _ _ := by
    generalize s.data = lk
    simp only [program, SleepLocks.body]
    cases hpc : l.pc with
    | acquiring =>
      cases hlocked : lk.locked with
      | true =>
        simp only [if_true]
        exact ⟨trivial, fun _ _ => trivial⟩
      | false => exact fun _ _ => .inl rfl
    | releasing => exact fun _ _ => .inr rfl
    | released => exact fun c hne => absurd rfl hne
    | _ => exact fun c hc => hc.resolve_right nofun

/-! ## Every run -/

variable {n : Nat} {pids : Fin n → Nat}

/-- The same run, with `sleep` and `wakeup` done at once. -/
theorem view_run (acts : List (Act n Call)) : view (run (Machine.step program) (fresh pids) acts) =
    run (State.step program) (view (fresh pids)) (trace (Machine.step program) label (fresh pids) acts) :=
  run_atomic program {} _ acts

theorem owned_run (hpids : pids.Injective) (acts : List (Act n Call)) :
    let s := run (Machine.step program) (fresh pids) acts
    Owned pids s.data fun p => (s.pc p).loc := by
  intro s
  have hfresh : Owned pids (view (fresh pids)).data (view (fresh pids)).locals :=
    ⟨fun p => rfl, fun p => iff_of_false nofun nofun, nofun, fun p hp => by rcases hp with hp | hp <;> cases hp⟩
  rw [← locals_view]
  show Owned pids (view s).data (view s).locals
  rw [view_run]
  exact (owned hpids).run hfresh _

/-- **A sleep lock has one owner.** However many processes ask for the lock and let go of it, and however
their steps come, at most one has it, and `pid` is then its pid. -/
theorem exclusive (hpids : pids.Injective) (acts : List (Act n Call)) (p q : Fin n) :
    let s := run (Machine.step program) (fresh pids) acts
    (s.pc p).loc.owns = true → (s.pc q).loc.owns = true → p = q ∧ s.data = { locked := true, pid := pids p } := by
  intro s hp hq
  have howned := owned_run hpids acts
  obtain ⟨hlocked, hpid⟩ := (howned.owner p).mp hp
  exact ⟨hpids (hpid.symm.trans ((howned.owner q).mp hq).2), SleepLock.ext hlocked hpid⟩

/-- `brelse` and `iunlock` panic for those who do not have the lock, and for nobody else. -/
theorem panics_iff (hpids : pids.Injective) (acts : List (Act n Call)) (p : Fin n) (l : Local) (i : Call) :
    let s := run (Machine.step program) (fresh pids) acts
    s.pc p = .inside l → l.pc = .holding → (((s.step program (.go p i)).pc p).loc.pc = .panicked ↔ l.owns = false) := by
  intro s hp hl
  have howned := owned_run hpids acts
  have hloc : (s.pc p).loc = l := by
    rw [hp]
    rfl
  have howner : l.owns = true ↔ s.data.locked = true ∧ s.data.pid = pids p := hloc ▸ howned.owner p
  have hpid : l.pid = pids p := hloc ▸ howned.pid p
  have hstep : ((s.step program (.go p i)).pc p).loc.pc =
      if s.data.locked = true ∧ s.data.pid = l.pid then .held else .panicked := by
    simp only [Machine.step, Machine.go, hp, program, SleepLocks.body, hl, Machine.releaseLk, Machine.goto,
      Function.update_self, Pc.loc, Local.goto]
  rw [hstep, hpid, ← Bool.not_eq_true, howner]
  split
  next hlk => exact iff_of_false (by decide) fun hnot => hnot hlk
  next hlk => exact iff_of_true rfl hlk

/-- While nobody has `lk->lk`, a process sleeps on the lock only while another one has the lock, and will
have to let go of it. -/
theorem sleeps_while_owned (hpids : pids.Injective) (acts : List (Act n Call)) (q : Fin n) :
    let s := run (Machine.step program) (fresh pids) acts
    s.lk = none → s.state q = .sleeping → ∃ p, (s.pc p).loc.owns = true := by
  intro s hfree hq
  have hlocked : Locked (view (fresh pids) : State (Fin n) SleepLock Local Unit) :=
    fun p => by simp [view, fresh, boot, placeOf]
  have hwakes : (wakes (Fin n)).Holds (view s) := by
    rw [view_run]
    refine Wakes.holds_run (fun _ _ _ _ _ _ => trivial) trivial hlocked (.of_nobody ?_) ?_
    · rintro c ⟨p, l, hp⟩
      simp [view, fresh, boot, placeOf] at hp
    · refine Along.of_inv (I := fun _ => True) (fun _ _ h => h) (fun s e _ => ?_) trivial _
      cases e with
      | go p i => exact fun _ _ => trivial
      | rouse p => trivial
  obtain ⟨c, hc⟩ := Option.ne_none_iff_exists'.mp ((inv_run program _ _ acts).sleeping q hq).1
  obtain ⟨l, hl⟩ := asleep_of_sleeping (inv_run program _ _ acts) hfree hq hc
  have hfree' : (view s).lock = none := by simp only [view, hfree, Option.filter_none]
  exact (owned_run hpids acts).locked (hwakes.free c ⟨q, l, hl⟩ hfree')

end

/-- Process 0 has the lock, and process 1 sleeps on it. -/
def contended : List (Act 2 Call) :=
  List.replicate 3 (.go 0 .acquiresleep) ++ List.replicate 6 (.go 1 .acquiresleep)

theorem exclusive_contended :
    let s := run (Machine.step program) (fresh fun p : Fin 2 => p.val + 1) contended
    (0 : Fin 2) = 0 ∧ s.data = { locked := true, pid := 1 } :=
  exclusive (fun _ _ h => Fin.ext (Nat.succ.inj h)) contended 0 0 rfl rfl

theorem panics_iff_other :
    let s := run (Machine.step program) (fresh fun p : Fin 2 => p.val + 1) [.go 0 .acquiresleep, .go 0 .acquiresleep,
      .go 0 .acquiresleep, .go 1 .brelse]
    ((s.step program (.go 1 .brelse)).pc 1).loc.pc = .panicked ↔ false = false :=
  panics_iff (fun _ _ h => Fin.ext (Nat.succ.inj h)) _ 1 { pid := 2, pc := .holding } .brelse rfl rfl

theorem sleeps_while_owned_contended :
    ∃ p, ((run (Machine.step program) (fresh fun p : Fin 2 => p.val + 1) contended).pc p).loc.owns = true :=
  sleeps_while_owned (fun _ _ h => Fin.ext (Nat.succ.inj h)) contended 1 rfl rfl

end OsNetworks.Xv6.SleepLocks
