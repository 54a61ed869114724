/-
Any number of CPUs in the loop of the FCFS scheduler at once, over one process
table with a lock for each entry. A step of a CPU is one acquire or release, or
one switch, and steps of different CPUs come in any order. Of the rest of the
kernel there is what touches the process locks: wake-ups, creations and the like
take one at a time, from a process or from an interrupt that comes while the
scheduler holds no lock.
-/
import Mathlib.Logic.Function.Basic
import OsNetworks.Lib.Locks
import OsNetworks.Lib.Runs
import OsNetworks.Xv6.Fcfs

namespace OsNetworks.Xv6.Concurrent
open OsNetworks.Locks OsNetworks.Runs OsNetworks.Selection

/-- What code does to an entry whose lock it takes. -/
inductive Visit where
  | look
  | wakeup (chan : Nat)
  | kill
  | alloc (pid : Nat) (ticks : UInt32)
  | ready
  | free

def Visit.apply : Visit → Proc → Proc
  | .look, p => p
  | .wakeup chan, p => p.woken chan
  | .kill, p => if p.state = .sleeping then { p with state := .runnable } else p
  | .alloc pid ticks, p => if p.state = .unused then p.allocated pid ticks else p
  | .ready, p => p.ready
  | .free, p => p.reaped

/-- Why a process gives up its CPU. -/
inductive Leave where
  | yield
  | sleep (chan : Nat)
  | exit

def Leave.apply : Leave → Proc → Proc
  | .yield, p => { p with state := .runnable }
  | .sleep chan, p => p.asleep chan
  | .exit, p => { p with state := .zombie }

/-- What goes on after a visit: a process, or the loop of the scheduler, which has no candidate yet. -/
inductive Back where
  | process (i : Nat)
  | scheduler (p : Nat)

/-- Where a CPU is. -/
inductive Phase where
  /-- at the head of the loop, at `p` -/
  | scanning (p : Nat) (earliest : Option Nat)
  /-- `acquire(&p->lock)` has returned -/
  | testing (p : Nat) (earliest : Option Nat)
  /-- in the process, which has not released its lock yet -/
  | dispatched (i : Nat)
  | running (i : Nat)
  /-- about to acquire the lock of `q` -/
  | entering (q : Nat) (v : Visit) (back : Back)
  | visiting (q : Nat) (v : Visit) (back : Back)
  /-- about to acquire its own lock -/
  | rejoining (i : Nat) (l : Leave)
  | leaving (i : Nat) (l : Leave)
  /-- `swtch` has returned -/
  | returned (i : Nat)
  | panicked

namespace Phase

/-- The locks that a CPU holds there. -/
def held : Phase → List Nat
  | .scanning _ e => e.toList
  | .testing p e => p :: e.toList
  | .dispatched i | .leaving i _ | .returned i => [i]
  | .visiting q _ _ => [q]
  | .running _ | .entering _ _ _ | .rejoining _ _ | .panicked => []

/-- The lock that a CPU acquires there. -/
def wants (count : Nat) : Phase → Option Nat
  | .scanning p _ => if p < count then some p else none
  | .entering q _ _ => some q
  | .rejoining i _ => some i
  | _ => none

/-- `c->proc` -/
def current : Phase → Option Nat
  | .dispatched i | .running i | .rejoining i _ | .leaving i _ | .returned i => some i
  | .entering _ _ (.process i) | .visiting _ _ (.process i) => some i
  | _ => none

end Phase

def Back.phase : Back → Phase
  | .process i => .running i
  | .scheduler p => .scanning p none

@[ext] structure System (κ : Type) where
  procs : List Proc
  /-- `lk->cpu` of the lock of each process -/
  owner : Nat → Option κ := fun _ => none
  phase : κ → Phase := fun _ => .scanning 0 none

/-- A CPU goes on, or where it can choose, it begins to visit an entry, or to leave its process. -/
inductive Act where
  | go
  | visit (q : Nat) (v : Visit)
  | leave (l : Leave)

section
variable {κ : Type}

namespace System
variable [DecidableEq κ]

def goto (s : System κ) (c : κ) (next : Phase) : System κ := { s with phase := Function.update s.phase c next }

/-- `acquire` blocks while another CPU holds the lock. -/
def acquire (s : System κ) (c : κ) (l : Nat) (next : Phase) : System κ :=
  match s.owner l with
  | none => { s with owner := Function.update s.owner l (some c), phase := Function.update s.phase c next }
  | some d => if d = c then s.goto c .panicked else s

def release (s : System κ) (c : κ) (l : Nat) (next : Phase) : System κ :=
  if s.owner l = some c then
    { s with owner := Function.update s.owner l none, phase := Function.update s.phase c next }
  else s.goto c .panicked

def setProc (s : System κ) (i : Nat) (f : Proc → Proc) : System κ := { s with procs := s.procs.modify i f }

/-- `p->state == RUNNABLE`, and `earliest == 0 || p->ctime < earliest->ctime` -/
def prefers (procs : List Proc) (p : Nat) (earliest : Option Nat) : Bool :=
  stateOf procs p = .runnable ∧ earliest.all fun e => ctimeOf procs p < ctimeOf procs e

/-- A step of the CPU `c`. -/
def step (s : System κ) : κ × Act → System κ
  | (c, a) =>
    match s.phase c, a with
    | .scanning p e, .go =>
      if p < s.procs.length then s.acquire c p (.testing p e)
      else
        match e with
        | some i => (s.setProc i fun p => { p with state := .running }).goto c (.dispatched i)
        | none => s.goto c (.scanning 0 none)
    | .testing p e, .go =>
      if prefers s.procs p e then
        match e with
        | some i => s.release c i (.scanning (p + 1) (some p))
        | none => s.goto c (.scanning (p + 1) (some p))
      else s.release c p (.scanning (p + 1) e)
    | .dispatched i, .go => s.release c i (.running i)
    | .running i, .visit q v => s.goto c (.entering q v (.process i))
    | .scanning p none, .visit q v => s.goto c (.entering q v (.scheduler p))
    | .entering q v back, .go => s.acquire c q (.visiting q v back)
    | .visiting q v back, .go => (s.setProc q v.apply).release c q back.phase
    | .running i, .leave l => s.goto c (.rejoining i l)
    | .rejoining i l, .go => s.acquire c i (.leaving i l)
    | .leaving i l, .go => (s.setProc i l.apply).goto c (.returned i)
    | .returned i, .go => s.release c i (.scanning 0 none)
    | _, _ => s

end System

/-! ## What a CPU relies on -/

namespace Phase

/-- The entries that only this CPU may take out of their state: its candidate, and its process. -/
def relies : Phase → List Nat
  | .scanning _ e | .testing _ e => e.toList
  | .returned _ => []
  | ph => ph.current.toList

/-- The candidate is RUNNABLE and before the entry that the loop is at; the process is RUNNING. -/
def Ok (procs : List Proc) : Phase → Prop
  | .scanning p e | .testing p e => ∀ i ∈ e, i < p ∧ stateOf procs i = .runnable
  | .returned _ => True
  | .panicked => False
  | ph => ∀ i ∈ ph.current, stateOf procs i = .running

theorem Ok.frame {procs procs' : List Proc} {ph : Phase} (h : ph.Ok procs)
    (hsame : ∀ i ∈ ph.relies, stateOf procs' i = stateOf procs i) : ph.Ok procs' := by
  cases ph with
  | scanning p e | testing p e =>
    intro i hi
    obtain ⟨hlt, hrun⟩ := h i hi
    exact ⟨hlt, (hsame i (Option.mem_toList.mpr hi)).trans hrun⟩
  | returned i => trivial
  | panicked => exact h
  | dispatched i | running i | rejoining i l | leaving i l | entering q v back | visiting q v back =>
    intro i hi
    exact (hsame i (Option.mem_toList.mpr hi)).trans (h i hi)

/-- What a CPU relies on is RUNNABLE and it holds the lock, or it is its process and RUNNING. -/
theorem Ok.relies {procs : List Proc} {ph : Phase} (h : ph.Ok procs) {i : Nat} (hi : i ∈ ph.relies) :
    i ∈ ph.held ∧ stateOf procs i = .runnable ∨ ph.current = some i ∧ stateOf procs i = .running := by
  cases ph with
  | scanning p e => exact .inl ⟨hi, (h i (Option.mem_toList.mp hi)).2⟩
  | testing p e => exact .inl ⟨List.mem_cons_of_mem p hi, (h i (Option.mem_toList.mp hi)).2⟩
  | returned k => exact nomatch hi
  | panicked => exact h.elim
  | dispatched k | running k | rejoining k l | leaving k l | entering q v back | visiting q v back =>
    exact .inr ⟨Option.mem_toList.mp hi, h i (Option.mem_toList.mp hi)⟩

/-- A process on a CPU is RUNNING, or the CPU holds its lock. -/
theorem Ok.current {procs : List Proc} {ph : Phase} (h : ph.Ok procs) {i : Nat} (hi : ph.current = some i) :
    i ∈ ph.held ∨ stateOf procs i = .running := by
  cases ph with
  | scanning p e | testing p e | panicked => exact nomatch hi
  | returned k => exact .inl (List.mem_singleton.mpr (Option.some.inj hi).symm)
  | dispatched k | running k | rejoining k l | leaving k l | entering q v back | visiting q v back =>
    exact .inr (h i hi)

/-- While a CPU waits for a lock, it holds only locks before that. -/
theorem Ok.below {procs : List Proc} {ph : Phase} (h : ph.Ok procs) {count l k : Nat} (hl : ph.wants count = some l)
    (hk : k ∈ ph.held) : k < l := by
  cases ph with
  | scanning p e =>
    simp only [wants] at hl
    split at hl
    · obtain rfl := Option.some.inj hl
      exact (h k (Option.mem_toList.mp hk)).1
    · cases hl
  | entering q v back | rejoining i v => exact nomatch hk
  | _ => exact nomatch hl

end Phase

theorem back_phase_held (back : Back) : back.phase.held = [] := by cases back <;> rfl

theorem back_phase_current (back : Back) (q : Nat) (v : Visit) :
    back.phase.current = (Phase.visiting q v back).current := by
  cases back <;> rfl

theorem back_phase_ok {procs : List Proc} {back : Back} {q : Nat} {v : Visit}
    (h : Phase.Ok procs (.visiting q v back)) : back.phase.Ok procs := by
  cases back with
  | process i => exact h
  | scheduler p => exact fun _ hi => nomatch hi

/-- A visit changes no process that is RUNNABLE or RUNNING. -/
theorem apply_busy {p : Proc} (hp : p.state = .runnable ∨ p.state = .running) (v : Visit) : v.apply p = p := by
  cases v with
  | look => rfl
  | wakeup chan => exact Proc.woken_busy hp chan
  | kill => exact Proc.killed_busy hp
  | alloc pid ticks => exact if_neg fun h => by simp [h] at hp
  | ready => exact Proc.ready_busy hp
  | free => exact Proc.reaped_busy hp

/-! ## The invariant -/

structure Inv (s : System κ) : Prop where
  owner : ∀ c l, s.owner l = some c ↔ l ∈ (s.phase c).held
  ok : ∀ c, (s.phase c).Ok s.procs
  exclusive : ∀ c d i, (s.phase c).current = some i → (s.phase d).current = some i → c = d

namespace Inv
variable {s : System κ} {c : κ}

theorem start (procs : List Proc) : Inv { procs : System κ } :=
  ⟨fun c l => by simp [Phase.held], fun c => by simp [Phase.Ok], fun c d i hi => nomatch hi⟩

/-- A CPU that stays with its process shares it with no other. -/
theorem alone (h : Inv s) {i : Nat} (hi : (s.phase c).current = some i) {d : κ} (hd : d ≠ c) :
    (s.phase d).current ≠ some i :=
  fun hsame => hd (h.exclusive d c i hsame hi)

/-- No other CPU holds a lock that this one holds. -/
theorem notHeld (h : Inv s) {l : Nat} (hl : l ∈ (s.phase c).held) {d : κ} (hd : d ≠ c) : l ∉ (s.phase d).held := by
  intro hheld
  have howner := (h.owner c l).mpr hl
  rw [(h.owner d l).mpr hheld] at howner
  exact hd (Option.some.inj howner)

theorem setProc (h : Inv s) (q : Nat) {f : Proc → Proc}
    (hf : stateOf s.procs q = .runnable ∨ stateOf s.procs q = .running → f (s.procs.getD q {}) = s.procs.getD q {}) :
    Inv (s.setProc q f) := by
  have hspares := Fcfs.spares_modify s.procs q hf
  refine ⟨h.owner, fun d => (h.ok d).frame fun i hi => hspares.stateOf ?_, h.exclusive⟩
  rcases (h.ok d).relies hi with ⟨-, hrun⟩ | ⟨-, hrun⟩
  · exact .inl hrun
  · exact .inr hrun

variable [DecidableEq κ]

/-- What a step of the CPU `c` has to see to. -/
theorem move (h : Inv s) {procs : List Proc} {owner : Nat → Option κ} {next : Phase}
    (hself : ∀ l, owner l = some c ↔ l ∈ next.held)
    (hother : ∀ d, d ≠ c → ∀ l, owner l = some d ↔ s.owner l = some d)
    (hok : next.Ok procs)
    (hsame : ∀ d, d ≠ c → ∀ i ∈ (s.phase d).relies, stateOf procs i = stateOf s.procs i)
    (hcurrent : ∀ i, next.current = some i → ∀ d, d ≠ c → (s.phase d).current ≠ some i) :
    Inv { procs, owner, phase := Function.update s.phase c next } := by
  refine ⟨fun d l => ?_, fun d => ?_, fun d e i hd he => ?_⟩
  · by_cases hd : d = c
    · subst hd
      simpa using hself l
    · simpa [hd] using (hother d hd l).trans (h.owner d l)
  · by_cases hd : d = c
    · subst hd
      simpa using hok
    · simpa [hd] using (h.ok d).frame (hsame d hd)
  · by_cases hdc : d = c <;> by_cases hec : e = c
    · exact hdc.trans hec.symm
    · subst hdc
      simp only [Function.update_self, Function.update_of_ne hec] at hd he
      exact absurd he (hcurrent i hd e hec)
    · subst hec
      simp only [Function.update_self, Function.update_of_ne hdc] at hd he
      exact absurd hd (hcurrent i he d hdc)
    · simp only [Function.update_of_ne hdc, Function.update_of_ne hec] at hd he
      exact h.exclusive d e i hd he

theorem goto (h : Inv s) {next : Phase} (hheld : ∀ l, l ∈ next.held ↔ l ∈ (s.phase c).held) (hok : next.Ok s.procs)
    (hcurrent : ∀ i, next.current = some i → (s.phase c).current = some i) : Inv (s.goto c next) :=
  h.move (fun l => (h.owner c l).trans (hheld l).symm) (fun _ _ _ => Iff.rfl) hok (fun _ _ _ _ => rfl)
    fun i hi _ hd => h.alone (hcurrent i hi) hd

theorem acquire (h : Inv s) {l : Nat} {next : Phase} (hfree : l ∉ (s.phase c).held)
    (hheld : ∀ k, k ∈ next.held ↔ k = l ∨ k ∈ (s.phase c).held) (hok : next.Ok s.procs)
    (hcurrent : ∀ i, next.current = some i → (s.phase c).current = some i) : Inv (s.acquire c l next) := by
  unfold System.acquire
  split
  next hnone =>
    refine h.move (fun k => ?_) (fun d hd k => ?_) hok (fun _ _ _ _ => rfl) fun i hi _ hd => h.alone (hcurrent i hi) hd
    · rw [hheld k, ← h.owner c k]
      by_cases hk : k = l
      · simp [hk]
      · simp [hk]
    · by_cases hk : k = l
      · simp [hk, hnone, hd.symm]
      · simp [hk]
  next d hd =>
    split
    next heq =>
      subst heq
      exact absurd ((h.owner d l).mp hd) hfree
    next => exact h

theorem release (h : Inv s) {l : Nat} {next : Phase} (hmem : l ∈ (s.phase c).held)
    (hheld : ∀ k, k ∈ next.held ↔ k ∈ (s.phase c).held ∧ k ≠ l) (hok : next.Ok s.procs)
    (hcurrent : ∀ i, next.current = some i → (s.phase c).current = some i) : Inv (s.release c l next) := by
  have howner := (h.owner c l).mpr hmem
  unfold System.release
  rw [if_pos howner]
  refine h.move (fun k => ?_) (fun d hd k => ?_) hok (fun _ _ _ _ => rfl) fun i hi _ hd => h.alone (hcurrent i hi) hd
  · rw [hheld k, ← h.owner c k]
    by_cases hk : k = l
    · simp [hk]
    · simp [hk]
  · by_cases hk : k = l
    · simp [hk, howner, hd.symm]
    · simp [hk]

/-- The candidate of the scan is switched to. -/
theorem dispatch (h : Inv s) {p i : Nat} (hph : s.phase c = .scanning p (some i)) :
    Inv ((s.setProc i fun p => { p with state := .running }).goto c (.dispatched i)) := by
  have hheld : i ∈ (s.phase c).held := by rw [hph]; exact List.mem_singleton_self i
  have hrun : stateOf s.procs i = .runnable := (hph ▸ h.ok c : Phase.Ok s.procs (.scanning p (some i))) i rfl |>.2
  have hlt : i < s.procs.length := lt_length_of_stateOf (live_of_runnable hrun)
  have howner (l : Nat) : s.owner l = some c ↔ l ∈ [i] := by rw [h.owner c l, hph]; rfl
  refine h.move howner (fun _ _ _ => Iff.rfl) ?_ (fun d hd k hk => ?_) fun k hk d hd hcurrent => ?_
  · intro k hk
    obtain rfl := Option.some.inj hk
    rw [stateOf, System.setProc, getD_modify _ hlt, if_pos rfl]
  · refine stateOf_modify_ne (fun heq => ?_) _ _
    subst heq
    rcases (h.ok d).relies hk with ⟨hmem, -⟩ | ⟨-, hrunning⟩
    · exact h.notHeld hheld hd hmem
    · rw [hrun] at hrunning
      cases hrunning
  · obtain rfl := Option.some.inj hk
    rcases (h.ok d).current hcurrent with hmem | hrunning
    · exact h.notHeld hheld hd hmem
    · rw [hrun] at hrunning
      cases hrunning

/-- A process switches back to the scheduler of its CPU. -/
theorem leave (h : Inv s) {i : Nat} {l : Leave} (hph : s.phase c = .leaving i l) :
    Inv ((s.setProc i l.apply).goto c (.returned i)) := by
  have hheld : i ∈ (s.phase c).held := by rw [hph]; exact List.mem_singleton_self i
  have hcurrent : (s.phase c).current = some i := by rw [hph]; rfl
  have howner (k : Nat) : s.owner k = some c ↔ k ∈ [i] := by rw [h.owner c k, hph]; rfl
  refine h.move howner (fun _ _ _ => Iff.rfl) trivial (fun d hd k hk => ?_) fun k hk d hd => ?_
  · refine stateOf_modify_ne (fun heq => ?_) _ _
    subst heq
    rcases (h.ok d).relies hk with ⟨hmem, -⟩ | ⟨hsame, -⟩
    · exact h.notHeld hheld hd hmem
    · exact h.alone hcurrent hd hsame
  · obtain rfl := Option.some.inj hk
    exact h.alone hcurrent hd

theorem scanning (h : Inv s) {p : Nat} {e : Option Nat} (hph : s.phase c = .scanning p e) :
    Inv (s.step (c, .go)) := by
  have hok : Phase.Ok s.procs (.scanning p e) := hph ▸ h.ok c
  simp only [System.step, hph]
  split
  · refine h.acquire (fun hmem => ?_) (fun k => by simp [hph, Phase.held]) hok (by simp [Phase.current])
    rw [hph] at hmem
    exact absurd (hok p (Option.mem_toList.mp hmem)).1 (Nat.lt_irrefl p)
  · cases e with
    | none => exact h.goto (fun k => by simp [hph, Phase.held]) (by simp [Phase.Ok]) (by simp [Phase.current])
    | some i => exact h.dispatch hph

theorem testing (h : Inv s) {p : Nat} {e : Option Nat} (hph : s.phase c = .testing p e) :
    Inv (s.step (c, .go)) := by
  have hok : Phase.Ok s.procs (.testing p e) := hph ▸ h.ok c
  have hne : ∀ i ∈ e, i ≠ p := fun i hi => Nat.ne_of_lt (hok i hi).1
  have hstay : ∀ i ∈ e, i < p + 1 ∧ stateOf s.procs i = .runnable := fun i hi =>
    ⟨Nat.lt_succ_of_lt (hok i hi).1, (hok i hi).2⟩
  have hnone {next : Phase} (hnext : next.current = none) (i : Nat) (hi : next.current = some i) :
      (s.phase c).current = some i := by
    rw [hnext] at hi
    cases hi
  simp only [System.step, hph]
  split
  next hpref =>
    have hrun : stateOf s.procs p = .runnable := by
      simp only [System.prefers, decide_eq_true_eq] at hpref
      exact hpref.1
    have hnew : ∀ i ∈ some p, i < p + 1 ∧ stateOf s.procs i = .runnable := by
      intro i hi
      obtain rfl := Option.some.inj hi
      exact ⟨Nat.lt_succ_self p, hrun⟩
    cases e with
    | none => exact h.goto (fun l => by simp [hph, Phase.held]) hnew (hnone rfl)
    | some i =>
      refine h.release (by simp [hph, Phase.held]) (fun l => ?_) hnew (hnone rfl)
      have := hne i rfl
      simp only [hph, Phase.held, Option.toList_some, List.mem_cons, List.not_mem_nil, or_false]
      constructor
      · rintro rfl
        exact ⟨.inl rfl, this.symm⟩
      · rintro ⟨hl, hli⟩
        exact hl.resolve_right hli
  next =>
    refine h.release (by simp [hph, Phase.held]) (fun l => ?_) hstay (hnone rfl)
    simp only [hph, Phase.held, List.mem_cons, Option.mem_toList]
    constructor
    · intro hl
      exact ⟨.inr hl, hne l hl⟩
    · rintro ⟨hl, hlp⟩
      exact hl.resolve_left hlp

theorem visiting (h : Inv s) {q : Nat} {v : Visit} {back : Back} (hph : s.phase c = .visiting q v back) :
    Inv (s.step (c, .go)) := by
  have hvisit : Inv (s.setProc q v.apply) := h.setProc q fun hq => apply_busy hq v
  have hph' : (s.setProc q v.apply).phase c = .visiting q v back := hph
  simp only [System.step, hph]
  refine hvisit.release (by simp [hph', Phase.held]) (fun k => ?_) (back_phase_ok (hph' ▸ hvisit.ok c)) fun i hi => ?_
  · rw [hph', back_phase_held]
    simp [Phase.held]
  · rw [hph', ← back_phase_current]
    exact hi

theorem go (h : Inv s) (c : κ) : Inv (s.step (c, .go)) := by
  have hok := h.ok c
  cases hph : s.phase c with
  | scanning p e => exact h.scanning hph
  | testing p e => exact h.testing hph
  | dispatched i =>
    rw [hph] at hok
    simp only [System.step, hph]
    exact h.release (by simp [hph, Phase.held]) (fun k => by simp [hph, Phase.held]) hok (by simp [hph, Phase.current])
  | running i => simpa [System.step, hph] using h
  | entering q v back =>
    rw [hph] at hok
    simp only [System.step, hph]
    refine h.acquire (by simp [hph, Phase.held]) (fun k => by simp [hph, Phase.held]) ?_ fun i hi => ?_
    · cases back <;> exact hok
    · rw [hph]
      cases back <;> exact hi
  | visiting q v back => exact h.visiting hph
  | rejoining i l =>
    rw [hph] at hok
    simp only [System.step, hph]
    exact h.acquire (by simp [hph, Phase.held]) (fun k => by simp [hph, Phase.held]) hok (by simp [hph, Phase.current])
  | leaving i l =>
    simp only [System.step, hph]
    exact h.leave hph
  | returned i =>
    simp only [System.step, hph]
    exact h.release (by simp [hph, Phase.held]) (fun k => by simp [hph, Phase.held]) (by simp [Phase.Ok])
      (by simp [Phase.current])
  | panicked =>
    rw [hph] at hok
    exact hok.elim

theorem visit (h : Inv s) (c : κ) (q : Nat) (v : Visit) : Inv (s.step (c, .visit q v)) := by
  have hok := h.ok c
  cases hph : s.phase c with
  | running i =>
    rw [hph] at hok
    simp only [System.step, hph]
    exact h.goto (fun k => by simp [hph, Phase.held]) hok (by simp [hph, Phase.current])
  | scanning p e =>
    cases e with
    | none =>
      simp only [System.step, hph]
      exact h.goto (fun k => by simp [hph, Phase.held]) (by simp [Phase.Ok, Phase.current]) (by simp [Phase.current])
    | some i => simpa [System.step, hph] using h
  | _ => simpa [System.step, hph] using h

theorem rejoin (h : Inv s) (c : κ) (l : Leave) : Inv (s.step (c, .leave l)) := by
  have hok := h.ok c
  cases hph : s.phase c with
  | running i =>
    rw [hph] at hok
    simp only [System.step, hph]
    exact h.goto (fun k => by simp [hph, Phase.held]) hok (by simp [hph, Phase.current])
  | _ => simpa [System.step, hph] using h

theorem step (h : Inv s) (c : κ) (a : Act) : Inv (s.step (c, a)) := by
  cases a with
  | go => exact h.go c
  | visit q v => exact h.visit c q v
  | leave l => exact h.rejoin c l

end Inv

/-- No CPU waits for itself through others, none is about to acquire a lock that it holds, none has found
that it does or that it does not hold one it releases, and no process is on two CPUs. -/
structure Safe (s : System κ) : Prop where
  deadlock : ∀ c, ¬ Relation.TransGen
    (WaitsFor (fun c => (s.phase c).wants s.procs.length) fun d l => s.owner l = some d) c c
  reacquire : ∀ c l, (s.phase c).wants s.procs.length = some l → s.owner l ≠ some c
  panic : ∀ c, s.phase c ≠ .panicked
  dispatch : ∀ c d i, (s.phase c).current = some i → (s.phase d).current = some i → c = d

theorem Inv.safe {s : System κ} (h : Inv s) : Safe s := by
  refine ⟨no_cycle fun c l hl k hk => ?_, fun c l hl howner => ?_, fun c hph => ?_, h.exclusive⟩
  · exact (h.ok c).below hl ((h.owner c k).mp hk)
  · exact Nat.lt_irrefl l ((h.ok c).below hl ((h.owner c l).mp howner))
  · have hok := h.ok c
    rw [hph] at hok
    exact hok

/-- **Concurrent scans are safe**, for any number of CPUs, any table to start with, and steps in any order. -/
theorem concurrent_safe [DecidableEq κ] (procs : List Proc) (steps : List (κ × Act)) :
    Safe (run System.step { procs } steps) :=
  (run_inv (I := Inv) (fun _ e h => h.step e.1 e.2) (Inv.start procs) steps).safe

/-! ## A scan that no other CPU disturbs -/

variable [DecidableEq κ]

/-- The CPU `c` is at the head of its loop, at `p`, and no lock is held but that of its candidate. -/
def System.alone (s : System κ) (c : κ) (p : Nat) (best : Option (Proc × Nat)) : System κ where
  procs := s.procs
  owner := fun l => if best.map Prod.snd = some l then some c else none
  phase := Function.update s.phase c (.scanning p (best.map Prod.snd))

theorem prefers_iff {procs : List Proc} {p : Nat} {best : Option (Proc × Nat)}
    (hbest : ∀ b ∈ best, procs.getD b.2 {} = b.1) :
    System.prefers procs p (best.map Prod.snd) = true ↔
      (procs.getD p {}).isRunnable ∧ best.all fun b => (procs.getD p {}).ctime.toNat < b.1.ctime.toNat := by
  cases best with
  | none => simp [System.prefers, Proc.isRunnable, stateOf]
  | some b =>
    simp only [System.prefers, Proc.isRunnable, stateOf, ctimeOf, Option.map_some, Option.all_some, decide_eq_true_eq,
      hbest b rfl, UInt64.lt_iff_toNat_lt]

theorem keep_eq_prefers {procs : List Proc} {p : Nat} {best : Option (Proc × Nat)}
    (hbest : ∀ b ∈ best, procs.getD b.2 {} = b.1) :
    keep (fun q => q.ctime.toNat) Proc.isRunnable best (procs.getD p {}, p) =
      if System.prefers procs p (best.map Prod.snd) then some (procs.getD p {}, p) else best :=
  if_congr (prefers_iff hbest).symm rfl rfl

theorem alone_acquire (s : System κ) (c : κ) {p : Nat} (hp : p < s.procs.length) {best : Option (Proc × Nat)}
    (hfree : best.map Prod.snd ≠ some p) :
    (s.alone c p best).step (c, .go) =
      { procs := s.procs
        owner := Function.update (s.alone c p best).owner p (some c)
        phase := Function.update s.phase c (.testing p (best.map Prod.snd)) } := by
  simp [System.step, System.alone, System.acquire, hp, hfree]

/-- Two steps are a round of the loop. -/
theorem step_alone (s : System κ) (c : κ) {p : Nat} (hp : p < s.procs.length) {best : Option (Proc × Nat)}
    (hbest : ∀ b ∈ best, b.2 < p ∧ s.procs.getD b.2 {} = b.1) :
    ((s.alone c p best).step (c, .go)).step (c, .go) =
      s.alone c (p + 1) (keep (fun q => q.ctime.toNat) Proc.isRunnable best (s.procs.getD p {}, p)) := by
  have hfree : best.map Prod.snd ≠ some p := by
    intro h
    obtain ⟨b, hb, hbp⟩ := Option.map_eq_some_iff.mp h
    have := (hbest b hb).1
    omega
  rw [alone_acquire s c hp hfree, keep_eq_prefers fun b hb => (hbest b hb).2]
  simp only [System.step, Function.update_self]
  split
  next =>
    cases best with
    | none =>
      ext1
      · rfl
      · funext l
        simp [System.goto, System.alone, Function.update_apply, eq_comm]
      · simp [System.goto, System.alone]
    | some b =>
      have hne : b.2 ≠ p := Nat.ne_of_lt (hbest b rfl).1
      have hheld : Function.update (s.alone c p (some b)).owner p (some c) b.2 = some c := by
        simp [System.alone, hne]
      simp only [Option.map_some, System.release, hheld, if_true]
      ext1
      · rfl
      · funext l
        simp only [System.alone, Function.update_apply, Option.map_some, Option.some.injEq]
        grind
      · simp [System.alone]
  next =>
    simp only [System.release, Function.update_self, if_true]
    ext1
    · rfl
    · funext l
      simp only [System.alone, Function.update_apply]
      grind
    · simp [System.alone]

theorem run_alone_go (s : System κ) (c : κ) {es : List (Proc × Nat)} {p : Nat}
    (hes : es = s.procs.zipIdx.drop p) {best : Option (Proc × Nat)}
    (hbest : ∀ b ∈ best, b.2 < p ∧ s.procs.getD b.2 {} = b.1) :
    run System.step (s.alone c p best) (List.replicate (2 * es.length) (c, .go)) =
      s.alone c (p + es.length) (es.foldl (keep (fun q => q.ctime.toNat) Proc.isRunnable) best) := by
  induction es generalizing p best with
  | nil => rfl
  | cons e es ih =>
    have hlen : p < s.procs.zipIdx.length := by
      rw [← List.drop_eq_nil_iff.not.trans Nat.not_le, ← hes]
      exact List.cons_ne_nil e es
    have hp : p < s.procs.length := by simpa using hlen
    rw [List.drop_eq_getElem_cons hlen] at hes
    obtain ⟨hhead, htail⟩ := List.cons.inj hes
    have he : e = (s.procs.getD p {}, p) := by simp [hhead, List.getElem?_eq_getElem hp]
    have hnext : ∀ b ∈ keep (fun q => q.ctime.toNat) Proc.isRunnable best (s.procs.getD p {}, p),
        b.2 < p + 1 ∧ s.procs.getD b.2 {} = b.1 := by
      intro b hb
      unfold keep at hb
      split at hb
      · obtain rfl := Option.some.inj hb
        exact ⟨Nat.lt_succ_self p, rfl⟩
      · exact ⟨Nat.lt_succ_of_lt (hbest b hb).1, (hbest b hb).2⟩
    rw [List.length_cons, Nat.mul_succ, List.replicate_succ, List.replicate_succ, run_cons, run_cons,
      step_alone s c hp hbest, ih htail hnext, List.foldl_cons, he, Nat.add_right_comm]
    rfl

/-- The loop comes to its end with the candidate that the scheduler selects on one CPU. -/
theorem run_alone (s : System κ) (c : κ) :
    run System.step (s.alone c 0 none) (List.replicate (2 * s.procs.length) (c, .go)) =
      s.alone c s.procs.length (Fcfs.earliest s.procs 0) := by
  have h := run_alone_go s c (p := 0) rfl fun b (hb : b ∈ none) => nomatch hb
  simpa [Fcfs.earliest, least] using h

end

end OsNetworks.Xv6.Concurrent
