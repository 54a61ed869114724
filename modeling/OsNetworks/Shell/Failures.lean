/-
A pipeline for which one of the calls of `pipe` or `fork` fails: what the shell
has open when `execute_pipeline` returns, and for which children it has waited.
Every stage has a command, as in a line that the grammar accepts.
-/
import OsNetworks.Lib.Runs
import OsNetworks.Shell.Bookkeeping
import OsNetworks.Shell.Pipes

namespace OsNetworks.Shell
open OsNetworks OsNetworks.Runs

/-- The call that fails: the one for `pipes[i]`, or the one for stage `i`. -/
inductive Fault where
  | pipe (i : Nat)
  | fork (i : Nat)
  deriving DecidableEq, Repr

/-- A pipeline of `count` stages makes the call. -/
def Fault.Occurs (count : Nat) : Fault → Prop
  | .pipe i => i < count - 1
  | .fork i => i < count

/-- The shell after the forks and the closing of the pipes, and the waits that are left. -/
structure Faulty (α : Type) where
  shell : Fds α
  forked : List Nat
  /-- the arguments of `waitpid`, `none` for -1 -/
  waits : List (Option Nat)

/-- `execute_pipeline` for more than one stage, where `pids` are what the forks return but for the one that
fails. -/
def executeFaulty {α : Type} (pids : List Nat) (background : Bool) (shell : Fds α) : Fault → Faulty α
  | .pipe i => { shell := (createPipes i shell).1, forked := [], waits := [] }
  | .fork i =>
    let made := createPipes (pids.length - 1) shell
    { shell := Descriptors.closeAll (pipeFds made.2) made.1
      forked := pids.eraseIdx i
      waits := if background then [] else (pids.map some).set i none }

/-! ## The waits -/

structure Waiting where
  books : Books
  waits : List (Option Nat)
  /-- the children whose end was reported -/
  awaited : List Nat := []

inductive WaitEvent where
  | happens (pid : Nat) (change : Change)
  /-- The shell goes on with its next call of `waitpid`, to which the kernel reports `pid` if it is for
  any child. -/
  | wait (pid : Nat)

namespace Waiting

/-- `waitpid` blocks while none of the children that it is for has exited, and fails if there are none. -/
def step (w : Waiting) : WaitEvent → Waiting
  | .happens pid change => { w with books := w.books.change pid change.apply }
  | .wait any =>
    match w.waits with
    | [] => w
    | target :: rest =>
      let pid := target.getD any
      match (w.books.child pid).map ChildProcess.state with
      | some .exited => { books := w.books.reap pid, waits := rest, awaited := pid :: w.awaited }
      | some _ => w
      | none => if target = none ∧ w.books.children ≠ [] then w else { w with waits := rest }

end Waiting

/-- The shell has open what it had open before, and waits for no child but those of the pipeline,
whatever happens to its children meanwhile. -/
def Faulty.Intact {α : Type} (f : Faulty α) (b : Books) (shell : Descriptors α) : Prop :=
  (∀ fd, f.shell.get fd = (shell.get fd).map .inherited) ∧
    ∀ events, ∀ pid ∈ (run Waiting.step { books := b.forkStages f.forked, waits := f.waits } events).awaited,
      pid ∈ f.forked

/-! ## What is left open -/

section
variable {α : Type} {pids : List Nat} {background : Bool}

/-- After a failure of `pipe` the pipes made before it stay open. -/
theorem pipe_leaks (shell : Descriptors α) {i : Nat} (hi : 0 < i) :
    ¬ ∀ fd, (executeFaulty pids background (shell.map .inherited) (.pipe i)).shell.get fd =
      (shell.get fd).map .inherited := by
  intro h
  have hopen := createPipes_open shell i
  obtain ⟨p, hp⟩ := hopen.exists_pipe hi
  have hfree := hopen.free p.1 (mem_pipeFds.mpr ⟨0, p, hp, .inl rfl⟩)
  have hsame := h p.1
  rw [hfree] at hsame
  exact absurd (hopen.reading 0 p hp) (by rw [show (createPipes i _).1.get p.1 = none from hsame]; simp)

theorem first_pipe_get (shell : Descriptors α) (fd : Nat) :
    (executeFaulty pids background (shell.map .inherited) (.pipe 0)).shell.get fd = (shell.get fd).map .inherited :=
  Descriptors.get_map ..

theorem fork_get (shell : Descriptors α) (i fd : Nat) :
    (executeFaulty pids background (shell.map .inherited) (.fork i)).shell.get fd = (shell.get fd).map .inherited :=
  (createPipes_open shell (pids.length - 1)).closed fd

end

/-! ## Who is waited for -/

namespace Books

def pids (b : Books) : List Nat := b.children.map ChildProcess.pid

theorem pids_eq_roles (b : Books) : b.pids = b.roles.map Prod.fst := by
  rw [pids, roles, List.map_map]
  rfl

@[simp] theorem pids_change (b : Books) (pid : Nat) (f : ProcessState → ProcessState) :
    (b.change pid f).pids = b.pids := by
  rw [pids_eq_roles, roles_change, ← pids_eq_roles]

@[simp] theorem pids_reap (b : Books) (pid : Nat) : (b.reap pid).pids = b.pids.filter fun p => p ≠ pid := by
  rw [pids_eq_roles, roles_reap, pids_eq_roles, List.filter_map]
  rfl

theorem pids_forkStages (b : Books) (pids : List Nat) : (b.forkStages pids).pids = b.pids ++ pids := by
  induction pids generalizing b with
  | nil => exact (List.append_nil _).symm
  | cons pid pids ih =>
    have hfork : (b.fork pid .stage).pids = b.pids ++ [pid] := by
      rw [pids_eq_roles, roles_fork, List.map_append, ← pids_eq_roles]
      rfl
    show ((b.fork pid .stage).forkStages pids).pids = _
    rw [ih, hfork, List.append_assoc]
    rfl

theorem mem_pids_of_child {b : Books} {pid : Nat} {c : ChildProcess} (h : b.child pid = some c) : pid ∈ b.pids := by
  have hpid : c.pid = pid := by simpa using List.find?_some h
  exact List.mem_map.mpr ⟨c, List.mem_of_find?_eq_some h, hpid⟩

theorem child_change (b : Books) (pid q : Nat) (f : ProcessState → ProcessState) :
    (b.change pid f).child q = (b.child q).map fun c => if c.pid = pid then { c with state := f c.state } else c := by
  unfold child change
  rw [List.find?_map]
  congr 2
  funext c
  simp only [Function.comp]
  split <;> rfl

theorem child_reap (b : Books) {pid q : Nat} (hq : q ≠ pid) : (b.reap pid).child q = b.child q := by
  unfold child reap
  rw [List.find?_filter]
  congr 1
  funext c
  by_cases hc : c.pid = q <;> simp [hc, hq]

/-- The state of a child, as `waitpid` looks at it. -/
def stateOf (b : Books) (pid : Nat) : Option ProcessState := (b.child pid).map ChildProcess.state

theorem stateOf_exit {b : Books} {pid : Nat} (h : pid ∈ b.pids) :
    (b.change pid Change.exit.apply).stateOf pid = some .exited := by
  rw [stateOf, child_change]
  cases hc : b.child pid with
  | none =>
    obtain ⟨c, hmem, hpid⟩ := List.mem_map.mp h
    have hno := List.find?_eq_none.mp hc c hmem
    simp [hpid] at hno
  | some c =>
    have hpid : c.pid = pid := by simpa using List.find?_some hc
    simp [hpid, Change.apply]

theorem stateOf_change_ne (b : Books) {pid q : Nat} (hq : q ≠ pid) (f : ProcessState → ProcessState) :
    (b.change pid f).stateOf q = b.stateOf q := by
  rw [stateOf, stateOf, child_change]
  cases hc : b.child q with
  | none => rfl
  | some c =>
    have hpid : c.pid = q := by simpa using List.find?_some hc
    simp [hpid, hq]

end Books

namespace Waiting

/-- Only children are waited for. -/
theorem awaited_mem {forked : List Nat} {w : Waiting} (hchildren : ∀ pid ∈ w.books.pids, pid ∈ forked)
    (hawaited : ∀ pid ∈ w.awaited, pid ∈ forked) (events : List WaitEvent) :
    ∀ pid ∈ (run step w events).awaited, pid ∈ forked := by
  refine (run_inv (I := fun w : Waiting => (∀ pid ∈ w.books.pids, pid ∈ forked) ∧ ∀ pid ∈ w.awaited, pid ∈ forked)
    (fun w e hw => ?_) ⟨hchildren, hawaited⟩ events).2
  obtain ⟨hc, ha⟩ := hw
  cases e with
  | happens pid change => exact ⟨fun q hq => hc q (by simpa [step] using hq), ha⟩
  | wait any =>
    simp only [step]
    split
    · exact ⟨hc, ha⟩
    next target rest _ =>
      split
      next hexited =>
        obtain ⟨c, hchild, -⟩ := Option.map_eq_some_iff.mp hexited
        have hmem := hc _ (Books.mem_pids_of_child hchild)
        refine ⟨fun q hq => hc q ?_, fun q hq => ?_⟩
        · rw [Books.pids_reap] at hq
          exact List.mem_of_mem_filter hq
        · rcases List.mem_cons.mp hq with rfl | hq
          · exact hmem
          · exact ha q hq
      · exact ⟨hc, ha⟩
      · split <;> exact ⟨hc, ha⟩

/-- Without calls of `waitpid` none is. -/
theorem awaited_nil {w : Waiting} (hwaits : w.waits = []) (events : List WaitEvent) :
    (run step w events).awaited = w.awaited := by
  refine (run_inv (I := fun v : Waiting => v.waits = [] ∧ v.awaited = w.awaited) (fun v e hv => ?_) ⟨hwaits, rfl⟩ events).2
  cases e with
  | happens pid change => exact hv
  | wait any =>
    simp only [step, hv.1]
    exact ⟨trivial, hv.2⟩

/-- The children that are waited for first exit one after another; another one is left as it is. -/
theorem drain {ps : List Nat} {rest : List (Option Nat)} {w : Waiting} (hps : ps.Nodup)
    (hmem : ∀ p ∈ ps, p ∈ w.books.pids) (hw : w.waits = ps.map some ++ rest) {q : Nat} (hq : q ∉ ps) :
    ∃ events, (run step w events).waits = rest ∧ (run step w events).books.stateOf q = w.books.stateOf q := by
  induction ps generalizing w with
  | nil => exact ⟨[], hw, rfl⟩
  | cons p ps ih =>
    obtain ⟨hp, hps⟩ := List.nodup_cons.mp hps
    obtain ⟨hqp, hq⟩ := not_or.mp fun h => hq (List.mem_cons.mpr h)
    have hexit := Books.stateOf_exit (hmem p List.mem_cons_self)
    have hstep : step (step w (.happens p .exit)) (.wait p) =
        { books := (w.books.change p Change.exit.apply).reap p, waits := ps.map some ++ rest
          awaited := p :: w.awaited } := by
      unfold Books.stateOf at hexit
      simp [step, hw, hexit]
    have hrest : ∀ r ∈ ps, r ∈ (step (step w (.happens p .exit)) (.wait p)).books.pids := by
      intro r hr
      have hne : r ≠ p := fun he => hp (he ▸ hr)
      rw [hstep]
      simp [hmem r (List.mem_cons_of_mem p hr), hne]
    obtain ⟨events, hwaits, hstate⟩ := ih hps hrest (by rw [hstep]) hq
    refine ⟨.happens p .exit :: .wait p :: events, hwaits, hstate.trans ?_⟩
    rw [hstep]
    show ((w.books.change p Change.exit.apply).reap p).stateOf q = _
    rw [Books.stateOf, Books.child_reap _ hqp]
    exact Books.stateOf_change_ne _ hqp _

end Waiting

section
variable {α : Type} {pids : List Nat} {background : Bool} {b : Books}

/-- `waitpid(-1, ..)` can take the end of any child that the shell had before. -/
theorem takes_other (hfresh : b.Fresh pids) {i : Nat} (hi : i < pids.length) (hb : b.children ≠ []) :
    ∃ events pid, pid ∈ b.pids ∧
      pid ∈ (run Waiting.step { books := b.forkStages (pids.eraseIdx i), waits := (pids.map some).set i none }
        events).awaited := by
  obtain ⟨c, hc⟩ := List.exists_mem_of_ne_nil _ hb
  have hother : c.pid ∈ b.pids := List.mem_map_of_mem hc
  have hnot : ∀ p ∈ pids.take i, c.pid ≠ p := fun p hp he =>
    (hfresh.2 p (List.mem_of_mem_take hp)).2 (he ▸ hother)
  have hsplit : (pids.map some).set i none = (pids.take i).map some ++ none :: (pids.drop (i + 1)).map some := by
    rw [List.set_eq_take_append_cons_drop, if_pos (by simpa using hi), List.map_take, List.map_drop]
  let start : Waiting :=
    { books := (b.forkStages (pids.eraseIdx i)).change c.pid Change.exit.apply, waits := (pids.map some).set i none }
  have hpids : start.books.pids = b.pids ++ pids.eraseIdx i := by
    rw [Books.pids_change, Books.pids_forkStages]
  have hfirst : ∀ p ∈ pids.take i, p ∈ start.books.pids := by
    intro p hp
    rw [hpids, List.eraseIdx_eq_take_drop_succ]
    exact List.mem_append_right _ (List.mem_append_left _ hp)
  have hexited : start.books.stateOf c.pid = some .exited :=
    Books.stateOf_exit (by rw [Books.pids_forkStages]; exact List.mem_append_left _ hother)
  obtain ⟨events, hwaits, hstate⟩ := Waiting.drain (w := start) (hfresh.1.sublist (List.take_sublist i pids)) hfirst
    hsplit fun hp => hnot _ hp rfl
  refine ⟨.happens c.pid .exit :: (events ++ [.wait c.pid]), c.pid, hother, ?_⟩
  rw [run_cons, run_append]
  show c.pid ∈ (Waiting.step (run Waiting.step start events) (.wait c.pid)).awaited
  rw [hexited, Books.stateOf] at hstate
  simp [Waiting.step, hwaits, hstate]

/-- **When a failing call leaves the shell intact**: if it is the first `pipe`, or a `fork` of a pipeline in background, or
a `fork` while the shell has no other children. -/
theorem intact_iff {fault : Fault} (hfault : fault.Occurs pids.length) (hfresh : b.Fresh pids) (background : Bool)
    (shell : Descriptors α) :
    (executeFaulty pids background (shell.map .inherited) fault).Intact b shell ↔
      fault = .pipe 0 ∨ ∃ i, fault = .fork i ∧ (background = true ∨ b.children = []) := by
  cases fault with
  | pipe i =>
    have hwaits (events : List WaitEvent) : (run Waiting.step { books := b.forkStages [], waits := [] } events).awaited =
        [] := Waiting.awaited_nil rfl events
    constructor
    · intro h
      refine .inl (congrArg Fault.pipe ?_)
      by_contra hne
      exact pipe_leaks shell (Nat.pos_of_ne_zero hne) h.1
    · rintro (h | ⟨i, h, -⟩)
      · obtain rfl := Fault.pipe.inj h
        refine ⟨first_pipe_get shell, fun events pid hpid => ?_⟩
        exact absurd (hwaits events ▸ hpid) List.not_mem_nil
      · cases h
  | fork i =>
    have hi : i < pids.length := hfault
    cases background with
    | true =>
      refine iff_of_true ⟨fork_get shell i, fun events pid hpid => ?_⟩ (.inr ⟨i, rfl, .inl rfl⟩)
      rw [Waiting.awaited_nil rfl] at hpid
      cases hpid
    | false =>
      constructor
      · intro h
        refine .inr ⟨i, rfl, .inr ?_⟩
        by_contra hb
        obtain ⟨events, pid, hother, hawaited⟩ := takes_other hfresh hi hb
        have hforked := h.2 events pid hawaited
        exact (hfresh.2 pid (List.mem_of_mem_eraseIdx hforked)).2 hother
      · rintro (h | ⟨_, -, h | hb⟩)
        · cases h
        · cases h
        · refine ⟨fork_get shell i, Waiting.awaited_mem (fun pid hpid => ?_) fun _ hpid => nomatch hpid⟩
          rw [Books.pids_forkStages, Books.pids, hb] at hpid
          exact hpid

end

/-- A job in background that has ended, which the shell has not heard of yet. -/
def finishedJob : Books := { children := [⟨7, .background, .exited⟩] }

theorem intact_background :
    (executeFaulty [11, 12] true (standard.map .inherited) (.fork 1)).Intact finishedJob standard ↔
      Fault.fork 1 = .pipe 0 ∨ ∃ i, Fault.fork 1 = .fork i ∧ (true = true ∨ finishedJob.children = []) :=
  have hoccurs : (Fault.fork 1).Occurs [11, 12].length := show 1 < 2 by decide
  intact_iff hoccurs (by decide) true standard

/-- The second `pipe` of three stages fails, and the second `fork` of two stages when a job has ended. -/
theorem failing_calls_harm :
    ¬ (executeFaulty [11, 12, 13] false (standard.map .inherited) (.pipe 1)).Intact {} standard ∧
      ¬ (executeFaulty [11, 12] false (standard.map .inherited) (.fork 1)).Intact finishedJob standard := by
  refine ⟨fun h => pipe_leaks standard (by decide) h.1, fun h => ?_⟩
  have hforked := h.2 [.happens 11 .exit, .wait 11, .wait 7] 7 (by decide)
  exact absurd hforked (by decide)

end OsNetworks.Shell
