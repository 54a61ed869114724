/-
The command `hop`: the working directory, and the one to which `hop -` goes
back. What `chdir` does with a path is given by the directories there are.
-/
import OsNetworks.Lib.Runs
import OsNetworks.Shell.Bytes

namespace OsNetworks.Shell
open OsNetworks.Runs

/-- The directories, by their canonical paths as `getcwd` gives them. -/
structure Directories where
  /-- the directory that a path leads to from a working directory -/
  chdir : (cwd path : Text) → Option Text
  /-- `home_dir`, the working directory in which the shell is started -/
  home : Text
  back : ∀ {cwd path dir}, chdir cwd path = some dir → ∀ cwd', chdir cwd' dir = some dir
  ne : ∀ {cwd path dir}, chdir cwd path = some dir → dir ≠ []
  start : ∀ cwd, chdir cwd home = some home

structure HopState where
  cwd : Text
  /-- `prev_dir` -/
  prevDir : Text := []
  /-- the working directory before the last change of it; it is added here, and no function of the
  source reads it -/
  left : Text := []
  deriving DecidableEq, Repr

/-- Why `hop` returns -1. -/
inductive HopError where
  /-- `perror("hop")` -/
  | home
  | noSuchDirectory
  deriving DecidableEq, Repr

namespace Directories

variable (d : Directories)

def boot : HopState where
  cwd := d.home

/-- `chdir(path)` -/
def change (s : HopState) (path : Text) : Option HopState :=
  (d.chdir s.cwd path).map fun dir => { s with cwd := dir, left := s.cwd }

/-- `"~"` -/
def tilde : Text := [126]

/-- `"."` -/
def dot : Text := [46]

/-- `".."` -/
def dotDot : Text := [46, 46]

/-- `"-"` -/
def dash : Text := [45]

/-- `target`, unless the argument is passed over. -/
def target (s : HopState) (arg : Text) : Option Text :=
  if arg = tilde then some d.home
  else if arg = dot then none
  else if arg = dotDot then some dotDot
  else if arg = dash then if s.prevDir = [] then none else some s.prevDir
  else some arg

/-- The body of the loop over the arguments. -/
def hopTo (s : HopState) (arg : Text) : Except HopError HopState :=
  match d.target s arg with
  | none => .ok s
  | some target =>
    let oldDir := s.cwd
    match d.change s target with
    | none => .error .noSuchDirectory
    | some s => .ok { s with prevDir := oldDir }

/-- The loop, and the error at which it stops. -/
def hopLoop (s : HopState) : (args : List Text) → HopState × Option HopError
  | [] => (s, none)
  | arg :: args =>
    match d.hopTo s arg with
    | .error e => (s, some e)
    | .ok s => hopLoop s args

/-- `cmd_hop`; the arguments are those after the word `hop`. -/
def cmdHop (s : HopState) (args : List Text) : HopState × Option HopError :=
  if args = [] then
    match d.change s d.home with
    | none => (s, some .home)
    | some s => ({ s with prevDir := s.cwd }, none)
  else d.hopLoop s args

/-- The shell after a command `hop`. -/
def step (s : HopState) (args : List Text) : HopState := (d.cmdHop s args).1

/-! ## What a command should do -/

/-- The working directory and the previous one are those that the arguments before `arg` left. -/
structure StopsAt (s : HopState) (args : List Text) (s' : HopState) (e : HopError) : Prop where
  split : ∃ before arg after, args = before ++ arg :: after ∧ d.hopLoop s before = (s', none) ∧
    d.hopTo s' arg = .error e

/-- After the command `prev_dir` is the directory that was left last, and `hop -` goes back to it;
without arguments the command does what `hop ~` does, and an argument that fails changes nothing. -/
structure Tracks (s : HopState) (args : List Text) : Prop where
  prev : (d.step s args).prevDir = (d.step s args).left
  back : (d.step s args).left ≠ [] → (d.step (d.step s args) [dash]).cwd = (d.step s args).left
  home : args = [] → d.step s args = d.step s [tilde]
  stops : ∀ e, (d.cmdHop s args).2 = some e → args ≠ [] → d.StopsAt s args (d.step s args) e

/-- `hop -` can go back. -/
structure Tidy (s : HopState) : Prop where
  prev : s.prevDir = s.left
  cwd : s.cwd ≠ [] ∧ ∀ dir, d.chdir dir s.cwd = some s.cwd
  left : s.left ≠ [] → ∀ dir, d.chdir dir s.left = some s.left

variable {d} {s s' : HopState}

/-! ## One directory change -/

theorem change_eq {path : Text} (h : d.change s path = some s') :
    ∃ dir, d.chdir s.cwd path = some dir ∧ s' = { s with cwd := dir, left := s.cwd } := by
  obtain ⟨dir, hdir, rfl⟩ := Option.map_eq_some_iff.1 h
  exact ⟨dir, hdir, rfl⟩

@[simp] theorem change_home : d.change s d.home = some { s with cwd := d.home, left := s.cwd } := by
  simp [change, d.start]

/-- An argument leaves everything as it is, or goes to a directory and remembers the one it was in. -/
theorem hopTo_cases {arg : Text} (h : d.hopTo s arg = .ok s') :
    s' = s ∨ ∃ dir path, d.chdir s.cwd path = some dir ∧ s' = ⟨dir, s.cwd, s.cwd⟩ := by
  unfold hopTo at h
  split at h
  next => exact .inl (Except.ok.inj h).symm
  next path _ =>
    split at h
    next => cases h
    next s₁ hs₁ =>
      obtain ⟨dir, hdir, rfl⟩ := change_eq hs₁
      exact .inr ⟨dir, path, hdir, (Except.ok.inj h).symm⟩

theorem boot_tidy : d.Tidy d.boot where
  prev := rfl
  cwd := ⟨d.ne (d.start []), d.start⟩
  left h := absurd rfl h

theorem Tidy.goes {dir path : Text} (h : d.Tidy s) (hdir : d.chdir s.cwd path = some dir) :
    d.Tidy ⟨dir, s.cwd, s.cwd⟩ where
  prev := rfl
  cwd := ⟨d.ne hdir, d.back hdir⟩
  left _ := h.cwd.2

theorem Tidy.hopTo {arg : Text} (h : d.Tidy s) (hs : d.hopTo s arg = .ok s') : d.Tidy s' := by
  rcases hopTo_cases hs with rfl | ⟨dir, path, hdir, rfl⟩
  · exact h
  · exact h.goes hdir

theorem Tidy.hopLoop (h : d.Tidy s) (args : List Text) : d.Tidy (d.hopLoop s args).1 := by
  induction args generalizing s with
  | nil => exact h
  | cons arg args ih =>
    rw [Directories.hopLoop]
    split
    next => exact h
    next s₁ hs₁ => exact ih (h.hopTo hs₁)

/-! ## A command -/

theorem hopLoop_stops {args : List Text} {e : HopError} (h : d.hopLoop s args = (s', some e)) :
    d.StopsAt s args s' e := by
  induction args generalizing s with
  | nil => cases h
  | cons arg args ih =>
    rw [Directories.hopLoop] at h
    split at h
    next e' he =>
      cases h
      exact ⟨[], arg, args, rfl, rfl, he⟩
    next s₁ hs₁ =>
      obtain ⟨before, bad, after, rfl, hbefore, hbad⟩ := (ih h).split
      refine ⟨arg :: before, bad, after, rfl, ?_, hbad⟩
      rw [Directories.hopLoop, hs₁]
      exact hbefore

theorem step_tilde : d.step s [tilde] = ⟨d.home, s.cwd, s.cwd⟩ := by
  simp [step, cmdHop, Directories.hopLoop, Directories.hopTo, target]

/-- Without arguments the command remembers the directory it goes to. -/
theorem step_none : d.step s [] = ⟨d.home, d.home, s.cwd⟩ := by
  simp [step, cmdHop]

theorem step_args {args : List Text} (h : args ≠ []) : d.step s args = (d.hopLoop s args).1 := by
  rw [step, cmdHop, if_neg h]

theorem Tidy.hop_back (h : d.Tidy s) (hleft : s.left ≠ []) : (d.step s [dash]).cwd = s.left := by
  have htarget : d.target s dash = some s.left := by
    simp [target, dash, tilde, dot, dotDot, h.prev, hleft]
  simp [step, cmdHop, Directories.hopLoop, Directories.hopTo, htarget, change, h.left hleft]

/-- A command keeps track where it has arguments, or was in the home directory anyway. -/
theorem Tidy.step {args : List Text} (h : d.Tidy s) (hargs : args = [] → s.cwd = d.home) :
    d.Tidy (d.step s args) := by
  by_cases hnil : args = []
  · subst hnil
    rw [step_none, ← hargs rfl]
    exact h.goes (h.cwd.2 s.cwd)
  · rw [step_args hnil]
    exact h.hopLoop args

theorem Tidy.tracks_iff (h : d.Tidy s) (args : List Text) : d.Tracks s args ↔ (args = [] → s.cwd = d.home) := by
  constructor
  · rintro ht rfl
    have hprev := ht.prev
    rw [step_none] at hprev
    exact hprev.symm
  · intro hargs
    have htidy := h.step hargs
    refine ⟨htidy.prev, htidy.hop_back, ?_, ?_⟩
    · rintro rfl
      rw [step_none, step_tilde, hargs rfl]
    · intro e he hne
      rw [cmdHop, if_neg hne] at he
      rw [step_args hne]
      exact hopLoop_stops (Prod.ext rfl he)

/-- `hop` keeps track of the previous directory along a session exactly where it is called
without arguments in the home directory only. -/
theorem hop_tracks_iff (d : Directories) (invocations : List (List Text)) :
    Along d.step d.Tracks d.boot invocations ↔
      Along d.step (fun s args => args = [] → s.cwd = d.home) d.boot invocations :=
  Along.iff (fun _ args h => h.tracks_iff args) (fun _ args h ht => h.step ((h.tracks_iff args).1 ht))
    boot_tidy invocations

/-! ## `hop` away from home -/

/-- Two directories, `/h` and `/t`. -/
def two : Directories where
  chdir _ path := if path = [47, 104] ∨ path = [47, 116] then some path else none
  home := [47, 104]
  back h _ := by
    obtain ⟨hpath, heq⟩ := Option.ite_none_right_eq_some.1 h
    cases heq
    exact if_pos hpath
  ne h := by
    obtain ⟨hpath, heq⟩ := Option.ite_none_right_eq_some.1 h
    cases heq
    rcases hpath with rfl | rfl <;> simp
  start _ := rfl

/-- After `hop /t` and `hop` the previous directory is `/h` and not `/t`. -/
theorem hop_forgets : ¬ Along two.step two.Tracks two.boot [[[47, 116]], []] := by
  intro h
  have hprev := h.2.1.prev
  revert hprev
  decide

end Directories

end OsNetworks.Shell
