/-
Monitors: threads that take turns with a lock, sleep on channels and wake each
other. A thread that sleeps gives the lock up and takes it again before it goes
on, so it has to look again at what it was waiting for. It may be woken for no
reason at all.

The rule for lost wakeups: whoever sleeps on a channel has a reason to, unless
the thread with the lock is still to wake the channel.
-/
import Mathlib.Logic.Function.Basic
import OsNetworks.Lib.Runs

namespace OsNetworks.Monitor
open OsNetworks.Runs

/-- What a thread with the lock does next. -/
inductive Move (σ τ χ : Type) where
  | go (d : σ) (l : τ)
  | wake (c : χ) (l : τ)
  | sleep (c : χ) (l : τ)
  | leave (l : τ)

/-- The code of the threads. `ι` is what they are given from outside. -/
structure Program (ι σ τ χ : Type) where
  /-- how a thread comes in -/
  enter : ι → τ → τ
  body : ι → σ → τ → Move σ τ χ

inductive Place (τ χ : Type) where
  | outside (l : τ)
  /-- with the lock -/
  | inside (l : τ)
  | asleep (c : χ) (l : τ)
  /-- about to take the lock again -/
  | woken (l : τ)

@[ext] structure State (κ σ τ χ : Type) where
  data : σ
  lock : Option κ := none
  place : κ → Place τ χ

inductive Event (κ ι : Type) where
  | go (p : κ) (i : ι)
  /-- `p` is woken, though nobody woke its channel -/
  | rouse (p : κ)

section
variable {κ ι σ τ χ : Type}

def Place.rouse : Place τ χ → Place τ χ
  | .asleep _ l => .woken l
  | place => place

section
variable [DecidableEq χ]

def Place.wake (c : χ) : Place τ χ → Place τ χ
  | .asleep c' l => if c' = c then .woken l else .asleep c' l
  | place => place

variable {c c' : χ} {l : τ} {place : Place τ χ}

@[simp] theorem Place.wake_eq_outside : place.wake c = .outside l ↔ place = .outside l := by
  cases place <;> simp [Place.wake]
  split <;> simp

@[simp] theorem Place.wake_eq_inside : place.wake c = .inside l ↔ place = .inside l := by
  cases place <;> simp [Place.wake]
  split <;> simp

theorem Place.wake_eq_asleep : place.wake c = .asleep c' l ↔ place = .asleep c' l ∧ c' ≠ c := by
  cases place with
  | asleep d k =>
    simp only [Place.wake]
    split
    next hd =>
      subst hd
      constructor
      · intro h
        cases h
      · rintro ⟨h, hne⟩
        cases h
        exact absurd rfl hne
    next hd =>
      constructor
      · intro h
        cases h
        exact ⟨rfl, hd⟩
      · exact fun h => h.1
  | _ => simp [Place.wake]

end

namespace State
variable [DecidableEq κ]

def goto (s : State κ σ τ χ) (p : κ) (place : Place τ χ) : State κ σ τ χ :=
  { s with place := Function.update s.place p place }

/-- `p` takes the lock if it can. -/
def take (s : State κ σ τ χ) (p : κ) (l : τ) : State κ σ τ χ :=
  if s.lock.isNone then { s.goto p (.inside l) with lock := some p } else s

variable [DecidableEq χ]

def wakeAll (s : State κ σ τ χ) (c : χ) : State κ σ τ χ := { s with place := fun q => (s.place q).wake c }

/-- What a move of `p` changes. -/
def move (s : State κ σ τ χ) (p : κ) : Move σ τ χ → State κ σ τ χ
  | .go d l => { s.goto p (.inside l) with data := d }
  | .wake c l => (s.wakeAll c).goto p (.inside l)
  | .sleep c l => { s.goto p (.asleep c l) with lock := none }
  | .leave l => { s.goto p (.outside l) with lock := none }

def step (m : Program ι σ τ χ) (s : State κ σ τ χ) : Event κ ι → State κ σ τ χ
  | .go p i =>
    match s.place p with
    | .outside l => s.take p (m.enter i l)
    | .inside l => s.move p (m.body i s.data l)
    | .asleep _ _ => s
    | .woken l => s.take p l
  | .rouse p => s.goto p (s.place p).rouse

end State

/-! ## Who has the lock -/

section
variable {s t : State κ σ τ χ} {p q : κ} {l l' : τ}

/-- The thread with the lock is the one inside. -/
def Locked (s : State κ σ τ χ) : Prop := ∀ p, s.lock = some p ↔ ∃ l, s.place p = .inside l

theorem Locked.only (h : Locked s) (hp : s.place p = .inside l) (hq : s.place q = .inside l') : q = p := by
  have hlp := (h p).mpr ⟨l, hp⟩
  have hlq := (h q).mpr ⟨l', hq⟩
  exact Option.some.inj (hlq.symm.trans hlp)

theorem Locked.nobody (h : Locked s) (hfree : s.lock = none) : ¬ s.place p = .inside l := fun hp => by
  have hlock := (h p).mpr ⟨l, hp⟩
  rw [hfree] at hlock
  cases hlock

/-- Nobody goes in or out. -/
theorem Locked.same (h : Locked s) (hlock : t.lock = s.lock)
    (hplace : ∀ q, (∃ l, t.place q = .inside l) ↔ ∃ l, s.place q = .inside l) : Locked t :=
  fun q => by rw [hlock, hplace, h q]

/-- Somebody sleeps on `c`. -/
def Sleeps (s : State κ σ τ χ) (c : χ) : Prop := ∃ p l, s.place p = .asleep c l

theorem Sleeps.of_goto [DecidableEq κ] {new : Place τ χ} {c : χ} (hnew : ∀ l, new ≠ .asleep c l)
    (h : Sleeps (s.goto p new) c) : Sleeps s c := by
  obtain ⟨q, l, hq⟩ := h
  simp only [State.goto] at hq
  by_cases hqp : q = p
  · subst hqp
    rw [Function.update_self] at hq
    exact absurd hq (hnew l)
  · rw [Function.update_of_ne hqp] at hq
    exact ⟨q, l, hq⟩

section
variable [DecidableEq κ]

theorem inside_update {place : κ → Place τ χ} {new : Place τ χ}
    (hnew : (∃ l, new = .inside l) ↔ ∃ l, place p = .inside l) (q : κ) :
    (∃ l, Function.update place p new q = .inside l) ↔ ∃ l, place q = .inside l := by
  by_cases hq : q = p
  · subst hq
    rw [Function.update_self, hnew]
  · rw [Function.update_of_ne hq]

theorem Locked.take (h : Locked s) (hfree : s.lock = none) (p : κ) (l : τ) :
    Locked { s.goto p (.inside l) with lock := some p } := by
  intro q
  simp only [State.goto]
  by_cases hq : q = p
  · subst hq
    exact iff_of_true rfl ⟨l, Function.update_self ..⟩
  · rw [Function.update_of_ne hq]
    exact iff_of_false (fun hlock => hq (Option.some.inj hlock).symm) fun ⟨l', hl'⟩ => h.nobody hfree hl'

theorem Locked.release (h : Locked s) (hp : s.place p = .inside l) {new : Place τ χ} (hnew : ∀ l', new ≠ .inside l') :
    Locked { s.goto p new with lock := none } := by
  intro q
  simp only [State.goto]
  by_cases hq : q = p
  · subst hq
    rw [Function.update_self]
    exact iff_of_false (fun hlock => (nomatch hlock)) fun ⟨l', hl'⟩ => hnew l' hl'
  · rw [Function.update_of_ne hq]
    exact iff_of_false (fun hlock => (nomatch hlock)) fun ⟨l', hl'⟩ => hq (h.only hp hl')

theorem take_cases (s : State κ σ τ χ) (p : κ) (l : τ) :
    s.take p l = s ∨ s.lock = none ∧ s.take p l = { s.goto p (.inside l) with lock := some p } := by
  unfold State.take
  cases s.lock with
  | none => exact .inr ⟨rfl, rfl⟩
  | some q => exact .inl rfl

end

end

/-! ## The steps -/

section
variable [DecidableEq κ] [DecidableEq χ]

/-- What a step may be. -/
inductive Stepped (m : Program ι σ τ χ) (s : State κ σ τ χ) : Event κ ι → State κ σ τ χ → Prop
  | same (e : Event κ ι) : Stepped m s e s
  | enter (p : κ) (i : ι) (l : τ) (hp : s.place p = .outside l) (hfree : s.lock = none) :
      Stepped m s (.go p i) { s.goto p (.inside (m.enter i l)) with lock := some p }
  | again (p : κ) (i : ι) (l : τ) (hp : s.place p = .woken l) (hfree : s.lock = none) :
      Stepped m s (.go p i) { s.goto p (.inside l) with lock := some p }
  | move (p : κ) (i : ι) (l : τ) (hp : s.place p = .inside l) : Stepped m s (.go p i) (s.move p (m.body i s.data l))
  | rouse (p : κ) (c : χ) (l : τ) (hp : s.place p = .asleep c l) : Stepped m s (.rouse p) (s.goto p (.woken l))

variable {m : Program ι σ τ χ} {s t : State κ σ τ χ} {e : Event κ ι}

theorem step_stepped (m : Program ι σ τ χ) (s : State κ σ τ χ) (e : Event κ ι) : Stepped m s e (s.step m e) := by
  cases e with
  | go p i =>
    simp only [State.step]
    split
    next l hp =>
      rcases take_cases s p (m.enter i l) with heq | ⟨hfree, heq⟩
      · rw [heq]
        exact .same _
      · rw [heq]
        exact .enter p i l hp hfree
    next l hp => exact .move p i l hp
    next c l hp => exact .same _
    next l hp =>
      rcases take_cases s p l with heq | ⟨hfree, heq⟩
      · rw [heq]
        exact .same _
      · rw [heq]
        exact .again p i l hp hfree
  | rouse p =>
    have hsame (hrouse : (s.place p).rouse = s.place p) : Stepped m s (.rouse p) (s.step m (.rouse p)) := by
      simp only [State.step, State.goto, hrouse, Function.update_eq_self]
      exact .same _
    cases hp : s.place p with
    | asleep c l =>
      simp only [State.step, hp, Place.rouse]
      exact .rouse p c l hp
    | _ => exact hsame (by rw [hp]; rfl)

theorem Locked.stepped (h : Locked s) (hs : Stepped m s e t) : Locked t := by
  cases hs with
  | same => exact h
  | enter p i l hp hfree => exact h.take hfree p _
  | again p i l hp hfree => exact h.take hfree p _
  | move p i l hp =>
    have hin : ∃ l, s.place p = .inside l := ⟨l, hp⟩
    cases m.body i s.data l with
    | go d l' => exact h.same rfl (inside_update (iff_of_true ⟨l', rfl⟩ hin))
    | wake c l' =>
      have hwoken : Locked (s.wakeAll c) := h.same rfl fun q => exists_congr fun _ => Place.wake_eq_inside
      exact hwoken.same rfl (inside_update (iff_of_true ⟨l', rfl⟩ ⟨l, Place.wake_eq_inside.mpr hp⟩))
    | sleep c l' => exact h.release hp (by simp)
    | leave l' => exact h.release hp (by simp)
  | rouse p c l hp => exact h.same rfl (inside_update (by simp [hp]))

/-! ## What holds of the data -/

/-- What is known of the data while nobody has the lock, and of them and of what a thread knows
itself while it has it. A thread goes on from `l` only if `ok`. -/
structure Outline (m : Program ι σ τ χ) (ok : ι → σ → τ → Prop) where
  free : σ → Prop
  held : σ → τ → Prop
  out : τ → Prop
  waits : χ → τ → Prop
  enter : ∀ i d l, free d → out l → held d (m.enter i l)
  again : ∀ c d l, free d → waits c l → held d l
  body : ∀ i d l, held d l → ok i d l → match m.body i d l with
    | .go d' l' => held d' l'
    | .wake _ l' => held d l'
    | .sleep c l' => free d ∧ waits c l'
    | .leave l' => free d ∧ out l'

variable {ok : ι → σ → τ → Prop}

def Outline.At (o : Outline m ok) (d : σ) : Place τ χ → Prop
  | .outside l => o.out l
  | .inside l => o.held d l
  | .asleep c l => o.waits c l
  | .woken l => ∃ c, o.waits c l

structure Outline.Holds (o : Outline m ok) (s : State κ σ τ χ) : Prop where
  locked : Locked s
  free : s.lock = none → o.free s.data
  place : ∀ p, o.At s.data (s.place p)

/-- The thread that is about to go on may do so. -/
def Allowed (ok : ι → σ → τ → Prop) (s : State κ σ τ χ) : Event κ ι → Prop
  | .go p i => ∀ l, s.place p = .inside l → ok i s.data l
  | .rouse _ => True

theorem Outline.At.wake {o : Outline m ok} {d : σ} {place : Place τ χ} (h : o.At d place) (c : χ) :
    o.At d (place.wake c) := by
  cases place with
  | asleep c' l =>
    simp only [Place.wake]
    split
    · exact ⟨c', h⟩
    · exact h
  | _ => exact h

theorem Outline.Holds.stepped {o : Outline m ok} (h : o.Holds s) (hok : Allowed ok s e) (hs : Stepped m s e t) :
    o.Holds t := by
  have hlocked := h.locked.stepped hs
  cases hs with
  | same => exact h
  | enter p i l hp hfree =>
    have hout := h.place p
    rw [hp] at hout
    refine ⟨hlocked, fun hnone => (nomatch hnone), ?_⟩
    exact (Function.forall_update_iff _ fun _ => o.At s.data).mpr
      ⟨o.enter i s.data l (h.free hfree) hout, fun q _ => h.place q⟩
  | again p i l hp hfree =>
    have hwaits := h.place p
    rw [hp] at hwaits
    obtain ⟨c, hwaits⟩ := hwaits
    refine ⟨hlocked, fun hnone => (nomatch hnone), ?_⟩
    exact (Function.forall_update_iff _ fun _ => o.At s.data).mpr
      ⟨o.again c s.data l (h.free hfree) hwaits, fun q _ => h.place q⟩
  | move p i l hp =>
    have hheld := h.place p
    rw [hp] at hheld
    have hbody := o.body i s.data l hheld (hok l hp)
    have hbusy : s.lock ≠ none := fun hnone => h.locked.nobody hnone hp
    cases hmove : m.body i s.data l with
    | go d l' =>
      rw [hmove] at hlocked hbody
      refine ⟨hlocked, fun hnone => absurd hnone hbusy, ?_⟩
      -- the data of nobody else matter
      refine (Function.forall_update_iff _ fun _ => o.At d).mpr ⟨hbody, fun q hq => ?_⟩
      have hplace := h.place q
      cases hother : s.place q with
      | inside l₂ => exact absurd (h.locked.only hp hother) hq
      | _ => rwa [hother] at hplace
    | wake c l' =>
      rw [hmove] at hlocked hbody
      refine ⟨hlocked, fun hnone => absurd hnone hbusy, ?_⟩
      exact (Function.forall_update_iff _ fun _ => o.At s.data).mpr ⟨hbody, fun q _ => (h.place q).wake c⟩
    | sleep c l' =>
      rw [hmove] at hlocked hbody
      exact ⟨hlocked, fun _ => hbody.1, (Function.forall_update_iff _ fun _ => o.At s.data).mpr
        ⟨hbody.2, fun q _ => h.place q⟩⟩
    | leave l' =>
      rw [hmove] at hlocked hbody
      exact ⟨hlocked, fun _ => hbody.1, (Function.forall_update_iff _ fun _ => o.At s.data).mpr
        ⟨hbody.2, fun q _ => h.place q⟩⟩
  | rouse p c l hp =>
    have hwaits := h.place p
    rw [hp] at hwaits
    exact ⟨hlocked, h.free, (Function.forall_update_iff _ fun _ => o.At s.data).mpr
      ⟨⟨c, hwaits⟩, fun q _ => h.place q⟩⟩

omit [DecidableEq κ] [DecidableEq χ] in
/-- What holds of the data with and without the lock. -/
theorem Outline.Holds.data {o : Outline m ok} (h : o.Holds s) {P : σ → Prop} (hfree : ∀ d, o.free d → P d)
    (hheld : ∀ d l, o.held d l → P d) : P s.data := by
  cases hlock : s.lock with
  | none => exact hfree _ (h.free hlock)
  | some p =>
    obtain ⟨l, hl⟩ := (h.locked p).mp hlock
    have hplace := h.place p
    rw [hl] at hplace
    exact hheld _ l hplace

theorem Outline.holds_run {o : Outline m ok} (h : o.Holds s) {es : List (Event κ ι)}
    (hok : Along (State.step m) (Allowed ok) s es) : o.Holds (run (State.step m) s es) :=
  run_inv_along (fun s e hs hok => hs.stepped hok (step_stepped m s e)) h hok

/-! ## What holds of all threads together -/

/-- What a thread goes on from. -/
def Place.loc : Place τ χ → τ
  | .outside l | .inside l | .asleep _ l | .woken l => l

def State.locals (s : State κ σ τ χ) : κ → τ := fun p => (s.place p).loc

omit [DecidableEq κ] in
@[simp] theorem locals_wakeAll (s : State κ σ τ χ) (c : χ) : (s.wakeAll c).locals = s.locals := by
  funext p
  simp only [State.locals, State.wakeAll]
  cases s.place p with
  | asleep c' l =>
    simp only [Place.wake]
    split <;> rfl
  | _ => rfl

omit [DecidableEq χ] in
theorem locals_goto (s : State κ σ τ χ) (p : κ) (place : Place τ χ) :
    (s.goto p place).locals = Function.update s.locals p place.loc := by
  funext q
  simp only [State.locals, State.goto]
  by_cases hq : q = p
  · subst hq
    rw [Function.update_self, Function.update_self]
  · rw [Function.update_of_ne hq, Function.update_of_ne hq, State.locals]

/-- What each move of a thread keeps of the data and of where all threads are. -/
structure Together (κ : Type) [DecidableEq κ] (m : Program ι σ τ χ) where
  inv : σ → (κ → τ) → Prop
  enter : ∀ d ls p i, inv d ls → inv d (Function.update ls p (m.enter i (ls p)))
  body : ∀ d ls p i, inv d ls → match m.body i d (ls p) with
    | .go d' l => inv d' (Function.update ls p l)
    | .wake _ l | .sleep _ l | .leave l => inv d (Function.update ls p l)

theorem Together.stepped (g : Together κ m) (h : g.inv s.data s.locals) (hs : Stepped m s e t) :
    g.inv t.data t.locals := by
  have hsame {p : κ} {l : τ} (hl : s.locals p = l) : Function.update s.locals p l = s.locals := by
    rw [← hl, Function.update_eq_self]
  cases hs with
  | same => exact h
  | enter p i l hp hfree =>
    have henter := g.enter s.data s.locals p i h
    rw [show s.locals p = l by simp only [State.locals, hp, Place.loc]] at henter
    exact (locals_goto s p _).symm ▸ henter
  | again p i l hp hfree =>
    have hlocals := locals_goto s p (.inside l)
    rw [Place.loc, hsame (by simp only [State.locals, hp, Place.loc])] at hlocals
    exact hlocals.symm ▸ h
  | move p i l hp =>
    have hbody := g.body s.data s.locals p i h
    rw [show s.locals p = l by simp only [State.locals, hp, Place.loc]] at hbody
    cases hmove : m.body i s.data l with
    | go d l' =>
      rw [hmove] at hbody
      exact (locals_goto s p (.inside l')).symm ▸ hbody
    | wake c l' =>
      rw [hmove] at hbody
      have hlocals := locals_goto (s.wakeAll c) p (.inside l')
      rw [locals_wakeAll] at hlocals
      exact hlocals.symm ▸ hbody
    | sleep c l' =>
      rw [hmove] at hbody
      exact (locals_goto s p (.asleep c l')).symm ▸ hbody
    | leave l' =>
      rw [hmove] at hbody
      exact (locals_goto s p (.outside l')).symm ▸ hbody
  | rouse p c l hp =>
    have hlocals := locals_goto s p (.woken l)
    rw [Place.loc, hsame (by simp only [State.locals, hp, Place.loc])] at hlocals
    exact hlocals.symm ▸ h

theorem Together.run (g : Together κ m) (h : g.inv s.data s.locals) (es : List (Event κ ι)) :
    g.inv (run (State.step m) s es).data (run (State.step m) s es).locals :=
  run_inv (I := fun s => g.inv s.data s.locals) (fun s e hs => g.stepped hs (step_stepped m s e)) h es

/-! ## Lost wakeups -/

/-- Whoever sleeps on `c` while nobody has the lock has the reason `cond`. While a thread at `l` has it,
somebody may sleep on `c` only if `may`. -/
structure Wakes (m : Program ι σ τ χ) (J : State κ σ τ χ → Prop) (ok : ι → σ → τ → Prop) where
  cond : χ → σ → Prop
  may : χ → σ → τ → Prop
  enter : ∀ s p i l c, J s → s.place p = .outside l → cond c s.data → may c s.data (m.enter i l)
  again : ∀ s p l c, J s → s.place p = .woken l → cond c s.data → may c s.data l
  body : ∀ s p i l, J s → s.place p = .inside l → ok i s.data l → match m.body i s.data l with
    | .go d l' => ∀ c, may c s.data l → may c d l'
    | .wake c l' => ∀ c', c' ≠ c → may c' s.data l → may c' s.data l'
    | .sleep c _ => cond c s.data ∧ ∀ c', may c' s.data l → cond c' s.data
    | .leave _ => ∀ c, may c s.data l → cond c s.data

variable {J : State κ σ τ χ → Prop}

/-- Nobody sleeps who should have been woken. -/
structure Wakes.Holds (w : Wakes m J ok) (s : State κ σ τ χ) : Prop where
  free : ∀ c, Sleeps s c → s.lock = none → w.cond c s.data
  held : ∀ c p l, Sleeps s c → s.place p = .inside l → w.may c s.data l

omit [DecidableEq κ] [DecidableEq χ] in
theorem Wakes.Holds.of_nobody {w : Wakes m J ok} (h : ∀ c, ¬ Sleeps s c) : w.Holds s :=
  ⟨fun c hc => absurd hc (h c), fun c _ _ hc => absurd hc (h c)⟩

omit [DecidableEq κ] [DecidableEq χ] in
/-- `p` is the one inside. -/
theorem Wakes.Holds.of_inside {w : Wakes m J ok} {p : κ} {l : τ} (hlocked : Locked s) (hp : s.place p = .inside l)
    (h : ∀ c, Sleeps s c → w.may c s.data l) : w.Holds s := by
  refine ⟨fun c _ hfree => absurd hp (hlocked.nobody hfree), fun c q l' hc hq => ?_⟩
  obtain rfl := hlocked.only hp hq
  rw [hp] at hq
  obtain rfl := Place.inside.inj hq
  exact h c hc

theorem Wakes.Holds.stepped {w : Wakes m J ok} (h : w.Holds s) (hJ : J s) (hlocked : Locked s) (hok : Allowed ok s e)
    (hs : Stepped m s e t) : w.Holds t := by
  have hnext := hlocked.stepped hs
  cases hs with
  | same => exact h
  | enter p i l hp hfree =>
    refine .of_inside hnext (Function.update_self ..) fun c hc => ?_
    exact w.enter s p i l c hJ hp (h.free c (Sleeps.of_goto (s := s) (by simp) hc) hfree)
  | again p i l hp hfree =>
    refine .of_inside hnext (Function.update_self ..) fun c hc => ?_
    exact w.again s p l c hJ hp (h.free c (Sleeps.of_goto (s := s) (by simp) hc) hfree)
  | move p i l hp =>
    have hbody := w.body s p i l hJ hp (hok l hp)
    cases hmove : m.body i s.data l with
    | go d l' =>
      rw [hmove] at hnext hbody
      refine .of_inside hnext (Function.update_self ..) fun c hc => ?_
      exact hbody c (h.held c p l (Sleeps.of_goto (s := s) (by simp) hc) hp)
    | wake c l' =>
      rw [hmove] at hnext hbody
      refine .of_inside hnext (Function.update_self ..) fun c' hc' => ?_
      obtain ⟨q, l₂, hq⟩ := Sleeps.of_goto (s := s.wakeAll c) (by simp) hc'
      obtain ⟨hq, hne⟩ := Place.wake_eq_asleep.mp hq
      exact hbody c' hne (h.held c' p l ⟨q, l₂, hq⟩ hp)
    | sleep c l' =>
      rw [hmove] at hnext hbody
      refine ⟨fun c' hc' _ => ?_, fun c' q l₂ _ hq => absurd hq (hnext.nobody rfl)⟩
      by_cases hcc : c' = c
      · exact hcc ▸ hbody.1
      · have hold : Sleeps s c' := Sleeps.of_goto (s := s) (p := p) (by simpa using Ne.symm hcc) hc'
        exact hbody.2 c' (h.held c' p l hold hp)
    | leave l' =>
      rw [hmove] at hnext hbody
      refine ⟨fun c hc _ => ?_, fun c q l₂ _ hq => absurd hq (hnext.nobody rfl)⟩
      exact hbody c (h.held c p l (Sleeps.of_goto (s := s) (p := p) (by simp) hc) hp)
  | rouse p c l hp =>
    have hold (c' : χ) (hc' : Sleeps (s.goto p (.woken l)) c') : Sleeps s c' := hc'.of_goto (by simp)
    refine ⟨fun c' hc' hfree => h.free c' (hold c' hc') hfree, fun c' q l' hc' hq => ?_⟩
    refine h.held c' q l' (hold c' hc') ?_
    by_cases hqp : q = p
    · subst hqp
      exact nomatch (Function.update_self ..).symm.trans hq
    · exact (Function.update_of_ne hqp ..).symm.trans hq

theorem Wakes.holds_run {w : Wakes m J ok} (hstep : ∀ s e t, J s → Allowed ok s e → Stepped m s e t → J t)
    (hJ : J s) (hlocked : Locked s) (h : w.Holds s) {es : List (Event κ ι)} (hok : Along (State.step m) (Allowed ok) s es) :
    w.Holds (run (State.step m) s es) := by
  have hall := run_inv_along (I := fun s => J s ∧ Locked s ∧ w.Holds s) (fun s e hs hok => ?_) ⟨hJ, hlocked, h⟩ hok
  · exact hall.2.2
  · have hstepped := step_stepped m s e
    exact ⟨hstep s e _ hs.1 hok hstepped, hs.2.1.stepped hstepped, hs.2.2.stepped hs.1 hs.2.1 hok hstepped⟩

end

end

end OsNetworks.Monitor
