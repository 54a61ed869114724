/-
Locks that a CPU takes and gives back. A CPU that takes a lock it holds
already, or gives back one that it does not hold, panics. The first part
follows the locks of one CPU through a piece of code while no other CPU
interferes; the second is about CPUs that wait for each other.
-/
import Mathlib.Logic.Relation
import Mathlib.Order.Basic

namespace OsNetworks.Locks

/-! ## One CPU -/

/-- What the code works on, and the locks that the CPU holds. -/
structure Holding (σ : Type) where
  data : σ
  held : List Nat

inductive LockPanic where
  | acquire
  | release
  deriving DecidableEq, Repr

abbrev Locked (σ : Type) := StateT (Holding σ) (Except LockPanic)

section
variable {σ : Type}

def acquire (lock : Nat) : Locked σ Unit := do
  let s ← get
  if lock ∈ s.held then throw .acquire
  set { s with held := lock :: s.held }

def release (lock : Nat) : Locked σ Unit := do
  let s ← get
  if lock ∈ s.held then set { s with held := s.held.erase lock }
  else throw .release

variable {s t u : Holding σ} {lock : Nat}

theorem run_acquire (h : lock ∉ s.held) :
    (acquire lock).run s = .ok ((), { s with held := lock :: s.held }) := by
  simp [acquire, h]
  rfl

theorem run_acquire_held (h : lock ∈ s.held) : (acquire lock).run s = .error .acquire := by
  simp [acquire, h]
  rfl

theorem run_release (h : lock ∈ s.held) :
    (release lock).run s = .ok ((), { s with held := s.held.erase lock }) := by
  simp [release, h]
  rfl

/-- The lock that was taken last is given back. -/
theorem run_release_last (d : σ) (held : List Nat) :
    (release lock).run ⟨d, lock :: held⟩ = .ok ((), ⟨d, held⟩) := by
  rw [run_release List.mem_cons_self, List.erase_cons_head]

/-- The one that was taken before it is given back. -/
theorem run_release_other {other : Nat} (h : lock ≠ other) (d : σ) :
    (release other).run ⟨d, [lock, other]⟩ = .ok ((), ⟨d, [lock]⟩) := by
  rw [run_release (List.mem_cons_of_mem _ List.mem_cons_self), List.erase_cons_tail (by simpa using h),
    List.erase_cons_head]

section
variable {α β : Type}

theorem run_bind_ok {x : Locked σ α} {f : α → Locked σ β} {a : α} (h : x.run s = .ok (a, t)) :
    (x >>= f).run s = (f a).run t := by
  rw [StateT.run_bind, h]
  rfl

theorem run_bind_error {x : Locked σ α} {f : α → Locked σ β} {e : LockPanic} (h : x.run s = .error e) :
    (x >>= f).run s = .error e := by
  rw [StateT.run_bind, h]
  rfl

/-- A loop that in each round takes the state `view g` to the state `view (f g a)`. -/
theorem run_foldlM {γ : Type} {step : β → α → Locked σ β} {result : γ → β} {view : γ → Holding σ} {f : γ → α → γ}
    {I : γ → List α → Prop}
    (hstep : ∀ g a as, I g (a :: as) →
      (step (result g) a).run (view g) = .ok (result (f g a), view (f g a)) ∧ I (f g a) as)
    {g : γ} {as : List α} (h : I g as) :
    (as.foldlM step (result g)).run (view g) = .ok (result (as.foldl f g), view (as.foldl f g)) := by
  induction as generalizing g with
  | nil => rfl
  | cons a as ih =>
    obtain ⟨hrun, hnext⟩ := hstep g a as h
    rw [List.foldlM_cons, run_bind_ok hrun, List.foldl_cons]
    exact ih hnext

/-- A loop whose rounds have no effect stops at the first one that panics. -/
theorem run_forM_error {step : α → Locked σ Unit} {as bs : List α} {a : α} {e : LockPanic}
    (h : ∀ b ∈ as, (step b).run s = .ok ((), s)) (ha : (step a).run s = .error e) :
    ((as ++ a :: bs).forM step).run s = .error e := by
  induction as with
  | nil => exact run_bind_error ha
  | cons b as ih =>
    show (step b >>= fun _ => (as ++ a :: bs).forM step).run s = _
    rw [run_bind_ok (h b List.mem_cons_self)]
    exact ih fun c hc => h c (List.mem_cons_of_mem b hc)

end

end

/-! ## Waiting -/

section
variable {κ ι : Type} {wants : κ → Option ι} {holds : κ → ι → Prop}

/-- The CPU `c` waits for a lock that `d` holds. -/
def WaitsFor (wants : κ → Option ι) (holds : κ → ι → Prop) (c d : κ) : Prop := ∃ l, wants c = some l ∧ holds d l

/-- Where the locks have an order, and each CPU waits for a lock above those it holds, no CPU waits
for itself through others. -/
theorem no_cycle [Preorder ι] (h : ∀ c l, wants c = some l → ∀ k, holds c k → k < l) (c : κ) :
    ¬ Relation.TransGen (WaitsFor wants holds) c c := by
  have rising : ∀ d, Relation.TransGen (WaitsFor wants holds) c d →
      ∃ l k, wants c = some l ∧ holds d k ∧ l ≤ k := by
    intro d hcd
    induction hcd with
    | single hwait =>
      obtain ⟨l, hl, hk⟩ := hwait
      exact ⟨l, l, hl, hk, le_refl l⟩
    | tail _ hwait ih =>
      obtain ⟨l, k, hl, hk, hle⟩ := ih
      obtain ⟨m, hm, hheld⟩ := hwait
      exact ⟨l, m, hl, hheld, le_of_lt (lt_of_le_of_lt hle (h _ m hm k hk))⟩
  intro hcycle
  obtain ⟨l, k, hl, hk, hle⟩ := rising c hcycle
  exact absurd (lt_of_le_of_lt hle (h c l hl k hk)) (lt_irrefl l)

end

end OsNetworks.Locks
