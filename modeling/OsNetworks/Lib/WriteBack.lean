/-
A store with a cache in front of it. Each key has one content that all see, and
what the store keeps of it; a key that is not pinned may fall back to the
latter.
-/
import Mathlib.Logic.Function.Basic
import OsNetworks.Lib.Runs

namespace OsNetworks.WriteBack
open Runs

structure Store (κ β : Type) where
  cache : κ → β
  disk : κ → β
  pins : κ → Nat

inductive Effect (κ β : Type) where
  | write (a : κ) (v : β)
  /-- The content reaches the disk. -/
  | flush (a : κ)
  /-- The content is lost, and what is on the disk is seen again. -/
  | evict (a : κ)
  | pin (a : κ)
  | unpin (a : κ)

variable {κ β : Type}

/-- What every store starts as. -/
def Store.cold (disk : κ → β) : Store κ β := ⟨disk, disk, fun _ => 0⟩

/-- What is pinned is not evicted. -/
def Safe (s : Store κ β) (e : Effect κ β) : Prop := ∀ a, e = .evict a → s.pins a = 0

variable [DecidableEq κ]

def Store.step (s : Store κ β) : Effect κ β → Store κ β
  | .write a v => { s with cache := Function.update s.cache a v }
  | .flush a => { s with disk := Function.update s.disk a (s.cache a) }
  | .evict a => { s with cache := Function.update s.cache a (s.disk a) }
  | .pin a => { s with pins := Function.update s.pins a (s.pins a + 1) }
  | .unpin a => { s with pins := Function.update s.pins a (s.pins a - 1) }

theorem step_kept {s : Store κ β} {a : κ} {e : Effect κ β} (hpin : s.pins a ≠ 0) (hsafe : Safe s e)
    (hwrite : ∀ v, e ≠ .write a v) (hunpin : e ≠ .unpin a) :
    (s.step e).cache a = s.cache a ∧ (s.step e).pins a ≠ 0 := by
  cases e with
  | write b v =>
    have hb : a ≠ b := fun he => hwrite v (by rw [he])
    simpa [Store.step, hb] using hpin
  | flush b => exact ⟨rfl, hpin⟩
  | evict b =>
    have hb : a ≠ b := fun he => hpin (he ▸ hsafe b rfl)
    simpa [Store.step, hb] using hpin
  | pin b =>
    by_cases hb : a = b
    · subst hb
      simp [Store.step]
    · simpa [Store.step, hb] using hpin
  | unpin b =>
    have hb : a ≠ b := fun he => hunpin (by rw [he])
    simpa [Store.step, hb] using hpin

/-- **What is pinned is kept**, until it is written or no longer pinned. -/
theorem pinned_kept {s : Store κ β} {a : κ} {es : List (Effect κ β)} (hpin : s.pins a ≠ 0)
    (hsafe : Along Store.step Safe s es) (hwrite : ∀ v, .write a v ∉ es) (hunpin : .unpin a ∉ es) :
    (run Store.step s es).cache a = s.cache a := by
  induction es generalizing s with
  | nil => rfl
  | cons e es ih =>
    simp only [List.mem_cons, not_or] at hwrite hunpin
    obtain ⟨hcache, hpins⟩ := step_kept hpin hsafe.1 (fun v he => (hwrite v).1 he.symm) fun he => hunpin.1 he.symm
    rw [run_cons, ih hpins hsafe.2 (fun v => (hwrite v).2) hunpin.2, hcache]

end OsNetworks.WriteBack
