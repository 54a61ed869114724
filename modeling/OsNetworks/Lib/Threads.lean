/-
Threads that each are at some place of a program. The places are weighed, so
that what the threads hold together can be counted, and single places can be
kept to one thread.
-/
import Mathlib.Algebra.BigOperators.Ring.Finset
import Mathlib.Algebra.Order.BigOperators.Group.Finset

namespace OsNetworks.Threads

section
variable {κ α : Type} [Fintype κ]

/-- The weight of the places of all threads. -/
def total (w : α → Nat) (place : κ → α) : Nat := ∑ c, w (place c)

variable {w : α → Nat} {place : κ → α}

/-- One thread moves. -/
theorem total_update [DecidableEq κ] (w : α → Nat) (place : κ → α) (c : κ) (a : α) :
    total w (Function.update place c a) + w (place c) = total w place + w a := by
  have hsplit (f : κ → α) : total w f = w (f c) + ∑ d ∈ Finset.univ.erase c, w (f d) :=
    (Finset.add_sum_erase _ _ (Finset.mem_univ c)).symm
  have hrest : ∑ d ∈ Finset.univ.erase c, w (Function.update place c a d) = ∑ d ∈ Finset.univ.erase c, w (place d) :=
    Finset.sum_congr rfl fun d hd => by rw [Function.update_of_ne (Finset.ne_of_mem_erase hd)]
  rw [hsplit, hsplit place, Function.update_self, hrest]
  omega

/-- Every thread moves to a place of the same weight. -/
theorem total_congr {other : κ → α} (h : ∀ c, w (other c) = w (place c)) : total w other = total w place :=
  Finset.sum_congr rfl fun c _ => h c

theorem le_total (w : α → Nat) (place : κ → α) (c : κ) : w (place c) ≤ total w place :=
  Finset.single_le_sum (f := fun c => w (place c)) (fun _ _ => Nat.zero_le _) (Finset.mem_univ c)

theorem total_eq_zero (h : ∀ c, w (place c) = 0) : total w place = 0 := Finset.sum_eq_zero fun c _ => h c

theorem total_le_mul {v : α → Nat} {k : Nat} (h : ∀ a, v a ≤ k * w a) (place : κ → α) :
    total v place ≤ k * total w place := by
  unfold total
  rw [Finset.mul_sum]
  exact Finset.sum_le_sum fun c _ => h (place c)

end

section
variable {κ α : Type} {P : α → Prop} {place : κ → α}

/-- No two threads are at places of the kind `P`. -/
def AtMostOne (P : α → Prop) (place : κ → α) : Prop := ∀ c d, P (place c) → P (place d) → c = d

/-- A thread may move to such a place if it was the one at one, or there was none. -/
theorem AtMostOne.update [DecidableEq κ] (h : AtMostOne P place) {c : κ} {a : α}
    (ha : P a → ∀ d, P (place d) → d = c) : AtMostOne P (Function.update place c a) := by
  intro d e hd he
  by_cases hdc : d = c <;> by_cases hec : e = c
  · exact hdc.trans hec.symm
  · subst hdc
    rw [Function.update_self] at hd
    rw [Function.update_of_ne hec] at he
    exact (ha hd e he).symm
  · subst hec
    rw [Function.update_self] at he
    rw [Function.update_of_ne hdc] at hd
    exact ha he d hd
  · rw [Function.update_of_ne hdc] at hd
    rw [Function.update_of_ne hec] at he
    exact h d e hd he

end

end OsNetworks.Threads
