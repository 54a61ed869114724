/-
When machines stop and descents end: machines whose step may have no successor,
and relations along which only finitely many values can be reached, which
descend for ever exactly if one of these leads back to itself.
-/
import Mathlib.Data.Fintype.Card
import Mathlib.Logic.Relation

namespace OsNetworks.Descent
open Relation

/-! ## Machines that stop -/

section
variable {σ : Type} (step : σ → Option σ)

/-- The state after `n` steps, if the machine has not stopped before. -/
def steps : Nat → σ → Option σ
  | 0, s => some s
  | n + 1, s => (step s).bind (steps n)

/-- The machine stops at some time. -/
def Halts (s : σ) : Prop := ∃ n, steps step n s = none

variable {step}

theorem steps_add (m n : Nat) (s : σ) : steps step (m + n) s = (steps step m s).bind (steps step n) := by
  induction m generalizing s with
  | zero => simp [steps]
  | succ m ih =>
    rw [Nat.succ_add]
    simp only [steps]
    cases step s with
    | none => rfl
    | some t => exact ih t

theorem Halts.of_steps {n : Nat} {s t : σ} (hs : steps step n s = some t) (h : Halts step t) : Halts step s := by
  obtain ⟨m, hm⟩ := h
  exact ⟨n + m, by rw [steps_add, hs, Option.bind_some, hm]⟩

end

/-! ## Descents -/

section
variable {α : Type} {r : α → α → Prop} {a b : α}

theorem acc_reached (h : Acc (Function.swap r) a) (hab : ReflTransGen r a b) : Acc (Function.swap r) b := by
  induction hab with
  | refl => exact h
  | tail _ hbc ih => exact ih.inv hbc

theorem no_return (h : Acc (Function.swap r) a) : ¬ TransGen r a a := by
  induction h with
  | intro a _ ih =>
    intro haa
    -- the first step of the way back starts a way back of its own
    obtain ⟨b, hab, hba⟩ := TransGen.head'_iff.mp haa
    exact ih b hab (TransGen.tail' hba hab)

/-- Where finitely many values can be reached, every descent ends if and only if none of them leads
back to itself. -/
theorem acc_iff_no_cycle (hfin : {b | ReflTransGen r a b}.Finite) :
    Acc (Function.swap r) a ↔ ∀ b, ReflTransGen r a b → ¬ TransGen r b b := by
  constructor
  · exact fun h b hab => no_return (acc_reached h hab)
  · intro hno
    have : Finite {b // ReflTransGen r a b} := hfin
    let below : {b // ReflTransGen r a b} → {b // ReflTransGen r a b} → Prop := fun c b => TransGen r b.1 c.1
    have htrans : IsTrans _ below := ⟨fun _ _ _ hcb hba => hba.trans hcb⟩
    have hirrefl : Std.Irrefl below := ⟨fun b hbb => hno b.1 b.2 hbb⟩
    have hwf : WellFounded below := Finite.wellFounded_of_trans_of_irrefl below
    have hall : ∀ b : {b // ReflTransGen r a b}, Acc (Function.swap r) b.1 := fun b => by
      induction b using hwf.induction with
      | _ b ih => exact ⟨b.1, fun c hbc => ih ⟨c, b.2.tail hbc⟩ (.single hbc)⟩
    exact hall ⟨a, .refl⟩

end

end OsNetworks.Descent
