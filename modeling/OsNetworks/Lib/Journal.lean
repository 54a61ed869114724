/-
Redo logs. The writes of a redo log may be carried out any number of times, and
cut off anywhere in between: carried out once more to the end, they lead to the
same store. The store that such a log makes possible keeps changes only when it
commits, and commits only while no group of changes is under way.
-/
import Mathlib.Data.List.Induction
import Mathlib.Logic.Function.Basic
import OsNetworks.Lib.Refinement

namespace OsNetworks.Journal
open Relation

/-! ## Carrying out writes -/

section
variable {κ β : Type} [DecidableEq κ]

/-- The store after the writes, in order. -/
def redo (ws : List (κ × β)) (store : κ → β) : κ → β := ws.foldl (fun s w => Function.update s w.1 w.2) store

variable {ws : List (κ × β)} {s t : κ → β} {k : κ}

@[simp] theorem redo_nil (s : κ → β) : redo [] s = s := rfl

@[simp] theorem redo_cons (w : κ × β) (ws : List (κ × β)) (s : κ → β) :
    redo (w :: ws) s = redo ws (Function.update s w.1 w.2) := rfl

theorem redo_append (ws vs : List (κ × β)) (s : κ → β) : redo (ws ++ vs) s = redo vs (redo ws s) :=
  List.foldl_append

theorem redo_of_not_mem (h : k ∉ ws.map Prod.fst) : redo ws s k = s k := by
  induction ws generalizing s with
  | nil => rfl
  | cons w ws ih =>
    rw [List.map_cons, List.mem_cons, not_or] at h
    rw [redo_cons, ih h.2, Function.update_of_ne h.1]

/-- Only what is not written matters of the store before. -/
theorem redo_congr (h : k ∈ ws.map Prod.fst ∨ s k = t k) : redo ws s k = redo ws t k := by
  induction ws generalizing s t with
  | nil =>
    rcases h with h | h
    · cases h
    · exact h
  | cons w ws ih =>
    rw [redo_cons, redo_cons]
    refine ih ?_
    by_cases hk : k = w.1
    · subst hk
      right
      rw [Function.update_self, Function.update_self]
    · rw [Function.update_of_ne hk, Function.update_of_ne hk]
      rcases h with h | h
      · exact .inl ((List.mem_cons.mp h).resolve_left hk)
      · exact .inr h

/-- Writes that were cut off anywhere, and are then carried out from the start. -/
theorem redo_take (ws : List (κ × β)) (n : Nat) (s : κ → β) : redo ws (redo (ws.take n) s) = redo ws s := by
  funext k
  refine redo_congr ?_
  by_cases hk : k ∈ ws.map Prod.fst
  · exact .inl hk
  · refine .inr (redo_of_not_mem fun hmem => hk ?_)
    rw [List.map_take] at hmem
    exact List.mem_of_mem_take hmem

/-- The writes give each key the value of `v`. -/
theorem redo_of_values {v : κ → β} (h : ∀ w ∈ ws, w.2 = v w.1) :
    redo ws s k = if k ∈ ws.map Prod.fst then v k else s k := by
  induction ws generalizing s with
  | nil => rfl
  | cons w ws ih =>
    rw [redo_cons, ih fun u hu => h u (List.mem_cons_of_mem w hu), List.map_cons]
    by_cases hmem : k ∈ ws.map Prod.fst
    · rw [if_pos hmem, if_pos (List.mem_cons_of_mem _ hmem)]
    · rw [if_neg hmem]
      by_cases hk : k = w.1
      · subst hk
        rw [Function.update_self, if_pos List.mem_cons_self, h w List.mem_cons_self]
      · rw [Function.update_of_ne hk, if_neg fun hc => hmem ((List.mem_cons.mp hc).resolve_left hk)]

end

/-! ## The store that it makes possible -/

section
variable {κ β : Type} [DecidableEq κ]

/-- A store whose changes last only from the next commit on. -/
structure Store (κ β : Type) where
  /-- what is read -/
  current : κ → β
  /-- what a crash leaves -/
  durable : κ → β
  /-- the groups of changes under way -/
  active : Nat := 0

inductive Next (s : Store κ β) : Store κ β → Prop
  | start : Next s { s with active := s.active + 1 }
  | write (k : κ) (v : β) : 0 < s.active → Next s { s with current := Function.update s.current k v }
  | finish : 0 < s.active → Next s { s with active := s.active - 1 }
  | commit : s.active = 0 → Next s { s with durable := s.current }
  | crash : Next s { s with current := s.durable, active := 0 }

/-- Only a commit changes what a crash leaves. -/
theorem Next.durable {s t : Store κ β} (h : Next s t) :
    t.durable = s.durable ∨ s.active = 0 ∧ t.durable = s.current := by
  cases h with
  | start => exact .inl rfl
  | write => exact .inl rfl
  | finish => exact .inl rfl
  | commit hquiet => exact .inr ⟨hquiet, rfl⟩
  | crash => exact .inl rfl

variable {σ ι : Type} {step : σ → ι → σ} {I : σ → Prop} {view : σ → Store κ β}

/-- What a crash leaves of a machine that behaves like the store could be read at a moment at which
no group of changes was under way. -/
theorem durable_was_current (h : Runs.Refines step I view Next) {s : σ} (hs : I s)
    (hstart : (view s).active = 0 ∧ (view s).durable = (view s).current) (is : List ι) :
    ∃ before after, is = before ++ after ∧ (view (Runs.run step s before)).active = 0 ∧
      (view (Runs.run step s is)).durable = (view (Runs.run step s before)).current := by
  induction is using List.reverseRecOn with
  | nil => exact ⟨[], [], rfl, hstart⟩
  | append_singleton is i ih =>
    obtain ⟨before, after, rfl, hquiet, hdurable⟩ := ih
    have hlast : Runs.run step s (before ++ after ++ [i]) = step (Runs.run step s (before ++ after)) i :=
      Runs.run_append s _ [i]
    rw [hlast]
    have hold : ∀ t : Store κ β, t.durable = (view (Runs.run step s (before ++ after))).durable →
        ∃ before' after', before ++ after ++ [i] = before' ++ after' ∧
          (view (Runs.run step s before')).active = 0 ∧ t.durable = (view (Runs.run step s before')).current :=
      fun t ht => ⟨before, after ++ [i], List.append_assoc _ _ _, hquiet, ht.trans hdurable⟩
    rcases h.sim _ i (Runs.run_inv h.inv hs (before ++ after)) with hsame | hnext
    · exact hold _ (by rw [hsame])
    · rcases hnext.durable with hsame | ⟨hquiet, hcommit⟩
      · exact hold _ hsame
      · exact ⟨before ++ after, [i], rfl, hquiet, hcommit⟩

end

end OsNetworks.Journal
