/-
Copying a list from one place to another, piece by piece: what may be told and
written on the way, and when.
-/
import Mathlib.Logic.Relation
import OsNetworks.Lib.Refinement

namespace OsNetworks.Copying
open Relation Runs

variable {α : Type}

/-- A copy under way. -/
structure Copy (α : Type) where
  /-- what has arrived -/
  held : List α := []
  /-- the sender says that it is done -/
  reported : Bool := false
  /-- what the receiver wrote out, when it did -/
  written : Option (List α) := none

/-- One step of a copy of `source`. -/
inductive Next (source : List α) (c : Copy α) : Copy α → Prop
  | arrive {block : List α} : c.held ++ block <+: source → Next source c { c with held := c.held ++ block }
  | report : c.held = source → Next source c { c with reported := true }
  | write : c.reported = true → Next source c { c with written := some c.held }

/-- The copy is right as far as it has gone. -/
structure Sound (source : List α) (c : Copy α) : Prop where
  held : c.held <+: source
  reported : c.reported = true → c.held = source
  written : ∀ out, c.written = some out → c.reported = true ∧ out = source

/-- Nothing is taken back on the way from `c` to `c'`. -/
structure Grows (c c' : Copy α) : Prop where
  held : c.held <+: c'.held
  reported : c.reported = true → c'.reported = true
  written : ∀ out, c.written = some out → c'.written = some out

section
variable {source : List α} {c c' : Copy α}

theorem Sound.start (source : List α) : Sound source {} :=
  ⟨List.nil_prefix, by simp, by simp⟩

theorem Sound.next (h : Sound source c) (hn : Next source c c') : Sound source c' := by
  cases hn with
  | arrive hp =>
    refine ⟨hp, fun hr => ?_, h.written⟩
    -- past the end there is nothing left to arrive
    have hall := h.reported hr
    rw [hall] at hp
    show c.held ++ _ = source
    rw [hall]
    exact hp.eq_of_length_le (by simp)
  | report he => exact ⟨h.held, fun _ => he, fun out ho => ⟨rfl, (h.written out ho).2⟩⟩
  | write hr =>
    refine ⟨h.held, h.reported, fun out ho => ⟨hr, ?_⟩⟩
    rw [← h.reported hr]
    exact (Option.some.inj ho).symm

theorem Sound.reached (h : Sound source c) (hr : ReflTransGen (Next source) c c') : Sound source c' :=
  reached_inv (J := Sound source) (fun _ _ => Sound.next) hr h

theorem Grows.refl (c : Copy α) : Grows c c := ⟨List.prefix_rfl, id, fun _ => id⟩

theorem Grows.trans {c'' : Copy α} (h : Grows c c') (h' : Grows c' c'') : Grows c c'' :=
  ⟨h.held.trans h'.held, fun hr => h'.reported (h.reported hr), fun out ho => h'.written out (h.written out ho)⟩

theorem Sound.grows_next (h : Sound source c) (hn : Next source c c') : Grows c c' := by
  cases hn with
  | arrive => exact ⟨List.prefix_append _ _, id, fun _ => id⟩
  | report => exact ⟨List.prefix_rfl, fun _ => rfl, fun _ => id⟩
  | write hr =>
    refine ⟨List.prefix_rfl, id, fun out ho => ?_⟩
    rw [(h.written out ho).2, ← h.reported hr]

/-- Along a copy that is right so far, what has arrived, was reported or was written stays. -/
theorem Sound.grows (h : Sound source c) (hr : ReflTransGen (Next source) c c') : Grows c c' := by
  induction hr with
  | refl => exact .refl c
  | tail hcd hn ih => exact ih.trans ((h.reached hcd).grows_next hn)

end

end OsNetworks.Copying
