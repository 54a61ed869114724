/-
Refinement with stuttering: each step of a machine, seen through a view of its
state, is a step of an abstract system or none at all. What the abstract
system keeps, the machine's runs keep then too. Where the abstract step is
known by name, so is the abstract run.
-/
import Mathlib.Logic.Relation
import OsNetworks.Lib.Runs

namespace OsNetworks.Runs
open Relation

section
variable {σ ι τ : Type}

/-- From a state in `I`, which `step` keeps, each step shows as a step of `next` or not at all. -/
structure Refines (step : σ → ι → σ) (I : σ → Prop) (view : σ → τ) (next : τ → τ → Prop) : Prop where
  inv : ∀ s i, I s → I (step s i)
  sim : ∀ s i, I s → view (step s i) = view s ∨ next (view s) (view (step s i))

variable {step : σ → ι → σ} {I : σ → Prop} {view : σ → τ} {next : τ → τ → Prop}

/-- A run shows as a run of the abstract system. -/
theorem Refines.run (h : Refines step I view next) {s : σ} (hs : I s) (is : List ι) :
    ReflTransGen next (view s) (view (run step s is)) := by
  induction is generalizing s with
  | nil => exact .refl
  | cons i is ih =>
    have hrest := ih (h.inv s i hs)
    rcases h.sim s i hs with he | hn
    · rw [he] at hrest
      exact hrest
    · exact .head hn hrest

theorem reached_inv {J : τ → Prop} (hJ : ∀ t t', J t → next t t' → J t') {t u : τ} (h : ReflTransGen next t u)
    (ht : J t) : J u := by
  induction h with
  | refl => exact ht
  | tail _ hn ih => exact hJ _ _ ih hn

/-- An invariant of the abstract system holds of every state of a run. -/
theorem Refines.run_inv (h : Refines step I view next) {J : τ → Prop} (hJ : ∀ t t', J t → next t t' → J t')
    {s : σ} (hs : I s) (hv : J (view s)) (is : List ι) : J (view (Runs.run step s is)) :=
  reached_inv hJ (h.run hs is) hv

end

section
variable {σ ι τ α : Type}

/-- From a state in `I`, which `step` keeps, each step shows as the step of `next` that `label` names,
or not at all. -/
structure Traces (step : σ → ι → σ) (I : σ → Prop) (view : σ → τ) (label : σ → ι → Option α) (next : τ → α → τ) :
    Prop where
  inv : ∀ s i, I s → I (step s i)
  sim : ∀ s i, I s → view (step s i) = (label s i).elim (view s) (next (view s))

/-- The steps that a run shows as. -/
def trace (step : σ → ι → σ) (label : σ → ι → Option α) : σ → List ι → List α
  | _, [] => []
  | s, i :: is => (label s i).toList ++ trace step label (step s i) is

variable {step : σ → ι → σ} {I : σ → Prop} {view : σ → τ} {label : σ → ι → Option α} {next : τ → α → τ}

theorem Traces.step_toList (h : Traces step I view label next) {s : σ} (hs : I s) (i : ι) :
    view (step s i) = Runs.run next (view s) (label s i).toList := by
  rw [h.sim s i hs]
  cases label s i <;> rfl

theorem Traces.run (h : Traces step I view label next) {s : σ} (hs : I s) (is : List ι) :
    view (run step s is) = Runs.run next (view s) (trace step label s is) := by
  induction is generalizing s with
  | nil => rfl
  | cons i is ih => rw [run_cons, ih (h.inv s i hs), trace, run_append, h.step_toList hs]

/-- What holds of each step that shows holds along the run that shows. -/
theorem Traces.along (h : Traces step I view label next) {P : τ → α → Prop} {s : σ} (hs : I s) {is : List ι}
    (hP : Along step (fun s i => ∀ a, label s i = some a → P (view s) a) s is) :
    Along next P (view s) (trace step label s is) := by
  induction is generalizing s with
  | nil => trivial
  | cons i is ih =>
    rw [trace, Along.append, ← h.step_toList hs]
    refine ⟨?_, ih (h.inv s i hs) hP.2⟩
    cases hlabel : label s i with
    | none => trivial
    | some a => exact ⟨hP.1 a hlabel, trivial⟩

/-- Where the abstract state is known by a relation: corresponding steps keep it. -/
theorem trace_sim {R : σ → τ → Prop} (hsim : ∀ s t i, R s t → R (step s i) ((label s i).elim t (next t))) {s : σ}
    {t : τ} (h : R s t) (is : List ι) : R (run step s is) (Runs.run next t (trace step label s is)) := by
  induction is generalizing s t with
  | nil => exact h
  | cons i is ih =>
    rw [run_cons, trace, run_append]
    have hrest := ih (hsim s t i h)
    cases hlabel : label s i with
    | none => rwa [hlabel] at hrest
    | some a => rwa [hlabel] at hrest

theorem trace_along {R : σ → τ → Prop} {P : τ → α → Prop}
    (hsim : ∀ s t i, R s t → R (step s i) ((label s i).elim t (next t)))
    (hP : ∀ s t i a, R s t → label s i = some a → P t a) {s : σ} {t : τ} (h : R s t) (is : List ι) :
    Along next P t (trace step label s is) := by
  induction is generalizing s t with
  | nil => trivial
  | cons i is ih =>
    rw [trace, Along.append]
    have hrest := ih (hsim s t i h)
    cases hlabel : label s i with
    | none => exact ⟨trivial, by rwa [hlabel] at hrest⟩
    | some a => exact ⟨⟨hP s t i a h hlabel, trivial⟩, by rwa [hlabel] at hrest⟩

end

end OsNetworks.Runs
