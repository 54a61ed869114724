/-
Runs of a machine whose step is a total function of its state and one input:
the state a list of inputs leads to, properties that hold along the way, the
invariant rules, and simulation between two machines fed step by step.
-/

namespace OsNetworks.Runs

section
variable {σ ι : Type} (step : σ → ι → σ)

/-- The state after the inputs `is`, taken one at a time. -/
def run (s : σ) (is : List ι) : σ := is.foldl step s

/-- `P` holds of each state on the way together with the input it is about to take. -/
def Along (P : σ → ι → Prop) : σ → List ι → Prop
  | _, [] => True
  | s, i :: is => P s i ∧ Along P (step s i) is

instance Along.decidable {P : σ → ι → Prop} [∀ s i, Decidable (P s i)] :
    (s : σ) → (is : List ι) → Decidable (Along step P s is)
  | _, [] => .isTrue trivial
  | s, i :: is => @instDecidableAnd _ _ _ (Along.decidable (step s i) is)

/-- `t` is reached from `s` by inputs of the kind `A`. -/
def Reaches (A : ι → Prop) (s t : σ) : Prop := ∃ is, (∀ i ∈ is, A i) ∧ run step s is = t

variable {step}

@[simp] theorem run_nil (s : σ) : run step s [] = s := rfl

@[simp] theorem run_cons (s : σ) (i : ι) (is : List ι) : run step s (i :: is) = run step (step s i) is := rfl

theorem run_append (s : σ) (is js : List ι) : run step s (is ++ js) = run step (run step s is) js := by
  simp [run, List.foldl_append]

theorem Along.append {P : σ → ι → Prop} :
    ∀ {s : σ} {is js : List ι}, Along step P s (is ++ js) ↔ Along step P s is ∧ Along step P (run step s is) js
  | s, [], js => by simp [Along]
  | s, i :: is, js => by
    simp only [List.cons_append, Along, run_cons, Along.append, and_assoc]

/-! ## Invariants -/

theorem run_inv {I : σ → Prop} (hstep : ∀ s i, I s → I (step s i)) {s : σ} (h : I s) (is : List ι) :
    I (run step s is) := by
  induction is generalizing s with
  | nil => exact h
  | cons i is ih => exact ih (hstep s i h)

/-- An invariant that a step keeps only when `P` holds of it. -/
theorem run_inv_along {I : σ → Prop} {P : σ → ι → Prop} (hstep : ∀ s i, I s → P s i → I (step s i))
    {s : σ} {is : List ι} (h : I s) (ha : Along step P s is) : I (run step s is) := by
  induction is generalizing s with
  | nil => exact h
  | cons i is ih => exact ih (hstep s i h ha.1) ha.2

/-- What each step from a state in `I` has, when it has `P` and `P` keeps `I`. -/
theorem Along.imp {I : σ → Prop} {P Q : σ → ι → Prop} (hQ : ∀ s i, I s → P s i → Q s i)
    (hstep : ∀ s i, I s → P s i → I (step s i)) {s : σ} {is : List ι} (h : I s) (ha : Along step P s is) :
    Along step Q s is := by
  induction is generalizing s with
  | nil => trivial
  | cons i is ih => exact ⟨hQ s i h ha.1, ih (hstep s i h ha.1) ha.2⟩

theorem Along.of_inv {I : σ → Prop} {P : σ → ι → Prop} (hstep : ∀ s i, I s → I (step s i))
    (hP : ∀ s i, I s → P s i) {s : σ} (h : I s) (is : List ι) : Along step P s is := by
  induction is generalizing s with
  | nil => trivial
  | cons i is ih => exact ⟨hP s i h, ih (hstep s i h)⟩

/-- Two properties that agree at each step from a state in `I`, where the first keeps
`I`, agree along every run from `I`. -/
theorem Along.iff {I : σ → Prop} {P Q : σ → ι → Prop} (hPQ : ∀ s i, I s → (P s i ↔ Q s i))
    (hstep : ∀ s i, I s → P s i → I (step s i)) {s : σ} (h : I s) (is : List ι) :
    Along step P s is ↔ Along step Q s is := by
  induction is generalizing s with
  | nil => simp [Along]
  | cons i is ih =>
    simp only [Along]
    constructor
    · intro hp
      obtain ⟨h1, h2⟩ := hp
      exact ⟨(hPQ s i h).1 h1, (ih (hstep s i h h1)).1 h2⟩
    · intro hq
      obtain ⟨h1, h2⟩ := hq
      have h1' := (hPQ s i h).2 h1
      exact ⟨h1', (ih (hstep s i h h1')).2 h2⟩

/-! ## Reaching -/

variable {A : ι → Prop}

theorem Reaches.refl (s : σ) : Reaches step A s s := ⟨[], by simp, rfl⟩

theorem Reaches.trans {s t u : σ} (h₁ : Reaches step A s t) (h₂ : Reaches step A t u) : Reaches step A s u := by
  obtain ⟨is, his, rfl⟩ := h₁
  obtain ⟨js, hjs, rfl⟩ := h₂
  refine ⟨is ++ js, fun i hi => ?_, run_append s is js⟩
  rcases List.mem_append.mp hi with hi | hi
  · exact his i hi
  · exact hjs i hi

theorem Reaches.one {s : σ} {i : ι} (hi : A i) : Reaches step A s (step s i) :=
  ⟨[i], by simpa using hi, rfl⟩

theorem Reaches.cons {s t : σ} {i : ι} (hi : A i) (h : Reaches step A (step s i) t) : Reaches step A s t :=
  (Reaches.one hi).trans h

/-- Where each state in `P` reaches `Q`, or reaches a state in `P` of smaller rank, every
state in `P` reaches `Q`. -/
theorem Reaches.descend {P Q : σ → Prop} (rank : σ → Nat)
    (h : ∀ s, P s → (∃ t, Reaches step A s t ∧ Q t) ∨ ∃ t, Reaches step A s t ∧ P t ∧ rank t < rank s)
    {s : σ} (hs : P s) : ∃ t, Reaches step A s t ∧ Q t := by
  generalize hn : rank s = n
  induction n using Nat.strongRecOn generalizing s with
  | ind n ih =>
    rcases h s hs with hq | ⟨t, hst, ht, hlt⟩
    · exact hq
    · obtain ⟨u, htu, hu⟩ := ih (rank t) (hn ▸ hlt) ht rfl
      exact ⟨u, hst.trans htu, hu⟩

/-- What every input of any kind keeps, a reached state still has. -/
theorem Reaches.inv {I : σ → Prop} (hstep : ∀ s i, I s → I (step s i)) {s t : σ} (hs : I s)
    (h : Reaches step A s t) : I t := by
  obtain ⟨is, -, rfl⟩ := h
  exact run_inv hstep hs is

/-- What every input of the kind `A` keeps, a reached state still has. -/
theorem Reaches.inv_of {I : σ → Prop} (hstep : ∀ s i, A i → I s → I (step s i)) {s t : σ} (hs : I s)
    (h : Reaches step A s t) : I t := by
  obtain ⟨is, his, rfl⟩ := h
  induction is generalizing s with
  | nil => exact hs
  | cons i is ih =>
    rw [List.forall_mem_cons] at his
    exact ih (hstep s i his.1 hs) his.2

end

/-! ## Two machines fed together -/

section
variable {σ ι ο : Type} (step : σ → ι → σ × List ο)

/-- The state after the inputs `is` and everything put out on the way, in order. -/
def feed (s : σ) : List ι → σ × List ο
  | [] => (s, [])
  | i :: is => ((feed (step s i).1 is).1, (step s i).2 ++ (feed (step s i).1 is).2)

variable {step}

@[simp] theorem feed_nil (s : σ) : feed step s [] = (s, []) := rfl

theorem feed_cons (s : σ) (i : ι) (is : List ι) :
    feed step s (i :: is) = ((feed step (step s i).1 is).1, (step s i).2 ++ (feed step (step s i).1 is).2) := rfl

/-- An input that changes nothing and puts nothing out may be left out. -/
theorem feed_skip {s : σ} {i : ι} (h : step s i = (s, [])) (is : List ι) :
    feed step s (i :: is) = feed step s is := by
  simp [feed_cons, h]

/-- A state every input leaves as it is, silently, is where the run stays. -/
theorem feed_stuck {s : σ} (h : ∀ i, step s i = (s, [])) (is : List ι) : feed step s is = (s, []) := by
  induction is with
  | nil => rfl
  | cons i is ih => rw [feed_skip (h i), ih]

end

end OsNetworks.Runs
