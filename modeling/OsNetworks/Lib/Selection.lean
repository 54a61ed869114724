/-
The loop that chooses an entry of a table: over the entries in order, it keeps
the best one so far, and an entry that fits takes its place if its key is
smaller. So it chooses the least key, and of equal keys the first.
-/
import Mathlib.Data.List.MinMax
import Mathlib.Data.Prod.Lex
import OsNetworks.Lib.Locks

namespace OsNetworks.Selection

variable {α κ : Type} [LinearOrder κ] {key : α → κ} {ok : α → Bool}

/-- The body of the loop, for an entry with its number. -/
def keep (key : α → κ) (ok : α → Bool) (best : Option (α × Nat)) (e : α × Nat) : Option (α × Nat) :=
  if ok e.1 ∧ best.all fun b => key e.1 < key b.1 then some e else best

def least (key : α → κ) (ok : α → Bool) (es : List (α × Nat)) : Option (α × Nat) :=
  es.foldl (keep key ok) none

/-- The order of choice. -/
def rank (key : α → κ) (e : α × Nat) : κ ×ₗ Nat := toLex (key e.1, e.2)

theorem rank_le_iff {e f : α × Nat} : rank key e ≤ rank key f ↔ key e.1 < key f.1 ∨ key e.1 = key f.1 ∧ e.2 ≤ f.2 :=
  Prod.Lex.toLex_le_toLex

theorem rank_lt_iff {e f : α × Nat} : rank key e < rank key f ↔ key e.1 < key f.1 ∨ key e.1 = key f.1 ∧ e.2 < f.2 :=
  Prod.Lex.toLex_lt_toLex

/-- The best entry is one of those seen. -/
theorem keep_lt {best : Option (α × Nat)} {e : α × Nat} {n : Nat} (hbest : ∀ b ∈ best, b.2 < n) (he : e.2 < n) :
    ∀ b ∈ keep key ok best e, b.2 < n := by
  unfold keep
  split
  · intro b hb
    obtain rfl := Option.some.inj hb
    exact he
  · exact hbest

/-- As the numbers rise, the loop compares ranks. -/
theorem foldl_keep {es : List (α × Nat)} (hes : es.Pairwise (·.2 < ·.2)) {best : Option (α × Nat)}
    (hbest : ∀ b ∈ best, ∀ e ∈ es, b.2 < e.2) :
    es.foldl (keep key ok) best =
      (es.filter fun e => ok e.1).foldl (List.argAux fun e b => rank key e < rank key b) best := by
  induction es generalizing best with
  | nil => rfl
  | cons e es ih =>
    obtain ⟨he, hes⟩ := List.pairwise_cons.mp hes
    rw [List.foldl_cons, List.filter_cons]
    cases hok : ok e.1 with
    | false =>
      rw [show keep key ok best e = best by simp [keep, hok]]
      exact ih hes fun b hb f hf => hbest b hb f (List.mem_cons_of_mem e hf)
    | true =>
      have hkeep : keep key ok best e = List.argAux (fun e b => rank key e < rank key b) best e := by
        cases best with
        | none => simp [keep, hok, List.argAux]
        | some b =>
          have hlt := hbest b rfl e List.mem_cons_self
          have hiff : rank key e < rank key b ↔ key e.1 < key b.1 := by
            rw [rank_lt_iff]
            exact or_iff_left fun h => Nat.lt_asymm h.2 hlt
          simp [keep, hok, List.argAux, hiff]
      rw [if_pos rfl, List.foldl_cons, ← hkeep]
      exact ih hes fun b hb f hf => keep_lt (fun b hb => hbest b hb f (List.mem_cons_of_mem e hf)) (he f hf) b hb

theorem least_eq_argmin {es : List (α × Nat)} (hes : es.Pairwise (·.2 < ·.2)) :
    least key ok es = (es.filter fun e => ok e.1).argmin (rank key) :=
  foldl_keep hes fun _ hb => nomatch hb

section
variable {es : List (α × Nat)} {e : α × Nat}

theorem least_eq_none_iff (hes : es.Pairwise (·.2 < ·.2)) :
    least key ok es = none ↔ ∀ e ∈ es, ok e.1 = false := by
  simp [least_eq_argmin hes, List.filter_eq_nil_iff]

theorem least_spec (hes : es.Pairwise (·.2 < ·.2)) (h : least key ok es = some e) :
    e ∈ es ∧ ok e.1 = true ∧ ∀ f ∈ es, ok f.1 = true → rank key e ≤ rank key f := by
  rw [least_eq_argmin hes] at h
  obtain ⟨hmem, hok⟩ := List.mem_filter.mp (List.argmin_mem h)
  exact ⟨hmem, hok, fun f hf hfok => List.le_of_mem_argmin (List.mem_filter.mpr ⟨hf, hfok⟩) h⟩

end

/-! ## The entries of a table -/

theorem zipIdx_pairwise (as : List α) : as.zipIdx.Pairwise (·.2 < ·.2) := by
  rw [List.pairwise_iff_getElem]
  intro i j hi hj hij
  simpa using hij

theorem entries_pairwise (as : List α) (start : Nat) : (as.zipIdx.drop start).Pairwise (·.2 < ·.2) :=
  (zipIdx_pairwise as).sublist (List.drop_sublist start _)

theorem mem_entries {as : List α} {start : Nat} {e : α × Nat} :
    e ∈ as.zipIdx.drop start ↔ start ≤ e.2 ∧ as[e.2]? = some e.1 := by
  obtain ⟨a, i⟩ := e
  rw [List.mem_iff_getElem?]
  simp only [List.getElem?_drop, List.getElem?_zipIdx, Option.map_eq_some_iff, Prod.mk.injEq]
  constructor
  · rintro ⟨k, b, hb, rfl, rfl⟩
    exact ⟨by omega, by simpa using hb⟩
  · rintro ⟨hle, ha⟩
    refine ⟨i - start, a, ?_, rfl, by omega⟩
    rwa [show start + (i - start) = i by omega]

/-- The loop over a whole table finds nothing if no entry fits. -/
theorem least_table_none {as : List α} : least key ok as.zipIdx = none ↔ ∀ a ∈ as, ok a = false := by
  rw [least_eq_none_iff (zipIdx_pairwise as)]
  constructor
  · intro h a ha
    obtain ⟨i, hi⟩ := List.mem_iff_getElem?.mp ha
    exact h (a, i) (List.mem_zipIdx_iff_getElem?.mpr hi)
  · intro h e he
    exact h e.1 (List.fst_mem_of_mem_zipIdx he)

/-- Otherwise it finds the first of those with the least key. -/
theorem least_table_some {as : List α} {e : α × Nat} (h : least key ok as.zipIdx = some e) :
    as[e.2]? = some e.1 ∧ ok e.1 = true ∧
      ∀ k a, as[k]? = some a → ok a = true → key e.1 < key a ∨ key e.1 = key a ∧ e.2 ≤ k := by
  obtain ⟨hmem, hok, hle⟩ := least_spec (zipIdx_pairwise as) h
  refine ⟨List.mem_zipIdx_iff_getElem?.mp hmem, hok, fun k a ha hak => ?_⟩
  exact rank_le_iff.mp (hle (a, k) (List.mem_zipIdx_iff_getElem?.mpr ha) hak)

/-- The loop as code that takes locks: a round from the state `view best` does what `keep` says. -/
theorem run_least {σ β : Type} {step : β → Nat → Locks.Locked σ β} {result : Option (α × Nat) → β}
    {view : Option (α × Nat) → Locks.Holding σ} {as : List α}
    (hstep : ∀ best a i, as[i]? = some a → (∀ b ∈ best, b.2 < i ∧ as[b.2]? = some b.1) →
      (step (result best) i).run (view best) =
        .ok (result (keep key ok best (a, i)), view (keep key ok best (a, i)))) :
    ((List.range as.length).foldlM step (result none)).run (view none) =
      .ok (result (least key ok as.zipIdx), view (least key ok as.zipIdx)) := by
  have hrange : List.range as.length = as.zipIdx.map Prod.snd := by
    rw [List.zipIdx_map_snd, List.range_eq_range']
  rw [hrange, List.foldlM_map]
  refine Locks.run_foldlM
    (I := fun best es => es.Pairwise (·.2 < ·.2) ∧ (∀ e ∈ es, as[e.2]? = some e.1) ∧
      ∀ b ∈ best, as[b.2]? = some b.1 ∧ ∀ e ∈ es, b.2 < e.2)
    (fun best e es ⟨hes, hget, hbest⟩ => ?_)
    ⟨zipIdx_pairwise as, fun e he => List.mem_zipIdx_iff_getElem?.mp he, fun _ hb => nomatch hb⟩
  obtain ⟨he, hes⟩ := List.pairwise_cons.mp hes
  have hround := hstep best e.1 e.2 (hget e List.mem_cons_self) fun b hb =>
    ⟨(hbest b hb).2 e List.mem_cons_self, (hbest b hb).1⟩
  refine ⟨hround, hes, fun f hf => hget f (List.mem_cons_of_mem e hf), fun b hb => ⟨?_, fun f hf => ?_⟩⟩
  · unfold keep at hb
    split at hb
    · cases hb
      exact hget e List.mem_cons_self
    · exact (hbest b hb).1
  · exact keep_lt (fun b hb => (hbest b hb).2 f (List.mem_cons_of_mem e hf)) (he f hf) b hb

/-! ## Adding to the least -/

/-- No two values of the kind `S` are further apart than `bound`. -/
def Balanced {ι : Type} (S : ι → Prop) (v : ι → Nat) (bound : Nat) : Prop := ∀ i j, S i → S j → v i ≤ v j + bound

/-- Adding to a least value keeps the values as close as before, or as what is added. -/
theorem Balanced.add {ι : Type} {S : ι → Prop} {v v' : ι → Nat} {bound cost : Nat} (h : Balanced S v bound) {i : ι}
    (hleast : ∀ j, S j → v i ≤ v j) (hi : v' i = v i + cost) (hother : ∀ j, j ≠ i → v' j = v j) :
    Balanced S v' (max bound cost) := by
  intro j k hj hk
  have hjk := h j k hj hk
  have hik := hleast k hk
  by_cases hji : j = i
  · subst hji
    by_cases hkj : k = j
    · rw [hkj]
      exact Nat.le_add_right _ _
    · rw [hi, hother k hkj]
      exact Nat.add_le_add hik (Nat.le_max_right _ _)
  · rw [hother j hji]
    by_cases hki : k = i
    · subst hki
      rw [hi]
      omega
    · rw [hother k hki]
      omega

end OsNetworks.Selection
