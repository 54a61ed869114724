/-
Sorting by exchange: each position of a list is compared with each later one,
and the two change places if they are out of order. The positions before the
outer index hold the least elements in order; what the inner loop has compared
with the current position does not come before it.
-/
import Mathlib.Data.List.Basic

namespace OsNetworks.ExchangeSort

variable {α : Type} (gt : α → α → Prop) [DecidableRel gt]

/-- The elements at two positions change places if the first is greater. -/
def compareExchange (i j : Nat) (as : List α) : List α :=
  match as[i]?, as[j]? with
  | some a, some b => if gt a b then (as.set i b).set j a else as
  | _, _ => as

/-- The inner loop, for a list of length `n`. -/
def pass (n i : Nat) (as : List α) : List α :=
  (List.range' (i + 1) (n - (i + 1))).foldl (fun as j => compareExchange gt i j as) as

def sort (as : List α) : List α :=
  (List.range' 0 (as.length - 1)).foldl (fun bs i => pass gt as.length i bs) as

/-- The elements at two positions, if there are such, are in order. -/
def InOrder (gt : α → α → Prop) (as : List α) (p q : Nat) : Prop :=
  ∀ a b, as[p]? = some a → as[q]? = some b → ¬ gt a b

/-- A property that depends on the index of a loop, and that its body carries on. -/
theorem foldl_range' {β : Type} {f : β → Nat → β} {P : Nat → β → Prop} (hstep : ∀ i b, P i b → P (i + 1) (f b i)) :
    ∀ {n i : Nat} {b : β}, P i b → P (i + n) ((List.range' i n).foldl f b)
  | 0, _, _, h => h
  | n + 1, i, b, h => by
    rw [List.range'_succ, List.foldl_cons, Nat.add_comm n 1, ← Nat.add_assoc]
    exact foldl_range' hstep (hstep i b h)

/-- Nothing changes if the two are in order. -/
theorem compareExchange_cases (i j : Nat) (as : List α) :
    compareExchange gt i j as = as ∧ InOrder gt as i j ∨
      ∃ a b, as[i]? = some a ∧ as[j]? = some b ∧ gt a b ∧ compareExchange gt i j as = (as.set i b).set j a := by
  unfold compareExchange
  split
  next a b ha hb =>
    split
    next hgt => exact .inr ⟨a, b, ha, hb, hgt, rfl⟩
    next hgt =>
      refine .inl ⟨rfl, fun c d hc hd => ?_⟩
      obtain rfl := Option.some.inj (ha.symm.trans hc)
      obtain rfl := Option.some.inj (hb.symm.trans hd)
      exact hgt
  next hnone => exact .inl ⟨rfl, fun a b ha hb => absurd hb (hnone a b ha)⟩

/-! ## The elements stay the same -/

variable {gt} {as : List α}

theorem compareExchange_perm (i j : Nat) (as : List α) : (compareExchange gt i j as).Perm as := by
  obtain ⟨h, -⟩ | ⟨a, b, ha, hb, -, h⟩ := compareExchange_cases gt i j as
  · rw [h]
  · obtain ⟨hi, rfl⟩ := List.getElem?_eq_some_iff.mp ha
    obtain ⟨hj, rfl⟩ := List.getElem?_eq_some_iff.mp hb
    rw [h]
    exact List.set_set_perm hi hj

theorem pass_perm (n i : Nat) (as : List α) : (pass gt n i as).Perm as :=
  foldl_range' (P := fun _ bs => bs.Perm as) (fun j bs h => (compareExchange_perm i j bs).trans h) (.refl as)

theorem sort_perm (as : List α) : (sort gt as).Perm as :=
  foldl_range' (P := fun _ bs => bs.Perm as) (fun i bs h => (pass_perm as.length i bs).trans h) (.refl as)

/-! ## They end up in order -/

/-- The first `i` positions hold their final elements. -/
def Settled (gt : α → α → Prop) (i : Nat) (as : List α) : Prop :=
  ∀ p q, p < i → p < q → InOrder gt as p q

/-- And the element at position `i` has been compared with those before position `j`. -/
structure Compared (gt : α → α → Prop) (i j : Nat) (as : List α) : Prop where
  settled : Settled gt i as
  current : ∀ q, i < q → q < j → InOrder gt as i q

theorem getElem?_exchanged {i j : Nat} {a b : α} (hi : i < as.length) (hj : j < as.length) (k : Nat) :
    ((as.set i b).set j a)[k]? = if j = k then some a else if i = k then some b else as[k]? := by
  rw [List.getElem?_set, List.getElem?_set, List.length_set]
  simp only [hi, hj, if_true]

section
variable (hasymm : ∀ a b, gt a b → ¬ gt b a) (htrans : ∀ a b c, ¬ gt a b → ¬ gt b c → ¬ gt a c)
include hasymm htrans

theorem compared_step {i j : Nat} (hij : i < j) (h : Compared gt i j as) :
    Compared gt i (j + 1) (compareExchange gt i j as) := by
  obtain ⟨hsame, hle⟩ | ⟨a, b, ha, hb, hgt, hswap⟩ := compareExchange_cases gt i j as
  · rw [hsame]
    refine ⟨h.settled, fun q hq hqj => ?_⟩
    obtain hlt | rfl := Nat.lt_succ_iff_lt_or_eq.mp hqj
    · exact h.current q hq hlt
    · exact hle
  have hi := (List.getElem?_eq_some_iff.mp ha).1
  have hj := (List.getElem?_eq_some_iff.mp hb).1
  have hba : ¬ gt b a := hasymm a b hgt
  rw [hswap]
  constructor
  · -- an element that was exchanged stays behind the first `i`
    intro p q hp hpq c d hc hd
    rw [getElem?_exchanged hi hj, if_neg (by omega), if_neg (by omega)] at hc
    rw [getElem?_exchanged hi hj] at hd
    split at hd
    · exact h.settled p i hp hp c d hc (ha.trans hd)
    split at hd
    · exact h.settled p j hp (by omega) c d hc (hb.trans hd)
    · exact h.settled p q hp hpq c d hc hd
  · intro q hq hqj c d hc hd
    rw [getElem?_exchanged hi hj, if_neg (by omega), if_pos rfl] at hc
    obtain rfl := Option.some.inj hc
    rw [getElem?_exchanged hi hj] at hd
    split at hd
    · obtain rfl := Option.some.inj hd
      exact hba
    next hjq =>
      -- the new element at position `i` comes before the old one
      rw [if_neg (by omega)] at hd
      exact htrans b a d hba (h.current q hq (by omega) a d ha hd)

theorem settled_pass {i : Nat} (h : Settled gt i as) : Settled gt (i + 1) (pass gt as.length i as) := by
  have hrun : i < i + 1 + (as.length - (i + 1)) ∧
      Compared gt i (i + 1 + (as.length - (i + 1))) (pass gt as.length i as) := by
    refine foldl_range' (P := fun j bs => i < j ∧ Compared gt i j bs) (fun j bs hj => ?_) ⟨Nat.lt_succ_self i, h, ?_⟩
    · exact ⟨Nat.lt_succ_of_lt hj.1, compared_step hasymm htrans hj.1 hj.2⟩
    · intro q hq hqi
      omega
  intro p q hp hpq a b ha hb
  have hq := (List.getElem?_eq_some_iff.mp hb).1
  rw [(pass_perm as.length i as).length_eq] at hq
  obtain hlt | rfl := Nat.lt_succ_iff_lt_or_eq.mp hp
  · exact hrun.2.settled p q hlt hpq a b ha hb
  · exact hrun.2.current q hpq (by omega) a b ha hb

/-- The result is in order. -/
theorem sort_pairwise (as : List α) : (sort gt as).Pairwise fun a b => ¬ gt a b := by
  have hrun : (sort gt as).length = as.length ∧ Settled gt (0 + (as.length - 1)) (sort gt as) := by
    refine foldl_range' (P := fun i bs => bs.length = as.length ∧ Settled gt i bs) (fun i bs hbs => ?_) ⟨rfl, ?_⟩
    · rw [← hbs.1]
      exact ⟨(pass_perm bs.length i bs).length_eq, settled_pass hasymm htrans hbs.2⟩
    · intro p q hp
      omega
  refine List.pairwise_iff_getElem.mpr fun p q hp hq hpq => ?_
  exact hrun.2 p q (by omega) hpq _ _ (List.getElem?_eq_getElem hp) (List.getElem?_eq_getElem hq)

end

end OsNetworks.ExchangeSort
