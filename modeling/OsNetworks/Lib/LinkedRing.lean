/-
Doubly linked lists that a sentinel closes to a ring. A node is an element or
the sentinel, `none`; the links of a ring that holds `xs` are known from each
cut of `xs`, since `none` is both what ends the part before it and what begins
the part after it, where there is nothing else.
-/
import Mathlib.Data.List.Induction
import Mathlib.Data.List.Nodup
import Mathlib.Logic.Function.Basic

namespace OsNetworks.LinkedRing

structure Links (α : Type) where
  next : Option α → Option α
  prev : Option α → Option α

variable {α : Type}

/-- Going round from the sentinel one meets `xs`, and going back its reverse. -/
structure Links.Holds (l : Links α) (xs : List α) : Prop where
  nodup : xs.Nodup
  cut : ∀ ys zs, xs = ys ++ zs → l.next ys.getLast? = zs.head? ∧ l.prev zs.head? = ys.getLast?

/-- The sentinel alone. -/
def Links.empty : Links α := ⟨fun _ => none, fun _ => none⟩

theorem holds_empty : (Links.empty : Links α).Holds [] where
  nodup := .nil
  cut ys zs h := by
    obtain ⟨rfl, rfl⟩ := List.append_eq_nil_iff.mp h.symm
    exact ⟨rfl, rfl⟩

section
variable [DecidableEq α]

def Links.setNext (l : Links α) (x y : Option α) : Links α := { l with next := Function.update l.next x y }

def Links.setPrev (l : Links α) (x y : Option α) : Links α := { l with prev := Function.update l.prev x y }

/-- `b` becomes the first element. -/
def Links.pushFront (l : Links α) (b : α) : Links α :=
  let l := l.setNext (some b) (l.next none)
  let l := l.setPrev (some b) none
  let l := l.setPrev (l.next none) (some b)
  l.setNext none (some b)

/-- The neighbours of `b` become each other's. -/
def Links.unlink (l : Links α) (b : α) : Links α :=
  let l := l.setPrev (l.next (some b)) (l.prev (some b))
  l.setNext (l.prev (some b)) (l.next (some b))

end

/-! ## Ends of lists -/

theorem head?_ne {xs ys : List α} (h : (xs ++ ys).Nodup) (hx : xs ≠ []) : xs.head? ≠ ys.head? := by
  intro he
  obtain ⟨x, hx⟩ := Option.ne_none_iff_exists'.mp (mt List.head?_eq_none_iff.mp hx)
  exact List.disjoint_of_nodup_append h (List.mem_of_head? hx) (List.mem_of_head? (he.symm.trans hx))

theorem getLast?_ne {xs ys : List α} (h : (xs ++ ys).Nodup) (hy : ys ≠ []) : xs.getLast? ≠ ys.getLast? := by
  intro he
  obtain ⟨y, hy⟩ := Option.ne_none_iff_exists'.mp (mt List.getLast?_eq_none_iff.mp hy)
  exact List.disjoint_of_nodup_append h (List.mem_of_getLast? (he.trans hy)) (List.mem_of_getLast? hy)

/-! ## Linking and unlinking -/

variable {l : Links α} {xs : List α}

theorem Links.Holds.next_none (h : l.Holds xs) : l.next none = xs.head? := (h.cut [] xs rfl).1

theorem Links.Holds.prev_none (h : l.Holds xs) : l.prev none = xs.getLast? :=
  (h.cut xs [] (List.append_nil xs).symm).2

section
variable [DecidableEq α] {b : α}

theorem pushFront_next (l : Links α) (b : α) (x : Option α) :
    (l.pushFront b).next x = if x = none then some b else if x = some b then l.next none else l.next x := by
  simp [Links.pushFront, Links.setNext, Links.setPrev, Function.update_apply]

theorem pushFront_prev (l : Links α) (b : α) (x : Option α) :
    (l.pushFront b).prev x = if x = l.next none then some b else if x = some b then none else l.prev x := by
  simp [Links.pushFront, Links.setNext, Links.setPrev, Function.update_apply]

theorem unlink_next (l : Links α) (b : α) (x : Option α) :
    (l.unlink b).next x = if x = l.prev (some b) then l.next (some b) else l.next x := by
  simp [Links.unlink, Links.setNext, Links.setPrev, Function.update_apply]

theorem unlink_prev (l : Links α) (b : α) (x : Option α) :
    (l.unlink b).prev x = if x = l.next (some b) then l.prev (some b) else l.prev x := by
  simp [Links.unlink, Links.setNext, Links.setPrev, Function.update_apply]

theorem Links.Holds.pushFront (h : l.Holds xs) (hb : b ∉ xs) : (l.pushFront b).Holds (b :: xs) where
  nodup := List.nodup_cons.mpr ⟨hb, h.nodup⟩
  cut ys zs hcut := by
    rw [pushFront_next, pushFront_prev, h.next_none]
    rcases ys with _ | ⟨y, ys⟩
    · -- before the new element
      obtain rfl : zs = b :: xs := hcut.symm
      have hne : some b ≠ xs.head? := fun he => hb (List.mem_of_head? he.symm)
      simp [hne]
    · obtain ⟨rfl, hxs⟩ : b = y ∧ xs = ys ++ zs := List.cons.inj hcut
      subst hxs
      have hzs : zs.head? ≠ some b := fun he => hb (List.mem_append_right _ (List.mem_of_head? he))
      by_cases hys : ys = []
      · -- after it
        subst hys
        simp
      · -- beyond it, where nothing changed
        have hlast : (b :: ys).getLast? = ys.getLast? := List.getLast?_append_of_ne_nil [b] hys
        have hnone : ys.getLast? ≠ none := mt List.getLast?_eq_none_iff.mp hys
        have hb' : ys.getLast? ≠ some b := fun he => hb (List.mem_append_left _ (List.mem_of_getLast? he))
        have hhead : zs.head? ≠ (ys ++ zs).head? := by
          rw [List.head?_append_of_ne_nil _ hys]
          exact (head?_ne h.nodup hys).symm
        rw [hlast, if_neg hnone, if_neg hb', if_neg hhead, if_neg hzs]
        exact h.cut ys zs rfl

theorem Links.Holds.unlink {us vs : List α} (h : l.Holds (us ++ b :: vs)) : (l.unlink b).Holds (us ++ vs) where
  nodup := h.nodup.sublist ((List.sublist_cons_self b vs).append_left us)
  cut ys zs hcut := by
    have hprev : l.prev (some b) = us.getLast? := (h.cut us (b :: vs) rfl).2
    have hnext : l.next (some b) = vs.head? := by
      simpa using (h.cut (us ++ [b]) vs (by simp)).1
    rw [unlink_next, unlink_prev, hprev, hnext]
    have hnodup := h.nodup.sublist ((List.sublist_cons_self b vs).append_left us)
    rcases List.append_eq_append_iff.mp hcut with ⟨ts, rfl, rfl⟩ | ⟨ts, rfl, rfl⟩
    · by_cases hts : ts = []
      · subst hts
        simp
      · -- The cut is beyond `b`.
        have hlast : (us ++ ts).getLast? = ts.getLast? := List.getLast?_append_of_ne_nil us hts
        have hne : us.getLast? ≠ ts.getLast? := getLast?_ne (hnodup.sublist (by simp)) hts
        have hhead : zs.head? ≠ (ts ++ zs).head? := by
          rw [List.head?_append_of_ne_nil _ hts]
          exact (head?_ne (hnodup.sublist (List.sublist_append_right us _)) hts).symm
        have hold := h.cut (us ++ [b] ++ ts) zs (by simp)
        rw [List.getLast?_append_of_ne_nil _ hts] at hold
        rw [hlast, if_neg hne.symm, if_neg hhead]
        exact hold
    · by_cases hts : ts = []
      · subst hts
        simp
      · -- The cut is before it.
        have hfirst : (ts ++ vs).head? = ts.head? := List.head?_append_of_ne_nil ts hts
        have hne : ts.head? ≠ vs.head? := head?_ne (hnodup.sublist (by simp)) hts
        have hlast : ys.getLast? ≠ (ys ++ ts).getLast? := by
          rw [List.getLast?_append_of_ne_nil _ hts]
          exact getLast?_ne (hnodup.sublist (List.sublist_append_left _ vs)) hts
        have hold := h.cut ys (ts ++ b :: vs) (by simp)
        rw [List.head?_append_of_ne_nil _ hts] at hold
        rw [hfirst, if_neg hlast, if_neg hne]
        exact hold

end

/-! ## Going round -/

/-- From `x` on, by at most `fuel` steps, the first element with `p`. -/
def scan (step : Option α → Option α) (p : α → Bool) : (fuel : Nat) → (x : Option α) → Option α
  | _, none => none
  | 0, _ => none
  | fuel + 1, some b => if p b then some b else scan step p fuel (step (some b))

section
variable {p : α → Bool} {fuel : Nat}

theorem scan_next_from (h : l.Holds xs) (ys zs : List α) (hxs : xs = ys ++ zs) (hfuel : zs.length ≤ fuel) :
    scan l.next p fuel zs.head? = zs.find? p := by
  induction zs generalizing ys fuel with
  | nil => simp [scan]
  | cons z zs ih =>
    obtain ⟨fuel, rfl⟩ := Nat.exists_eq_add_one_of_ne_zero (Nat.ne_zero_of_lt hfuel)
    have hnext : l.next (some z) = zs.head? := by
      simpa using (h.cut (ys ++ [z]) zs (by simpa using hxs)).1
    rw [List.head?_cons, scan, List.find?_cons, hnext,
      ih (ys ++ [z]) (by simpa using hxs) (Nat.le_of_succ_le_succ hfuel)]
    cases p z <;> rfl

theorem scan_prev_from (h : l.Holds xs) (ys zs : List α) (hxs : xs = ys ++ zs) (hfuel : ys.length ≤ fuel) :
    scan l.prev p fuel ys.getLast? = ys.reverse.find? p := by
  induction ys using List.reverseRecOn generalizing zs fuel with
  | nil => simp [scan]
  | append_singleton ys y ih =>
    rw [List.length_append, List.length_singleton] at hfuel
    obtain ⟨fuel, rfl⟩ := Nat.exists_eq_add_one_of_ne_zero (Nat.ne_zero_of_lt hfuel)
    have hprev : l.prev (some y) = ys.getLast? := by
      simpa using (h.cut ys (y :: zs) (by simpa using hxs)).2
    rw [List.getLast?_append_of_ne_nil _ (by simp), List.getLast?_singleton, scan, List.reverse_concat',
      List.find?_cons, hprev, ih (y :: zs) (by simpa using hxs) (Nat.le_of_succ_le_succ hfuel)]
    cases p y <;> rfl

/-- Going round from the sentinel. -/
theorem scan_next (h : l.Holds xs) (hfuel : xs.length ≤ fuel) : scan l.next p fuel (l.next none) = xs.find? p := by
  rw [h.next_none]
  exact scan_next_from h [] xs rfl hfuel

/-- Going back round from the sentinel. -/
theorem scan_prev (h : l.Holds xs) (hfuel : xs.length ≤ fuel) :
    scan l.prev p fuel (l.prev none) = xs.reverse.find? p := by
  rw [h.prev_none]
  exact scan_prev_from h xs [] (List.append_nil xs).symm hfuel

end

/-! ## Moving to the front -/

section
variable [DecidableEq α] {b c : α} {rs : List α}

def toFront (xs : List α) (b : α) : List α := b :: xs.erase b

/-- `xs` after its elements were moved to the front one after the other. -/
def recent (xs rs : List α) : List α := rs.foldl toFront xs

theorem nodup_toFront (h : xs.Nodup) (b : α) : (toFront xs b).Nodup :=
  List.nodup_cons.mpr ⟨h.not_mem_erase, h.erase b⟩

theorem recent_concat (xs rs : List α) (r : α) : recent xs (rs ++ [r]) = toFront (recent xs rs) r := by
  simp [recent]

theorem nodup_recent (h : xs.Nodup) (rs : List α) : (recent xs rs).Nodup := by
  induction rs using List.reverseRecOn with
  | nil => exact h
  | append_singleton rs r ih =>
    rw [recent_concat]
    exact nodup_toFront ih r

theorem Links.Holds.toFront (h : l.Holds xs) (hb : b ∈ xs) : ((l.unlink b).pushFront b).Holds (toFront xs b) := by
  obtain ⟨us, vs, rfl⟩ := List.append_of_mem hb
  have hus : b ∉ us := fun hm => List.disjoint_of_nodup_append h.nodup hm List.mem_cons_self
  have hvs : b ∉ vs := (List.nodup_cons.mp (List.nodup_append.mp h.nodup).2.1).1
  have herase : (us ++ b :: vs).erase b = us ++ vs := by
    rw [List.erase_append_right _ hus, List.erase_cons_head]
  rw [LinkedRing.toFront, herase]
  exact h.unlink.pushFront (by simp [hus, hvs])

/-- `b` was last moved before `c` was. -/
def Sooner (rs : List α) (b c : α) : Prop := ∃ ms ns, rs = ms ++ ns ∧ c ∈ ns ∧ b ∉ ns

/-- **Least recent last**: what stands further back was moved to the front sooner, or
neither was moved and they stand as they did. -/
theorem recent_order (h : xs.Nodup) (hcb : [c, b].Sublist (recent xs rs)) :
    Sooner rs b c ∨ b ∉ rs ∧ c ∉ rs ∧ [c, b].Sublist xs := by
  induction rs using List.reverseRecOn with
  | nil => exact .inr ⟨by simp, by simp, hcb⟩
  | append_singleton rs r ih =>
    rw [recent_concat, LinkedRing.toFront] at hcb
    have hr : r ∉ (recent xs rs).erase r := (nodup_recent h rs).not_mem_erase
    rcases List.cons_sublist_cons'.mp hcb with hcb | ⟨rfl, hb⟩
    · have hc : c ∈ (recent xs rs).erase r := hcb.subset (by simp)
      have hb : b ∈ (recent xs rs).erase r := hcb.subset (by simp)
      have hcr : c ≠ r := fun he => hr (he ▸ hc)
      have hbr : b ≠ r := fun he => hr (he ▸ hb)
      rcases ih (hcb.trans (List.erase_sublist)) with ⟨ms, ns, rfl, hcn, hbn⟩ | ⟨hbn, hcn, hxs⟩
      · exact .inl ⟨ms, ns ++ [r], by simp, by simp [hcn], by simp [hbn, hbr]⟩
      · exact .inr ⟨by simp [hbn, hbr], by simp [hcn, hcr], hxs⟩
    · have hmem : b ∈ (recent xs rs).erase c := hb.subset List.mem_cons_self
      refine .inl ⟨rs, [c], rfl, by simp, fun hm => ?_⟩
      obtain rfl := List.mem_singleton.mp hm
      exact hr hmem

end

end OsNetworks.LinkedRing
