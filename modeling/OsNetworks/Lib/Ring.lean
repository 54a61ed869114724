/-
A ring of `n` slots that keeps the last `n` values put into it. While there is
room a value goes behind those held, into the slot their number names; from
then on into the place of the oldest. Both agree on what is held as long as a
ring with room starts at slot 0.
-/
import Mathlib.Data.List.DropRight

namespace OsNetworks

/-- `n` slots, of which `count` are in use, from `start` on and around the end. -/
structure Ring (α : Type) (n : Nat) where
  slots : Vector α n
  pos : 0 < n
  start : Nat := 0
  count : Nat := 0
  deriving DecidableEq

namespace Ring
variable {α : Type} {n : Nat}

def append (r : Ring α n) (a : α) : Ring α n :=
  { r with slots := r.slots.setIfInBounds r.count a, count := r.count + 1 }

def overwrite (r : Ring α n) (a : α) : Ring α n :=
  { r with slots := r.slots.setIfInBounds r.start a, start := (r.start + 1) % n }

def push (r : Ring α n) (a : α) : Ring α n := if r.count < n then r.append a else r.overwrite a

def clear (r : Ring α n) : Ring α n := { r with start := 0, count := 0 }

/-- The indices are in range, and a ring with room has not been turned. -/
structure Tidy (r : Ring α n) : Prop where
  start_lt : r.start < n
  count_le : r.count ≤ n
  unturned : r.count < n → r.start = 0

theorem Tidy.clear {r : Ring α n} (h : r.Tidy) : r.clear.Tidy :=
  ⟨Nat.zero_lt_of_lt h.start_lt, Nat.zero_le n, fun _ => rfl⟩

theorem push_of_room {r : Ring α n} (h : r.count < n) (a : α) : r.push a = r.append a := if_pos h

theorem Tidy.push {r : Ring α n} (h : r.Tidy) (a : α) : (r.push a).Tidy := by
  unfold Ring.push
  split
  next hlt => exact ⟨h.start_lt, hlt, fun _ => h.unturned hlt⟩
  next hlt =>
    refine ⟨Nat.mod_lt _ (Nat.zero_lt_of_lt h.start_lt), h.count_le, fun hroom => ?_⟩
    exact absurd hroom hlt

/-- Indices less than `n` apart name different slots. -/
theorem add_mod_ne {s i : Nat} (hs : s < n) (hi : 0 < i) (hn : i < n) : (s + i) % n ≠ s := by
  intro h
  by_cases hlt : s + i < n
  · rw [Nat.mod_eq_of_lt hlt] at h
    omega
  · rw [Nat.mod_eq_sub_mod (by omega), Nat.mod_eq_of_lt (by omega)] at h
    omega

/-- Behind the slot at `s` the indices run on. -/
theorem turned_index (s i : Nat) : ((s + 1) % n + i) % n = (s + (i + 1)) % n := by
  rw [Nat.mod_add_mod]
  congr 1
  omega

/-! ## What a ring holds -/

section
variable {r : Ring α n}

/-- The slot with the number `i`, counted around the end. -/
def slot (r : Ring α n) (i : Nat) : α := r.slots.get ⟨i % n, Nat.mod_lt i r.pos⟩

/-- The values held, the oldest first. -/
def contents (r : Ring α n) : List α := (List.range r.count).map fun i => r.slot (r.start + i)

@[simp] theorem length_contents (r : Ring α n) : r.contents.length = r.count := by simp [contents]

theorem getElem_contents (r : Ring α n) (i : Nat) (h : i < r.contents.length) :
    r.contents[i] = r.slot (r.start + i) := by simp [contents]

/-- The `k`-th most recent value. -/
theorem recent {k : Nat} (h : 0 < k) (hk : k ≤ r.count) :
    r.contents.reverse[k - 1]? = some (r.slot (r.start + r.count - k)) := by
  rw [List.getElem?_reverse (by rw [length_contents]; omega), length_contents,
    List.getElem?_eq_getElem (by rw [length_contents]; omega), getElem_contents]
  congr 2
  omega

@[simp] theorem contents_clear (r : Ring α n) : r.clear.contents = [] := rfl

/-- Turned or not, the slots before `n` are named by themselves. -/
theorem slot_of_lt {i : Nat} (h : i < n) : r.slot i = r.slots[i] := by
  simp only [slot, Nat.mod_eq_of_lt h]
  rfl

theorem contents_append (h : r.Tidy) (hroom : r.count < n) (a : α) : (r.append a).contents = r.contents ++ [a] := by
  refine List.ext_getElem (by simp [append]) fun i hi hi' => ?_
  have hlt : i < r.count + 1 := by simpa [append] using hi
  rw [getElem_contents]
  show (r.append a).slot (r.start + i) = _
  rw [h.unturned hroom, Nat.zero_add, slot_of_lt (by omega)]
  show (r.slots.setIfInBounds r.count a)[i] = _
  rw [Vector.getElem_setIfInBounds]
  by_cases he : r.count = i
  · subst he
    simp
  · rw [if_neg he, List.getElem_append_left (by rw [length_contents]; omega), getElem_contents, h.unturned hroom,
      Nat.zero_add, slot_of_lt (by omega)]

theorem contents_overwrite (h : r.Tidy) (hfull : r.count = n) (a : α) :
    (r.overwrite a).contents = r.contents.tail ++ [a] := by
  have hpos : 0 < n := r.pos
  refine List.ext_getElem (by simp [overwrite]; omega) fun i hi hi' => ?_
  have hlt : i < n := by simpa [overwrite, hfull] using hi
  rw [getElem_contents]
  have hmod : ((r.start + 1) % n + i) % n < n := Nat.mod_lt _ hpos
  show (r.slots.setIfInBounds r.start a)[((r.start + 1) % n + i) % n] = _
  rw [Vector.getElem_setIfInBounds]
  by_cases hlast : i + 1 = n
  · -- the new value stands where the oldest was, one round later
    have hround : (r.start + n) % n = r.start := by rw [Nat.add_mod_right, Nat.mod_eq_of_lt h.start_lt]
    rw [if_pos (by rw [turned_index, hlast, hround]), List.getElem_append_right (by simp [hfull]; omega)]
    simp
  · have hne := add_mod_ne h.start_lt (Nat.succ_pos i) (by omega : i + 1 < n)
    rw [if_neg (by rw [turned_index]; exact hne.symm), List.getElem_append_left (by simp [hfull]; omega),
      List.getElem_tail, getElem_contents]
    simp only [slot, turned_index]
    rfl

/-- **What a ring holds.** The last `n` of the values put into it. -/
theorem contents_push (h : r.Tidy) (a : α) : (r.push a).contents = (r.contents ++ [a]).rtake n := by
  unfold push
  split
  next hroom =>
    have hlen : (r.contents ++ [a]).length - n = 0 := by simp; omega
    rw [contents_append h hroom, List.rtake, hlen, List.drop_zero]
  next hroom =>
    have hfull : r.count = n := Nat.le_antisymm h.count_le (Nat.le_of_not_lt hroom)
    have hne : r.contents ≠ [] := by
      rw [← List.length_pos_iff, length_contents, hfull]
      exact r.pos
    have hlen : (r.contents ++ [a]).length - n = 1 := by simp [hfull]
    rw [contents_overwrite h hfull, List.rtake, hlen, List.drop_one, List.tail_append_of_ne_nil hne]

end

end Ring

end OsNetworks
