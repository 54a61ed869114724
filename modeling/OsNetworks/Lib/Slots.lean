/-
A table of slots that are in use or free. A new record goes into the first
free slot, and a record is found, changed or taken out by a scan for the first
slot in use that fits. Where at most one record has a given key, the scan does
what it says of all records with it.
-/

namespace OsNetworks.Slots

variable {α κ : Type}

/-- The records in use. -/
def contents (slots : List (Option α)) : List α := slots.filterMap id

/-- The record goes into the first free slot. -/
def insert (a : α) : List (Option α) → Option (List (Option α))
  | [] => none
  | none :: slots => some (some a :: slots)
  | some b :: slots => (insert a slots).map (some b :: ·)

/-- The first record with the key `k` is changed by `f`, or its slot becomes free. -/
def update [DecidableEq κ] (key : α → κ) (k : κ) (f : α → Option α) : List (Option α) → List (Option α)
  | [] => []
  | none :: slots => none :: update key k f slots
  | some a :: slots => if key a = k then f a :: slots else some a :: update key k f slots

@[simp] theorem contents_nil : contents ([] : List (Option α)) = [] := rfl

@[simp] theorem contents_none (slots : List (Option α)) : contents (none :: slots) = contents slots := rfl

@[simp] theorem contents_some (a : α) (slots : List (Option α)) :
    contents (some a :: slots) = a :: contents slots := rfl

theorem length_contents_le (slots : List (Option α)) : (contents slots).length ≤ slots.length :=
  List.length_filterMap_le ..

/-! ## Inserting -/

section
variable {a : α} {slots slots' : List (Option α)}

theorem contents_insert (h : insert a slots = some slots') : (contents slots').Perm (a :: contents slots) := by
  induction slots generalizing slots' with
  | nil => cases h
  | cons slot slots ih =>
    cases slot with
    | none =>
      obtain rfl := Option.some.inj h
      rfl
    | some b =>
      obtain ⟨rest, hrest, rfl⟩ := Option.map_eq_some_iff.mp h
      exact ((ih hrest).cons b).trans (.swap a b _)

theorem length_insert (h : insert a slots = some slots') : slots'.length = slots.length := by
  induction slots generalizing slots' with
  | nil => cases h
  | cons slot slots ih =>
    cases slot with
    | none =>
      obtain rfl := Option.some.inj h
      rfl
    | some b =>
      obtain ⟨rest, hrest, rfl⟩ := Option.map_eq_some_iff.mp h
      simp [ih hrest]

/-- A record finds a slot unless all are in use. -/
theorem insert_eq_none_iff : insert a slots = none ↔ slots.length ≤ (contents slots).length := by
  induction slots with
  | nil => simp [insert]
  | cons slot slots ih =>
    cases slot with
    | none => simpa [insert] using Nat.lt_succ_of_le (length_contents_le slots)
    | some b => simpa [insert] using ih

end

/-! ## Changing and taking out -/

theorem key_ne_of_nodup {key : α → κ} {a b : α} {l : List α} (h : ((a :: l).map key).Nodup) (hb : b ∈ l) :
    key b ≠ key a := by
  intro he
  exact (List.nodup_cons.mp h).1 (List.mem_map.mpr ⟨b, hb, he⟩)

section
variable [DecidableEq κ] {key : α → κ} {k : κ} {slots : List (Option α)}

theorem length_update (f : α → Option α) : (update key k f slots).length = slots.length := by
  induction slots with
  | nil => rfl
  | cons slot slots ih =>
    cases slot with
    | none => simp [update, ih]
    | some a =>
      unfold update
      split
      · simp
      · simp [ih]

/-- A record is an old one, or what an old one was changed to. -/
theorem mem_contents_update {f : α → Option α} {a : α} (h : a ∈ contents (update key k f slots)) :
    a ∈ contents slots ∨ ∃ b ∈ contents slots, f b = some a := by
  induction slots with
  | nil => cases h
  | cons slot slots ih =>
    cases slot with
    | none => exact ih h
    | some b =>
      rw [contents_some]
      unfold update at h
      split at h
      · cases hf : f b with
        | none =>
          rw [hf, contents_none] at h
          exact .inl (List.mem_cons_of_mem b h)
        | some c =>
          rw [hf, contents_some] at h
          obtain rfl | ha := List.mem_cons.mp h
          · exact .inr ⟨b, List.mem_cons_self, hf⟩
          · exact .inl (List.mem_cons_of_mem b ha)
      · rw [contents_some] at h
        obtain rfl | ha := List.mem_cons.mp h
        · exact .inl List.mem_cons_self
        · exact (ih ha).imp (List.mem_cons_of_mem b) fun ⟨c, hc, hf⟩ => ⟨c, List.mem_cons_of_mem b hc, hf⟩

/-- A record is changed, and no other. -/
theorem contents_modify (h : ((contents slots).map key).Nodup) (f : α → α) :
    contents (update key k (fun a => some (f a)) slots) =
      (contents slots).map fun a => if key a = k then f a else a := by
  induction slots with
  | nil => rfl
  | cons slot slots ih =>
    cases slot with
    | none => exact ih h
    | some a =>
      unfold update
      rw [contents_some] at h ⊢
      split
      next hk =>
        rw [contents_some, List.map_cons, if_pos hk]
        have hsame : (contents slots).map (fun b => if key b = k then f b else b) = contents slots :=
          (List.map_congr_left fun b hb => if_neg (hk ▸ key_ne_of_nodup h hb)).trans (List.map_id _)
        rw [hsame]
      next hk =>
        rw [contents_some, ih (List.nodup_cons.mp h).2, List.map_cons, if_neg hk]

/-- A record is taken out, and no other. -/
theorem contents_remove (h : ((contents slots).map key).Nodup) :
    contents (update key k (fun _ => none) slots) = (contents slots).filter fun a => key a ≠ k := by
  induction slots with
  | nil => rfl
  | cons slot slots ih =>
    cases slot with
    | none => exact ih h
    | some a =>
      unfold update
      rw [contents_some] at h ⊢
      split
      next hk =>
        rw [contents_none, List.filter_cons_of_neg (by simpa using hk)]
        refine (List.filter_eq_self.mpr fun b hb => ?_).symm
        have hne := key_ne_of_nodup h hb
        rw [hk] at hne
        exact decide_eq_true hne
      next hk =>
        rw [contents_some, ih (List.nodup_cons.mp h).2, List.filter_cons_of_pos (by simpa using hk)]

end

end OsNetworks.Slots
