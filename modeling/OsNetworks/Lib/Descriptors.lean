/-
The open files of a process, by the numbers the process knows them by. A new
number is always the lowest one that is free. What the operations do to the
table is stated of every number at once, by `get`.
-/

namespace OsNetworks

structure Descriptors (α : Type) where
  files : List (Option α)

namespace Descriptors
variable {α β : Type}

def empty : Descriptors α := ⟨[]⟩

/-- The file open under a number. -/
def get (t : Descriptors α) (fd : Nat) : Option α := t.files.getD fd none

/-- The number `fd` gets the file, or becomes free. -/
def put (t : Descriptors α) (fd : Nat) (file : Option α) : Descriptors α :=
  if fd < t.files.length then ⟨t.files.set fd file⟩
  else ⟨t.files ++ List.replicate (fd - t.files.length) none ++ [file]⟩

/-- The lowest free number. -/
def lowest (t : Descriptors α) : Nat := t.files.findIdx Option.isNone

def openFile (t : Descriptors α) (file : α) : Descriptors α × Nat := (t.put t.lowest (some file), t.lowest)

def close (t : Descriptors α) (fd : Nat) : Descriptors α := t.put fd none

def dup2 (t : Descriptors α) (old new : Nat) : Descriptors α :=
  match t.get old with
  | none => t
  | some file => t.put new (some file)

def closeAll (fds : List Nat) (t : Descriptors α) : Descriptors α := fds.foldl close t

/-- The same files under other names. -/
def map (f : α → β) (t : Descriptors α) : Descriptors β := ⟨t.files.map (Option.map f)⟩

@[simp] theorem get_empty (fd : Nat) : (empty : Descriptors α).get fd = none := rfl

@[simp] theorem get_map (f : α → β) (t : Descriptors α) (fd : Nat) : (t.map f).get fd = (t.get fd).map f := by
  simp only [get, map, List.getD_eq_getElem?_getD, List.getElem?_map]
  cases t.files[fd]? <;> rfl

theorem get_put (t : Descriptors α) (fd : Nat) (file : Option α) (k : Nat) :
    (t.put fd file).get k = if k = fd then file else t.get k := by
  unfold put
  split
  next hlt =>
    simp only [get, List.getD_eq_getElem?_getD, List.getElem?_set]
    by_cases hk : k = fd
    · simp [hk, hlt]
    · simp [hk, Ne.symm hk]
  next hge =>
    simp only [get, List.getD_eq_getElem?_getD, List.append_assoc]
    by_cases hin : k < t.files.length
    · rw [List.getElem?_append_left hin, if_neg (by omega)]
    · rw [List.getElem?_append_right (by omega), List.getElem?_eq_none (l := t.files) (by omega)]
      by_cases hpad : k - t.files.length < fd - t.files.length
      · rw [List.getElem?_append_left (by simpa using hpad), if_neg (by omega)]
        simp [hpad]
      · rw [List.getElem?_append_right (by simpa using hpad), List.length_replicate]
        by_cases hk : k = fd
        · simp [hk]
        · rw [if_neg hk, List.getElem?_eq_none (by simp; omega)]

theorem get_lowest (t : Descriptors α) : t.get t.lowest = none := by
  simp only [get, lowest, List.getD_eq_getElem?_getD]
  by_cases h : t.files.findIdx Option.isNone < t.files.length
  · have hnone := List.findIdx_getElem (w := h)
    rw [List.getElem?_eq_getElem h]
    exact Option.isNone_iff_eq_none.mp hnone
  · rw [List.getElem?_eq_none (by omega)]
    rfl

/-- A number in use is not taken. -/
theorem lowest_ne {t : Descriptors α} {fd : Nat} {file : α} (h : t.get fd = some file) : t.lowest ≠ fd := by
  intro he
  rw [← he, t.get_lowest] at h
  cases h

theorem get_openFile (t : Descriptors α) (file : α) (k : Nat) :
    (t.openFile file).1.get k = if k = t.lowest then some file else t.get k := get_put ..

theorem get_close (t : Descriptors α) (fd k : Nat) : (t.close fd).get k = if k = fd then none else t.get k :=
  get_put ..

theorem get_dup2 {t : Descriptors α} {old : Nat} {file : α} (h : t.get old = some file) (new k : Nat) :
    (t.dup2 old new).get k = if k = new then some file else t.get k := by
  unfold dup2
  rw [h]
  exact get_put ..

theorem get_closeAll (fds : List Nat) (t : Descriptors α) (k : Nat) :
    (closeAll fds t).get k = if k ∈ fds then none else t.get k := by
  induction fds generalizing t with
  | nil => simp [closeAll]
  | cons fd fds ih =>
    show (closeAll fds (t.close fd)).get k = _
    rw [ih, get_close]
    by_cases hk : k = fd
    · simp [hk]
    · simp [hk]

/-- Opening a file, moving it to the number `fd` and closing the number it was opened under. -/
def redirect (t : Descriptors α) (file : α) (fd : Nat) : Descriptors α :=
  let opened := t.openFile file
  (opened.1.dup2 opened.2 fd).close opened.2

end Descriptors

end OsNetworks
