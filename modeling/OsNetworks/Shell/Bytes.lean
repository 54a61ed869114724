/-
The bytes of C strings as the shell's code reads them. A pointer into a string
is what is left of it from there on, and reading past the last byte gives the
NUL that ends it.
-/

namespace OsNetworks.Shell

/-- What a pointer into a string points at, up to the terminating NUL. -/
abbrev Text := List UInt8

/-- A NUL-terminated string: none of its bytes is NUL. -/
@[ext] structure CString where
  bytes : Text
  noNul : 0 ∉ bytes
  deriving DecidableEq, Repr

/-- `*str` -/
def peek (s : Text) : UInt8 := s.headD 0

@[simp] theorem peek_nil : peek [] = 0 := rfl

@[simp] theorem peek_cons (c : UInt8) (s : Text) : peek (c :: s) = c := rfl

theorem peek_append {s : Text} (h : s ≠ []) (r : Text) : peek (s ++ r) = peek s := by
  cases s with
  | nil => exact absurd rfl h
  | cons c s => rfl

theorem peek_mem {s : Text} (h : s ≠ []) : peek s ∈ s := by
  cases s with
  | nil => exact absurd rfl h
  | cons c s => exact List.mem_cons_self

theorem eq_cons_tail {s : Text} {c : UInt8} (h : peek s = c) (hc : c ≠ 0) : s = c :: s.tail := by
  cases s with
  | nil => exact absurd h.symm hc
  | cons d s =>
    obtain rfl : d = c := h
    rfl

/-- Only the terminating NUL is read as NUL. -/
theorem eq_nil_of_peek {s : Text} (h : peek s = 0) (hn : 0 ∉ s) : s = [] := by
  cases s with
  | nil => rfl
  | cons c s => exact absurd (h ▸ List.mem_cons_self) hn

/-! ## Kinds of characters -/

/-- `isspace` of the C locale. -/
def isspace (c : UInt8) : Bool := c = 32 || (9 ≤ c && c ≤ 13)

/-- `'|'` -/
abbrev bar : UInt8 := 124

/-- `'&'` -/
abbrev amp : UInt8 := 38

/-- `';'` -/
abbrev semi : UInt8 := 59

/-- `'<'` -/
abbrev less : UInt8 := 60

/-- `'>'` -/
abbrev greater : UInt8 := 62

def isSpecialChar (c : UInt8) : Bool := c = bar || c = amp || c = greater || c = less || c = semi

def isNameChar (c : UInt8) : Bool := c ≠ 0 && !isspace c && !isSpecialChar c

theorem not_space_of_nameChar {c : UInt8} (h : isNameChar c = true) : isspace c = false := by
  simp only [isNameChar, Bool.and_eq_true, Bool.not_eq_true'] at h
  exact h.1.2

theorem not_special_of_nameChar {c : UInt8} (h : isNameChar c = true) : isSpecialChar c = false := by
  simp only [isNameChar, Bool.and_eq_true, Bool.not_eq_true'] at h
  exact h.2

theorem not_nameChar_of_space {c : UInt8} (h : isspace c = true) : isNameChar c = false := by
  simp [isNameChar, h]

/-- Where a command ends: at the end of the line, or at an operator between commands. -/
def endsAtomic (c : UInt8) : Bool := c = 0 || c = bar || c = amp || c = semi

/-- Where a group ends. -/
def endsGroup (c : UInt8) : Bool := c = 0 || c = amp || c = semi

theorem endsAtomic_of_endsGroup {c : UInt8} (h : endsGroup c = true) : endsAtomic c = true := by
  simp only [endsGroup, Bool.or_eq_true, decide_eq_true_eq] at h
  rcases h with (rfl | rfl) | rfl <;> decide

theorem not_bar_of_endsGroup {c : UInt8} (h : endsGroup c = true) : c ≠ bar := by
  simp only [endsGroup, Bool.or_eq_true, decide_eq_true_eq] at h
  rcases h with (rfl | rfl) | rfl <;> decide

theorem not_space_of_endsAtomic {c : UInt8} (h : endsAtomic c = true) : isspace c = false := by
  simp only [endsAtomic, Bool.or_eq_true, decide_eq_true_eq] at h
  rcases h with ((rfl | rfl) | rfl) | rfl <;> decide

theorem not_nameChar_of_endsAtomic {c : UInt8} (h : endsAtomic c = true) : isNameChar c = false := by
  simp only [endsAtomic, Bool.or_eq_true, decide_eq_true_eq] at h
  rcases h with ((rfl | rfl) | rfl) | rfl <;> decide

theorem not_endsGroup_of_not_endsAtomic {c : UInt8} (h : endsAtomic c = false) : endsGroup c = false := by
  cases he : endsGroup c with
  | false => rfl
  | true =>
    rw [endsAtomic_of_endsGroup he] at h
    cases h

/-! ## Numbers -/

def isdigit (c : UInt8) : Bool := 48 ≤ c && c ≤ 57

/-- `'-'` and `'+'` -/
def isSign (c : UInt8) : Bool := c = 45 || c = 43

/-- The number a row of digits stands for. -/
def decimal (digits : Text) : Nat := digits.foldl (fun n c => 10 * n + (c.toNat - 48)) 0

/-- `LONG_MIN` -/
def longMin : Int := -9223372036854775808

/-- `LONG_MAX` -/
def longMax : Int := 9223372036854775807

/-- `strtol(s, &endptr, 10)`: the number as a `long`, the nearest one if it is out of range, and
what `endptr` points at. -/
def strtol (s : Text) : Int × Text :=
  let start := s.dropWhile isspace
  let digits := if isSign (peek start) then start.tail else start
  if digits.takeWhile isdigit = [] then (0, s)
  else
    let n : Int := decimal (digits.takeWhile isdigit)
    let value := if peek start = 45 then -n else n
    (max longMin (min value longMax), digits.dropWhile isdigit)

/-- `(int)value` -/
def toInt (value : Int) : Int := value.bmod 4294967296

/-- `atoi`, as `strtol` with its result cut to an `int`. -/
def atoi (s : Text) : Int := toInt (strtol s).1

/-! ## Runs of one kind of character -/

section
variable {p : UInt8 → Bool} {w r : Text}

theorem takeWhile_run (hw : ∀ c ∈ w, p c = true) (hr : r = [] ∨ p (peek r) = false) : (w ++ r).takeWhile p = w := by
  rw [List.takeWhile_append_of_pos hw]
  rcases hr with rfl | hr
  · simp
  · cases r with
    | nil => simp
    | cons c r => simp [show p c = false from hr]

theorem dropWhile_run (hw : ∀ c ∈ w, p c = true) (hr : r = [] ∨ p (peek r) = false) : (w ++ r).dropWhile p = r := by
  rw [List.dropWhile_append_of_pos hw]
  rcases hr with rfl | hr
  · rfl
  · cases r with
    | nil => rfl
    | cons c r => simp [show p c = false from hr]

theorem mem_run {c : UInt8} (h : c ∈ w.takeWhile p) : p c = true := List.all_eq_true.mp List.all_takeWhile c h

/-- What follows the longest run does not start with a character of the kind. -/
theorem peek_dropWhile (h0 : p 0 = false) (s : Text) : p (peek (s.dropWhile p)) = false := by
  induction s with
  | nil => exact h0
  | cons c s ih =>
    rw [List.dropWhile_cons]
    split
    · exact ih
    next hc => exact Bool.not_eq_true _ ▸ hc

end

end OsNetworks.Shell
