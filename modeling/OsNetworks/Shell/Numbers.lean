/-
The numbers that `ping`, `fg` and `bg` are given, of any length: what `strtol`,
the conversion to 32 bits and the remainder of C make of them.
-/
import OsNetworks.Shell.JobControl

namespace OsNetworks.Shell

/-- An optional sign and digits. -/
structure Number where
  sign : Option UInt8
  digits : Text
  signs : ∀ c ∈ sign, isSign c = true
  ne : digits ≠ []
  isDigits : ∀ c ∈ digits, isdigit c = true

namespace Number

def text (n : Number) : Text := n.sign.toList ++ n.digits

/-- The number written. -/
def value (n : Number) : Int := if n.sign = some 45 then -decimal n.digits else decimal n.digits

end Number

theorem isdigit_iff {c : UInt8} : isdigit c = true ↔ 48 ≤ c.toNat ∧ c.toNat ≤ 57 := by
  simp [isdigit, UInt8.le_iff_toNat_le]

theorem not_space_of_digit {c : UInt8} (h : isdigit c = true) : isspace c = false := by
  have hc := isdigit_iff.mp h
  simp only [isspace, Bool.or_eq_false_iff, decide_eq_false_iff_not, Bool.and_eq_false_iff, ← UInt8.toNat_inj,
    UInt8.le_iff_toNat_le, UInt8.reduceToNat]
  omega

theorem not_sign_of_digit {c : UInt8} (h : isdigit c = true) : isSign c = false := by
  have hc := isdigit_iff.mp h
  simp only [isSign, Bool.or_eq_false_iff, decide_eq_false_iff_not, ← UInt8.toNat_inj, UInt8.reduceToNat]
  omega

theorem not_space_of_sign {c : UInt8} (h : isSign c = true) : isspace c = false := by
  simp only [isSign, Bool.or_eq_true, decide_eq_true_eq] at h
  rcases h with rfl | rfl <;> decide

namespace Number

theorem digit_peek (n : Number) : isdigit (peek n.digits) = true := n.isDigits _ (peek_mem n.ne)

theorem not_space (n : Number) : isspace (peek n.text) = false := by
  unfold text
  cases hsign : n.sign with
  | none => exact not_space_of_digit n.digit_peek
  | some c => exact not_space_of_sign (n.signs c hsign)

theorem dropWhile_text (n : Number) : n.text.dropWhile isspace = n.text :=
  dropWhile_run (w := []) (fun _ hc => nomatch hc) (.inr n.not_space)

/-- What is left of a number after its sign. -/
theorem digits_text (n : Number) : (if isSign (peek n.text) then n.text.tail else n.text) = n.digits := by
  unfold text
  cases hsign : n.sign with
  | none => exact if_neg (by simp [not_sign_of_digit n.digit_peek])
  | some c => exact if_pos (n.signs c hsign)

theorem minus_iff (n : Number) : peek n.text = 45 ↔ n.sign = some 45 := by
  unfold text
  cases hsign : n.sign with
  | none =>
    refine iff_of_false (fun h => ?_) (by simp)
    have hd := n.digit_peek
    rw [show peek n.digits = 45 from h] at hd
    exact absurd hd (by decide)
  | some c => simp

theorem takeWhile_digits (n : Number) : n.digits.takeWhile isdigit = n.digits := by
  have h := takeWhile_run (r := []) n.isDigits (.inl rfl)
  rwa [List.append_nil] at h

theorem dropWhile_digits (n : Number) : n.digits.dropWhile isdigit = [] := by
  have h := dropWhile_run (r := []) n.isDigits (.inl rfl)
  rwa [List.append_nil] at h

end Number

/-- A number is read to its end, as the nearest `long`. -/
theorem strtol_number (n : Number) : strtol n.text = (max longMin (min n.value longMax), []) := by
  unfold strtol
  simp only [n.dropWhile_text, n.digits_text, n.takeWhile_digits, n.dropWhile_digits, n.minus_iff, if_neg n.ne]
  rfl

/-! ## Conversions -/

theorem toInt_lt (v : Int) : toInt v < 2147483648 := Int.bmod_lt (by decide)

theorem toInt_of_lt {v : Int} (h : 0 ≤ v) (hlt : v < 2147483648) : toInt v = v :=
  Int.bmod_eq_of_le (by omega) (by omega)

/-- The conversion keeps just the numbers of 31 bits. -/
theorem toInt_eq_iff {v : Int} (h : 0 < v) : toInt (min v longMax) = v ↔ v < 2147483648 := by
  constructor
  · intro heq
    rw [← heq]
    exact toInt_lt _
  · intro hlt
    have hmin : min v longMax = v := by
      unfold longMax
      omega
    rw [hmin, toInt_of_lt (Int.le_of_lt h) hlt]

/-- What is cut to a number of 31 bits. -/
theorem toInt_eq_nat_iff {v : Int} {n : Nat} : n = toInt v ↔ n ≤ intMax ∧ 4294967296 ∣ v - n := by
  simp only [toInt, Int.bmod_def, intMax]
  split <;> omega

/-- The remainder of C is the one from 0 to 31 just for these numbers. -/
theorem tmod_eq_emod_iff (v : Int) : v.tmod 32 = v % 32 ↔ 0 ≤ v ∨ 32 ∣ v := by
  rw [Int.tmod_eq_emod]
  split
  next h => simpa using h
  next h =>
    refine iff_of_false (fun heq => ?_) h
    have habs : ((32 : Int).natAbs : Int) = 32 := rfl
    omega

/-- A signal number that `cmd_ping` takes modulo 32. -/
def SignalExact (v : Int) : Prop :=
  0 ≤ v ∧ v ≤ longMax ∨ longMax < v ∧ v % 32 = 31 ∨ v < 0 ∧ 32 ∣ v

theorem signal_iff (v : Int) : (max longMin (min v longMax)).tmod 32 = v % 32 ↔ SignalExact v := by
  unfold SignalExact
  by_cases hhigh : longMax < v
  · have hvalue : max longMin (min v longMax) = longMax := by
      unfold longMin longMax at *
      omega
    have hmod : longMax.tmod 32 = 31 := by decide
    rw [hvalue, hmod]
    unfold longMax at *
    omega
  · by_cases hlow : v < longMin
    · have hvalue : max longMin (min v longMax) = longMin := by
        unfold longMin longMax at *
        omega
      have hmod : longMin.tmod 32 = 0 := by decide
      rw [hvalue, hmod]
      unfold longMin longMax at *
      omega
    · have hvalue : max longMin (min v longMax) = v := by
        unfold longMin longMax at *
        omega
      rw [hvalue, tmod_eq_emod_iff]
      unfold longMin longMax at *
      omega

/-! ## The commands -/

/-- The calls of `kill` in `cmd_ping`. -/
theorem intrinsic_ping (s : ShellState) (rest : List (Text × Bool)) (args : List Text) :
    (s.intrinsic (pingWord :: args) rest).signals = (pingArgs args).toList ++ s.signals := by
  unfold ShellState.intrinsic
  simp only [List.headD_cons, List.tail_cons, if_neg (show pingWord ≠ fgWord by decide),
    if_neg (show pingWord ≠ bgWord by decide), if_true]
  cases pingArgs args <;> rfl

/-- `ping` signals no process, or the one of the number `pid` with the number `signal` modulo 32. -/
def PingExact (s : ShellState) (rest : List (Text × Bool)) (pid signal : Number) : Prop :=
  let signals := (s.intrinsic [pingWord, pid.text, signal.text] rest).signals
  signals = s.signals ∨ signals = (pid.value, signal.value % 32) :: s.signals

theorem pingExact_iff {s : ShellState} {rest : List (Text × Bool)} {pid signal : Number} :
    PingExact s rest pid signal ↔
      pingArgs [pid.text, signal.text] = none ∨
        pingArgs [pid.text, signal.text] = some (pid.value, signal.value % 32) := by
  simp only [PingExact, intrinsic_ping]
  cases pingArgs [pid.text, signal.text] <;> simp

/-- `fg` and `bg` find no job, or the one of the number. -/
def JobExact (t : JobTable) (job : Number) : Prop :=
  t.selected [job.text] = .error .noSuchJob ∨ ∃ j, t.selected [job.text] = .ok j ∧ (j.jobId : Int) = job.value

section
variable (n : Number)

theorem strtol_pos (h : 0 < n.value) : (strtol n.text).1 = min n.value longMax := by
  rw [strtol_number]
  unfold longMin longMax
  omega

theorem strtol_nonpos_iff : (strtol n.text).1 ≤ 0 ↔ n.value ≤ 0 := by
  rw [strtol_number]
  unfold longMin longMax
  omega

theorem strtol_end : (strtol n.text).2 = [] := by rw [strtol_number]

end

theorem ping_iff (s : ShellState) (rest : List (Text × Bool)) (pid signal : Number) :
    PingExact s rest pid signal ↔
      pid.value ≤ 0 ∨ pid.value < 2147483648 ∧ SignalExact signal.value := by
  have hsignal : (strtol signal.text).1.tmod 32 = signal.value % 32 ↔ SignalExact signal.value := by
    rw [strtol_number]
    exact signal_iff signal.value
  rw [pingExact_iff, pingArgs]
  simp only [strtol_end, strtol_nonpos_iff, ne_eq, not_true_eq_false, false_or, or_false]
  by_cases hpos : pid.value ≤ 0
  · simp [hpos]
  · have hlt := Int.not_le.mp hpos
    simp only [hpos, if_false, false_or, reduceCtorEq, Option.some.injEq, Prod.mk.injEq, strtol_pos pid hlt,
      toInt_eq_iff hlt, hsignal]

theorem getJob_some {t : JobTable} {id : Int} {j : Job} (h : t.getJob id = some j) : (j.jobId : Int) = id := by
  simpa using List.find?_some h

theorem getJob_none_iff {t : JobTable} {id : Int} :
    t.getJob id = none ↔ ∀ j ∈ t.jobs, (j.jobId : Int) ≠ id := by
  simp [JobTable.getJob, List.find?_eq_none]

/-- No job has an id to which the number `v`, of more than 31 bits, is cut. -/
def NoAlias (t : JobTable) (v : Int) : Prop :=
  longMax < v ∨ ∀ j ∈ t.jobs, j.jobId ≤ intMax → ¬ 4294967296 ∣ v - j.jobId

/-- The cut number is the id of no job. -/
theorem getJob_cut_iff {t : JobTable} {v : Int} :
    t.getJob (toInt (min v longMax)) = none ↔ NoAlias t v := by
  rw [getJob_none_iff, NoAlias]
  by_cases hlong : longMax < v
  · have hcut : toInt (min v longMax) = -1 := by
      rw [Int.min_eq_right (Int.le_of_lt hlong)]
      decide
    simp only [hlong, true_or, iff_true, hcut]
    omega
  · have hmin : min v longMax = v := Int.min_eq_left (Int.not_lt.mp hlong)
    simp only [hlong, false_or, hmin, ne_eq, toInt_eq_nat_iff, not_and]

theorem job_iff (t : JobTable) (job : Number) :
    JobExact t job ↔ job.value < 2147483648 ∨ NoAlias t job.value := by
  unfold JobExact JobTable.selected JobTable.jobNumber
  simp only [strtol_end, strtol_nonpos_iff, ne_eq, not_true_eq_false, false_or]
  by_cases hpos : job.value ≤ 0
  · have hlt : job.value < 2147483648 := by omega
    simp [hpos, hlt]
  · have hlt := Int.not_le.mp hpos
    simp only [hpos, if_false, strtol_pos job hlt, ← getJob_cut_iff]
    cases hget : t.getJob (toInt (min job.value longMax)) with
    | none => simp
    | some j => simp [getJob_some hget, toInt_eq_iff hlt]

/-- **`ping`, `fg` and `bg` act on the number given** just in these cases: a process id that is not positive or
has at most 31 bits, a signal number that the remainder of C takes modulo 32, and for a job an id of at most
31 bits, or one that is cut to the id of no job. -/
theorem numbers_exact_iff (s : ShellState) (rest : List (Text × Bool)) (pid signal job : Number) :
    (PingExact s rest pid signal ↔ pid.value ≤ 0 ∨ pid.value < 2147483648 ∧ SignalExact signal.value) ∧
      (JobExact s.books.table job ↔ job.value < 2147483648 ∨ NoAlias s.books.table job.value) :=
  ⟨ping_iff s rest pid signal, job_iff s.books.table job⟩

/-- `4294967295` -/
def allBits : Number := ⟨none, [52, 50, 57, 52, 57, 54, 55, 50, 57, 53], nofun, by decide, by simp; decide⟩

/-- `4294967297` -/
def oneTooMany : Number := ⟨none, [52, 50, 57, 52, 57, 54, 55, 50, 57, 55], nofun, by decide, by simp; decide⟩

/-- `9` -/
def nine : Number := ⟨none, [57], nofun, by decide, by simp; decide⟩

/-- `-9` -/
def minusNine : Number := ⟨some 45, [57], by simp; decide, by decide, by simp; decide⟩

def firstJob : JobTable := { slots := [some ⟨1, 7, [97], .running⟩], nextJobId := 2 }

/-- `ping 4294967295 9` signals every process of the user, `ping 9 -9` has a negative signal number, and
`fg 4294967297` takes the job with the id 1. -/
theorem numbers_cut :
    pingArgs [allBits.text, nine.text] = some (-1, 9) ∧ ¬ PingExact (.boot none) [] allBits nine ∧
      pingArgs [nine.text, minusNine.text] = some (9, -9) ∧ ¬ PingExact (.boot none) [] nine minusNine ∧
      (∃ j, firstJob.selected [oneTooMany.text] = .ok j ∧ j.jobId = 1) ∧ ¬ JobExact firstJob oneTooMany := by
  have hall : pingArgs [allBits.text, nine.text] = some (-1, 9) := by decide
  have hnine : pingArgs [nine.text, minusNine.text] = some (9, -9) := by decide
  have hjob : firstJob.selected [oneTooMany.text] = .ok ⟨1, 7, [97], .running⟩ := by decide
  refine ⟨hall, ?_, hnine, ?_, ⟨_, hjob, rfl⟩, ?_⟩
  · rw [pingExact_iff, hall]
    decide
  · rw [pingExact_iff, hnine]
    decide
  · rintro (h | ⟨j, h, hid⟩)
    · exact nomatch hjob.symm.trans h
    · cases hjob.symm.trans h
      exact absurd hid (by decide)

end OsNetworks.Shell
