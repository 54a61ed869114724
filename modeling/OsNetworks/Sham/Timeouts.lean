/-
When `is_timeout` finds that a packet has timed out, by the microseconds that
have gone by. The difference of the microsecond fields is negative if the
current time has the smaller field, and the division then rounds it up where it
otherwise rounds down.
-/
import OsNetworks.Sham.Client

namespace OsNetworks.Sham

/-- The microseconds between two clock readings. -/
def elapsedUs (now sentTime : Timeval) : Int := (now.sec - sentTime.sec) * 1000000 + (now.usec - sentTime.usec)

/-- `elapsed_ms` -/
def elapsedMs (now sentTime : Timeval) : Int :=
  (now.sec - sentTime.sec) * 1000 + (now.usec - sentTime.usec).tdiv 1000

/-- A `long`, of 64 bits, or none if the value overflows. -/
def toLong (n : Int) : Option Int :=
  if -9223372036854775808 ≤ n ∧ n ≤ 9223372036854775807 then some n else none

/-- `isTimeout` with the sums and products of the code, which are of type `long`. -/
def isTimeoutLong (now sentTime : Timeval) (timeoutMs : Int) : Option Bool := do
  let sec ← toLong (now.sec - sentTime.sec)
  let secMs ← toLong (sec * 1000)
  let usec ← toLong (now.usec - sentTime.usec)
  let elapsedMs ← toLong (secMs + usec.tdiv 1000)
  return elapsedMs ≥ timeoutMs

/-- A time as `gettimeofday` gives it. -/
def Timeval.Normal (t : Timeval) : Prop := 0 ≤ t.usec ∧ t.usec < 1000000

instance (t : Timeval) : Decidable t.Normal := inferInstanceAs (Decidable (_ ∧ _))

/-- `is_timeout` returns true if at least `timeout_ms` milliseconds have gone by, and otherwise
false. -/
def JudgesExactly (now sentTime : Timeval) (timeoutMs : Int) : Prop :=
  isTimeoutLong now sentTime timeoutMs = some (decide (1000 * timeoutMs ≤ elapsedUs now sentTime))

/-- The second has changed, the field of the microseconds is smaller than it was, and less than a
millisecond is missing. -/
def JustShort (now sentTime : Timeval) (timeoutMs : Int) : Prop :=
  now.usec < sentTime.usec ∧ 1000 * timeoutMs - 1000 < elapsedUs now sentTime ∧
    elapsedUs now sentTime < 1000 * timeoutMs

instance (now sentTime : Timeval) (timeoutMs : Int) : Decidable (JustShort now sentTime timeoutMs) :=
  inferInstanceAs (Decidable (_ ∧ _))

/-- The two are less than 2^63 milliseconds apart, also by their seconds alone. -/
def FitsLong (now sentTime : Timeval) : Prop :=
  now.sec - sentTime.sec ≤ 9223372036854775 ∧ elapsedUs now sentTime < 9223372036854775808000

instance (now sentTime : Timeval) : Decidable (FitsLong now sentTime) := inferInstanceAs (Decidable (_ ∧ _))

/-! ## The truncated division -/

/-- Below zero the quotient is rounded up. -/
theorem le_tdiv_iff {k : Int} (hk : 0 < k) (a b : Int) : b ≤ a.tdiv k ↔ b * k ≤ a ∨ a < 0 ∧ b * k < a + k := by
  by_cases ha : 0 ≤ a
  · rw [Int.tdiv_eq_ediv_of_nonneg ha, Int.le_ediv_iff_mul_le hk]
    omega
  · have hneg : a.tdiv k = -(-a / k) := by
      rw [← Int.tdiv_eq_ediv_of_nonneg (by omega), Int.neg_tdiv, Int.neg_neg]
    have hlt : b ≤ -(-a / k) ↔ -a / k < 1 - b := by omega
    rw [hneg, hlt, Int.ediv_lt_iff_lt_mul hk, Int.sub_mul, Int.one_mul]
    omega

section
variable {now sentTime : Timeval} {timeoutMs : Int}

theorem isTimeout_eq : isTimeout now sentTime timeoutMs = decide (timeoutMs ≤ elapsedMs now sentTime) := rfl

theorem le_elapsedMs_iff (now sentTime : Timeval) (ms : Int) : ms ≤ elapsedMs now sentTime ↔
    1000 * ms ≤ elapsedUs now sentTime ∨
      now.usec < sentTime.usec ∧ 1000 * ms - 1000 < elapsedUs now sentTime := by
  have hms : ms ≤ elapsedMs now sentTime ↔
      ms - (now.sec - sentTime.sec) * 1000 ≤ (now.usec - sentTime.usec).tdiv 1000 := by
    unfold elapsedMs
    omega
  rw [hms, le_tdiv_iff (by decide), elapsedUs]
  omega

/-- A timeout is never noticed late, and early only with a smaller field of the microseconds. -/
theorem isTimeout_iff : isTimeout now sentTime timeoutMs = true ↔
    1000 * timeoutMs ≤ elapsedUs now sentTime ∨
      now.usec < sentTime.usec ∧ 1000 * timeoutMs - 1000 < elapsedUs now sentTime := by
  rw [isTimeout_eq, decide_eq_true_eq, le_elapsedMs_iff]

theorem isTimeout_of_elapsed (h : 1000 * timeoutMs ≤ elapsedUs now sentTime) :
    isTimeout now sentTime timeoutMs = true := isTimeout_iff.mpr (.inl h)

/-- By less than a millisecond. -/
theorem elapsed_of_isTimeout (h : isTimeout now sentTime timeoutMs = true) :
    1000 * timeoutMs - 1000 < elapsedUs now sentTime := by
  rcases isTimeout_iff.mp h with hle | ⟨-, hlt⟩
  · omega
  · exact hlt

/-- The timeout of `send_file`. -/
theorem isTimeout_500_iff : isTimeout now sentTime shamTimeoutMs = true ↔
    500000 ≤ elapsedUs now sentTime ∨ now.usec < sentTime.usec ∧ 499000 < elapsedUs now sentTime := isTimeout_iff

/-! ## With `long`s -/

theorem toLong_eq {n : Int} (h : -9223372036854775808 ≤ n ∧ n ≤ 9223372036854775807) : toLong n = some n := if_pos h

theorem eq_of_toLong {n m : Int} (h : toLong n = some m) : m = n := by
  obtain ⟨-, h⟩ := Option.ite_none_right_eq_some.mp h
  exact (Option.some.inj h).symm

theorem toLong_none {n : Int} (h : 9223372036854775807 < n) : toLong n = none := if_neg (by omega)

/-- The seconds do not go back either. -/
theorem sec_le (hnow : now.Normal) (hsent : sentTime.Normal) (hle : 0 ≤ elapsedUs now sentTime) :
    sentTime.sec ≤ now.sec := by
  have hlt := hnow.2
  have hpos := hsent.1
  unfold elapsedUs at hle
  omega

/-- Where the seconds fit, all but the sum does. -/
theorem isTimeoutLong_of_sec (hnow : now.Normal) (hsent : sentTime.Normal) (hle : 0 ≤ elapsedUs now sentTime)
    (hfits : now.sec - sentTime.sec ≤ 9223372036854775) :
    isTimeoutLong now sentTime timeoutMs =
      (toLong (elapsedMs now sentTime)).map fun ms => decide (timeoutMs ≤ ms) := by
  have hsec := sec_le hnow hsent hle
  obtain ⟨hnow, hnow'⟩ := hnow
  obtain ⟨hsent, hsent'⟩ := hsent
  have hdiff : toLong (now.sec - sentTime.sec) = some (now.sec - sentTime.sec) := toLong_eq (by omega)
  have hms : toLong ((now.sec - sentTime.sec) * 1000) = some ((now.sec - sentTime.sec) * 1000) := toLong_eq (by omega)
  have husec : toLong (now.usec - sentTime.usec) = some (now.usec - sentTime.usec) := toLong_eq (by omega)
  unfold isTimeoutLong
  rw [hdiff, Option.bind_eq_bind, Option.bind_some, hms, Option.bind_some, husec, Option.bind_some, Option.map_eq_bind]
  rfl

/-- The code gives the answer of `isTimeout`, or a sum overflows. -/
theorem isTimeoutLong_cases (hnow : now.Normal) (hsent : sentTime.Normal) (hle : 0 ≤ elapsedUs now sentTime) :
    FitsLong now sentTime ∧ isTimeoutLong now sentTime timeoutMs = some (isTimeout now sentTime timeoutMs) ∨
      ¬ FitsLong now sentTime ∧ isTimeoutLong now sentTime timeoutMs = none := by
  by_cases hfits : now.sec - sentTime.sec ≤ 9223372036854775
  · have hover := le_elapsedMs_iff now sentTime 9223372036854775808
    have hmin := le_elapsedMs_iff now sentTime 0
    rw [isTimeoutLong_of_sec hnow hsent hle hfits]
    by_cases hus : elapsedUs now sentTime < 9223372036854775808000
    · have hno : ¬ 9223372036854775808 ≤ elapsedMs now sentTime := by
        have hlt := hnow.2
        have hpos := hsent.1
        rw [hover]
        unfold elapsedUs at hus ⊢
        omega
      refine .inl ⟨⟨hfits, hus⟩, ?_⟩
      rw [toLong_eq (by omega), Option.map_some, isTimeout_eq]
    · refine .inr ⟨fun h => hus h.2, ?_⟩
      have hlarge := hover.mpr (.inl (by omega))
      rw [toLong_none (by omega), Option.map_none]
  · refine .inr ⟨fun h => hfits h.1, Option.bind_eq_none_iff.mpr fun sec hsec => ?_⟩
    obtain rfl := eq_of_toLong hsec
    have hprod : toLong ((now.sec - sentTime.sec) * 1000) = none := toLong_none (by omega)
    rw [hprod]
    rfl

end

/-- `is_timeout` is exact unless the timeout is just short of having passed, or a `long` overflows. -/
theorem judgesExactly_iff {now sentTime : Timeval} (hnow : now.Normal) (hsent : sentTime.Normal)
    (hle : 0 ≤ elapsedUs now sentTime) (timeoutMs : Int) :
    JudgesExactly now sentTime timeoutMs ↔ FitsLong now sentTime ∧ ¬ JustShort now sentTime timeoutMs := by
  unfold JudgesExactly
  obtain ⟨hfits, heq⟩ | ⟨hfits, heq⟩ := isTimeoutLong_cases hnow hsent hle
  · rw [heq, Option.some_inj, Bool.eq_iff_iff, isTimeout_iff, decide_eq_true_eq, JustShort]
    constructor
    · intro h
      refine ⟨hfits, fun hshort => ?_⟩
      have hdue := h.mp (.inr ⟨hshort.1, hshort.2.1⟩)
      omega
    · rintro ⟨-, hshort⟩
      omega
  · rw [heq]
    exact iff_of_false (by simp) fun h => hfits h.1

/-- After just 500 milliseconds the timeout of `send_file` has passed. -/
theorem judgesExactly_iff_due : JudgesExactly ⟨1700000001, 0⟩ ⟨1700000000, 500000⟩ shamTimeoutMs :=
  (judgesExactly_iff (by decide) (by decide) (by decide) shamTimeoutMs).mpr ⟨by decide, by decide⟩

/-- One microsecond earlier it is taken to have passed, too, as the second has changed. -/
theorem judges_early :
    Timeval.Normal ⟨1700000001, 0⟩ ∧ Timeval.Normal ⟨1700000000, 500001⟩ ∧
      elapsedUs ⟨1700000001, 0⟩ ⟨1700000000, 500001⟩ = 499999 ∧
      isTimeoutLong ⟨1700000001, 0⟩ ⟨1700000000, 500001⟩ shamTimeoutMs = some true ∧
      ¬ JudgesExactly ⟨1700000001, 0⟩ ⟨1700000000, 500001⟩ shamTimeoutMs := by
  refine ⟨by decide, by decide, rfl, rfl, fun h => ?_⟩
  have hanswer : some true = some false := h
  cases hanswer

/-! ## Clocks before and after every timeout -/

theorem exists_bound : ∀ {n : Nat} (f : Fin n → Int), ∃ M : Int, ∀ i, f i ≤ M
  | 0, _ => ⟨0, fun i => i.elim0⟩
  | n + 1, f => by
    obtain ⟨M, hM⟩ := exists_bound fun i : Fin n => f i.succ
    refine ⟨max M (f 0), fun i => ?_⟩
    cases i using Fin.cases with
    | zero => exact Int.le_max_right _ _
    | succ i => exact Int.le_trans (hM i) (Int.le_max_left _ _)

theorem isTimeout_late {sent : Timeval} {M : Int} (h : sent.sec + sent.usec.natAbs + 1 ≤ M) :
    isTimeout ⟨M, 0⟩ sent shamTimeoutMs = true := by
  refine isTimeout_of_elapsed ?_
  simp only [elapsedUs, shamTimeoutMs]
  omega

theorem isTimeout_early {sent : Timeval} {M : Int} (h : -sent.sec + sent.usec.natAbs ≤ M) :
    isTimeout ⟨-M, 0⟩ sent shamTimeoutMs = false := by
  refine Bool.eq_false_iff.mpr fun ht => ?_
  have hlt := elapsed_of_isTimeout ht
  simp only [elapsedUs, shamTimeoutMs] at hlt
  omega

theorem isTimeout_self (T : Timeval) : isTimeout T T shamTimeoutMs = false := by
  simp [isTimeout, shamTimeoutMs]

/-- There is a time at which the packets of all slots have timed out, and one at which none has. -/
theorem exists_late (c : Client) :
    ∃ T, ∀ i : Fin shamWindowSize, isTimeout T (c.slot i).sendTime shamTimeoutMs = true := by
  obtain ⟨M, hM⟩ := exists_bound fun i : Fin shamWindowSize =>
    (c.slot i).sendTime.sec + (c.slot i).sendTime.usec.natAbs + 1
  exact ⟨⟨M, 0⟩, fun i => isTimeout_late (hM i)⟩

theorem exists_early (c : Client) :
    ∃ T, ∀ i : Fin shamWindowSize, isTimeout T (c.slot i).sendTime shamTimeoutMs = false := by
  obtain ⟨M, hM⟩ := exists_bound fun i : Fin shamWindowSize =>
    -(c.slot i).sendTime.sec + (c.slot i).sendTime.usec.natAbs
  exact ⟨⟨-M, 0⟩, fun i => isTimeout_early (hM i)⟩

end OsNetworks.Sham
