/-
The space of the log. A system call is let in only if the log has room for
`MAXOPBLOCKS` more blocks beside those promised to the calls under way. So the
log never overflows while the calls keep to that many blocks, and a call that
is made to wait gets in once the others have ended.
-/
import OsNetworks.Xv6.CrashSafety

namespace OsNetworks.Xv6.FsLog
open OsNetworks.Runs OsNetworks.Threads

/-! ## No panic -/

/-- The blocks that a system call may still write. -/
def Place.allowance : Place → Nat
  | .inOp wrote => maxOpBlocks - wrote.length
  | _ => 0

section
variable {κ : Type} {start : Nat}

/-- A system call that has written `MAXOPBLOCKS` different blocks calls `log_write` no more. -/
def KeepsToItsBlocks (s : System κ) : Event start κ → Prop
  | .act p (.write _ _) => ∀ wrote, s.place p = .inOp wrote → wrote.length < maxOpBlocks
  | _ => True

theorem commit_panicked [DecidableEq κ] (start : Nat) (s : System κ) (p : κ) (c : Commit) :
    (s.commit start p c).panicked = s.panicked := by
  cases c with
  | writeLog tail => simp only [System.commit]; split <;> rfl
  | installTrans tail => simp only [System.commit]; split <;> rfl
  | _ => rfl

theorem commit_outstanding [DecidableEq κ] (start : Nat) (s : System κ) (p : κ) (c : Commit) :
    (s.commit start p c).outstanding = s.outstanding ∧ (s.commit start p c).recovery = s.recovery := by
  cases c with
  | writeLog tail => simp only [System.commit]; split <;> exact ⟨rfl, rfl⟩
  | installTrans tail => simp only [System.commit]; split <;> exact ⟨rfl, rfl⟩
  | _ => exact ⟨rfl, rfl⟩

variable [Fintype κ]

structure Budget (s : System κ) : Prop where
  room : s.lh.length + total Place.allowance s.place ≤ logBlocks
  wrote : ∀ p wrote, s.place p = .inOp wrote → wrote ⊆ s.lh

variable {s t : System κ} {stage : Option Commit} {p : κ}

theorem allowance_le (place : Place) : place.allowance ≤ maxOpBlocks * place.isInOp := by
  cases place with
  | inOp wrote => exact Nat.sub_le _ _
  | _ => exact Nat.zero_le _

@[simp] theorem wakeup_allowance (place : Place) : place.wakeup.allowance = place.allowance := by cases place <;> rfl

theorem wakeup_inOp {place : Place} {wrote : List UInt32} : place.wakeup = .inOp wrote ↔ place = .inOp wrote := by
  cases place <;> simp [Place.wakeup]

/-- Where no system call is under way, nothing more is written. -/
theorem Budget.of_quiet (hd : Data start s stage) (hp : Places s stage) (hout : s.outstanding = 0) : Budget s := by
  have hquiet : total Place.isInOp s.place = 0 := hp.outstanding.symm.trans hout
  have hle := total_le_mul allowance_le s.place
  rw [hquiet] at hle
  refine ⟨by have := hd.room; omega, fun p wrote hw => ?_⟩
  have hone := le_total Place.isInOp s.place p
  rw [hw, hquiet] at hone
  exact absurd hone (Nat.not_succ_le_zero 0)

variable [DecidableEq κ]

/-- A process goes where it writes nothing. -/
theorem Budget.aside (h : Budget s) (p : κ) (place : Place) (hno : place.allowance = 0) (hne : ∀ wrote, place ≠ .inOp wrote) :
    s.lh.length + total Place.allowance (Function.update s.place p place) ≤ logBlocks ∧
      ∀ q wrote, Function.update s.place p place q = .inOp wrote → wrote ⊆ s.lh := by
  refine ⟨?_, fun q wrote hq => ?_⟩
  · have htotal := total_update Place.allowance s.place p place
    have hroom := h.room
    omega
  · by_cases hqp : q = p
    · subst hqp
      rw [Function.update_self] at hq
      exact absurd hq (hne wrote)
    · rw [Function.update_of_ne hqp] at hq
      exact h.wrote q wrote hq

theorem Budget.beginOp (h : Budget s) (hp : Places s stage) (hold : s.place p = .outside ∨ s.place p = .woken) :
    Budget (s.beginOp p) := by
  have hasleep : Budget (s.goto p .asleep) := by
    obtain ⟨hroom, hwrote⟩ := h.aside p .asleep rfl (by simp)
    exact ⟨hroom, hwrote⟩
  unfold System.beginOp
  split
  · exact hasleep
  · split
    · exact hasleep
    next hroom =>
      refine ⟨?_, fun q wrote hq => ?_⟩
      · have htotal := total_update Place.allowance s.place p (.inOp [])
        have hle := total_le_mul allowance_le s.place
        have hweight : (s.place p).allowance = 0 := by
          rcases hold with hold | hold <;> rw [hold] <;> rfl
        rw [← hp.outstanding] at hle
        rw [hweight] at htotal
        simp only [Place.allowance, List.length_nil] at htotal
        simp only [System.goto]
        simp only [maxOpBlocks] at *
        omega
      · by_cases hqp : q = p
        · subst hqp
          obtain rfl : [] = wrote := by simpa [System.goto] using hq
          exact List.nil_subset _
        · exact h.wrote q wrote (by simpa [System.goto, Function.update_of_ne hqp] using hq)

/-- A call that has not used up its blocks finds room for one more. -/
theorem Budget.write (h : Budget s) (hp : Places s stage) {wrote : List UInt32} (hold : s.place p = .inOp wrote)
    (hfew : wrote.length < maxOpBlocks) (b : FileBlock start) (data : Block) :
    (s.act p (.write b data)).panicked = s.panicked ∧ Budget (s.act p (.write b data)) := by
  have hactive := (hp.active hold).1
  have hact : s.act p (.write b data) = { s.goto p (.inOp (wrote.insert b.blockno)) with
      cache := Function.update s.cache b.blockno.toNat data }.logWrite b.blockno := by
    simp only [System.act, hold]
  have hallowance : maxOpBlocks - wrote.length ≤ total Place.allowance s.place := by
    have hle := le_total Place.allowance s.place p
    rwa [hold] at hle
  have htotal := total_update Place.allowance s.place p (.inOp (wrote.insert b.blockno))
  rw [hold] at htotal
  simp only [Place.allowance] at htotal
  have hroom := h.room
  have hwrote {lh : List UInt32} (hsub : s.lh ⊆ lh) (hmem : b.blockno ∈ lh) (q : κ) (wrote' : List UInt32)
      (hq : Function.update s.place p (.inOp (wrote.insert b.blockno)) q = .inOp wrote') : wrote' ⊆ lh := by
    by_cases hqp : q = p
    · subst hqp
      rw [Function.update_self] at hq
      obtain rfl := Place.inOp.inj hq
      intro c hc
      rcases List.mem_insert_iff.mp hc with rfl | hc
      · exact hmem
      · exact hsub (h.wrote q wrote hold hc)
    · rw [Function.update_of_ne hqp] at hq
      exact fun c hc => hsub (h.wrote q wrote' hq hc)
  rw [hact]
  rcases logWrite_cases { s.goto p (.inOp (wrote.insert b.blockno)) with
      cache := Function.update s.cache b.blockno.toNat data } b.blockno with
    ⟨hfull, -⟩ | ⟨-, hmem, heq⟩ | ⟨-, hnew, heq⟩
  · rcases hfull with hfull | hnone
    · change logBlocks ≤ s.lh.length at hfull
      omega
    · exact absurd hnone (Nat.ne_of_gt hactive)
  · rw [heq]
    refine ⟨rfl, ?_, fun q wrote' hq => hwrote (fun _ hc => hc) hmem q wrote' hq⟩
    have hlen : wrote.length ≤ (wrote.insert b.blockno).length := by
      rw [List.length_insert]
      split <;> omega
    show s.lh.length + total Place.allowance (Function.update s.place p _) ≤ logBlocks
    omega
  · rw [heq]
    refine ⟨rfl, ?_, fun q wrote' hq => hwrote (fun _ hc => List.mem_append_left _ hc) (by simp) q wrote' hq⟩
    -- the call has not written this block before, so it has one less to write
    have hlen : (wrote.insert b.blockno).length = wrote.length + 1 :=
      List.length_insert_of_not_mem fun hc => hnew (h.wrote p wrote hold hc)
    show (s.lh ++ [b.blockno]).length + total Place.allowance (Function.update s.place p _) ≤ logBlocks
    rw [List.length_append, List.length_singleton]
    omega

/-- Only the size of the log counts: a block that is in it already is refused, too, once it is full. -/
theorem write_panics_iff (hd : Data start s stage) (hp : Places s stage) {wrote : List UInt32}
    (hold : s.place p = .inOp wrote) (hpanic : s.panicked = false) (b : FileBlock start) (data : Block) :
    (s.act p (.write b data)).panicked = true ↔ s.lh.length = logBlocks := by
  have hactive := (hp.active hold).1
  have hact : s.act p (.write b data) = { s.goto p (.inOp (wrote.insert b.blockno)) with
      cache := Function.update s.cache b.blockno.toNat data }.logWrite b.blockno := by
    simp only [System.act, hold]
  have hroom := hd.room
  rw [hact]
  rcases logWrite_cases { s.goto p (.inOp (wrote.insert b.blockno)) with
      cache := Function.update s.cache b.blockno.toNat data } b.blockno with
    ⟨hfull, heq⟩ | ⟨hlt, -, heq⟩ | ⟨hlt, -, heq⟩
  · rw [heq]
    rcases hfull with hfull | hnone
    · exact iff_of_true rfl (Nat.le_antisymm hroom hfull)
    · exact absurd hnone (Nat.ne_of_gt hactive)
  · rw [heq]
    exact iff_of_false (fun h => absurd (hpanic.symm.trans h) (by decide)) (Nat.ne_of_lt hlt)
  · rw [heq]
    exact iff_of_false (fun h => absurd (hpanic.symm.trans h) (by decide)) (Nat.ne_of_lt hlt)

theorem Budget.endOp (h : Budget s) (hp : Places s stage) {wrote : List UInt32} (hold : s.place p = .inOp wrote) :
    (s.endOp p).panicked = s.panicked ∧ Budget (s.endOp p) := by
  have hc := (hp.active hold).2.1
  unfold System.endOp
  simp only [hc, Bool.false_eq_true, if_false]
  split
  next hlast =>
    obtain ⟨hroom, hwrote⟩ := h.aside p (.committing .start) rfl (by simp)
    exact ⟨rfl, hroom, hwrote⟩
  next hmore =>
    obtain ⟨hroom, hwrote⟩ := h.aside p .outside rfl (by simp)
    refine ⟨rfl, ?_, fun q wrote' hq => hwrote q wrote' (wakeup_inOp.mp hq)⟩
    show s.lh.length + total Place.allowance (fun q => (Function.update s.place p .outside q).wakeup) ≤ logBlocks
    rw [total_congr fun q => wakeup_allowance (Function.update s.place p .outside q)]
    exact hroom

/-- The log has room for what is promised, and has not panicked. -/
structure Roomy (start : Nat) (s : System κ) : Prop where
  inv : Inv start s
  panicked : s.panicked = false
  budget : s.recovery = none → Budget s

theorem Roomy.act (h : Roomy start s) (hr : s.recovery = none) (p : κ) (a : Action start)
    (hkeeps : KeepsToItsBlocks s (.act p a)) : Roomy start (s.act p a) := by
  obtain ⟨stage, hd, hp⟩ := h.inv.running h.panicked hr
  have hinv := (act_keeps h.inv h.panicked hr p a).1
  have hbudget := h.budget hr
  suffices hsuff : (s.act p a).panicked = false ∧ Budget (s.act p a) from ⟨hinv, hsuff.1, fun _ => hsuff.2⟩
  cases a with
  | beginOp =>
    simp only [System.act]
    have hpanic (t : System κ) : (t.beginOp p).panicked = t.panicked := by
      unfold System.beginOp
      split
      · rfl
      · split <;> rfl
    split
    next hplace => exact ⟨(hpanic s).trans h.panicked, hbudget.beginOp hp (.inl hplace)⟩
    next hplace => exact ⟨(hpanic s).trans h.panicked, hbudget.beginOp hp (.inr hplace)⟩
    · exact ⟨h.panicked, hbudget⟩
  | write b data =>
    cases hplace : s.place p with
    | inOp wrote =>
      obtain ⟨hpanic, hnext⟩ := hbudget.write hp hplace (hkeeps wrote hplace) b data
      exact ⟨hpanic.trans h.panicked, hnext⟩
    | _ =>
      simp only [System.act, hplace]
      exact ⟨h.panicked, hbudget⟩
  | endOp =>
    simp only [System.act]
    split
    next wrote hplace =>
      obtain ⟨hpanic, hnext⟩ := hbudget.endOp hp hplace
      exact ⟨hpanic.trans h.panicked, hnext⟩
    · exact ⟨h.panicked, hbudget⟩
  | commit =>
    cases hplace : s.place p with
    | committing c =>
      have hact : s.act p (.commit : Action start) = s.commit start p c := by simp only [System.act, hplace]
      rw [hact] at hinv ⊢
      have hpanic := (commit_panicked start s p c).trans h.panicked
      obtain ⟨hout, hrec⟩ := commit_outstanding start s p c
      obtain ⟨stage', hd', hp'⟩ := hinv.running hpanic (hrec.trans hr)
      have hbusy : s.committing = true := hp.committing.mpr (by rw [(hp.stage c).mp ⟨p, hplace⟩]; simp)
      exact ⟨hpanic, .of_quiet hd' hp' (hout.trans (hp.quiet hbusy))⟩
    | _ =>
      simp only [System.act, hplace]
      exact ⟨h.panicked, hbudget⟩

theorem Roomy.step (h : Roomy start s) {e : Event start κ} (hkeeps : KeepsToItsBlocks s e) : Roomy start (s.step e) := by
  have hinv := (step_keeps h.inv e).1
  cases e with
  | crash => exact ⟨hinv, rfl, fun hr => (nomatch hr)⟩
  | recover =>
    simp only [System.step] at hinv ⊢
    split
    next r hr =>
      simp only [hr, h.panicked, Bool.false_eq_true, if_false] at hinv ⊢
      have hout : (s.recoverFromLog start r).outstanding = 0 ∧ (s.recoverFromLog start r).panicked = false := by
        have hidle := (h.inv.recovering h.panicked r hr).outstanding
        cases r with
        | installTrans tail => simp only [System.recoverFromLog]; split <;> exact ⟨hidle, h.panicked⟩
        | _ => exact ⟨hidle, h.panicked⟩
      refine ⟨hinv, hout.2, fun hdone => ?_⟩
      obtain ⟨stage, hd, hp⟩ := hinv.running hout.2 hdone
      exact .of_quiet hd hp hout.1
    · exact h
  | evict a =>
    simp only [System.step]
    split
    next hpin =>
      rw [evict_same h.inv hpin.2 hpin.1]
      exact h
    · exact h
  | act p a =>
    simp only [System.step]
    split
    · exact h
    next hrun =>
      rw [not_or] at hrun
      exact h.act (by simpa using hrun.2) p a hkeeps

/-- **The log does not overflow.** In every run in which a system call that has written
`MAXOPBLOCKS` different blocks calls `log_write` no more, nothing in the log panics. -/
theorem never_panics {disk : Nat → Block} (h : HeaderOk start disk) {es : List (Event start κ)}
    (hkeeps : Along System.step KeepsToItsBlocks (.boot disk) es) : (run System.step (.boot disk) es).panicked = false := by
  have hstart : Roomy start (System.boot disk : System κ) := ⟨inv_boot h, rfl, fun hr => (nomatch hr)⟩
  exact (run_inv_along (fun s e hs => hs.step) hstart hkeeps).panicked

end

/-- One system call that writes a block twice. -/
theorem never_panics_one :
    (run System.step (.boot fun _ _ => 0 : System Unit) [.recover, .recover, .recover, .act () .beginOp,
      .act () (.write ⟨100, .inr (by decide)⟩ fun _ => 7),
      .act () (.write (⟨100, .inr (by decide)⟩ : FileBlock 2) fun _ => 8),
      .act () .endOp]).panicked = false := by
  refine never_panics (headerOk_of_nil rfl) ⟨trivial, trivial, trivial, trivial, fun wrote hw => ?_, fun wrote hw => ?_,
    trivial, trivial⟩
  · have hnone : [] = wrote := Place.inOp.inj hw
    rw [← hnone]
    decide
  · have hone : [100] = wrote := Place.inOp.inj hw
    rw [← hone]
    decide

/-! ## Waiting -/

section
variable {κ : Type} {start : Nat} {s : System κ} {p q : κ}

/-- The statements of `commit` that are still to come, at most. -/
def Commit.rank (n : Nat) : Commit → Nat
  | .start => 2 * n + 6
  | .writeLog tail => (n - tail) + n + 5
  | .writeHead => n + 4
  | .installTrans tail => (n - tail) + 3
  | .erase => 2
  | .done => 1

/-- The same of what a process is about, if it only ends its system call and commits. -/
def Place.rank (n : Nat) : Place → Nat
  | .inOp _ => 2 * n + 8
  | .committing c => c.rank n
  | _ => 0

/-- The process is in `begin_op`. -/
def Waits (s : System κ) (p : κ) : Prop := s.place p = .asleep ∨ s.place p = .woken

/-- Another process moves, and may wake `p`. -/
theorem Waits.other [DecidableEq κ] (h : Waits s p) (hne : p ≠ q) {place : Place} {t : System κ}
    (hplace : t.place = Function.update s.place q place ∨ t.place = fun r => (Function.update s.place q place r).wakeup) :
    Waits t p := by
  unfold Waits at h ⊢
  rcases hplace with hplace | hplace
  · rwa [hplace, Function.update_of_ne hne]
  · simp only [hplace, Function.update_of_ne hne]
    right
    rcases h with h | h <;> rw [h] <;> rfl

theorem not_waits_committing {c : Commit} (hq : s.place q = .committing c) (h : Waits s p) : p ≠ q := by
  rintro rfl
  rcases h with h | h <;> rw [h] at hq <;> cases hq

variable [Fintype κ]

@[simp] theorem wakeup_rank (n : Nat) (place : Place) : place.wakeup.rank n = place.rank n := by cases place <;> rfl

theorem rank_le (n : Nat) (place : Place) : place.rank 0 ≤ 1 * place.rank n := by
  cases place with
  | inOp wrote => simp only [Place.rank]; omega
  | committing c => cases c <;> simp only [Place.rank, Commit.rank] <;> omega
  | _ => exact Nat.zero_le _

variable [DecidableEq κ]

/-- The process that commits comes nearer to its end. -/
theorem commit_goes_on (start : Nat) {c : Commit} (hq : s.place q = .committing c) (h : Waits s p) :
    Waits (s.commit start q c) p ∧
      total (Place.rank (s.commit start q c).lh.length) (s.commit start q c).place <
        total (Place.rank s.lh.length) s.place := by
  have hne := not_waits_committing hq h
  have htotal (place : Place) := total_update (Place.rank s.lh.length) s.place q place
  rw [hq] at htotal
  have hupdate (place : Place) (hlt : place.rank s.lh.length < c.rank s.lh.length) :
      total (Place.rank s.lh.length) (Function.update s.place q place) < total (Place.rank s.lh.length) s.place := by
    have hadd : _ + c.rank s.lh.length = _ := htotal place
    omega
  cases c with
  | start =>
    refine ⟨h.other hne (.inl rfl), hupdate _ ?_⟩
    split
    · simp only [Place.rank, Commit.rank]
      omega
    · simp only [Place.rank, Commit.rank]
      omega
  | writeLog tail =>
    simp only [System.commit]
    split
    next src hsrc =>
      have hlt := (List.getElem?_eq_some_iff.mp hsrc).1
      refine ⟨h.other hne (.inl rfl), hupdate _ ?_⟩
      simp only [Place.rank, Commit.rank]
      omega
    · refine ⟨h.other hne (.inl rfl), hupdate _ ?_⟩
      simp only [Place.rank, Commit.rank]
      omega
  | writeHead =>
    refine ⟨h.other hne (.inl rfl), hupdate _ ?_⟩
    simp only [Place.rank, Commit.rank]
    omega
  | installTrans tail =>
    simp only [System.commit]
    split
    next dst hdst =>
      have hlt := (List.getElem?_eq_some_iff.mp hdst).1
      refine ⟨h.other hne (.inl rfl), hupdate _ ?_⟩
      simp only [Place.rank, Commit.rank]
      omega
    · refine ⟨h.other hne (.inl rfl), hupdate _ ?_⟩
      simp only [Place.rank, Commit.rank]
      omega
  | erase =>
    refine ⟨h.other hne (.inl rfl), ?_⟩
    have hless := hupdate (.committing .done) (by simp only [Place.rank, Commit.rank]; omega)
    have hle := total_le_mul (rank_le s.lh.length) (Function.update s.place q (.committing .done))
    rw [Nat.one_mul] at hle
    exact Nat.lt_of_le_of_lt hle hless
  | done =>
    refine ⟨h.other hne (.inr rfl), ?_⟩
    have hless := hupdate .outside (by simp only [Place.rank, Commit.rank]; omega)
    have hwake : total (Place.rank s.lh.length) (fun r => (Function.update s.place q .outside r).wakeup) =
        total (Place.rank s.lh.length) (Function.update s.place q .outside) :=
      total_congr fun r => wakeup_rank _ _
    exact Nat.lt_of_le_of_lt hwake.le hless

end

end OsNetworks.Xv6.FsLog
