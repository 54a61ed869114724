/-
Pipes. Any number of processes write, read and close the two ends; `pi->lock` is
the lock of a monitor, and the processes wait on `&pi->nread` and `&pi->nwrite`.

What the kernel does not keep is kept here beside the pipe: the bytes that were
ever put in and the bytes that were ever taken out, in order.
-/
import OsNetworks.Lib.Monitor
import OsNetworks.Xv6.SleepWakeup

namespace OsNetworks.Xv6.Pipes
open OsNetworks.Monitor OsNetworks.Runs OsNetworks.Xv6.SleepWakeup

/-- `PIPESIZE` -/
def pipeSize : Nat := 512

/-- `struct pipe`, as `pipealloc` leaves it, and what has gone through it. -/
structure Pipe where
  data : Fin pipeSize → UInt8 := fun _ => 0
  nread : UInt32 := 0
  nwrite : UInt32 := 0
  readopen : Bool := true
  writeopen : Bool := true
  put : List UInt8 := []
  got : List UInt8 := []

/-- `&pi->nread` and `&pi->nwrite` -/
inductive Chan where
  | nread
  | nwrite
  deriving DecidableEq

inductive Call where
  | pipewrite (n : Int)
  | piperead (n : Int)
  | pipeclose (writable : Bool)

/-- Where a process is. `i` counts the bytes of the call. -/
inductive Local where
  | idle
  /-- `while(i < n)`. A byte has been put in since `pi->lock` was acquired if `stored`. -/
  | writing (n : Int) (i : Nat) (stored : Bool)
  /-- about to sleep -/
  | full (n : Int) (i : Nat)
  /-- about to return `i` -/
  | wrote (i : Nat)
  /-- `while(pi->nread == pi->nwrite && pi->writeopen)` -/
  | reading (n : Int)
  | copying (n : Int) (i : Nat)
  /-- about to return `r` -/
  | read (n r : Int)
  | closing (writable : Bool)
  /-- about to wake the other end -/
  | closed (writable : Bool)
  /-- about to look whether both ends are closed -/
  | shut
  | returned (r : Int)
  /-- `pipeclose` is about to call `kfree` -/
  | freeing
  deriving DecidableEq

/-- What a process meets: the call it makes, `killed(pr)`, the byte that `copyin` gets, if it does not
fail, and whether `copyout` does. -/
structure Input where
  call : Call := .piperead 0
  killed : Bool := false
  copyin : Option UInt8 := none
  copyout : Bool := true

/-- `i % PIPESIZE` -/
def slot (i : UInt32) : Fin pipeSize := ⟨i.toNat % pipeSize, Nat.mod_lt _ (by decide)⟩

namespace Pipe

/-- `pi->data[pi->nwrite++ % PIPESIZE] = ch` -/
def store (pi : Pipe) (ch : UInt8) : Pipe :=
  { pi with
    data := Function.update pi.data (slot pi.nwrite) ch
    nwrite := pi.nwrite + 1
    put := pi.put ++ [ch] }

/-- `ch = pi->data[pi->nread % PIPESIZE]`, and then `pi->nread++` -/
def take (pi : Pipe) : Pipe :=
  { pi with nread := pi.nread + 1, got := pi.got ++ [pi.data (slot pi.nread)] }

def close (pi : Pipe) (writable : Bool) : Pipe :=
  if writable then { pi with writeopen := false } else { pi with readopen := false }

/-- The bytes from `nread` up to `nwrite`. -/
def contents (pi : Pipe) : List UInt8 :=
  (List.range (pi.nwrite - pi.nread).toNat).map fun k => pi.data (slot (pi.nread + UInt32.ofNat k))

end Pipe

def enter (i : Input) : Local → Local := fun _ =>
  match i.call with
  | .pipewrite n => .writing n 0 false
  | .piperead n => .reading n
  | .pipeclose writable => .closing writable

/-- The statements of `pipewrite`, `piperead` and `pipeclose`. -/
def body (i : Input) (pi : Pipe) : Local → Move Pipe Local Chan
  | .writing n k _ =>
    if k < n then
      if pi.readopen = false ∨ i.killed then .leave (.returned (-1))
      else if pi.nwrite = pi.nread + UInt32.ofNat pipeSize then .wake .nread (.full n k)
      else
        match i.copyin with
        | none => .wake .nread (.wrote k)
        | some ch => .go (pi.store ch) (.writing n (k + 1) true)
    else .wake .nread (.wrote k)
  | .full n k => .sleep .nwrite (.writing n k false)
  | .wrote k => .leave (.returned k)
  | .reading n =>
    if pi.nread = pi.nwrite ∧ pi.writeopen then
      if i.killed then .leave (.returned (-1)) else .sleep .nread (.reading n)
    else .go pi (.copying n 0)
  | .copying n k =>
    if k < n then
      if pi.nread = pi.nwrite then .wake .nwrite (.read n k)
      else if i.copyout then .go pi.take (.copying n (k + 1))
      else .wake .nwrite (.read n (if k = 0 then -1 else k))
    else .wake .nwrite (.read n k)
  | .read _ r => .leave (.returned r)
  | .closing writable => .go (pi.close writable) (.closed writable)
  | .closed writable => .wake (if writable then .nread else .nwrite) .shut
  | .shut => .leave (if pi.readopen = false ∧ pi.writeopen = false then .freeing else .returned 0)
  | l => .leave l

def program : Program Input Pipe Local Chan := ⟨enter, body⟩

/-- The pipe is new, and nobody uses it yet. -/
def fresh (n : Nat) : Machine n Pipe Local Chan := boot {} fun _ => .idle

/-! ## The bytes -/

/-- The bytes taken out were put in, and those put in since are in the ring. -/
structure Sound (pi : Pipe) : Prop where
  nwrite : pi.nwrite = UInt32.ofNat pi.put.length
  nread : pi.nread = UInt32.ofNat pi.got.length
  got : pi.got <+: pi.put
  room : pi.put.length ≤ pi.got.length + pipeSize
  data : ∀ k, pi.got.length ≤ k → (hk : k < pi.put.length) → pi.data (slot (UInt32.ofNat k)) = pi.put[k]

theorem slot_ofNat (k : Nat) : (slot (UInt32.ofNat k)).val = k % pipeSize := by
  simp only [slot, UInt32.toNat_ofNat']
  exact Nat.mod_mod_of_dvd k (by decide)

/-- Counters that are no further apart than the ring is long agree only if they are equal. -/
theorem count_eq {k j : Nat} (hle : k ≤ j) (hroom : j ≤ k + pipeSize) : UInt32.ofNat k = UInt32.ofNat j ↔ k = j := by
  refine ⟨fun h => ?_, fun h => h ▸ rfl⟩
  have hmod := congrArg UInt32.toNat h
  simp only [UInt32.toNat_ofNat'] at hmod
  simp only [pipeSize] at hroom
  omega

section
variable {pi : Pipe}

theorem Sound.empty_iff (h : Sound pi) : pi.nread = pi.nwrite ↔ pi.got.length = pi.put.length := by
  rw [h.nread, h.nwrite]
  exact count_eq h.got.length_le h.room

theorem Sound.full_iff (h : Sound pi) :
    pi.nwrite = pi.nread + UInt32.ofNat pipeSize ↔ pi.put.length = pi.got.length + pipeSize := by
  have hadd : pi.nread + UInt32.ofNat pipeSize = UInt32.ofNat (pi.got.length + pipeSize) := by
    rw [h.nread, UInt32.ofNat_add]
  rw [hadd, h.nwrite]
  exact count_eq h.room (by have := h.got.length_le; omega)

theorem Sound.count (h : Sound pi) : (pi.nwrite - pi.nread).toNat = pi.put.length - pi.got.length := by
  have hle := h.got.length_le
  have hroom := h.room
  rw [h.nwrite, h.nread, ← UInt32.ofNat_sub hle, UInt32.toNat_ofNat']
  simp only [pipeSize] at hroom
  omega

theorem Sound.put_eq (h : Sound pi) : pi.put = pi.got ++ pi.contents := by
  obtain ⟨rest, hrest⟩ := h.got
  have hlen : rest.length = pi.put.length - pi.got.length := by rw [← hrest, List.length_append]; omega
  rw [← hrest]
  congr 1
  refine List.ext_getElem (by rw [Pipe.contents, List.length_map, List.length_range, h.count, hlen]) fun k hk _ => ?_
  have hdata := h.data (pi.got.length + k) (Nat.le_add_right _ _) (by rw [← hrest, List.length_append]; omega)
  simp only [Pipe.contents, List.getElem_map, List.getElem_range]
  rw [h.nread, ← UInt32.ofNat_add, hdata]
  simp only [← hrest, List.getElem_append_right (Nat.le_add_right _ _), Nat.add_sub_cancel_left]

theorem Sound.store (h : Sound pi) (hroom : pi.nwrite ≠ pi.nread + UInt32.ofNat pipeSize) (ch : UInt8) :
    Sound (pi.store ch) := by
  have hlt : pi.put.length < pi.got.length + pipeSize := Nat.lt_of_le_of_ne h.room (mt h.full_iff.mpr hroom)
  refine ⟨?_, h.nread, h.got.trans (List.prefix_append _ _), ?_, fun k hk hlen => ?_⟩
  · simp only [Pipe.store, List.length_append, List.length_singleton, UInt32.ofNat_add, h.nwrite]
    rfl
  · simp only [Pipe.store, List.length_append, List.length_singleton]
    omega
  · simp only [Pipe.store, List.length_append, List.length_singleton] at hk hlen ⊢
    rw [h.nwrite]
    by_cases hlast : k = pi.put.length
    · subst hlast
      rw [Function.update_self, List.getElem_concat_length rfl]
    · have hslot : slot (UInt32.ofNat k) ≠ slot (UInt32.ofNat pi.put.length) := fun heq => by
        have hmod := congrArg Fin.val heq
        rw [slot_ofNat, slot_ofNat] at hmod
        simp only [pipeSize] at hmod hlt
        omega
      rw [Function.update_of_ne hslot, h.data k hk (by omega), List.getElem_append_left]

theorem Sound.store_ne (h : Sound pi) (hroom : pi.nwrite ≠ pi.nread + UInt32.ofNat pipeSize) (ch : UInt8) :
    (pi.store ch).nread ≠ (pi.store ch).nwrite := by
  refine mt (h.store hroom ch).empty_iff.mp (Nat.ne_of_lt ?_)
  simp only [Pipe.store, List.length_append, List.length_singleton]
  exact Nat.lt_succ_of_le h.got.length_le

theorem Sound.take (h : Sound pi) (hsome : pi.nread ≠ pi.nwrite) : Sound pi.take := by
  have hlt : pi.got.length < pi.put.length := Nat.lt_of_le_of_ne h.got.length_le (mt h.empty_iff.mpr hsome)
  have hbyte : pi.data (slot pi.nread) = pi.put[pi.got.length] := by
    rw [h.nread]
    exact h.data pi.got.length (Nat.le_refl _) hlt
  refine ⟨h.nwrite, ?_, ?_, ?_, fun k hk hlen => ?_⟩
  · simp only [Pipe.take, List.length_append, List.length_singleton, UInt32.ofNat_add, h.nread]
    rfl
  · simp only [Pipe.take, hbyte]
    have hnext : pi.put.take pi.got.length ++ [pi.put[pi.got.length]] = pi.put.take (pi.got.length + 1) :=
      List.take_append_getElem hlt
    rw [← List.prefix_iff_eq_take.mp h.got] at hnext
    rw [hnext]
    exact List.take_prefix _ _
  · have hroom := h.room
    simp only [Pipe.take, List.length_append, List.length_singleton]
    omega
  · simp only [Pipe.take, List.length_append, List.length_singleton] at hk
    exact h.data k (by omega) hlen

theorem Sound.close (h : Sound pi) (writable : Bool) : Sound (pi.close writable) := by
  unfold Pipe.close
  split <;> exact ⟨h.nwrite, h.nread, h.got, h.room, h.data⟩

/-- What is known of the pipe where a process is. -/
def Local.knows (pi : Pipe) : Local → Prop
  | .writing _ _ stored => stored = true → pi.readopen = true ∧ pi.nread ≠ pi.nwrite
  | .full _ _ => pi.nwrite = pi.nread + UInt32.ofNat pipeSize ∧ pi.readopen = true
  | .copying _ k => k = 0 → pi.nread = pi.nwrite → pi.writeopen = false
  | .read n r => 0 < n → r = 0 → pi.nread = pi.nwrite ∧ pi.writeopen = false
  | _ => True

/-- The bytes stay in order, whoever may go on. -/
def outline (ok : Input → Pipe → Local → Prop) : Outline program ok where
  free := Sound
  held pi l := Sound pi ∧ l.knows pi
  out _ := True
  waits c l := (∃ n k, c = .nwrite ∧ l = .writing n k false) ∨ ∃ n, c = .nread ∧ l = .reading n
  enter i pi l hpi _ := by
    refine ⟨hpi, ?_⟩
    simp only [program, Pipes.enter]
    cases i.call with
    | pipewrite n => exact nofun
    | _ => trivial
  again c pi l hpi hl := by
    rcases hl with ⟨n, k, -, rfl⟩ | ⟨n, -, rfl⟩
    · exact ⟨hpi, nofun⟩
    · exact ⟨hpi, trivial⟩
  body i pi l := by
    rintro ⟨hpi, hl⟩ -
    simp only [program]
    cases l with
    | writing n k stored =>
      simp only [Pipes.body]
      by_cases hmore : (k : Int) < n
      · by_cases hbroken : pi.readopen = false ∨ i.killed
        · simp only [hmore, if_true, hbroken]
          exact ⟨hpi, trivial⟩
        · by_cases hfull : pi.nwrite = pi.nread + UInt32.ofNat pipeSize
          · rw [if_pos hmore, if_neg hbroken, if_pos hfull]
            exact ⟨hpi, hfull, Bool.eq_true_of_not_eq_false (not_or.mp hbroken).1⟩
          · rw [if_pos hmore, if_neg hbroken, if_neg hfull]
            cases i.copyin with
            | none => exact ⟨hpi, trivial⟩
            | some ch => exact ⟨hpi.store hfull ch, fun _ => ⟨Bool.eq_true_of_not_eq_false (not_or.mp hbroken).1, hpi.store_ne hfull ch⟩⟩
      · rw [if_neg hmore]
        exact ⟨hpi, trivial⟩
    | full n k => exact ⟨hpi, .inl ⟨n, k, rfl, rfl⟩⟩
    | reading n =>
      simp only [Pipes.body]
      by_cases hempty : pi.nread = pi.nwrite ∧ pi.writeopen
      · rw [if_pos hempty]
        cases i.killed with
        | true => exact ⟨hpi, trivial⟩
        | false => exact ⟨hpi, .inr ⟨n, rfl, rfl⟩⟩
      · rw [if_neg hempty]
        exact ⟨hpi, fun _ heq => by simpa [heq] using hempty⟩
    | copying n k =>
      simp only [Pipes.body]
      by_cases hmore : (k : Int) < n
      · by_cases hempty : pi.nread = pi.nwrite
        · rw [if_pos hmore, if_pos hempty]
          exact ⟨hpi, fun _ hzero => ⟨hempty, hl (Int.ofNat_eq_zero.mp hzero) hempty⟩⟩
        · rw [if_pos hmore, if_neg hempty]
          cases i.copyout with
          | true => exact ⟨hpi.take hempty, nofun⟩
          | false =>
            refine ⟨hpi, fun _ hzero => ?_⟩
            split at hzero
            · cases hzero
            next hk => exact absurd (Int.ofNat_eq_zero.mp hzero) hk
      · rw [if_neg hmore]
        exact ⟨hpi, fun hpos hzero => absurd (hzero ▸ hpos) hmore⟩
    | closing writable => exact ⟨hpi.close writable, trivial⟩
    | closed writable => exact ⟨hpi, trivial⟩
    | shut => exact ⟨hpi, trivial⟩
    | _ => exact ⟨hpi, trivial⟩

/-! ## Who sleeps -/

/-- What a process waits for at an end of the pipe has not come. -/
def Pipe.blocks (pi : Pipe) : Chan → Prop
  | .nread => pi.nread = pi.nwrite ∧ pi.writeopen = true
  | .nwrite => pi.nwrite = pi.nread + UInt32.ofNat pipeSize ∧ pi.readopen = true

/-- The process with the lock is to wake the channel, or has woken it. -/
def Local.settles : Local → Chan → Prop
  | .writing _ _ stored, .nread => stored = true
  | .full _ _, .nread => False
  | .copying _ _, c => c = .nwrite
  | .closed writable, c => c = if writable then .nread else .nwrite
  | _, _ => False

/-- A writer is killed after it has put a byte in, and before it has woken the readers. -/
def CutOff (i : Input) (_ : Pipe) : Local → Prop
  | .writing n k stored => k < n ∧ i.killed = true ∧ stored = true
  | _ => False

/-- A process sleeps at an end of the pipe only while it is blocked, unless the process with the
lock is to wake it. -/
def wakes (κ : Type) :
    @Wakes κ _ _ _ _ program (outline fun i pi l => ¬ CutOff i pi l).Holds fun i pi l => ¬ CutOff i pi l where
  cond c pi := pi.blocks c
  may c pi l := pi.blocks c ∨ l.settles c
  enter _ _ _ _ _ _ _ h := .inl h
  again _ _ _ _ _ _ h := .inl h
  body s p i l hs hp hok := by
    have hpi : Sound s.data := by
      have hplace := hs.place p
      rw [hp] at hplace
      exact hplace.1
    have hl : l.knows s.data := by
      have hplace := hs.place p
      rw [hp] at hplace
      exact hplace.2
    generalize s.data = pi at hpi hl hok ⊢
    simp only [program]
    cases l with
    | writing n k stored =>
      simp only [Pipes.body]
      by_cases hmore : (k : Int) < n
      · by_cases hbroken : pi.readopen = false ∨ i.killed
        · simp only [hmore, if_true, hbroken]
          intro c hc
          refine hc.resolve_right fun hsettles => ?_
          cases c with
          | nread =>
            -- the byte was put in while the read end was open, and nobody else had the lock since
            have hkilled := hbroken.resolve_left (by rw [(hl hsettles).1]; exact nofun)
            exact hok ⟨hmore, hkilled, hsettles⟩
          | nwrite => exact hsettles
        · by_cases hfull : pi.nwrite = pi.nread + UInt32.ofNat pipeSize
          · rw [if_pos hmore, if_neg hbroken, if_pos hfull]
            intro c hne hc
            cases c with
            | nread => exact absurd rfl hne
            | nwrite => exact hc
          · rw [if_pos hmore, if_neg hbroken, if_neg hfull]
            cases i.copyin with
            | none =>
              intro c hne hc
              cases c with
              | nread => exact absurd rfl hne
              | nwrite => exact hc
            | some ch =>
              intro c hc
              cases c with
              | nread => exact .inr rfl
              | nwrite => exact absurd (hc.resolve_right id).1 hfull
      · rw [if_neg hmore]
        intro c hne hc
        cases c with
        | nread => exact absurd rfl hne
        | nwrite => exact hc
    | full n k =>
      refine ⟨hl, fun c hc => ?_⟩
      cases c with
      | nread => exact hc.resolve_right id
      | nwrite => exact hl
    | reading n =>
      simp only [Pipes.body]
      by_cases hempty : pi.nread = pi.nwrite ∧ pi.writeopen
      · rw [if_pos hempty]
        cases i.killed with
        | true => exact fun c hc => hc.resolve_right id
        | false => exact ⟨hempty, fun c hc => hc.resolve_right id⟩
      · rw [if_neg hempty]
        intro c hc
        cases c with
        | nread => exact absurd (hc.resolve_right id) hempty
        | nwrite => exact .inr rfl
    | copying n k =>
      have hwoken (c : Chan) (hne : c ≠ .nwrite) (hc : pi.blocks c ∨ (Local.copying n k).settles c) (r : Int) :
          pi.blocks c ∨ (Local.read n r).settles c := .inl (hc.resolve_right hne)
      simp only [Pipes.body]
      by_cases hmore : (k : Int) < n
      · by_cases hempty : pi.nread = pi.nwrite
        · rw [if_pos hmore, if_pos hempty]
          exact fun c hne hc => hwoken c hne hc k
        · rw [if_pos hmore, if_neg hempty]
          cases i.copyout with
          | true =>
            intro c hc
            cases c with
            | nread => exact absurd (hc.resolve_right nofun).1 hempty
            | nwrite => exact .inr rfl
          | false => exact fun c hne hc => hwoken c hne hc _
      · rw [if_neg hmore]
        exact fun c hne hc => hwoken c hne hc k
    | closing writable =>
      intro c hc
      have hblocks := hc.resolve_right id
      cases writable <;> cases c
      · exact .inl hblocks
      · exact .inr rfl
      · exact .inr rfl
      · exact .inl hblocks
    | closed writable => exact fun c hne hc => .inl (hc.resolve_right hne)
    | _ => exact fun c hc => hc.resolve_right id

/-! ## Every run -/

variable {n : Nat}

/-- The same run, with `sleep` and `wakeup` done at once. -/
theorem view_run (acts : List (Act n Input)) : view (run (Machine.step program) (fresh n) acts) =
    run (State.step program) (view (fresh n)) (trace (Machine.step program) label (fresh n) acts) :=
  run_atomic program {} _ acts

theorem holds_fresh (ok : Input → Pipe → Local → Prop) : (outline ok).Holds (view (fresh n)) :=
  ⟨fun p => by simp [view, fresh, boot, placeOf], fun _ => ⟨rfl, rfl, List.prefix_rfl, Nat.zero_le _, fun k _ hk => (nomatch hk)⟩,
    fun _ => trivial⟩

theorem holds_run (acts : List (Act n Input)) :
    (outline fun _ _ _ => True).Holds (view (run (Machine.step program) (fresh n) acts)) := by
  rw [view_run]
  refine Outline.holds_run (holds_fresh _) (Along.of_inv (I := fun _ => True) (fun _ _ h => h) (fun s e _ => ?_) trivial _)
  cases e with
  | go p i => exact fun _ _ => trivial
  | rouse p => trivial

theorem sound_run (acts : List (Act n Input)) : Sound (run (Machine.step program) (fresh n) acts).data :=
  (holds_run acts).data (fun _ h => h) fun _ _ h => h.1

/-- **A pipe keeps its bytes in order.** However many processes read, write and close it and however
their steps come, what was put in is what was taken out, followed by what is in the ring. -/
theorem pipe_fifo (acts : List (Act n Input)) :
    let pi := (run (Machine.step program) (fresh n) acts).data
    pi.put = pi.got ++ pi.contents ∧ pi.contents.length ≤ pipeSize := by
  have hsound := sound_run acts
  refine ⟨hsound.put_eq, ?_⟩
  have hroom := hsound.room
  rw [Pipe.contents, List.length_map, List.length_range, hsound.count]
  omega

/-- `piperead` returns 0 to a process that wants bytes only when the write end is closed and
everything that was put in has been taken out. -/
theorem end_of_file (acts : List (Act n Input)) (p : Fin n) (m : Int) :
    let s := run (Machine.step program) (fresh n) acts
    0 < m → s.pc p = .inside (.read m 0) → s.data.writeopen = false ∧ s.data.got = s.data.put := by
  intro s hm hp
  have hplace := (holds_run acts).place p
  have hshow : (view s).place p = .inside (.read m 0) := by simp only [view, hp, placeOf]
  rw [hshow] at hplace
  obtain ⟨hsound, hknows⟩ := hplace
  obtain ⟨hempty, hclosed⟩ := hknows hm rfl
  exact ⟨hclosed, hsound.got.eq_of_length (hsound.empty_iff.mp hempty)⟩

/-- Process 0 has closed the write end, and process 1 wants a byte. -/
theorem end_of_file_closed :
    let s := run (Machine.step program) (fresh 2) (.go 0 { call := .pipeclose true } :: List.replicate 7 (.go 0 {}) ++
      .go 1 { call := .piperead 1 } :: List.replicate 6 (.go 1 {}))
    s.data.writeopen = false ∧ s.data.got = s.data.put :=
  end_of_file _ 1 1 (by decide) rfl

theorem permits_of_alive {s : Machine n Pipe Local Chan} {acts : List (Act n Input)}
    (h : ∀ p i, .go p i ∈ acts → i.killed = false) :
    Along (Machine.step program) (Permits fun i pi l => ¬ CutOff i pi l) s acts := by
  induction acts generalizing s with
  | nil => trivial
  | cons a acts ih =>
    refine ⟨?_, ih fun p i hmem => h p i (List.mem_cons_of_mem _ hmem)⟩
    cases a with
    | go p i =>
      have halive := h p i List.mem_cons_self
      intro l _ hcut
      cases l with
      | writing m k stored => exact absurd (halive.symm.trans hcut.2.1) (by decide)
      | _ => exact hcut
    | _ => trivial

theorem wakes_run {acts : List (Act n Input)}
    (hacts : Along (Machine.step program) (Permits fun i pi l => ¬ CutOff i pi l) (fresh n) acts) :
    (wakes (Fin n)).Holds (view (run (Machine.step program) (fresh n) acts)) := by
  have hfresh := holds_fresh (n := n) fun i pi l => ¬ CutOff i pi l
  rw [view_run]
  refine Wakes.holds_run (fun s e t hs hok hst => hs.stepped hok hst) hfresh hfresh.locked (.of_nobody ?_)
    (allowed_trace hacts)
  rintro c ⟨p, l, hp⟩
  simp [view, fresh, boot, placeOf] at hp

/-- **No wakeup is lost**, as long as no writer is killed between the byte it has put in and the
wakeup it owes: while nobody has the lock, whoever sleeps at an end of the pipe is blocked there. -/
theorem no_lost_wakeup {acts : List (Act n Input)}
    (hacts : Along (Machine.step program) (Permits fun i pi l => ¬ CutOff i pi l) (fresh n) acts) :
    let s := run (Machine.step program) (fresh n) acts
    s.lk = none → ∀ q c, s.state q = .sleeping → s.chan q = some c → s.data.blocks c := by
  intro s hfree q c hq hc
  obtain ⟨l, hl⟩ := asleep_of_sleeping (inv_run program _ _ acts) hfree hq hc
  have hfree' : (view s).lock = none := by simp only [view, hfree, Option.filter_none]
  exact (wakes_run hacts).free c ⟨q, l, hl⟩ hfree'

/-- Process 1 waits for a byte. -/
theorem no_lost_wakeup_reader :
    (run (Machine.step program) (fresh 2) (.go 1 { call := .piperead 1 } :: List.replicate 5 (.go 1 {}))).data.blocks
      .nread :=
  no_lost_wakeup (permits_of_alive (by simp)) rfl 1 .nread rfl rfl

/-- A reader and a writer do not sleep at the same time. -/
theorem not_both {acts : List (Act n Input)}
    (hacts : Along (Machine.step program) (Permits fun i pi l => ¬ CutOff i pi l) (fresh n) acts) :
    let s := run (Machine.step program) (fresh n) acts
    s.lk = none → ∀ q r, s.state q = .sleeping → s.chan q = some .nread →
      ¬ (s.state r = .sleeping ∧ s.chan r = some .nwrite) := by
  rintro s hfree q r hq hqc ⟨hr, hrc⟩
  have hempty := (no_lost_wakeup hacts hfree q .nread hq hqc).1
  have hfull := (no_lost_wakeup hacts hfree r .nwrite hr hrc).1
  have hsound := sound_run acts
  have hlen := hsound.empty_iff.mp hempty
  have hroom := hsound.full_iff.mp hfull
  simp only [pipeSize] at hroom
  omega

/-- A writer that is cut off leaves the readers asleep beside its bytes. -/
theorem cut_off_loses (acts : List (Act n Input)) (p q : Fin n) (i : Input) (l : Local) :
    let s := run (Machine.step program) (fresh n) acts
    let t := s.step program (.go p i)
    s.pc p = .inside l → CutOff i s.data l → s.state q = .sleeping → s.chan q = some .nread →
      t.lk = none ∧ t.state q = .sleeping ∧ t.chan q = some .nread ∧ ¬ t.data.blocks .nread := by
  intro s t hp hcut hq hc
  have hplace := (holds_run acts).place p
  have hshow : (view s).place p = .inside l := by simp only [view, hp, placeOf]
  rw [hshow] at hplace
  obtain ⟨hsound, hknows⟩ := hplace
  cases l with
  | writing m k stored =>
    obtain ⟨hmore, hkilled, hstored⟩ := hcut
    have hstep : t = s.releaseLk p (.outside (.returned (-1))) := by
      simp only [t, Machine.step, Machine.go, hp, program, Pipes.body, hmore, hkilled, or_true, if_true]
    rw [hstep]
    exact ⟨rfl, hq, hc, fun hblocks => (hknows hstored).2 hblocks.1⟩
  | _ => exact absurd hcut id

end

/-- Process 0 puts in one byte of two. -/
theorem cut_off_loses_byte :
    let s := run (Machine.step program) (fresh 2) (.go 1 { call := .piperead 1 } :: List.replicate 5 (.go 1 {}) ++
      [.go 0 { call := .pipewrite 2 }, .go 0 { copyin := some 7 }])
    let t := s.step program (.go 0 { killed := true })
    t.lk = none ∧ t.state 1 = .sleeping ∧ t.chan 1 = some .nread ∧ ¬ t.data.blocks .nread :=
  cut_off_loses _ 0 1 _ (.writing 2 1 true) rfl ⟨by decide, rfl, rfl⟩ rfl rfl

end OsNetworks.Xv6.Pipes
