/-
What a crash leaves of the file system. At each moment the disk, with what the
log holds carried out over it, is a store that changes only when the header of
the log is written, and that is while no system call is under way.
-/
import OsNetworks.Xv6.FsLog

namespace OsNetworks.Xv6.FsLog
open OsNetworks.Journal OsNetworks.Runs OsNetworks.Threads

/-! ## The store -/

/-- The blocks of the disk outside the log. -/
abbrev Home (start : Nat) := { a : Nat // Outside start a }

/-- The writes that the log on the disk holds. -/
def logged (start : Nat) (disk : Nat → Block) : List (Nat × Block) :=
  (readHead (disk start)).zipIdx.map fun w => (w.1.toNat, disk (start + w.2 + 1))

/-- The disk after a recovery. -/
def recovered (start : Nat) (disk : Nat → Block) : Nat → Block := redo (logged start disk) disk

/-- What the processes see, and what a crash leaves. -/
def System.store {κ : Type} (start : Nat) (s : System κ) : Store (Home start) Block where
  current a := if s.recovery.isSome then recovered start s.disk a else s.cache a
  durable a := recovered start s.disk a
  active := s.outstanding

/-! ## The header block -/

theorem readHead_writeHead {blocks : List UInt32} (h : blocks.length ≤ logBlocks) (b : Block) :
    readHead (writeHead blocks b) = blocks := by
  have hlen : blocks.length ≤ 30 := h
  have hn : (writeHead blocks b 0).toNat = blocks.length := by
    simp only [writeHead, if_true]
    exact UInt32.toNat_ofNat_of_lt' (by simp only [UInt32.size]; omega)
  unfold readHead
  rw [hn]
  refine List.ext_getElem (by simp) fun i h1 h2 => ?_
  have hi : (Fin.ofNat 256 (i + 1)).val = i + 1 := Nat.mod_eq_of_lt (by omega)
  have hne : Fin.ofNat 256 (i + 1) ≠ 0 := fun he => by
    have := congrArg Fin.val he
    omega
  rw [List.getElem_map, List.getElem_range, writeHead, if_neg hne, hi, Nat.add_sub_cancel,
    List.getD_eq_getElem?_getD, List.getElem?_eq_getElem h2, Option.getD_some]

theorem readHead_erased (b : Block) : readHead (writeHead [] b) = [] := readHead_writeHead (Nat.zero_le _) b

/-- The log on the disk can be carried out. -/
structure HeaderOk (start : Nat) (disk : Nat → Block) : Prop where
  room : (readHead (disk start)).length ≤ logBlocks
  outside : ∀ b ∈ readHead (disk start), Outside start b.toNat

section
variable {start : Nat} {disk other : Nat → Block}

theorem headerOk_of_nil (h : readHead (disk start) = []) : HeaderOk start disk :=
  ⟨by simp [h], by simp [h]⟩

theorem not_outside_log {i : Nat} (h : i < logBlocks) : ¬ Outside start (start + i + 1) := by
  unfold Outside
  omega

theorem not_outside_head : ¬ Outside start start := by
  unfold Outside
  omega

theorem Outside.ne_log {a i : Nat} (h : Outside start a) (hi : i < logBlocks) : a ≠ start + i + 1 := by
  rintro rfl
  exact not_outside_log hi h

theorem Outside.ne_head {a : Nat} (h : Outside start a) : a ≠ start := by
  rintro rfl
  exact not_outside_head h

/-- The log is read from its own blocks. -/
theorem logged_congr (h : HeaderOk start disk) (hsame : ∀ a, ¬ Outside start a → other a = disk a) :
    logged start other = logged start disk := by
  unfold logged
  rw [hsame start not_outside_head]
  refine List.map_congr_left fun w hw => ?_
  have hlt : w.2 < (readHead (disk start)).length := by simpa using List.snd_lt_of_mem_zipIdx hw
  rw [hsame _ (not_outside_log (Nat.lt_of_lt_of_le hlt h.room))]

theorem recovered_of_nil (h : readHead (disk start) = []) : recovered start disk = disk := by
  simp [recovered, logged, h]

theorem map_fst_logged (start : Nat) (disk : Nat → Block) :
    (logged start disk).map Prod.fst = (readHead (disk start)).map UInt32.toNat := by
  rw [logged, List.map_map]
  exact (List.map_map (g := UInt32.toNat) (f := Prod.fst)).symm.trans (by rw [List.zipIdx_map_fst])

/-- A log whose entries hold the blocks of `cache`. -/
theorem recovered_of_values (cache : Nat → Block)
    (h : ∀ i (hi : i < (readHead (disk start)).length),
      disk (start + i + 1) = cache ((readHead (disk start))[i]).toNat) (a : Nat) :
    recovered start disk a = if a ∈ (readHead (disk start)).map UInt32.toNat then cache a else disk a := by
  rw [recovered, redo_of_values (v := cache), map_fst_logged]
  intro w hw
  obtain ⟨⟨b, i⟩, hmem, rfl⟩ := List.mem_map.mp hw
  obtain ⟨hi, rfl⟩ : ∃ hi : i < (readHead (disk start)).length, (readHead (disk start))[i] = b := by
    have hget := List.mem_zipIdx_iff_getElem?.mp hmem
    exact List.getElem?_eq_some_iff.mp hget
  exact h i hi

end

/-! ## The invariant -/

section
variable {κ : Type}

/-- The blocks that `commit` has still to install, if it runs. -/
def pending (lh : List UInt32) : Option Commit → List UInt32
  | none | some .start | some (.writeLog _) | some .writeHead => lh
  | some (.installTrans tail) => lh.drop tail
  | some .erase | some .done => []

/-- The block numbers in the header on the disk. -/
def onDisk (lh : List UInt32) : Option Commit → List UInt32
  | some (.installTrans _) | some .erase => lh
  | _ => []

/-- The number of blocks that are in the log on the disk. -/
def copied (lh : List UInt32) : Option Commit → Nat
  | some (.writeLog tail) => tail
  | some .writeHead | some (.installTrans _) | some .erase => lh.length
  | _ => 0

/-- What holds of the disk and the cache where `commit` is at `stage`. -/
structure Data (start : Nat) (s : System κ) (stage : Option Commit) : Prop where
  clean : ∀ a, s.pins a = 0 → s.cache a = s.disk a
  nodup : s.lh.Nodup
  outside : ∀ b ∈ s.lh, Outside start b.toNat
  room : s.lh.length ≤ logBlocks
  pinned : ∀ a, s.pins a = if a ∈ (pending s.lh stage).map UInt32.toNat then 1 else 0
  header : readHead (s.disk start) = onDisk s.lh stage
  copied : ∀ i (hi : i < s.lh.length), i < copied s.lh stage → s.disk (start + i + 1) = s.cache (s.lh[i]).toNat
  done : stage = some .done → s.lh = []

def Place.isInOp : Place → Nat
  | .inOp _ => 1
  | _ => 0

def Place.commits (place : Place) : Prop := ∃ c, place = .committing c

structure Places [Fintype κ] (s : System κ) (stage : Option Commit) : Prop where
  outstanding : s.outstanding = total Place.isInOp s.place
  committing : s.committing = true ↔ stage ≠ none
  quiet : s.committing = true → s.outstanding = 0
  empty : s.committing = false → s.outstanding = 0 → s.lh = []
  alone : AtMostOne Place.commits s.place
  stage : ∀ c, (∃ p, s.place p = .committing c) ↔ stage = some c
  asleep : ∀ p, s.place p = .asleep → s.committing = true ∨ logBlocks < s.lh.length + (s.outstanding + 1) * maxOpBlocks

/-- Where the recovery is. -/
def Recovery.Ok (start : Nat) (s : System κ) : Recovery → Prop
  | .readHead => s.lh = []
  | .installTrans tail =>
    s.lh = FsLog.readHead (s.disk start) ∧ ∃ disk, s.disk = redo ((logged start s.disk).take tail) disk
  | .erase => s.lh = FsLog.readHead (s.disk start) ∧ recovered start s.disk = s.disk

structure Recovering (start : Nat) (s : System κ) (r : Recovery) : Prop where
  cache : s.cache = s.disk
  pins : ∀ a, s.pins a = 0
  place : ∀ p, s.place p = .outside
  outstanding : s.outstanding = 0
  committing : s.committing = false
  ok : r.Ok start s

structure Inv [Fintype κ] (start : Nat) (s : System κ) : Prop where
  header : HeaderOk start s.disk
  running : s.panicked = false → s.recovery = none → ∃ stage, Data start s stage ∧ Places s stage
  recovering : s.panicked = false → ∀ r, s.recovery = some r → Recovering start s r
  alive : s.recovery.isSome → s.panicked = false

/-! ## Recovery -/

variable {start : Nat} {s t : System κ} {stage : Option Commit}

/-- The store of a machine that recovers is what is on the disk. -/
theorem store_recovering (hs : s.recovery.isSome = true) (ht : t.recovery.isSome = true)
    (hdisk : ∀ a : Home start, recovered start t.disk a = recovered start s.disk a)
    (hout : t.outstanding = s.outstanding) : t.store start = s.store start := by
  simp only [System.store, hs, ht, if_true, hout, hdisk]

/-- The store of a machine that runs is in its cache, and on the disk. -/
theorem store_running (hs : s.recovery = none) (ht : t.recovery = none) (hcache : ∀ a : Home start, t.cache a = s.cache a)
    (hdisk : ∀ a : Home start, recovered start t.disk a = recovered start s.disk a)
    (hout : t.outstanding = s.outstanding) : t.store start = s.store start := by
  simp only [System.store, hs, ht, Option.isSome_none, Bool.false_eq_true, if_false, hout, hcache, hdisk]

/-- A block is written once more where the log has it. -/
theorem logged_install {disk : Nat → Block} (h : HeaderOk start disk) {tail : Nat} {dst : UInt32}
    (hdst : (readHead (disk start))[tail]? = some dst) :
    logged start (Function.update disk dst.toNat (disk (start + tail + 1))) = logged start disk ∧
      (logged start disk)[tail]? = some (dst.toNat, disk (start + tail + 1)) := by
  have hout := h.outside dst (List.mem_of_getElem? hdst)
  refine ⟨logged_congr h fun a ha => Function.update_of_ne (fun he => ?_) _ _, ?_⟩
  · rw [he] at ha
    exact ha hout
  · simp [logged, hdst]

theorem recovered_install {disk : Nat → Block} (h : HeaderOk start disk) {tail : Nat} {dst : UInt32}
    (hdst : (readHead (disk start))[tail]? = some dst) :
    recovered start (Function.update disk dst.toNat (disk (start + tail + 1))) = recovered start disk := by
  obtain ⟨hlogged, hentry⟩ := logged_install h hdst
  unfold recovered
  rw [hlogged]
  funext a
  refine redo_congr ?_
  by_cases ha : a = dst.toNat
  · exact .inl (List.mem_map.mpr ⟨_, List.mem_of_getElem? hentry, ha.symm⟩)
  · exact .inr (Function.update_of_ne ha _ _)

theorem update_head (disk : Nat → Block) {dst : UInt32} (b : Block)
    (hout : Outside start dst.toNat) : (Function.update disk dst.toNat b) start = disk start := by
  refine Function.update_of_ne (fun he => ?_) _ _
  rw [← he] at hout
  exact not_outside_head hout

theorem Data.headerOk (h : Data start s stage) : HeaderOk start s.disk := by
  have hsub : onDisk s.lh stage = [] ∨ onDisk s.lh stage = s.lh := by
    unfold onDisk
    split
    · exact .inr rfl
    · exact .inr rfl
    · exact .inl rfl
  rcases hsub with hnil | hall
  · exact headerOk_of_nil (h.header.trans hnil)
  · have hlh := h.header.trans hall
    exact ⟨hlh ▸ h.room, hlh ▸ h.outside⟩

/-- Seen through the store, the data of a block are written. -/
theorem store_write (hr : s.recovery = none) (b : FileBlock start) (data : Block)
    (hcache : t.cache = Function.update s.cache b.blockno.toNat data) (hdisk : t.disk = s.disk)
    (hrec : t.recovery = none) (hout : t.outstanding = s.outstanding) :
    t.store start = { s.store start with
      current := Function.update (s.store start).current ⟨b.blockno.toNat, b.outside⟩ data } := by
  have hcurrent : (fun a : Home start => t.cache a) =
      Function.update (fun a : Home start => s.cache a) ⟨b.blockno.toNat, b.outside⟩ data := by
    funext a
    rw [hcache]
    by_cases ha : a = ⟨b.blockno.toNat, b.outside⟩
    · subst ha
      rw [Function.update_self, Function.update_self]
    · rw [Function.update_of_ne ha, Function.update_of_ne fun he => ha (Subtype.ext he)]
  simp only [System.store, hr, hrec, hdisk, hout, Option.isSome_none, Bool.false_eq_true, if_false, hcurrent]

/-- `bwrite` leaves the buffer as the disk has it. -/
theorem Data.clean_bwrite (h : Data start s stage) (a : Nat) (b : Block) {c : Nat} (hc : s.pins c = 0) :
    (s.bwrite a b).cache c = (s.bwrite a b).disk c := by
  show Function.update s.cache a b c = Function.update s.disk a b c
  by_cases hca : c = a
  · subst hca
    rw [Function.update_self, Function.update_self]
  · rw [Function.update_of_ne hca, Function.update_of_ne hca]
    exact h.clean c hc

/-- `commit` comes to another stage, with the disk and the cache as they are. -/
theorem Data.move (h : Data start s stage) {next : Option Commit} (hdisk : t.disk = s.disk) (hcache : t.cache = s.cache)
    (hpins : t.pins = s.pins) (hlh : t.lh = s.lh) (hpending : pending s.lh next = pending s.lh stage)
    (hheader : onDisk s.lh next = onDisk s.lh stage)
    (hcopied : ∀ i, i < s.lh.length → i < FsLog.copied s.lh next → i < FsLog.copied s.lh stage)
    (hdone : next = some .done → s.lh = []) : Data start t next where
  clean := by simpa only [hdisk, hcache, hpins] using h.clean
  nodup := by simpa only [hlh] using h.nodup
  outside := by simpa only [hlh] using h.outside
  room := by simpa only [hlh] using h.room
  pinned := by simpa only [hpins, hlh, hpending] using h.pinned
  header := by simpa only [hdisk, hlh, hheader] using h.header
  copied := by
    simp only [hdisk, hcache, hlh]
    exact fun i hi hlt => h.copied i hi (hcopied i hi hlt)
  done := by simpa only [hlh] using hdone

/-- Once the header is written, the log holds what the cache does. -/
theorem Data.recovered_cache (h : Data start s stage) (hheader : onDisk s.lh stage = s.lh)
    (hcopied : FsLog.copied s.lh stage = s.lh.length) : recovered start s.disk = s.cache := by
  have hlh : readHead (s.disk start) = s.lh := h.header.trans hheader
  funext a
  rw [recovered_of_values s.cache, hlh]
  · split
    · rfl
    next hno =>
      refine (h.clean a ((h.pinned a).trans (if_neg fun hmem => hno ?_))).symm
      obtain ⟨b, hb, rfl⟩ := List.mem_map.mp hmem
      refine List.mem_map_of_mem ?_
      unfold pending at hb
      split at hb
      · exact hb
      · exact hb
      · exact hb
      · exact hb
      · exact List.mem_of_mem_drop hb
      · cases hb
      · cases hb
  · intro i hi
    simp only [hlh] at hi ⊢
    exact h.copied i hi (by rwa [hcopied])

/-- `log_write` panics, finds the block in the log, or adds it. -/
theorem logWrite_cases (s : System κ) (b : UInt32) :
    (logBlocks ≤ s.lh.length ∨ s.outstanding = 0) ∧ s.logWrite b = { s with panicked := true } ∨
      s.lh.length < logBlocks ∧ b ∈ s.lh ∧ s.logWrite b = s ∨
      s.lh.length < logBlocks ∧ b ∉ s.lh ∧ s.logWrite b = { s with
        lh := s.lh ++ [b], pins := Function.update s.pins b.toNat (s.pins b.toNat + 1) } := by
  unfold System.logWrite
  split
  next hfull => exact .inl ⟨.inl hfull, rfl⟩
  next hroom =>
    have hroom := Nat.lt_of_not_le hroom
    split
    next hfew => exact .inl ⟨.inr (Nat.lt_one_iff.mp hfew), rfl⟩
    · split
      next hmem => exact .inr (.inl ⟨hroom, hmem, rfl⟩)
      next hmem => exact .inr (.inr ⟨hroom, hmem, rfl⟩)

theorem mem_map_toNat {b : UInt32} {l : List UInt32} : b.toNat ∈ l.map UInt32.toNat ↔ b ∈ l :=
  List.mem_map_of_injective fun _ _ => UInt32.toNat_inj.mp

variable [Fintype κ]

/-- What a step has to see to. -/
def Keeps (start : Nat) (s t : System κ) : Prop :=
  Inv start t ∧ (t.store start = s.store start ∨ Next (s.store start) (t.store start))

theorem inv_boot {disk : Nat → Block} (h : HeaderOk start disk) : Inv start (System.boot disk : System κ) where
  header := h
  running _ hr := nomatch hr
  recovering _ r hr := by
    obtain rfl := Option.some.inj hr
    exact ⟨rfl, fun _ => rfl, fun _ => rfl, rfl, rfl, rfl⟩
  alive _ := rfl

/-- No process is in the file system. -/
theorem Places.nobody (hplace : ∀ p, t.place p = .outside) (hout : t.outstanding = 0)
    (hcommitting : t.committing = false) (hlh : t.lh = []) : Places t none := by
  have hno (p : κ) {place : Place} (hp : t.place p = place) (hne : place ≠ .outside) : False :=
    hne (hp.symm.trans (hplace p))
  refine ⟨?_, by simp [hcommitting], fun _ => hout, fun _ _ => hlh, fun p _ hp => ?_, fun c => ?_, fun p hp => ?_⟩
  · rw [hout, total_eq_zero]
    intro p
    rw [hplace p]
    rfl
  · obtain ⟨c, hc⟩ := hp
    exact (hno p hc (by simp)).elim
  · exact iff_of_false (fun ⟨p, hp⟩ => hno p hp (by simp)) (by simp)
  · exact (hno p hp (by simp)).elim

theorem crash_keeps (h : Inv start s) : Keeps start s (System.boot s.disk) := ⟨inv_boot h.header, .inr .crash⟩

/-- A machine that goes on with the recovery. -/
theorem inv_recovering {r : Recovery} (hheader : HeaderOk start t.disk) (hr : t.recovery = some r)
    (hp : t.panicked = false) (h : Recovering start t r) : Inv start t where
  header := hheader
  running _ hnone := by
    rw [hr] at hnone
    cases hnone
  recovering _ r' hr' := by
    rw [hr] at hr'
    obtain rfl := Option.some.inj hr'
    exact h
  alive _ := hp

theorem recover_keeps (h : Inv start s) {r : Recovery} (hr : s.recovery = some r) (hp : s.panicked = false) :
    Inv start (s.recoverFromLog start r) ∧ (s.recoverFromLog start r).store start = s.store start := by
  obtain ⟨hcache, hpins, hplace, hout, hcommitting, hok⟩ := h.recovering hp r hr
  have hsome : s.recovery.isSome = true := by rw [hr]; rfl
  cases r with
  | readHead =>
    refine ⟨inv_recovering (r := .installTrans 0) h.header rfl hp ⟨hcache, hpins, hplace, hout, hcommitting, ?_⟩,
      store_recovering hsome rfl (fun _ => rfl) rfl⟩
    exact ⟨by simp only [System.recoverFromLog, hcache], s.disk, rfl⟩
  | installTrans tail =>
    obtain ⟨hlh, disk, hdisk⟩ := hok
    simp only [System.recoverFromLog]
    split
    next dst hdst =>
      rw [hlh] at hdst
      obtain ⟨hlogged, hentry⟩ := logged_install h.header hdst
      have hhead := update_head s.disk (s.disk (start + tail + 1)) (h.header.outside dst (List.mem_of_getElem? hdst))
      have hnew : (s.installBlock start tail dst).disk =
          Function.update s.disk dst.toNat (s.disk (start + tail + 1)) := by
        simp only [System.installBlock, System.bwrite, hcache]
      refine ⟨inv_recovering (r := .installTrans (tail + 1)) ?_ rfl hp ⟨?_, hpins, hplace, hout, hcommitting, ?_⟩,
        store_recovering hsome rfl (fun a => ?_) rfl⟩
      · exact ⟨by simpa only [hnew, hhead] using h.header.room, by simpa only [hnew, hhead] using h.header.outside⟩
      · simp only [System.installBlock, System.bwrite, hcache]
      · refine ⟨?_, disk, ?_⟩
        · rw [hnew, hhead]
          exact hlh
        · simp only [hnew, hlogged, List.take_add_one, hentry, redo_append, Option.toList_some]
          rw [redo_cons, redo_nil, ← hdisk]
      · simp only [hnew, recovered_install h.header hdst]
    next hnone =>
      refine ⟨inv_recovering (r := .erase) h.header rfl hp ⟨hcache, hpins, hplace, hout, hcommitting, hlh, ?_⟩,
        store_recovering hsome rfl (fun _ => rfl) rfl⟩
      have hall : (logged start s.disk).length ≤ tail := by
        rw [hlh] at hnone
        simpa [logged] using hnone
      have hagain := redo_take (logged start s.disk) tail disk
      rw [← hdisk] at hagain
      rw [recovered, hagain, ← List.take_of_length_le hall, ← hdisk]
  | erase =>
    obtain ⟨hlh, hdisk⟩ := hok
    have hhead : readHead ((s.recoverFromLog start .erase).disk start) = [] := by
      simp [System.recoverFromLog, System.eraseHead, System.bwrite, readHead_erased]
    refine ⟨⟨headerOk_of_nil hhead, fun _ _ => ⟨none, ?_, ?_⟩, fun _ r hr' => (nomatch hr'), fun hr' => (nomatch hr')⟩, ?_⟩
    · refine ⟨fun a _ => ?_, List.nodup_nil, by simp [System.recoverFromLog, System.eraseHead, System.bwrite],
        Nat.zero_le _, fun a => ?_, hhead, fun i hi => ?_, fun hd => (nomatch hd)⟩
      · simp only [System.recoverFromLog, System.eraseHead, System.bwrite, hcache]
      · exact hpins a
      · exact absurd hi (Nat.not_lt_zero i)
    · exact .nobody hplace hout hcommitting rfl
    · have hdisk' : ∀ a : Home start, (s.recoverFromLog start .erase).disk a = s.disk a := fun a =>
        Function.update_of_ne (fun he => not_outside_head (he ▸ a.2)) _ _
      have hcache' : (s.recoverFromLog start .erase).cache = (s.recoverFromLog start .erase).disk := by
        simp only [System.recoverFromLog, System.eraseHead, System.bwrite, hcache]
      have hnone : (s.recoverFromLog start .erase).recovery = none := rfl
      simp only [System.store, hsome, if_true, hnone, Option.isSome_none, Bool.false_eq_true, if_false, hcache',
        recovered_of_nil hhead, hdisk, hdisk']
      rfl

/-! ## Running -/

theorem inv_running (stage : Option Commit) (hr : t.recovery = none) (hd : Data start t stage) (hp : Places t stage) : Inv start t where
  header := hd.headerOk
  running _ _ := ⟨stage, hd, hp⟩
  recovering _ r hr' := by
    rw [hr] at hr'
    cases hr'
  alive hr' := by
    rw [hr] at hr'
    cases hr'

/-- Recycling a buffer that is not pinned changes nothing. -/
theorem evict_same (h : Inv start s) (hp : s.panicked = false) {a : Nat} (ha : s.pins a = 0) :
    { s with cache := Function.update s.cache a (s.disk a) } = s := by
  have hclean : s.cache a = s.disk a := by
    cases hr : s.recovery with
    | none =>
      obtain ⟨stage, hd, -⟩ := h.running hp hr
      exact hd.clean a ha
    | some r => rw [(h.recovering hp r hr).cache]
  rw [← hclean, Function.update_eq_self]

section
variable {pl : κ → Place} {p : κ} {place : Place}

@[simp] theorem wakeup_isInOp (place : Place) : place.wakeup.isInOp = place.isInOp := by cases place <;> rfl

@[simp] theorem wakeup_committing {c : Commit} : place.wakeup = .committing c ↔ place = .committing c := by
  cases place <;> simp [Place.wakeup]

theorem wakeup_ne_asleep (place : Place) : place.wakeup ≠ .asleep := by cases place <;> simp [Place.wakeup]

@[simp] theorem wakeup_commits : place.wakeup.commits ↔ place.commits := by simp [Place.commits]

/-- After a wakeup. -/
theorem Places.wakeup (hplace : t.place = fun q => (pl q).wakeup) (hout : t.outstanding = total Place.isInOp pl)
    (hcommitting : t.committing = true ↔ stage ≠ none) (hquiet : t.committing = true → t.outstanding = 0)
    (hempty : t.committing = false → t.outstanding = 0 → t.lh = []) (halone : AtMostOne Place.commits pl)
    (hstage : ∀ c, (∃ p, pl p = .committing c) ↔ stage = some c) : Places t stage where
  outstanding := by
    rw [hout, hplace]
    exact (total_congr fun q => (wakeup_isInOp (pl q)).symm)
  committing := hcommitting
  quiet := hquiet
  empty := hempty
  alone p q hp hq := by
    rw [hplace] at hp hq
    exact halone p q (wakeup_commits.mp hp) (wakeup_commits.mp hq)
  stage c := by simpa only [hplace, wakeup_committing] using hstage c
  asleep q hq := by
    rw [hplace] at hq
    exact absurd hq (wakeup_ne_asleep _)

/-- Where a system call is under way, no process commits. -/
theorem Places.active (hp : Places s stage) {wrote : List UInt32} (hold : s.place p = .inOp wrote) :
    0 < s.outstanding ∧ s.committing = false ∧ stage = none := by
  have hactive : 0 < s.outstanding := by
    have hle := le_total Place.isInOp s.place p
    rw [hold, ← hp.outstanding] at hle
    exact hle
  have hc : s.committing = false := Bool.eq_false_iff.mpr fun hc => by
    rw [hp.quiet hc] at hactive
    exact Nat.lt_irrefl 0 hactive
  refine ⟨hactive, hc, ?_⟩
  by_contra hne
  rw [hp.committing.mpr hne] at hc
  cases hc

omit [Fintype κ] in
theorem not_commits_inOp {wrote : List UInt32} (hold : s.place p = .inOp wrote) : ¬ (s.place p).commits := by
  intro ⟨c, hc⟩
  rw [hold] at hc
  cases hc

variable [DecidableEq κ]

/-- A process moves that is not in `commit`. -/
theorem Places.aside (h : Places s stage) (place : Place) (hold : ¬ (s.place p).commits) (hnew : ¬ place.commits) :
    AtMostOne Place.commits (Function.update s.place p place) ∧
      ∀ c, (∃ q, Function.update s.place p place q = .committing c) ↔ stage = some c := by
  refine ⟨h.alone.update fun ha => absurd ha hnew, fun c => ?_⟩
  rw [← h.stage c]
  constructor
  · intro ⟨q, hq⟩
    by_cases hqp : q = p
    · subst hqp
      rw [Function.update_self] at hq
      exact absurd ⟨c, hq⟩ hnew
    · rw [Function.update_of_ne hqp] at hq
      exact ⟨q, hq⟩
  · intro ⟨q, hq⟩
    have hqp : q ≠ p := fun he => hold ⟨c, he ▸ hq⟩
    exact ⟨q, by rwa [Function.update_of_ne hqp]⟩

/-- The process that commits goes on. -/
theorem Places.goes_on (h : Places s stage) {c : Commit} (hc : s.place p = .committing c) (next : Commit) :
    AtMostOne Place.commits (Function.update s.place p (.committing next)) ∧
      ∀ d, (∃ q, Function.update s.place p (.committing next) q = .committing d) ↔ some next = some d := by
  have hother : ∀ q, (s.place q).commits → q = p := fun q hq => h.alone q p hq ⟨c, hc⟩
  refine ⟨h.alone.update fun _ => hother, fun d => ?_⟩
  constructor
  · intro ⟨q, hq⟩
    by_cases hqp : q = p
    · subst hqp
      rw [Function.update_self] at hq
      cases hq
      rfl
    · rw [Function.update_of_ne hqp] at hq
      exact absurd (hother q ⟨d, hq⟩) hqp
  · intro hd
    obtain rfl := Option.some.inj hd
    exact ⟨p, Function.update_self ..⟩

/-- The process falls asleep in `begin_op`. -/
theorem falls_asleep (hr : s.recovery = none) (hd : Data start s stage) (hp : Places s stage)
    (hold : ¬ (s.place p).commits) (hweight : (s.place p).isInOp = 0)
    (hblocked : s.committing = true ∨ logBlocks < s.lh.length + (s.outstanding + 1) * maxOpBlocks) :
    Keeps start s (s.goto p .asleep) := by
  obtain ⟨halone, hstage⟩ := hp.aside .asleep hold (by simp [Place.commits])
  have htotal := total_update Place.isInOp s.place p .asleep
  rw [hweight] at htotal
  refine ⟨inv_running stage hr ⟨hd.clean, hd.nodup, hd.outside, hd.room, hd.pinned, hd.header, hd.copied, hd.done⟩
    ⟨hp.outstanding.trans htotal.symm, hp.committing, hp.quiet, hp.empty, halone, hstage, fun q hq => ?_⟩, .inl rfl⟩
  by_cases hqp : q = p
  · exact hblocked
  · simp only [System.goto, Function.update_of_ne hqp] at hq
    exact hp.asleep q hq

theorem beginOp_keeps (hr : s.recovery = none) (hd : Data start s stage) (hp : Places s stage)
    (hold : s.place p = .outside ∨ s.place p = .woken) : Keeps start s (s.beginOp p) := by
  have hno : ¬ (s.place p).commits := by
    intro ⟨c, hc⟩
    rcases hold with hold | hold <;> rw [hold] at hc <;> cases hc
  have hweight : (s.place p).isInOp = 0 := by
    rcases hold with hold | hold <;> rw [hold] <;> rfl
  unfold System.beginOp
  split
  next hc => exact falls_asleep hr hd hp hno hweight (.inl hc)
  next hc =>
    split
    next hfull => exact falls_asleep hr hd hp hno hweight (.inr hfull)
    next hroom =>
      have hc : s.committing = false := Bool.eq_false_iff.mpr hc
      obtain ⟨halone, hstage⟩ := hp.aside (.inOp []) hno (by simp [Place.commits])
      have htotal := total_update Place.isInOp s.place p (.inOp [])
      rw [hweight] at htotal
      refine ⟨inv_running stage hr
        ⟨hd.clean, hd.nodup, hd.outside, hd.room, hd.pinned, hd.header, hd.copied, hd.done⟩
        ⟨?_, hp.committing, fun hc' => ?_, fun _ hout => (nomatch hout), halone, hstage, fun q hq => ?_⟩, .inr ?_⟩
      · show s.outstanding + 1 = total Place.isInOp (Function.update s.place p (.inOp []))
        rw [hp.outstanding]
        exact htotal.symm
      · exact absurd (hc.symm.trans hc') (by decide)
      · have hqp : q ≠ p := by
          rintro rfl
          simp [System.goto] at hq
        simp only [System.goto, Function.update_of_ne hqp] at hq
        right
        rcases hp.asleep q hq with hbusy | hfull
        · exact absurd (hc.symm.trans hbusy) (by decide)
        · exact absurd hfull hroom
      · have hnext : Next (s.store start) _ := .start
        simpa [System.store, System.goto, hr] using hnext

/-- A system call has written a block. -/
theorem Places.wrote (hp : Places s none) {wrote wrote' : List UInt32} (hold : s.place p = .inOp wrote)
    (hplace : t.place = Function.update s.place p (.inOp wrote')) (hout : t.outstanding = s.outstanding)
    (hc : t.committing = s.committing) (hlh : s.lh.length ≤ t.lh.length) : Places t none := by
  obtain ⟨hactive, hno, -⟩ := hp.active hold
  obtain ⟨halone, hstage⟩ := hp.aside (.inOp wrote') (not_commits_inOp hold) (by simp [Place.commits])
  have htotal := total_update Place.isInOp s.place p (.inOp wrote')
  rw [hold] at htotal
  refine ⟨?_, by rw [hc]; exact hp.committing, fun h => ?_, fun _ h => ?_, hplace ▸ halone, hplace ▸ hstage,
    fun q hq => .inr ?_⟩
  · rw [hout, hp.outstanding, hplace]
    exact (Nat.add_right_cancel htotal).symm
  · rw [hout]
    exact hp.quiet (hc ▸ h)
  · rw [hout] at h
    exact absurd h (Nat.ne_of_gt hactive)
  · have hqp : q ≠ p := by
      rintro rfl
      rw [hplace, Function.update_self] at hq
      cases hq
    rw [hplace, Function.update_of_ne hqp] at hq
    rw [hout]
    rcases hp.asleep q hq with hbusy | hfull
    · exact absurd (hno.symm.trans hbusy) (by decide)
    · exact Nat.lt_of_lt_of_le hfull (Nat.add_le_add_right hlh _)

theorem write_keeps (h : Inv start s) (hr : s.recovery = none) (hd : Data start s stage) (hp : Places s stage)
    {wrote : List UInt32} (hold : s.place p = .inOp wrote) (b : FileBlock start) (data : Block) :
    Keeps start s (s.act p (.write b data)) := by
  obtain ⟨hactive, -, rfl⟩ := hp.active hold
  have hnext (t : System κ) (hcache : t.cache = Function.update s.cache b.blockno.toNat data)
      (hdisk : t.disk = s.disk) (hrec : t.recovery = none) (hout : t.outstanding = s.outstanding) :
      t.store start = s.store start ∨ Next (s.store start) (t.store start) := by
    rw [store_write hr b data hcache hdisk hrec hout]
    exact .inr (.write _ _ hactive)
  have hact : s.act p (.write b data) = { s.goto p (.inOp (wrote.insert b.blockno)) with
      cache := Function.update s.cache b.blockno.toNat data }.logWrite b.blockno := by
    simp only [System.act, hold]
  rw [hact]
  rcases logWrite_cases { s.goto p (.inOp (wrote.insert b.blockno)) with
      cache := Function.update s.cache b.blockno.toNat data } b.blockno with
    ⟨-, heq⟩ | ⟨-, hmem, heq⟩ | ⟨hroom, hnew, heq⟩
  · rw [heq]
    refine ⟨⟨h.header, fun hpanic => (nomatch hpanic), fun hpanic => (nomatch hpanic), fun hrec => ?_⟩,
      hnext _ rfl rfl hr rfl⟩
    exact absurd hrec (by simp [System.goto, hr])
  · rw [heq]
    have hin : s.pins b.blockno.toNat = 1 := (hd.pinned _).trans (if_pos (mem_map_toNat.mpr hmem))
    refine ⟨inv_running none hr ⟨fun a ha => ?_, hd.nodup, hd.outside, hd.room, hd.pinned, hd.header,
      fun i _ hi => absurd hi (Nat.not_lt_zero i), hd.done⟩ (hp.wrote hold rfl rfl rfl (Nat.le_refl _)),
      hnext _ rfl rfl hr rfl⟩
    have hne : a ≠ b.blockno.toNat := by
      rintro rfl
      exact absurd (hin.symm.trans ha) (by decide)
    exact (Function.update_of_ne hne _ _).trans (hd.clean a ha)
  · rw [heq]
    have hlonger : s.lh.length ≤ (s.lh ++ [b.blockno]).length := by simp
    have hpin : s.pins b.blockno.toNat = 0 :=
      (hd.pinned _).trans (if_neg fun hc => hnew (mem_map_toNat.mp hc))
    refine ⟨inv_running none hr ⟨fun a ha => ?_, ?_, fun c hc => ?_, ?_, fun a => ?_, hd.header,
      fun i _ hi => absurd hi (Nat.not_lt_zero i), fun hdone => (nomatch hdone)⟩ (hp.wrote hold rfl rfl rfl hlonger),
      hnext _ rfl rfl hr rfl⟩
    · change Function.update s.pins b.blockno.toNat (s.pins b.blockno.toNat + 1) a = 0 at ha
      have hne : a ≠ b.blockno.toNat := by
        rintro rfl
        simp at ha
      rw [Function.update_of_ne hne] at ha
      exact (Function.update_of_ne hne _ _).trans (hd.clean a ha)
    · exact List.nodup_append.mpr ⟨hd.nodup, List.nodup_singleton _, fun c hc d hd' he => by
        rw [List.mem_singleton.mp hd'] at he
        exact hnew (he ▸ hc)⟩
    · rcases List.mem_append.mp hc with hc | hc
      · exact hd.outside c hc
      · rw [List.mem_singleton.mp hc]
        exact b.outside
    · rw [List.length_append]
      exact hroom
    · show Function.update s.pins b.blockno.toNat (s.pins b.blockno.toNat + 1) a =
        if a ∈ (s.lh ++ [b.blockno]).map UInt32.toNat then 1 else 0
      by_cases ha : a = b.blockno.toNat
      · subst ha
        simp [hpin]
      · have hothers := hd.pinned a
        simpa [Function.update_of_ne ha, ha, pending] using hothers

/-- The last system call under way begins to commit. -/
theorem Places.enters (hp : Places s none) (c : Commit) :
    AtMostOne Place.commits (Function.update s.place p (.committing c)) ∧
      ∀ d, (∃ q, Function.update s.place p (.committing c) q = .committing d) ↔ some c = some d := by
  have hno : ∀ q d, s.place q ≠ .committing d := fun q d hq => nomatch (hp.stage d).mp ⟨q, hq⟩
  refine ⟨hp.alone.update fun _ q ⟨d, hd⟩ => absurd hd (hno q d), fun d => ?_⟩
  constructor
  · intro ⟨q, hq⟩
    by_cases hqp : q = p
    · subst hqp
      rw [Function.update_self] at hq
      cases hq
      rfl
    · rw [Function.update_of_ne hqp] at hq
      exact absurd hq (hno q d)
  · intro hd
    obtain rfl := Option.some.inj hd
    exact ⟨p, Function.update_self ..⟩

theorem endOp_keeps (hr : s.recovery = none) (hd : Data start s stage) (hp : Places s stage)
    {wrote : List UInt32} (hold : s.place p = .inOp wrote) : Keeps start s (s.endOp p) := by
  obtain ⟨hactive, hc, rfl⟩ := hp.active hold
  have htotal (place : Place) := total_update Place.isInOp s.place p place
  rw [hold] at htotal
  have hfinish : Next (s.store start) _ := .finish hactive
  unfold System.endOp
  simp only [hc, Bool.false_eq_true, if_false]
  split
  next hlast =>
    obtain ⟨halone, hstage⟩ := hp.enters (p := p) .start
    refine ⟨inv_running (some .start) hr
      (hd.move rfl rfl rfl rfl rfl rfl (fun _ _ hi => absurd hi (Nat.not_lt_zero _)) fun h => (nomatch h))
      ⟨?_, ⟨fun _ => by simp, fun _ => rfl⟩, fun _ => hlast, fun h => (nomatch h), halone, hstage, fun _ _ => .inl rfl⟩, .inr ?_⟩
    · have hadd := htotal (.committing .start)
      rw [← hp.outstanding] at hadd
      simp only [Place.isInOp] at hadd
      simp only [System.goto]
      omega
    · simpa [System.store, System.goto, hr] using hfinish
  next hmore =>
    obtain ⟨halone, hstage⟩ := hp.aside .outside (not_commits_inOp hold) (by simp [Place.commits])
    refine ⟨inv_running none hr
      (hd.move rfl rfl rfl rfl rfl rfl (fun _ _ hi => hi) fun h => (nomatch h))
      (.wakeup rfl ?_ (by simp [System.wakeup, System.goto]) (fun h => (nomatch h)) (fun _ h => absurd h hmore)
        halone hstage), .inr ?_⟩
    · have hadd := htotal .outside
      rw [← hp.outstanding] at hadd
      simp only [Place.isInOp] at hadd
      simp only [System.goto, System.wakeup]
      omega
    · simpa [System.store, System.goto, System.wakeup, hr] using hfinish

/-- The process that commits goes on, and wakes nobody. -/
theorem Places.commit_goes_on (hp : Places s stage) {c next : Commit} (hc : s.place p = .committing c)
    (hplace : t.place = Function.update s.place p (.committing next)) (hout : t.outstanding = s.outstanding)
    (hcommitting : t.committing = s.committing) : Places t (some next) := by
  have hstage : stage = some c := (hp.stage c).mp ⟨p, hc⟩
  have hbusy : s.committing = true := hp.committing.mpr (by simp [hstage])
  have htotal := total_update Place.isInOp s.place p (.committing next)
  rw [hc] at htotal
  obtain ⟨halone, hnext⟩ := hp.goes_on hc next
  refine ⟨?_, ⟨fun _ => by simp, fun _ => hcommitting.trans hbusy⟩, fun _ => hout.trans (hp.quiet hbusy), fun h => ?_,
    hplace ▸ halone, hplace ▸ hnext, fun _ _ => .inl (hcommitting.trans hbusy)⟩
  · rw [hout, hp.outstanding, hplace]
    exact (Nat.add_right_cancel htotal).symm
  · exact absurd (h.symm.trans (hcommitting.trans hbusy)) (by decide)

/-- The process that commits is done. -/
theorem Places.leaves (hp : Places s stage) {c : Commit} (hc : s.place p = .committing c) :
    AtMostOne Place.commits (Function.update s.place p .outside) ∧
      ∀ d, (∃ q, Function.update s.place p .outside q = .committing d) ↔ none = some d := by
  refine ⟨hp.alone.update fun ⟨d, hd⟩ => (nomatch hd), fun d => iff_of_false ?_ (by simp)⟩
  intro ⟨q, hq⟩
  by_cases hqp : q = p
  · subst hqp
    rw [Function.update_self] at hq
    cases hq
  · rw [Function.update_of_ne hqp] at hq
    exact hqp (hp.alone q p ⟨d, hq⟩ ⟨c, hc⟩)

theorem getElem_of_getElem? {l : List UInt32} {i : Nat} {b : UInt32} (h : l[i]? = some b) :
    ∃ hi : i < l.length, l[i] = b := List.getElem?_eq_some_iff.mp h

theorem commit_keeps (hr : s.recovery = none) (hd : Data start s stage) (hp : Places s stage) {c : Commit}
    (hc : s.place p = .committing c) : Keeps start s (s.commit start p c) := by
  obtain rfl : stage = some c := (hp.stage c).mp ⟨p, hc⟩
  cases c with
  | start =>
    refine ⟨inv_running _ hr ?_ (hp.commit_goes_on hc rfl rfl rfl), .inl rfl⟩
    split
    · exact hd.move rfl rfl rfl rfl rfl rfl (fun _ _ hi => hi) fun h => (nomatch h)
    next hnone =>
      have hnil : s.lh = [] := List.length_eq_zero_iff.mp (Nat.eq_zero_of_not_pos hnone)
      exact hd.move rfl rfl rfl rfl (by simp [pending, hnil]) rfl (fun _ _ hi => hi) fun _ => hnil
  | writeLog tail =>
    simp only [System.commit]
    split
    next src hsrc =>
      obtain ⟨htail, rfl⟩ := getElem_of_getElem? hsrc
      have hlog : tail < logBlocks := Nat.lt_of_lt_of_le htail hd.room
      have hhead : (s.bwrite (start + tail + 1) (s.cache (s.lh[tail]).toNat)).disk start = s.disk start :=
        Function.update_of_ne (by omega) _ _
      have hnil : readHead ((s.bwrite (start + tail + 1) (s.cache (s.lh[tail]).toNat)).disk start) = [] :=
        (congrArg readHead hhead).trans hd.header
      refine ⟨inv_running (some (.writeLog (tail + 1))) hr ⟨fun a ha => hd.clean_bwrite _ _ ha, hd.nodup, hd.outside,
        hd.room, hd.pinned, hnil, fun i hi hlt => ?_, fun h => (nomatch h)⟩ (hp.commit_goes_on hc rfl rfl rfl), .inl ?_⟩
      · change i < s.lh.length at hi
        show Function.update s.disk (start + tail + 1) _ (start + i + 1) =
          Function.update s.cache (start + tail + 1) _ (s.lh[i]).toNat
        rw [Function.update_of_ne ((hd.outside _ (List.getElem_mem hi)).ne_log hlog)]
        by_cases hit : i = tail
        · simp only [hit, Function.update_self]
        · have hle : i < tail := Nat.lt_of_le_of_ne (Nat.le_of_lt_succ hlt) hit
          rw [Function.update_of_ne (by omega)]
          exact hd.copied i hi hle
      · refine store_running hr hr (fun a => Function.update_of_ne (a.2.ne_log hlog) _ _) (fun a => ?_) rfl
        refine (congrFun (recovered_of_nil hnil) a).trans ?_
        rw [recovered_of_nil hd.header]
        exact Function.update_of_ne (a.2.ne_log hlog) _ _
    next hnone =>
      have hall : s.lh.length ≤ tail := by simpa using hnone
      refine ⟨inv_running _ hr ?_ (hp.commit_goes_on hc rfl rfl rfl), .inl rfl⟩
      exact hd.move rfl rfl rfl rfl rfl rfl (fun i hi _ => Nat.lt_of_lt_of_le hi hall) fun h => (nomatch h)
  | writeHead =>
    have hhead : readHead (Function.update s.disk start (writeHead s.lh (s.cache start)) start) = s.lh := by
      rw [Function.update_self, readHead_writeHead hd.room]
    have hnext : Data start (s.commit start p .writeHead) (some (.installTrans 0)) := by
      refine ⟨fun a ha => hd.clean_bwrite _ _ ha, hd.nodup, hd.outside, hd.room, hd.pinned, hhead, fun i hi _ => ?_,
        fun h => (nomatch h)⟩
      change i < s.lh.length at hi
      show Function.update s.disk start _ (start + i + 1) = Function.update s.cache start _ (s.lh[i]).toNat
      rw [Function.update_of_ne (by omega), Function.update_of_ne (hd.outside _ (List.getElem_mem hi)).ne_head]
      exact hd.copied i hi hi
    refine ⟨inv_running _ hr hnext (hp.commit_goes_on hc rfl rfl rfl), .inr ?_⟩
    have hquiet : s.outstanding = 0 := hp.quiet (hp.committing.mpr (by simp))
    have hcurrent (a : Home start) : (s.commit start p .writeHead).cache a = s.cache a :=
      Function.update_of_ne a.2.ne_head _ _
    have hdurable : recovered start (s.commit start p .writeHead).disk = (s.commit start p .writeHead).cache :=
      hnext.recovered_cache rfl rfl
    have hstore : (s.commit start p .writeHead).store start =
        { s.store start with durable := (s.store start).current } := by
      have hr' : (s.commit start p .writeHead).recovery = none := hr
      simp only [System.store, hr, hr', Option.isSome_none, Bool.false_eq_true, if_false, hdurable, hcurrent]
      rfl
    rw [hstore]
    exact .commit hquiet
  | installTrans tail =>
    simp only [System.commit]
    split
    next dst hdst =>
      obtain ⟨htail, rfl⟩ := getElem_of_getElem? hdst
      have hlog : tail < logBlocks := Nat.lt_of_lt_of_le htail hd.room
      have hlogPin : s.pins (start + tail + 1) = 0 := (hd.pinned _).trans (if_neg fun hmem => by
        obtain ⟨b, hb, heq⟩ := List.mem_map.mp hmem
        exact (hd.outside b (List.mem_of_mem_drop hb)).ne_log hlog heq)
      have hvalue : s.cache (start + tail + 1) = s.cache (s.lh[tail]).toNat :=
        (hd.clean _ hlogPin).trans (hd.copied tail htail htail)
      have hcache : (s.installBlock start tail s.lh[tail]).cache = s.cache := by
        simp only [System.installBlock, System.bwrite, hvalue, Function.update_eq_self]
      have hdst := hd.outside _ (List.getElem_mem htail)
      have hpin : s.pins (s.lh[tail]).toNat = 1 := (hd.pinned _).trans (if_pos (by
        rw [pending, List.drop_eq_getElem_cons htail]
        exact List.mem_cons_self))
      have hnext : Data start { (s.installBlock start tail s.lh[tail]).goto p (.committing (.installTrans (tail + 1))) with
          pins := Function.update s.pins (s.lh[tail]).toNat (s.pins (s.lh[tail]).toNat - 1) }
          (some (.installTrans (tail + 1))) := by
        refine ⟨fun a ha => ?_, hd.nodup, hd.outside, hd.room, fun a => ?_, ?_, fun i hi _ => ?_, fun h => (nomatch h)⟩
        · change Function.update s.pins (s.lh[tail]).toNat _ a = 0 at ha
          by_cases hat : a = (s.lh[tail]).toNat
          · subst hat
            show Function.update s.cache _ _ _ = Function.update s.disk _ _ _
            rw [Function.update_self, Function.update_self]
          · rw [Function.update_of_ne hat] at ha
            exact hd.clean_bwrite _ _ ha
        · show Function.update s.pins (s.lh[tail]).toNat _ a =
            if a ∈ (s.lh.drop (tail + 1)).map UInt32.toNat then 1 else 0
          have hnodup := hd.nodup.sublist (List.drop_sublist tail s.lh)
          have hpinned := hd.pinned a
          rw [List.drop_eq_getElem_cons htail] at hnodup
          rw [pending, List.drop_eq_getElem_cons htail, List.map_cons] at hpinned
          by_cases hat : a = (s.lh[tail]).toNat
          · subst hat
            rw [Function.update_self, hpin, if_neg fun hmem => (List.nodup_cons.mp hnodup).1 (mem_map_toNat.mp hmem)]
          · rw [Function.update_of_ne hat, hpinned]
            simp [hat]
        · exact (congrArg readHead (update_head s.disk _ hdst)).trans hd.header
        · change i < s.lh.length at hi
          show Function.update s.disk (s.lh[tail]).toNat _ (start + i + 1) = (s.installBlock start tail s.lh[tail]).cache _
          rw [Function.update_of_ne (hdst.ne_log (Nat.lt_of_lt_of_le hi hd.room)).symm, hcache]
          exact hd.copied i hi hi
      refine ⟨inv_running _ hr hnext (hp.commit_goes_on hc rfl rfl rfl), .inl ?_⟩
      refine store_running hr hr (fun a => congrFun hcache a) (fun a => ?_) rfl
      rw [hnext.recovered_cache rfl rfl, hd.recovered_cache rfl rfl]
      exact congrFun hcache a
    next hnone =>
      have hall : s.lh.length ≤ tail := by simpa using hnone
      refine ⟨inv_running _ hr ?_ (hp.commit_goes_on hc rfl rfl rfl), .inl rfl⟩
      exact hd.move rfl rfl rfl rfl (by simp [pending, List.drop_of_length_le hall]) rfl (fun _ _ hi => hi) fun h => (nomatch h)
  | erase =>
    have hhead : readHead (Function.update s.disk start (writeHead [] (s.cache start)) start) = [] := by
      rw [Function.update_self, readHead_erased]
    refine ⟨inv_running (some .done) hr ⟨fun a ha => hd.clean_bwrite _ _ ha, List.nodup_nil, fun b hb => (nomatch hb),
      Nat.zero_le _, hd.pinned, hhead, fun i hi => absurd hi (Nat.not_lt_zero i), fun _ => rfl⟩
      (hp.commit_goes_on hc rfl rfl rfl), .inl ?_⟩
    refine store_running hr hr (fun a => Function.update_of_ne a.2.ne_head _ _) (fun a => ?_) rfl
    rw [hd.recovered_cache rfl rfl, hd.clean a (hd.pinned a)]
    refine (congrFun (recovered_of_nil hhead) a).trans ?_
    exact Function.update_of_ne a.2.ne_head _ _
  | done =>
    obtain ⟨halone, hstage⟩ := hp.leaves hc
    have hnil := hd.done rfl
    refine ⟨inv_running none hr (hd.move rfl rfl rfl rfl (by simp [pending, hnil]) rfl (fun _ _ hi => hi) fun h => (nomatch h))
      (.wakeup rfl ?_ (by simp [System.commit, System.goto, System.wakeup])
        (fun h => (nomatch h)) (fun _ _ => hnil) halone hstage), .inl rfl⟩
    have htotal := total_update Place.isInOp s.place p .outside
    rw [hc] at htotal
    exact hp.outstanding.trans (Nat.add_right_cancel htotal).symm

theorem act_keeps (h : Inv start s) (hp : s.panicked = false) (hr : s.recovery = none) (p : κ) (a : Action start) :
    Keeps start s (s.act p a) := by
  obtain ⟨stage, hd, hplaces⟩ := h.running hp hr
  have hsame : Keeps start s s := ⟨h, .inl rfl⟩
  cases a with
  | beginOp =>
    simp only [System.act]
    split
    next hplace => exact beginOp_keeps hr hd hplaces (.inl hplace)
    next hplace => exact beginOp_keeps hr hd hplaces (.inr hplace)
    · exact hsame
  | write b data =>
    cases hplace : s.place p with
    | inOp wrote => exact write_keeps h hr hd hplaces hplace b data
    | _ => simpa only [System.act, hplace] using hsame
  | endOp =>
    simp only [System.act]
    split
    next wrote hplace => exact endOp_keeps hr hd hplaces hplace
    · exact hsame
  | commit =>
    simp only [System.act]
    split
    next c hplace => exact commit_keeps hr hd hplaces hplace
    · exact hsame

theorem step_keeps (h : Inv start s) (e : Event start κ) : Keeps start s (s.step e) := by
  have hsame : Keeps start s s := ⟨h, .inl rfl⟩
  cases e with
  | crash => exact crash_keeps h
  | recover =>
    simp only [System.step]
    split
    next r hr =>
      split
      · exact hsame
      next hp =>
        obtain ⟨hinv, hstore⟩ := recover_keeps h hr (Bool.eq_false_iff.mpr hp)
        exact ⟨hinv, .inl hstore⟩
    · exact hsame
  | evict a =>
    simp only [System.step]
    split
    next hpin =>
      rw [evict_same h hpin.2 hpin.1]
      exact hsame
    · exact hsame
  | act p a =>
    simp only [System.step]
    split
    · exact hsame
    next hrun =>
      rw [not_or] at hrun
      exact act_keeps h (Bool.eq_false_iff.mpr hrun.1) (by simpa using hrun.2) p a

/-- The log makes the disk a store. -/
theorem log_refines (start : Nat) :
    Refines (System.step : System κ → Event start κ → System κ) (Inv start) (System.store start) Next :=
  ⟨fun _ e h => (step_keeps h e).1, fun _ e h => (step_keeps h e).2⟩

/-! ## What a crash leaves -/

/-- After a restart, and as long as the recovery takes, the machine has what was on the disk. -/
theorem restart_reads (h : Inv start s) {rs : List (Event start κ)} (hrs : ∀ r ∈ rs, r = .crash ∨ r = .recover)
    (hread : (s.store start).current = (s.store start).durable) :
    ((run System.step s rs).store start).current = (s.store start).durable := by
  induction rs generalizing s with
  | nil => exact hread
  | cons r rs ih =>
    obtain ⟨hr, hrs⟩ := List.forall_mem_cons.mp hrs
    have hstep : ((s.step r).store start).current = (s.store start).durable ∧
        ((s.step r).store start).durable = (s.store start).durable := by
      rcases hr with rfl | rfl
      · exact ⟨rfl, rfl⟩
      · simp only [System.step]
        split
        next r' hr' =>
          split
          · exact ⟨hread, rfl⟩
          next hp =>
            rw [(recover_keeps h hr' (Bool.eq_false_iff.mpr hp)).2]
            exact ⟨hread, rfl⟩
        · exact ⟨hread, rfl⟩
    rw [run_cons, ih (step_keeps h r).1 hrs (hstep.1.trans hstep.2.symm), hstep.2]

/-- **A crash keeps system calls whole.** For every disk whose log can be read back and every run on
it, with crashes and recoveries at any point, there is a moment before its end at which no system
call was under way and after which this holds: if the machine crashes at the end of the run, and
crashes again any number of times while it recovers, then once a recovery is completed each block
outside the log reads as at that moment. -/
theorem crash_safe {disk : Nat → Block} (h : HeaderOk start disk) (es : List (Event start κ)) :
    ∃ before after, es = before ++ after ∧ (run System.step (.boot disk) before).outstanding = 0 ∧
      ∀ rs : List (Event start κ), (∀ r ∈ rs, r = .crash ∨ r = .recover) →
        (run System.step (.boot disk) (es ++ .crash :: rs)).recovery = none →
          ∀ a : Home start, (run System.step (.boot disk) (es ++ .crash :: rs)).cache a =
            ((run System.step (.boot disk) before).store start).current a := by
  have hinv : Inv start (System.boot disk : System κ) := inv_boot h
  obtain ⟨before, after, hes, hquiet, hdurable⟩ := durable_was_current (log_refines start) hinv ⟨rfl, rfl⟩ es
  refine ⟨before, after, hes, hquiet, fun rs hrs hdone a => ?_⟩
  have hcrash : Inv start ((run System.step (.boot disk) es).step (.crash : Event start κ)) :=
    (crash_keeps (run_inv (log_refines start).inv hinv es)).1
  have hread := restart_reads hcrash hrs rfl
  rw [← run_cons, ← run_append] at hread
  have hcache : ((run System.step (.boot disk) (es ++ .crash :: rs)).store start).current a =
      (run System.step (.boot disk) (es ++ .crash :: rs)).cache a := by
    simp only [System.store, hdone, Option.isSome_none, Bool.false_eq_true, if_false]
  rw [← hcache, hread]
  exact congrFun hdurable a

/-- On an empty disk: a system call writes a block, commits, and a second one is cut off. -/
theorem crash_safe_empty :
    let es : List (Event 2 Unit) := [.recover, .recover, .recover, .act () .beginOp,
      .act () (.write ⟨100, .inr (by decide)⟩ fun _ => 7), .act () .endOp, .act () .commit, .act () .commit,
      .act () .commit, .act () .commit, .act () .commit, .act () .commit, .act () .commit, .act () .commit, .act () .beginOp,
      .act () (.write ⟨101, .inr (by decide)⟩ fun _ => 8)]
    ∃ before after, es = before ++ after ∧
      (run System.step (.boot fun _ _ => 0 : System Unit) before).outstanding = 0 ∧
      ∀ rs : List (Event 2 Unit), (∀ r ∈ rs, r = .crash ∨ r = .recover) →
        (run System.step (.boot fun _ _ => 0) (es ++ .crash :: rs)).recovery = none →
          ∀ a : Home 2, (run System.step (.boot fun _ _ => 0) (es ++ .crash :: rs)).cache a =
            ((run System.step (.boot fun _ _ => 0 : System Unit) before).store 2).current a :=
  crash_safe (headerOk_of_nil rfl) _

/-- What the processes see where no system call is under way and none commits, a crash leaves. -/
theorem quiet_durable {disk : Nat → Block} (h : HeaderOk start disk) (es : List (Event start κ)) :
    let s := run System.step (.boot disk) es
    s.panicked = false → s.recovery = none → s.outstanding = 0 → s.committing = false →
      ∀ a, recovered start s.disk a = s.cache a := by
  intro s hp hr hout hc a
  obtain ⟨stage, hd, hplaces⟩ := (run_inv (log_refines start).inv (inv_boot h) es).running hp hr
  have hnil : s.lh = [] := hplaces.empty hc hout
  have hstage : stage = none := by
    by_contra hne
    rw [hplaces.committing.mpr hne] at hc
    cases hc
  subst hstage
  rw [recovered_of_nil hd.header]
  refine (hd.clean a ((hd.pinned a).trans (if_neg ?_))).symm
  rw [pending, hnil]
  exact List.not_mem_nil

/-- After a recovery and one system call that wrote nothing. -/
theorem quiet_durable_one :
    let s := run System.step (.boot fun _ _ => 0 : System Unit) ([.recover, .recover, .recover, .act () .beginOp,
      .act () .endOp, .act () .commit, .act () .commit] : List (Event 2 Unit))
    recovered 2 s.disk 100 = s.cache 100 :=
  quiet_durable (headerOk_of_nil rfl) _ rfl rfl rfl rfl 100

/-- How many steps `recover_from_log` has still to make, at most. -/
def System.recoveryRank (s : System κ) : Nat :=
  match s.recovery with
  | none => 0
  | some .readHead => logBlocks + 3
  | some (.installTrans tail) => s.lh.length - tail + 2
  | some .erase => 1

/-- A recovery that is not cut off ends. -/
theorem recovery_ends {disk : Nat → Block} (h : HeaderOk start disk) (es : List (Event start κ)) :
    ∃ t, Reaches System.step (fun e : Event start κ => e = .recover) (run System.step (.boot disk) es) t ∧
      t.recovery = none := by
  refine Reaches.descend (P := Inv start) System.recoveryRank (fun s hs => ?_)
    (run_inv (log_refines start).inv (inv_boot h) es)
  cases hr : s.recovery with
  | none => exact .inl ⟨s, .refl s, hr⟩
  | some r =>
    have hp : s.panicked = false := hs.alive (by rw [hr]; rfl)
    have hrec := hs.recovering hp r hr
    have hstep : s.step (.recover : Event start κ) = s.recoverFromLog start r := by
      simp only [System.step, hr, hp, Bool.false_eq_true, if_false]
    refine .inr ⟨_, .one rfl, (step_keeps hs .recover).1, ?_⟩
    rw [hstep]
    cases r with
    | readHead =>
      have hroom : (readHead (s.cache start)).length ≤ logBlocks := by
        rw [hrec.cache]
        exact hs.header.room
      simp only [System.recoveryRank, System.recoverFromLog, hr]
      omega
    | installTrans tail =>
      simp only [System.recoverFromLog]
      split
      next dst hdst =>
        have hlt := (List.getElem?_eq_some_iff.mp hdst).1
        simp only [System.recoveryRank, System.installBlock, System.bwrite, hr]
        omega
      · simp only [System.recoveryRank, hr]
        omega
    | erase =>
      simp only [System.recoveryRank, System.recoverFromLog, hr]
      exact Nat.zero_lt_one

end

end

/-- The log holds one block. -/
def oneLogged : Nat → Block := fun a => if a = 2 then FsLog.writeHead [100] fun _ => 0 else fun _ => 0

theorem recovery_ends_oneLogged :
    ∃ t, Reaches System.step (fun e : Event 2 Unit => e = .recover)
        (run System.step (.boot oneLogged) ([.recover, .recover, .crash, .recover] : List (Event 2 Unit))) t ∧
      t.recovery = none :=
  recovery_ends ⟨by decide, fun b hb => .inr (by
    obtain rfl : b = 100 := by simpa [readHead, FsLog.writeHead, oneLogged] using hb
    decide)⟩ _

end OsNetworks.Xv6.FsLog
