/-
What a buffer is to the calls that use it, and what the buffer cache is to the
file system: each block has one content that all see, which is lost only where
nobody uses the block.
-/
import OsNetworks.Lib.Refinement
import OsNetworks.Xv6.BufferCache

namespace OsNetworks.Xv6.BufferCache
open OsNetworks.LinkedRing OsNetworks.Runs OsNetworks.Threads OsNetworks.WriteBack
open OsNetworks.Xv6.FsLog (Block)

/-- The call has the buffer's sleep lock. -/
def Stage.locked : Stage → Bool
  | .waits | .gives => false
  | .checks | .filled | .has => true

/-- What the buffer is to a call for the block `a`. -/
structure Fits {κ : Type} (disk : UInt32 → Block) (v : Buf κ) (k : κ) (st : Stage) (a : UInt32) : Prop where
  dev : v.dev = rootDev
  blockno : v.blockno = a
  locks : st.locked = true → v.lock = some k
  valid : st = .has → v.valid = true
  filled : st = .filled → v.valid = false ∧ v.data = disk a

/-- What a call without the sleep lock knows is the block's name. -/
theorem Fits.of_unlocked {κ : Type} {disk : UInt32 → Block} {v v' : Buf κ} {k : κ} {st : Stage} {a : UInt32}
    (h : Fits disk v k st a) (hst : st.locked = false) (hdev : v'.dev = v.dev) (hblockno : v'.blockno = v.blockno) :
    Fits disk v' k st a := by
  refine ⟨hdev.trans h.dev, hblockno.trans h.blockno, fun hlocked => ?_, fun he => ?_, fun he => ?_⟩
  · exact absurd (hst.symm.trans hlocked) (by decide)
  · exact absurd (he ▸ hst) (by decide)
  · exact absurd (he ▸ hst) (by decide)

namespace Cache
variable {κ : Type} {n : Nat}

structure Known (s : Cache κ n) : Prop where
  fits : ∀ k st a b, s.place k = .inUse st a b → Fits s.disk (s.buf b) k st a
  held : ∀ b k, (s.buf b).lock = some k → ∃ st a, s.place k = .inUse st a b ∧ st.locked = true
  once : ∀ b c a, s.Names b a → s.Names c a → b = c
  fresh : ∀ b, (s.buf b).dev ≠ rootDev → (s.buf b).valid = false
  pinned : ∀ b, s.pins b ≠ 0 → (s.buf b).dev = rootDev

theorem Known.names {s : Cache κ n} (h : s.Known) {k : κ} {st : Stage} {a : UInt32} {b : Fin n}
    (hk : s.place k = .inUse st a b) : s.Names b a :=
  ⟨(h.fits k st a b hk).dev, (h.fits k st a b hk).blockno⟩

/-- Only one call has the sleep lock. -/
theorem Known.alone {s : Cache κ n} (h : s.Known) {j k : κ} {st st' : Stage} {a a' : UInt32} {b : Fin n}
    (hj : s.place j = .inUse st a b) (hst : st.locked = true) (hk : s.place k = .inUse st' a' b)
    (hst' : st'.locked = true) : j = k :=
  Option.some.inj (((h.fits j st a b hj).locks hst).symm.trans ((h.fits k st' a' b hk).locks hst'))

theorem Known.not_named {s : Cache κ n} (h : s.Known) {b c : Fin n} {a : UInt32} (hb : s.Names b a) (hc : c ≠ b) :
    ¬ s.Names c a :=
  fun hn => hc (h.once c b a hn hb)

/-- Fields of the buffers that no call relies on may change. -/
theorem Known.congr {s t : Cache κ n} (h : s.Known) (hplace : t.place = s.place) (hdisk : t.disk = s.disk)
    (hbuf : ∀ b, ∃ refcnt, t.buf b = { s.buf b with refcnt })
    (hpins : ∀ b, t.pins b ≠ 0 → (s.buf b).dev = rootDev) : t.Known where
  fits k st a b hk := by
    rw [hplace] at hk
    obtain ⟨refcnt, hb⟩ := hbuf b
    rw [hb, hdisk]
    have hfits := h.fits k st a b hk
    exact ⟨hfits.dev, hfits.blockno, hfits.locks, hfits.valid, hfits.filled⟩
  held b k hk := by
    obtain ⟨refcnt, hb⟩ := hbuf b
    rw [hb] at hk
    rw [hplace]
    exact h.held b k hk
  once b c a hb hc := by
    obtain ⟨refcnt, hb'⟩ := hbuf b
    obtain ⟨refcnt', hc'⟩ := hbuf c
    rw [Names, hb'] at hb
    rw [Names, hc'] at hc
    exact h.once b c a hb hc
  fresh b hb := by
    obtain ⟨refcnt, hb'⟩ := hbuf b
    rw [hb'] at hb ⊢
    exact h.fresh b hb
  pinned b hb := by
    obtain ⟨refcnt, hb'⟩ := hbuf b
    rw [hb']
    exact hpins b hb

theorem setBuf_refcnt (s : Cache κ n) (b : Fin n) (r : Nat) (c : Fin n) :
    ∃ refcnt, (s.setBuf b { s.buf b with refcnt := r }).buf c = { s.buf c with refcnt } := by
  by_cases hcb : c = b
  · subst hcb
    exact ⟨r, setBuf_self ..⟩
  · exact ⟨(s.buf c).refcnt, setBuf_of_ne _ _ _ _ hcb⟩

theorem Known.flushes {s : Cache κ n} (h : s.Known) {k : κ} {a : UInt32} {b : Fin n}
    (hk : s.place k = .inUse .has a b) :
    Known { s with disk := Function.update s.disk (s.buf b).blockno (s.buf b).data } where
  fits j st a' c hj := by
    have hfits := h.fits j st a' c hj
    refine ⟨hfits.dev, hfits.blockno, hfits.locks, hfits.valid, fun hst => ?_⟩
    have hne : a' ≠ (s.buf b).blockno := by
      rintro rfl
      obtain rfl := h.once c b _ ⟨hfits.dev, hfits.blockno⟩ ⟨(h.names hk).1, rfl⟩
      obtain rfl := h.alone hj (by rw [hst]; rfl) hk rfl
      exact absurd (hst.symm.trans (Place.inUse.inj (hj.symm.trans hk)).1) (by decide)
    simpa [hne] using hfits.filled hst
  held := h.held
  once := h.once
  fresh := h.fresh
  pinned := h.pinned

variable [DecidableEq κ]

/-- A call moves to a buffer, or on with the one it uses. -/
theorem Known.move {s : Cache κ n} (h : s.Known) {k : κ} {b : Fin n} {v : Buf κ} {st : Stage} {a : UInt32}
    (hfrom : ∀ c, (s.buf c).lock = some k → c = b)
    (hothers : ∀ j, j ≠ k → ∀ st' a', s.place j = .inUse st' a' b → Fits s.disk v j st' a')
    (hself : Fits s.disk v k st a)
    (hheld : ∀ j, v.lock = some j → j = k ∧ st.locked = true ∨ j ≠ k ∧ (s.buf b).lock = some j)
    (honce : ∀ c, c ≠ b → ¬ s.Names c v.blockno) : ((s.setBuf b v).goto k (.inUse st a b)).Known where
  fits j st' a' c hj := by
    by_cases hjk : j = k
    · subst hjk
      rw [goto_self, Place.inUse.injEq] at hj
      obtain ⟨rfl, rfl, rfl⟩ := hj
      simpa using hself
    · rw [goto_of_ne _ _ _ hjk] at hj
      by_cases hcb : c = b
      · subst hcb
        simpa using hothers j hjk st' a' hj
      · simpa [hcb] using h.fits j st' a' c hj
  held c j hj := by
    by_cases hcb : c = b
    · subst hcb
      rw [goto_buf, setBuf_self] at hj
      rcases hheld j hj with ⟨rfl, hst⟩ | ⟨hne, hj⟩
      · exact ⟨st, a, by simp, hst⟩
      · simpa [hne] using h.held c j hj
    · rw [goto_buf, setBuf_of_ne _ _ _ _ hcb] at hj
      have hjk : j ≠ k := fun he => hcb (hfrom c (he ▸ hj))
      simpa [hjk] using h.held c j hj
  once c d a' hc hd := by
    have hnames : ∀ e, ((s.setBuf b v).goto k (.inUse st a b)).Names e a' → e ≠ b → s.Names e a' := by
      intro e he hne
      simpa [Names, hne] using he
    have hv : ∀ e, ((s.setBuf b v).goto k (.inUse st a b)).Names e a' → e = b → v.blockno = a' := by
      intro e he heb
      subst heb
      simpa using he.2
    by_cases hcb : c = b <;> by_cases hdb : d = b
    · exact hcb.trans hdb.symm
    · exact absurd (hv c hc hcb ▸ hnames d hd hdb) (honce d hdb)
    · exact absurd (hv d hd hdb ▸ hnames c hc hcb) (honce c hcb)
    · exact h.once c d a' (hnames c hc hcb) (hnames d hd hdb)
  fresh c hc := by
    by_cases hcb : c = b
    · subst hcb
      exact absurd (by simpa using hself.dev) hc
    · simp only [goto_buf, setBuf_of_ne _ _ _ _ hcb] at hc ⊢
      exact h.fresh c hc
  pinned c hc := by
    by_cases hcb : c = b
    · subst hcb
      simpa using hself.dev
    · simpa [hcb] using h.pinned c hc

/-- A call does what it has the sleep lock for. -/
theorem Known.hold {s : Cache κ n} (h : s.Known) {k : κ} {st st' : Stage} {a : UInt32} {b : Fin n} {v : Buf κ}
    (hk : s.place k = .inUse st a b) (hst : st.locked = true) (hdev : v.dev = (s.buf b).dev)
    (hblockno : v.blockno = (s.buf b).blockno) (hlock : v.lock = none ∨ v.lock = some k ∧ st'.locked = true)
    (hself : Fits s.disk v k st' a) : ((s.setBuf b v).goto k (.inUse st' a b)).Known := by
  refine h.move (fun c hc => ?_) (fun j hne st'' a' hj => ?_) hself (fun j hj => ?_) fun c hc => ?_
  · obtain ⟨st'', a', hk', -⟩ := h.held c k hc
    exact (Place.inUse.inj (hk.symm.trans hk')).2.2.symm
  · have hfits := h.fits j st'' a' b hj
    refine hfits.of_unlocked ?_ hdev hblockno
    by_contra hlocked
    exact hne (h.alone hj (by simpa using hlocked) hk hst)
  · rcases hlock with hnone | ⟨hsome, hst'⟩
    · exact absurd (hnone.symm.trans hj) (by simp)
    · exact .inl ⟨Option.some.inj (hj.symm.trans hsome), hst'⟩
  · have hb := h.names hk
    exact h.not_named ⟨hb.1, hblockno.symm⟩ hc

theorem Known.hits {s : Cache κ n} (h : s.Known) {k : κ} {a : UInt32} {b : Fin n} (hk : s.place k = .outside)
    (hb : s.Names b a) :
    ((s.setBuf b { s.buf b with refcnt := (s.buf b).refcnt + 1 }).goto k (.inUse .waits a b)).Known := by
  refine h.move (fun c hc => ?_) (fun j _ st a' hj => ?_) ?_ (fun j hj => .inr ⟨?_, hj⟩) fun c hc => ?_
  · obtain ⟨st, a', hk', -⟩ := h.held c k hc
    exact absurd (hk.symm.trans hk') (by simp)
  · have hfits := h.fits j st a' b hj
    exact ⟨hfits.dev, hfits.blockno, hfits.locks, hfits.valid, hfits.filled⟩
  · exact ⟨hb.1, hb.2, by simp [Stage.locked], by simp, by simp⟩
  · rintro rfl
    obtain ⟨st, a', hj', -⟩ := h.held b j hj
    exact absurd (hk.symm.trans hj') (by simp)
  · exact h.not_named ⟨hb.1, rfl⟩ hc

theorem Known.recycles {s : Cache κ n} (h : s.Known) {k : κ} {a : UInt32} {b : Fin n} (hk : s.place k = .outside)
    (hnone : ∀ c, ¬ s.Names c a) (hfree : ∀ j st a', s.place j ≠ .inUse st a' b) :
    ((s.setBuf b { s.buf b with dev := rootDev, blockno := a, valid := false, refcnt := 1 }).goto k
      (.inUse .waits a b)).Known := by
  refine h.move (fun c hc => ?_) (fun j _ st a' hj => absurd hj (hfree j st a')) ?_ (fun j hj => ?_) fun c _ => hnone c
  · obtain ⟨st, a', hk', -⟩ := h.held c k hc
    exact absurd (hk.symm.trans hk') (by simp)
  · exact ⟨rfl, rfl, by simp [Stage.locked], by simp, by simp⟩
  · obtain ⟨st, a', hj', -⟩ := h.held b j hj
    exact absurd hj' (hfree j st a')

theorem Known.acquires {s : Cache κ n} (h : s.Known) {k : κ} {a : UInt32} {b : Fin n}
    (hk : s.place k = .inUse .waits a b) (hfree : (s.buf b).lock = none) :
    ((s.setBuf b { s.buf b with lock := some k }).goto k (.inUse .checks a b)).Known := by
  have hb := h.names hk
  refine h.move (fun c hc => ?_) (fun j _ st a' hj => ?_) ?_ (fun j hj => .inl ⟨?_, rfl⟩) fun c hc => ?_
  · obtain ⟨st, a', hk', hst⟩ := h.held c k hc
    exact (Place.inUse.inj (hk.symm.trans hk')).2.2.symm
  · have hfits := h.fits j st a' b hj
    refine hfits.of_unlocked ?_ rfl rfl
    by_contra hlocked
    exact absurd (hfree.symm.trans (hfits.locks (by simpa using hlocked))) (by simp)
  · exact ⟨hb.1, hb.2, fun _ => rfl, by simp, by simp⟩
  · exact (Option.some.inj hj).symm
  · exact h.not_named ⟨hb.1, rfl⟩ hc

theorem Known.unrefs {s : Cache κ n} (h : s.Known) {k : κ} {a : UInt32} {b : Fin n}
    (hk : s.place k = .inUse .gives a b) : ((s.unref b).goto k .outside).Known := by
  have hs : (s.unref b).Known := by
    refine h.congr (unref_place s b) (unref_disk s b) (fun c => ?_) (by rw [unref_pins]; exact h.pinned)
    rw [unref_buf]
    exact setBuf_refcnt s b _ c
  exact {
    fits := fun j st a' c hj => by
      have hjk : j ≠ k := by rintro rfl; simp at hj
      rw [goto_of_ne _ _ _ hjk] at hj
      exact hs.fits j st a' c hj
    held := fun c j hj => by
      obtain ⟨st, a', hj', hst⟩ := hs.held c j hj
      have hjk : j ≠ k := by
        rintro rfl
        rw [unref_place] at hj'
        exact absurd (((Place.inUse.inj (hk.symm.trans hj')).1 ▸ hst : Stage.gives.locked = true)) (by decide)
      exact ⟨st, a', by rwa [goto_of_ne _ _ _ hjk], hst⟩
    once := hs.once
    fresh := hs.fresh
    pinned := hs.pinned }

/-! ## Every run -/

section
variable [Fintype κ]

structure Inv (s : Cache κ n) : Prop where
  ordered : s.Ordered
  counted : s.Counted
  known : s.Known

omit [DecidableEq κ] in
/-- A buffer that `bget` may recycle is nobody's. -/
theorem Inv.unused_free {s : Cache κ n} (h : s.Inv) {b : Fin n} (hb : (s.buf b).refcnt = 0) :
    (∀ j st a, s.place j ≠ .inUse st a b) ∧ s.pins b = 0 := by
  refine ⟨fun j st a hj => ?_, ?_⟩
  · have hle := h.counted.one_le hj
    omega
  · have heq := h.counted b
    omega

theorem Inv.moves {s s' : Cache κ n} (h : s.Inv) {act : Act κ} {e : Option (Effect UInt32 Block)}
    (hmove : s.Moves act e s') : s'.Inv := by
  refine ⟨h.ordered.moves hmove, h.counted.moves h.ordered hmove, ?_⟩
  have hk := h.known
  cases hmove with
  | stays => exact hk
  | hits hout hb => exact hk.hits hout hb
  | recycles hout hnone hb => exact hk.recycles hout hnone (h.unused_free (unused_last h.ordered hb).1).1
  | panics => exact ⟨hk.fits, hk.held, hk.once, hk.fresh, hk.pinned⟩
  | acquires hp hfree => exact hk.acquires hp hfree
  | @finds k a b hp hvalid =>
    have hfits := hk.fits _ _ _ _ hp
    exact hk.hold hp rfl rfl rfl (.inr ⟨hfits.locks rfl, rfl⟩)
      ⟨hfits.dev, hfits.blockno, fun _ => hfits.locks rfl, fun _ => hvalid, by simp⟩
  | @fills k a b hp hvalid =>
    have hfits := hk.fits _ _ _ _ hp
    exact hk.hold hp rfl rfl rfl (.inr ⟨hfits.locks rfl, rfl⟩)
      ⟨hfits.dev, hfits.blockno, fun _ => hfits.locks rfl, by simp, fun _ => ⟨hvalid, by rw [hfits.blockno]⟩⟩
  | @validates k a b hp =>
    have hfits := hk.fits _ _ _ _ hp
    exact hk.hold hp rfl rfl rfl (.inr ⟨hfits.locks rfl, rfl⟩)
      ⟨hfits.dev, hfits.blockno, fun _ => hfits.locks rfl, fun _ => rfl, by simp⟩
  | unrefs hp => exact hk.unrefs hp
  | @writes k a b data hp =>
    have hfits := hk.fits _ _ _ _ hp
    exact hk.hold hp rfl rfl rfl (.inr ⟨hfits.locks rfl, rfl⟩)
      ⟨hfits.dev, hfits.blockno, fun _ => hfits.locks rfl, fun _ => hfits.valid rfl, by simp⟩
  | flushes hp => exact hk.flushes hp
  | @pins k a b hp =>
    refine hk.congr rfl rfl (setBuf_refcnt s b _) fun c hc => ?_
    by_cases hcb : c = b
    · subst hcb
      exact (hk.names hp).1
    · exact hk.pinned c (by simpa [hcb] using hc)
  | @unpins k a b hp hpin =>
    refine hk.congr rfl rfl (setBuf_refcnt s b _) fun c hc => ?_
    by_cases hcb : c = b
    · subst hcb
      exact (hk.names hp).1
    · exact hk.pinned c (by simpa [hcb] using hc)
  | @releases k a b hp =>
    have hfits := hk.fits _ _ _ _ hp
    exact hk.hold hp rfl rfl rfl (.inl rfl) ⟨hfits.dev, hfits.blockno, by simp [Stage.locked], by simp, by simp⟩

theorem Inv.step {s : Cache κ n} (h : s.Inv) (act : Act κ) : (s.step act).Inv := h.moves (step_moves h.ordered act)

omit [DecidableEq κ] in
theorem inv_binit (n : Nat) (disk : UInt32 → Block) : (@binit κ n disk).Inv where
  ordered := binit_holds n disk
  counted b := (total_eq_zero fun _ => rfl).symm
  known := {
    fits := fun k st a b hk => by simp [binit] at hk
    held := fun b k hk => by simp [binit] at hk
    once := fun b c a hb _ => absurd hb.1 (show (0 : UInt32) ≠ rootDev by decide)
    fresh := fun _ _ => rfl
    pinned := fun _ hb => absurd rfl hb }

theorem inv_run (n : Nat) (disk : UInt32 → Block) (acts : List (Act κ)) : ((binit n disk).run acts).Inv :=
  run_inv (fun _ act h => h.step act) (inv_binit n disk) acts

/-! ## One content for each block -/

/-- What the calls see of the blocks is `st`. -/
structure Backs (s : Cache κ n) (st : Store UInt32 Block) : Prop where
  disk : st.disk = s.disk
  cached : ∀ b a, s.Names b a →
    st.cache a = (if (s.buf b).valid then (s.buf b).data else s.disk a) ∧ st.pins a = s.pins b
  absent : ∀ a, (∀ b, ¬ s.Names b a) → st.cache a = s.disk a ∧ st.pins a = 0

omit [DecidableEq κ] [Fintype κ] in
/-- A step that changes no name and no content is not seen. -/
theorem Backs.silent {s t : Cache κ n} {st : Store UInt32 Block} (h : s.Backs st) (hdisk : t.disk = s.disk)
    (hpins : t.pins = s.pins)
    (hbuf : ∀ b, (t.buf b).dev = (s.buf b).dev ∧ (t.buf b).blockno = (s.buf b).blockno ∧
      ((t.buf b).valid = (s.buf b).valid ∧ (t.buf b).data = (s.buf b).data ∨
        (s.buf b).valid = false ∧ ((t.buf b).valid = true → (t.buf b).data = s.disk (s.buf b).blockno))) :
    t.Backs st := by
  have hnames : ∀ b a, t.Names b a ↔ s.Names b a := fun b a => by rw [Names, Names, (hbuf b).1, (hbuf b).2.1]
  refine ⟨h.disk.trans hdisk.symm, fun b a hb => ?_, fun a ha => ?_⟩
  · rw [hnames] at hb
    obtain ⟨hcache, hpin⟩ := h.cached b a hb
    rw [hdisk, hpins]
    refine ⟨hcache.trans ?_, hpin⟩
    rcases (hbuf b).2.2 with ⟨hvalid, hdata⟩ | ⟨hvalid, hdata⟩
    · rw [hvalid, hdata]
    · rw [hvalid, if_neg (by simp)]
      split
      next ht => rw [hdata ht, hb.2]
      · rfl
  · rw [hdisk]
    exact h.absent a fun b hb => ha b ((hnames b a).mpr hb)

omit [Fintype κ] in
/-- Where one buffer changes, the others are as they were. -/
theorem Backs.silent_at {s : Cache κ n} {st : Store UInt32 Block} (h : s.Backs st) {b : Fin n} {v : Buf κ} {k : κ}
    {p : Place n} (hdev : v.dev = (s.buf b).dev) (hblockno : v.blockno = (s.buf b).blockno)
    (hdata : v.valid = (s.buf b).valid ∧ v.data = (s.buf b).data ∨
      (s.buf b).valid = false ∧ (v.valid = true → v.data = s.disk (s.buf b).blockno)) :
    ((s.setBuf b v).goto k p).Backs st := by
  refine h.silent rfl rfl fun c => ?_
  by_cases hcb : c = b
  · subst hcb
    simpa [hdev, hblockno] using hdata
  · simp [hcb]

omit [Fintype κ] in
theorem Backs.recycles {s : Cache κ n} {st st' : Store UInt32 Block} (h : s.Backs st) (hs : s.Known) {k : κ}
    {a : UInt32} {b : Fin n} (hnone : ∀ c, ¬ s.Names c a) (hpin : s.pins b = 0) (hdisk : st'.disk = st.disk)
    (hpins : st'.pins = st.pins) (hlost : ∀ x, s.Names b x → st'.cache x = s.disk x)
    (hkept : ∀ x, ¬ s.Names b x → st'.cache x = st.cache x) :
    ((s.setBuf b { s.buf b with dev := rootDev, blockno := a, valid := false, refcnt := 1 }).goto k
      (.inUse .waits a b)).Backs st' := by
  refine ⟨hdisk.trans h.disk, fun c x hc => ?_, fun x hx => ?_⟩
  · by_cases hcb : c = b
    · subst hcb
      obtain rfl : a = x := by simpa using hc.2
      obtain ⟨hcache, hzero⟩ := h.absent a hnone
      rw [hkept a (hnone c), hpins, hcache, hzero]
      simp [hpin]
    · have hold : s.Names c x := by simpa [Names, hcb] using hc
      rw [hkept x (hs.not_named hold (Ne.symm hcb)), hpins]
      simpa [hcb] using h.cached c x hold
  · have hother : ∀ c, c ≠ b → ¬ s.Names c x := fun c hcb hc => hx c (by simpa [Names, hcb] using hc)
    by_cases hb : s.Names b x
    · exact ⟨hlost x hb, by rw [hpins, (h.cached b x hb).2, hpin]⟩
    · rw [hkept x hb, hpins]
      refine h.absent x fun c hc => ?_
      by_cases hcb : c = b
      · exact hb (hcb ▸ hc)
      · exact hother c hcb hc

omit [DecidableEq κ] [Fintype κ] in
/-- A change to the block that one buffer names. -/
theorem Backs.named {s t : Cache κ n} {st st' : Store UInt32 Block} (h : s.Backs st) (hs : s.Known) {a : UInt32}
    {b : Fin n} (hb : s.Names b a) (hnames : ∀ c, (t.buf c).dev = (s.buf c).dev ∧ (t.buf c).blockno = (s.buf c).blockno)
    (hdisk : st'.disk = t.disk)
    (hself : st'.cache a = (if (t.buf b).valid then (t.buf b).data else t.disk a) ∧ st'.pins a = t.pins b)
    (hothers : ∀ x, x ≠ a → st'.cache x = st.cache x ∧ st'.pins x = st.pins x ∧ t.disk x = s.disk x)
    (hbufs : ∀ c, c ≠ b → (t.buf c).valid = (s.buf c).valid ∧ (t.buf c).data = (s.buf c).data ∧ t.pins c = s.pins c) :
    t.Backs st' := by
  have hiff : ∀ c x, t.Names c x ↔ s.Names c x := fun c x => by rw [Names, Names, (hnames c).1, (hnames c).2]
  refine ⟨hdisk, fun c x hc => ?_, fun x hx => ?_⟩
  · rw [hiff] at hc
    by_cases hcb : c = b
    · subst hcb
      obtain rfl : x = a := hc.2.symm.trans hb.2
      exact hself
    · have hxa : x ≠ a := by
        rintro rfl
        exact hcb (hs.once c b x hc hb)
      obtain ⟨hcache, hpins, hx⟩ := hothers x hxa
      obtain ⟨hvalid, hdata, hpin⟩ := hbufs c hcb
      rw [hcache, hpins, hvalid, hdata, hpin, hx]
      exact h.cached c x hc
  · have hxa : x ≠ a := by
      rintro rfl
      exact hx b ((hiff b x).mpr hb)
    obtain ⟨hcache, hpins, hx'⟩ := hothers x hxa
    rw [hcache, hpins, hx']
    exact h.absent x fun c hc => hx c ((hiff c x).mpr hc)

theorem Backs.moves {s s' : Cache κ n} {st : Store UInt32 Block} (h : s.Backs st) (hs : s.Inv) {act : Act κ}
    {e : Option (Effect UInt32 Block)} (hmove : s.Moves act e s') : s'.Backs (e.elim st st.step) := by
  have hk := hs.known
  cases hmove with
  | stays => exact h
  | hits hout hb => exact h.silent_at rfl rfl (.inl ⟨rfl, rfl⟩)
  | @recycles k a b hout hnone hb =>
    obtain ⟨-, hpin⟩ := hs.unused_free (unused_last hs.ordered hb).1
    split
    next hdev =>
      refine h.recycles hk hnone hpin rfl rfl (fun x hx => ?_) fun x hx => ?_
      · obtain rfl := hx.2
        simp [Store.step, h.disk]
      · have hne : x ≠ (s.buf b).blockno := fun he => hx ⟨hdev, he.symm⟩
        simp [Store.step, hne]
    next hdev => exact h.recycles hk hnone hpin rfl rfl (fun x hx => absurd hx.1 hdev) fun _ _ => rfl
  | panics => exact ⟨h.disk, h.cached, h.absent⟩
  | acquires hp hfree => exact h.silent_at rfl rfl (.inl ⟨rfl, rfl⟩)
  | finds hp hvalid => exact h.silent_at rfl rfl (.inl ⟨rfl, rfl⟩)
  | fills hp hvalid => exact h.silent_at rfl rfl (.inr ⟨hvalid, fun _ => rfl⟩)
  | @validates k a b hp =>
    have hfits := hk.fits _ _ _ _ hp
    obtain ⟨hvalid, hdata⟩ := hfits.filled rfl
    exact h.silent_at rfl rfl (.inr ⟨hvalid, fun _ => by rw [hfits.blockno]; exact hdata⟩)
  | @unrefs k a b hp =>
    refine h.silent (unref_disk s b) (unref_pins s b) fun c => ?_
    rw [goto_buf, unref_buf]
    obtain ⟨refcnt, hc⟩ := setBuf_refcnt s b ((s.buf b).refcnt - 1) c
    rw [hc]
    exact ⟨rfl, rfl, .inl ⟨rfl, rfl⟩⟩
  | @writes k a b data hp =>
    have hfits := hk.fits _ _ _ _ hp
    refine h.named hk (hk.names hp) (fun c => ?_) h.disk ?_ (fun x hx => ?_) fun c hc => ?_
    · by_cases hcb : c = b
      · subst hcb
        simp
      · simp [hcb]
    · simp [Store.step, hfits.valid rfl, (h.cached b a (hk.names hp)).2]
    · simp [Store.step, hx]
    · simp [hc]
  | @flushes k a b hp =>
    have hfits := hk.fits _ _ _ _ hp
    have hcache := (h.cached b a (hk.names hp)).1
    rw [hfits.valid rfl, if_pos rfl] at hcache
    refine h.named hk (hk.names hp) (fun c => ⟨rfl, rfl⟩) ?_ ?_ (fun x hx => ?_) fun c hc => ⟨rfl, rfl, rfl⟩
    · simp [Store.step, h.disk, hcache, hfits.blockno]
    · simpa [Store.step, hfits.valid rfl, hcache] using (h.cached b a (hk.names hp)).2
    · simp [Store.step, hfits.blockno, hx]
  | @pins k a b hp =>
    obtain ⟨hcache, hpin⟩ := h.cached b a (hk.names hp)
    refine h.named hk (hk.names hp) (fun c => ?_) h.disk ?_ (fun x hx => ?_) fun c hc => ?_
    · obtain ⟨refcnt, hc⟩ := setBuf_refcnt s b ((s.buf b).refcnt + 1) c
      rw [hc]
      exact ⟨rfl, rfl⟩
    · simpa [Store.step, hpin] using hcache
    · simp [Store.step, hx]
    · simp [hc]
  | @unpins k a b hp hpos =>
    obtain ⟨hcache, hpin⟩ := h.cached b a (hk.names hp)
    refine h.named hk (hk.names hp) (fun c => ?_) h.disk ?_ (fun x hx => ?_) fun c hc => ?_
    · obtain ⟨refcnt, hc⟩ := setBuf_refcnt s b ((s.buf b).refcnt - 1) c
      rw [hc]
      exact ⟨rfl, rfl⟩
    · simpa [Store.step, hpin] using hcache
    · simp [Store.step, hx]
    · simp [hc]
  | releases hp => exact h.silent_at rfl rfl (.inl ⟨rfl, rfl⟩)

/-- A cache in order, and what is seen of it. -/
def Shows (s : Cache κ n) (st : Store UInt32 Block) : Prop := s.Inv ∧ s.Backs st

theorem Shows.step {s : Cache κ n} {st : Store UInt32 Block} (h : s.Shows st) (act : Act κ) :
    (s.step act).Shows ((s.effect act).elim st st.step) :=
  ⟨h.1.step act, h.2.moves h.1 (step_moves h.1.ordered act)⟩

omit [DecidableEq κ] in
theorem shows_binit (n : Nat) (disk : UInt32 → Block) : (@binit κ n disk).Shows (.cold disk) :=
  ⟨inv_binit n disk, rfl, fun _ _ hb => absurd hb.1 (show (0 : UInt32) ≠ rootDev by decide), fun _ _ => ⟨rfl, rfl⟩⟩

theorem effect_safe {s : Cache κ n} {st : Store UInt32 Block} {act : Act κ} {e : Effect UInt32 Block} (h : s.Shows st)
    (he : s.effect act = some e) : Safe st e := by
  have hmove := step_moves h.1.ordered act
  rw [he] at hmove
  generalize s.step act = s', he' : some e = e' at hmove
  intro a hevict
  cases hmove with
  | @recycles k a' b hout hnone hb =>
    split at he'
    next hdev =>
      obtain rfl := Option.some.inj he'
      obtain rfl := Effect.evict.inj hevict
      rw [(h.2.cached b _ ⟨hdev, rfl⟩).2]
      exact (h.1.unused_free (unused_last h.1.ordered hb).1).2
    · exact absurd he' (by simp)
  | writes => exact absurd (hevict.symm.trans (Option.some.inj he')) (by simp)
  | flushes => exact absurd (hevict.symm.trans (Option.some.inj he')) (by simp)
  | pins => exact absurd (hevict.symm.trans (Option.some.inj he')) (by simp)
  | unpins => exact absurd (hevict.symm.trans (Option.some.inj he')) (by simp)
  | _ => exact absurd he' (by simp)

omit [DecidableEq κ] in
/-- Who has the block has its content. -/
theorem Shows.data {s : Cache κ n} {st : Store UInt32 Block} (h : s.Shows st) {k : κ} {a : UInt32} {b : Fin n}
    (hk : s.place k = .inUse .has a b) : (s.buf b).data = st.cache a := by
  have hcache := (h.2.cached b a (h.1.known.names hk)).1
  rw [(h.1.known.fits _ _ _ _ hk).valid rfl, if_pos rfl] at hcache
  exact hcache.symm

/-- **One content for each block**: in every run the calls see a store in which a block
changes only as the one call that has it writes it, or as it falls back to the disk, and
then no `bpin` is left of it. -/
theorem sees_one_content (n : Nat) (disk : UInt32 → Block) (acts : List (Act κ)) :
    let es := trace Cache.step effect (binit n disk) acts
    Along Store.step Safe (.cold disk) es ∧
      ∀ k a b, ((binit n disk).run acts).place k = .inUse .has a b →
        (((binit n disk).run acts).buf b).data = (Runs.run Store.step (.cold disk) es).cache a ∧
          ∀ j c, ((binit n disk).run acts).place j = .inUse .has a c → j = k := by
  intro es
  have hsim : ∀ (s : Cache κ n) (st : Store UInt32 Block) act, s.Shows st →
      (s.step act).Shows ((s.effect act).elim st st.step) := fun _ _ act h => h.step act
  have hshows : ((binit n disk).run acts).Shows (Runs.run Store.step (.cold disk) es) :=
    trace_sim hsim (shows_binit n disk) acts
  refine ⟨trace_along hsim (fun s st act e h he => effect_safe h he) (shows_binit n disk) acts, fun k a b hk => ?_⟩
  refine ⟨hshows.data hk, fun j c hj => ?_⟩
  have hknown := hshows.1.known
  obtain rfl := hknown.once b c a (hknown.names hk) (hknown.names hj)
  exact hknown.alone hj rfl hk rfl

/-- **What `log_write` pins is there to commit**: from any state of any run, while a block
stays pinned and nobody writes to it, whoever reads it gets what it held. -/
theorem pinned_stays (n : Nat) (disk : UInt32 → Block) (acts acts' : List (Act κ)) {j k : κ} {a : UInt32} {b c : Fin n}
    (hj : ((binit n disk).run acts).place j = .inUse .has a b) (hpin : ((binit n disk).run acts).pins b ≠ 0)
    (hwrite : ∀ data, .write a data ∉ trace Cache.step effect ((binit n disk).run acts) acts')
    (hunpin : .unpin a ∉ trace Cache.step effect ((binit n disk).run acts) acts')
    (hk : (((binit n disk).run acts).run acts').place k = .inUse .has a c) :
    ((((binit n disk).run acts).run acts').buf c).data = (((binit n disk).run acts).buf b).data := by
  have hsim : ∀ (s : Cache κ n) (st : Store UInt32 Block) act, s.Shows st →
      (s.step act).Shows ((s.effect act).elim st st.step) := fun _ _ act h => h.step act
  have hbefore := trace_sim hsim (shows_binit n disk) acts
  have hafter := trace_sim hsim hbefore acts'
  have hsafe := trace_along hsim (fun s st act e h he => effect_safe h he) hbefore acts'
  rw [hafter.data hk, hbefore.data hj]
  refine pinned_kept ?_ hsafe hwrite hunpin
  rw [(hbefore.2.cached b a (hbefore.1.known.names hj)).2]
  exact hpin

/-- A call's `bread` of a block that is not cached. -/
def reads (k : Bool) (a : UInt32) : List (Act Bool) := [.bread k a, .next k, .next k, .next k]

/-- Its `brelse`. -/
def releases (k : Bool) : List (Act Bool) := [.brelse k, .next k]

/-- A call pins what it has read. -/
def pinsSeven : List (Act Bool) := reads false 7 ++ [.bpin false]

/-- The other reads it again. -/
def rereads : List (Act Bool) := releases false ++ [.bread true 7, .next true, .next true]

theorem pinned_stays_reread :
    (((binit 2 fun _ _ => 0).run pinsSeven).run rereads |>.buf 0).data =
      ((binit 2 fun _ _ => 0).run pinsSeven |>.buf 0).data :=
  have hnone : trace Cache.step effect ((binit 2 fun _ _ => 0).run pinsSeven) rereads = [] :=
    List.length_eq_zero_iff.mp (by decide +kernel)
  pinned_stays (j := false) (k := true) (a := 7) 2 (fun _ _ => 0) pinsSeven rereads (by decide +kernel) (by decide +kernel)
    (fun _ => hnone ▸ List.not_mem_nil) (hnone ▸ List.not_mem_nil) (by decide +kernel)

/-! ## Who gets a buffer -/

/-- **One buffer for each block**: in every run no two buffers are for the same block, what a
call uses is for the block it asked for, and `refcnt` is the number of the calls that use the
buffer and of the `bpin`s that were not taken back. -/
theorem one_buffer (n : Nat) (disk : UInt32 → Block) (acts : List (Act κ)) :
    let s := (binit n disk).run acts
    (∀ b c a, s.Names b a → s.Names c a → b = c) ∧ (∀ k st a b, s.place k = .inUse st a b → s.Names b a) ∧
      ∀ b, (s.buf b).refcnt = total (weight b) s.place + s.pins b := by
  intro s
  have h : s.Inv := inv_run n disk acts
  exact ⟨h.known.once, fun k st a b hk => h.known.names hk, h.counted⟩

omit [Fintype κ] in
theorem order_of_never {b c : Fin n} (h : [c, b].Sublist (List.finRange n).reverse) : b < c := by
  have hsorted : (List.finRange n).reverse.Pairwise fun c b => b < c :=
    List.pairwise_reverse.mpr (List.pairwise_lt_finRange n)
  simpa using hsorted.sublist h

/-- **Least recently used first**: in every run the list goes round all buffers, last released
first, and the buffer that `bget` recycles is the one whose users left first of those that
nobody uses (the first of the array of those that never had one). -/
theorem recycles_least_recent (n : Nat) (disk : UInt32 → Block) (acts : List (Act κ)) {k : κ} {a : UInt32} {b : Fin n}
    (hout : ((binit n disk).run acts).place k = .outside) (hnone : ∀ c, ¬ ((binit n disk).run acts).Names c a)
    (hk : (((binit n disk).run acts).step (.bread k a)).place k = .inUse .waits a b) :
    let s := (binit n disk).run acts
    s.links.Holds (recent (List.finRange n).reverse s.released) ∧ (s.buf b).refcnt = 0 ∧
      ∀ c, c ≠ b → (s.buf c).refcnt = 0 →
        Sooner s.released b c ∨ b ∉ s.released ∧ c ∉ s.released ∧ b < c := by
  intro s
  have h : s.Inv := inv_run n disk acts
  have hmove := step_moves h.ordered (.bread k a)
  generalize s.step (.bread k a) = t, s.effect (.bread k a) = e at hmove hk
  cases hmove with
  | stays => exact absurd (hout.symm.trans hk) (by simp)
  | hits _ hb => exact absurd hb (hnone _)
  | @recycles _ _ b' _ _ hb =>
    rw [goto_self, Place.inUse.injEq] at hk
    obtain ⟨-, -, rfl⟩ := hk
    obtain ⟨hzero, hlast⟩ := unused_last h.ordered hb
    refine ⟨h.ordered, hzero, fun c hne hc => ?_⟩
    have hnodup : (List.finRange n).reverse.Nodup := List.nodup_reverse.mpr (List.nodup_finRange n)
    exact (recent_order hnodup (hlast c hne hc)).imp_right fun hnever =>
      ⟨hnever.1, hnever.2.1, order_of_never hnever.2.2⟩
  | panics => exact absurd (hout.symm.trans hk) (by simp)

/-- One block after the other is read and released. -/
def readsTwo : List (Act Bool) := reads false 7 ++ releases false ++ reads false 8 ++ releases false

theorem recycles_least_recent_third :
    let s := (binit 2 fun _ _ => 0).run readsTwo
    ∀ c, c ≠ 0 → (s.buf c).refcnt = 0 → Sooner s.released 0 c ∨ 0 ∉ s.released ∧ c ∉ s.released ∧ 0 < c :=
  (recycles_least_recent (k := false) (a := 9) (b := 0) 2 (fun _ _ => 0) readsTwo (by decide +kernel) (by decide +kernel)
    (by decide +kernel)).2.2

/-- Some call uses the block, or it is pinned. -/
def InUse (s : Cache κ n) (a : UInt32) : Prop :=
  ∃ b, s.Names b a ∧ ((∃ k st, s.place k = .inUse st a b) ∨ s.pins b ≠ 0)

omit [DecidableEq κ] in
/-- What is referenced is used for a block. -/
theorem Inv.used {s : Cache κ n} (h : s.Inv) {b : Fin n} (hb : (s.buf b).refcnt ≠ 0) :
    s.Names b (s.buf b).blockno ∧ ((∃ k st, s.place k = .inUse st (s.buf b).blockno b) ∨ s.pins b ≠ 0) := by
  by_cases hpin : s.pins b = 0
  · have hcall : ∃ k st a, s.place k = .inUse st a b := by
      by_contra hnot
      push Not at hnot
      refine hb ?_
      rw [h.counted b, hpin, Nat.add_zero]
      refine total_eq_zero fun k => ?_
      cases hk : s.place k with
      | outside => rfl
      | inUse st a c =>
        refine if_neg ?_
        rintro rfl
        exact hnot k st a hk
    obtain ⟨k, st, a, hk⟩ := hcall
    obtain ⟨hdev, rfl⟩ := h.known.names hk
    exact ⟨⟨hdev, rfl⟩, .inl ⟨k, st, hk⟩⟩
  · exact ⟨⟨h.known.pinned b hpin, rfl⟩, .inr hpin⟩

omit [DecidableEq κ] in
theorem Inv.refcnt_ne {s : Cache κ n} (h : s.Inv) {a : UInt32} (ha : s.InUse a) :
    ∃ b, s.Names b a ∧ (s.buf b).refcnt ≠ 0 := by
  obtain ⟨b, hb, ⟨k, st, hk⟩ | hpin⟩ := ha
  · have hle := h.counted.one_le hk
    exact ⟨b, hb, by omega⟩
  · have heq := h.counted b
    exact ⟨b, hb, by omega⟩

omit [DecidableEq κ] in
/-- As many blocks in use as there are buffers leave no buffer, and are all there are. -/
theorem Inv.full {s : Cache κ n} (h : s.Inv) {as : List UInt32} (hnodup : as.Nodup) (hlen : as.length = n)
    (huse : ∀ a ∈ as, s.InUse a) (b : Fin n) : (s.buf b).refcnt ≠ 0 ∧ (s.buf b).blockno ∈ as := by
  have hsub : as ⊆ (List.finRange n).map fun b => (s.buf b).blockno := by
    intro a ha
    obtain ⟨c, hc, -⟩ := huse a ha
    exact List.mem_map.mpr ⟨c, List.mem_finRange c, hc.2⟩
  have hperm : as.Perm ((List.finRange n).map fun b => (s.buf b).blockno) :=
    (List.subperm_of_subset hnodup hsub).perm_of_length_le (by simp [hlen])
  have hmem : ∀ c, (s.buf c).blockno ∈ as := fun c =>
    hperm.mem_iff.mpr (List.mem_map.mpr ⟨c, List.mem_finRange c, rfl⟩)
  obtain ⟨c, hc, hrefs⟩ := h.refcnt_ne (huse _ (hmem b))
  have hinj := List.inj_on_of_nodup_map (hperm.nodup_iff.mp hnodup)
  obtain rfl : c = b := hinj (List.mem_finRange c) (List.mem_finRange b) hc.2
  exact ⟨hrefs, hmem c⟩

/-- **When there are no buffers**: in every run `bread` panics exactly if as many blocks as
there are buffers are in use, and the one asked for is not among them. So a commit cannot
read the log's blocks if `log_write` has pinned one for each buffer: there are `NBUF` of
the one and `LOGBLOCKS` of the other, which are both `MAXOPBLOCKS * 3`. -/
theorem panics_iff_full (n : Nat) (disk : UInt32 → Block) (acts : List (Act κ)) {k : κ} (a : UInt32)
    (hgoes : ((binit n disk).run acts).panicked = false) (hout : ((binit n disk).run acts).place k = .outside) :
    (((binit n disk).run acts).step (.bread k a)).panicked = true ↔
      ∃ as : List UInt32, as.Nodup ∧ as.length = n ∧ a ∉ as ∧ ∀ x ∈ as, ((binit n disk).run acts).InUse x := by
  have h : ((binit n disk).run acts).Inv := inv_run n disk acts
  generalize (binit n disk).run acts = s at h hgoes hout ⊢
  have hstep : s.step (.bread k a) = s.bget k rootDev a := by simp [Cache.step, act, hgoes, hout]
  rw [hstep]
  constructor
  · intro hpanic
    have hmove := bread_moves h.ordered hout a
    generalize s.bget k rootDev a = t, s.evicted a = e at hmove hpanic
    cases hmove with
    | panics _ hnone hfull =>
      have hall : ∀ b, (s.buf b).refcnt ≠ 0 := by
        rw [unused_eq h.ordered, List.find?_eq_none] at hfull
        exact fun b => by simpa using hfull b (List.mem_reverse.mpr (s.mem_order b))
      refine ⟨(List.finRange n).map fun b => (s.buf b).blockno, ?_, by simp, fun ha => ?_, fun x hx => ?_⟩
      · exact (List.nodup_finRange n).map fun b c hbc => h.known.once b c _ (h.used (hall b)).1
          ⟨(h.used (hall c)).1.1, hbc.symm⟩
      · obtain ⟨b, -, rfl⟩ := List.mem_map.mp ha
        exact hnone b (h.used (hall b)).1
      · obtain ⟨b, -, rfl⟩ := List.mem_map.mp hx
        exact ⟨b, (h.used (hall b)).1, (h.used (hall b)).2⟩
    | _ => exact absurd (hgoes.symm.trans hpanic) (by decide)
  · rintro ⟨as, hnodup, hlen, ha, huse⟩
    have hfull := h.full hnodup hlen huse
    unfold bget
    split
    next b hb => exact absurd ((find_some h.ordered hb).2 ▸ (hfull b).2) ha
    next =>
      split
      next b hb => exact absurd (unused_last h.ordered hb).1 (hfull b).1
      · rfl

theorem panics_iff_full_one : (((binit 1 fun _ _ => 0).run pinsSeven).step (.bread true 8)).panicked = true :=
  (panics_iff_full (k := true) 1 (fun _ _ => 0) pinsSeven 8 (by decide +kernel) (by decide +kernel)).mpr
    ⟨[7], by decide, by decide, by decide, fun _ hx => ⟨0, by
      rw [List.mem_singleton.mp hx]
      decide +kernel, .inr (by decide +kernel)⟩⟩

end

end Cache

/-! ## The log above -/

section
variable {ι : Type} {start : Nat}

/-- The blocks as the log has them. -/
def seenBy (t : FsLog.System ι) : Store UInt32 Block :=
  ⟨fun a => t.cache a.toNat, fun a => t.disk a.toNat, fun a => t.pins a.toNat⟩

theorem update_toNat {β : Type} (f : Nat → β) (a : UInt32) (v : β) (x : UInt32) :
    Function.update f a.toNat v x.toNat = Function.update (fun x : UInt32 => f x.toNat) a v x := by
  by_cases hx : x = a
  · subst hx
    simp
  · rw [Function.update_of_ne hx, Function.update_of_ne fun he => hx (UInt32.toNat_inj.mp he)]

/-- What the buffer cache may evict, the log allows for at any time. -/
theorem seenBy_evict [DecidableEq ι] {t : FsLog.System ι} {a : UInt32} (hsafe : Safe (seenBy t) (.evict a))
    (hgoes : t.panicked = false) :
    seenBy (t.step (.evict a.toNat : FsLog.Event start ι)) = (seenBy t).step (.evict a) := by
  have hpin : t.pins a.toNat = 0 := hsafe a rfl
  simp only [FsLog.System.step, hpin, hgoes, and_self, if_true, seenBy, Store.step]
  congr 1
  funext x
  exact update_toNat t.cache a _ x

/-- Its `bwrite` is to change a block and then write it. -/
theorem seenBy_bwrite (t : FsLog.System ι) (a : UInt32) (v : Block) :
    seenBy (t.bwrite a.toNat v) = ((seenBy t).step (.write a v)).step (.flush a) := by
  simp only [FsLog.System.bwrite, seenBy, Store.step, Function.update_self]
  congr 1
  · funext x
    exact update_toNat t.cache a v x
  · funext x
    exact update_toNat t.disk a v x

end

end OsNetworks.Xv6.BufferCache
