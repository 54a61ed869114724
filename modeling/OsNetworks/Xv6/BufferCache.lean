/-
The buffer cache. Any number of calls of `bread` are under way, each up to the
`brelse` of what it returned; a process may be in several. A step is a section
under `bcache.lock`, or what a call does while it has the buffer's sleep lock.

All blocks are those of the one disk, `ROOTDEV`, whose driver looks at
`b->blockno` only.
-/
import OsNetworks.Lib.LinkedRing
import OsNetworks.Lib.Threads
import OsNetworks.Lib.WriteBack
import OsNetworks.Xv6.FsLog

namespace OsNetworks.Xv6.BufferCache
open OsNetworks.LinkedRing OsNetworks.Runs OsNetworks.Threads OsNetworks.WriteBack
open OsNetworks.Xv6.FsLog (Block)

/-- `ROOTDEV` -/
def rootDev : UInt32 := 1

/-- `struct buf` without its links. -/
structure Buf (κ : Type) where
  valid : Bool := false
  dev : UInt32 := 0
  blockno : UInt32 := 0
  /-- the call that has the sleep lock -/
  lock : Option κ := none
  refcnt : Nat := 0
  data : Block := fun _ => 0

/-- Where a call is that has got a buffer from the list. -/
inductive Stage where
  /-- in `acquiresleep`, called by `bget` -/
  | waits
  /-- `if(!b->valid)` -/
  | checks
  /-- after `virtio_disk_rw(b, 0)` -/
  | filled
  /-- after `bread` -/
  | has
  /-- in `brelse`, after `releasesleep` -/
  | gives
  deriving DecidableEq, Repr

inductive Place (n : Nat) where
  | outside
  | inUse (stage : Stage) (blockno : UInt32) (b : Fin n)
  deriving DecidableEq, Repr

structure Cache (κ : Type) (n : Nat) where
  buf : Fin n → Buf κ := fun _ => {}
  links : Links (Fin n)
  disk : UInt32 → Block
  place : κ → Place n := fun _ => .outside
  panicked : Bool := false
  /-- by how much `bpin` has raised `refcnt` -/
  pins : Fin n → Nat := fun _ => 0
  /-- the buffers that `brelse` found without further users, in order -/
  released : List (Fin n) := []

inductive Act (κ : Type) where
  | bread (k : κ) (blockno : UInt32)
  /-- the next section of `bread` or `brelse` -/
  | next (k : κ)
  /-- the data of a buffer are changed -/
  | write (k : κ) (data : Block)
  | bwrite (k : κ)
  | bpin (k : κ)
  | bunpin (k : κ)
  | brelse (k : κ)

namespace Cache
variable {κ : Type} {n : Nat}

def binit (n : Nat) (disk : UInt32 → Block) : Cache κ n where
  links := (List.finRange n).foldl Links.pushFront Links.empty
  disk

def setBuf (s : Cache κ n) (b : Fin n) (v : Buf κ) : Cache κ n := { s with buf := Function.update s.buf b v }

/-- The first loop of `bget`. -/
def find (s : Cache κ n) (dev blockno : UInt32) : Option (Fin n) :=
  scan s.links.next (fun b => (s.buf b).dev = dev && (s.buf b).blockno = blockno) n (s.links.next none)

/-- The second loop of `bget`. -/
def unused (s : Cache κ n) : Option (Fin n) :=
  scan s.links.prev (fun b => (s.buf b).refcnt = 0) n (s.links.prev none)

section
variable [DecidableEq κ]

def goto (s : Cache κ n) (k : κ) (place : Place n) : Cache κ n := { s with place := Function.update s.place k place }

/-- `bget`, up to `acquiresleep` -/
def bget (s : Cache κ n) (k : κ) (dev blockno : UInt32) : Cache κ n :=
  match s.find dev blockno with
  | some b =>
    (s.setBuf b { s.buf b with refcnt := (s.buf b).refcnt + 1 }).goto k (.inUse .waits blockno b)
  | none =>
    match s.unused with
    | some b =>
      (s.setBuf b { s.buf b with dev, blockno, valid := false, refcnt := 1 }).goto k (.inUse .waits blockno b)
    | none => { s with panicked := true }

/-- `brelse`, after `releasesleep` -/
def unref (s : Cache κ n) (b : Fin n) : Cache κ n :=
  let s := s.setBuf b { s.buf b with refcnt := (s.buf b).refcnt - 1 }
  if (s.buf b).refcnt = 0 then { s with links := (s.links.unlink b).pushFront b, released := s.released ++ [b] } else s

def next (s : Cache κ n) (k : κ) : Cache κ n :=
  match s.place k with
  | .inUse .waits a b =>
    if (s.buf b).lock = none then (s.setBuf b { s.buf b with lock := some k }).goto k (.inUse .checks a b) else s
  | .inUse .checks a b =>
    if (s.buf b).valid then s.goto k (.inUse .has a b)
    else (s.setBuf b { s.buf b with data := s.disk (s.buf b).blockno }).goto k (.inUse .filled a b)
  | .inUse .filled a b => (s.setBuf b { s.buf b with valid := true }).goto k (.inUse .has a b)
  | .inUse .gives _ b => (s.unref b).goto k .outside
  | _ => s

def act (s : Cache κ n) : Act κ → Cache κ n
  | .bread k blockno =>
    match s.place k with
    | .outside => s.bget k rootDev blockno
    | _ => s
  | .next k => s.next k
  | .write k data =>
    match s.place k with
    | .inUse .has _ b => s.setBuf b { s.buf b with data }
    | _ => s
  | .bwrite k =>
    match s.place k with
    | .inUse .has _ b => { s with disk := Function.update s.disk (s.buf b).blockno (s.buf b).data }
    | _ => s
  | .bpin k =>
    match s.place k with
    | .inUse .has _ b =>
      { s.setBuf b { s.buf b with refcnt := (s.buf b).refcnt + 1 } with
        pins := Function.update s.pins b (s.pins b + 1) }
    | _ => s
  | .bunpin k =>
    match s.place k with
    | .inUse .has _ b =>
      -- `log.c` takes back what it pinned, and no more.
      if s.pins b = 0 then s
      else { s.setBuf b { s.buf b with refcnt := (s.buf b).refcnt - 1 } with
        pins := Function.update s.pins b (s.pins b - 1) }
    | _ => s
  | .brelse k =>
    match s.place k with
    | .inUse .has a b => (s.setBuf b { s.buf b with lock := none }).goto k (.inUse .gives a b)
    | _ => s

def step (s : Cache κ n) (a : Act κ) : Cache κ n := if s.panicked then s else s.act a

abbrev run (s : Cache κ n) (as : List (Act κ)) : Cache κ n := Runs.run step s as

end

/-! ## What a move changes -/

section
variable (s : Cache κ n) (b c : Fin n) (v : Buf κ)

@[simp] theorem setBuf_self : (s.setBuf b v).buf b = v := Function.update_self ..
@[simp] theorem setBuf_of_ne (h : c ≠ b) : (s.setBuf b v).buf c = s.buf c := Function.update_of_ne h ..
@[simp] theorem setBuf_place : (s.setBuf b v).place = s.place := rfl
@[simp] theorem setBuf_disk : (s.setBuf b v).disk = s.disk := rfl
@[simp] theorem setBuf_pins : (s.setBuf b v).pins = s.pins := rfl
@[simp] theorem setBuf_links : (s.setBuf b v).links = s.links := rfl
@[simp] theorem setBuf_released : (s.setBuf b v).released = s.released := rfl

theorem setBuf_same : s.setBuf b (s.buf b) = s := by simp [setBuf]

variable [DecidableEq κ] (k : κ) (p : Place n)

@[simp] theorem goto_buf : (s.goto k p).buf = s.buf := rfl
@[simp] theorem goto_self : (s.goto k p).place k = p := Function.update_self ..
@[simp] theorem goto_of_ne {j : κ} (h : j ≠ k) : (s.goto k p).place j = s.place j := Function.update_of_ne h ..
@[simp] theorem goto_disk : (s.goto k p).disk = s.disk := rfl
@[simp] theorem goto_pins : (s.goto k p).pins = s.pins := rfl
@[simp] theorem goto_links : (s.goto k p).links = s.links := rfl
@[simp] theorem goto_released : (s.goto k p).released = s.released := rfl

end

/-! ## The list -/

/-- `bcache.head.next` on. -/
def order (s : Cache κ n) : List (Fin n) := recent (List.finRange n).reverse s.released

def Ordered (s : Cache κ n) : Prop := s.links.Holds s.order

theorem binit_holds (n : Nat) (disk : UInt32 → Block) : (@binit κ n disk).Ordered := by
  have h : ∀ (xs ys : List (Fin n)) (l : Links (Fin n)), l.Holds ys → (xs.reverse ++ ys).Nodup →
      (xs.foldl Links.pushFront l).Holds (xs.reverse ++ ys) := by
    intro xs
    induction xs with
    | nil => exact fun _ _ h _ => h
    | cons x xs ih =>
      intro ys l h hnodup
      rw [List.reverse_cons, List.append_assoc, List.singleton_append] at hnodup ⊢
      have hx : x ∉ ys := (List.nodup_cons.mp (List.nodup_append.mp hnodup).2.1).1
      exact ih _ _ (h.pushFront hx) hnodup
  simpa [Ordered, order, binit, recent] using
    h (List.finRange n) [] Links.empty holds_empty (by simpa using List.nodup_finRange n)

theorem mem_toFront {xs : List (Fin n)} {b c : Fin n} : c ∈ toFront xs b ↔ c = b ∨ c ∈ xs := by
  by_cases h : c = b
  · simp [toFront, h]
  · simp [toFront, h, List.mem_erase_of_ne h]

theorem mem_order (s : Cache κ n) (b : Fin n) : b ∈ s.order := by
  unfold order
  induction s.released using List.reverseRecOn with
  | nil => simp [recent]
  | append_singleton rs r ih =>
    rw [recent_concat, mem_toFront]
    exact .inr ih

theorem length_order {s : Cache κ n} (h : s.Ordered) : s.order.length ≤ n := by
  simpa using h.nodup.length_le_card

theorem find_eq {s : Cache κ n} (h : s.Ordered) (dev blockno : UInt32) :
    s.find dev blockno = s.order.find? fun b => (s.buf b).dev = dev && (s.buf b).blockno = blockno :=
  scan_next h (length_order h)

theorem unused_eq {s : Cache κ n} (h : s.Ordered) :
    s.unused = s.order.reverse.find? fun b => (s.buf b).refcnt = 0 :=
  scan_prev h (length_order h)

/-- The second loop finds what is least recently used. -/
theorem unused_last {s : Cache κ n} (h : s.Ordered) {b : Fin n} (hb : s.unused = some b) :
    (s.buf b).refcnt = 0 ∧ ∀ c, c ≠ b → (s.buf c).refcnt = 0 → [c, b].Sublist s.order := by
  rw [unused_eq h, List.find?_eq_some_iff_append] at hb
  obtain ⟨hzero, us, vs, hsplit, hus⟩ := hb
  refine ⟨by simpa using hzero, fun c hne hc => ?_⟩
  have horder : s.order = vs.reverse ++ b :: us.reverse := by
    simpa using congrArg List.reverse hsplit
  have hmem := s.mem_order c
  rw [horder, List.mem_append, List.mem_cons] at hmem
  rcases hmem with hvs | rfl | hus'
  · rw [horder]
    exact (List.singleton_sublist.mpr hvs).append (List.singleton_sublist.mpr List.mem_cons_self)
  · exact absurd rfl hne
  · exact absurd hc (by simpa using hus c (List.mem_reverse.mp hus'))

/-! ## `brelse` -/

theorem unref_buf (s : Cache κ n) (b : Fin n) :
    (s.unref b).buf = (s.setBuf b { s.buf b with refcnt := (s.buf b).refcnt - 1 }).buf := by
  unfold unref
  simp only
  split <;> rfl

theorem unref_place (s : Cache κ n) (b : Fin n) : (s.unref b).place = s.place := by
  unfold unref
  simp only
  split <;> rfl

theorem unref_disk (s : Cache κ n) (b : Fin n) : (s.unref b).disk = s.disk := by
  unfold unref
  simp only
  split <;> rfl

theorem unref_pins (s : Cache κ n) (b : Fin n) : (s.unref b).pins = s.pins := by
  unfold unref
  simp only
  split <;> rfl

theorem Ordered.unref {s : Cache κ n} (h : s.Ordered) (b : Fin n) : (s.unref b).Ordered := by
  unfold Cache.unref
  simp only
  split
  · rw [Ordered, order, recent_concat]
    exact Links.Holds.toFront h (s.mem_order b)
  · exact h

/-! ## What a step does -/

/-- The buffer caches the block. -/
def Names (s : Cache κ n) (b : Fin n) (a : UInt32) : Prop := (s.buf b).dev = rootDev ∧ (s.buf b).blockno = a

instance (s : Cache κ n) (b : Fin n) (a : UInt32) : Decidable (s.Names b a) := inferInstanceAs (Decidable (_ ∧ _))

theorem find_some {s : Cache κ n} (h : s.Ordered) {a : UInt32} {b : Fin n} (hb : s.find rootDev a = some b) :
    s.Names b a := by
  rw [find_eq h] at hb
  simpa [Names] using List.find?_some hb

theorem find_none {s : Cache κ n} (h : s.Ordered) {a : UInt32} (hb : s.find rootDev a = none) (b : Fin n) :
    ¬ s.Names b a := by
  rw [find_eq h, List.find?_eq_none] at hb
  simpa [Names] using hb b (s.mem_order b)

section
variable [DecidableEq κ]

/-- What `bget` makes of the buffer that it recycles for the block. -/
def evicted (s : Cache κ n) (a : UInt32) : Option (Effect UInt32 Block) :=
  match s.find rootDev a with
  | some _ => none
  | none => s.unused.bind fun b => if (s.buf b).dev = rootDev then some (.evict (s.buf b).blockno) else none

/-- What a step is to those who see the blocks only. -/
def effect (s : Cache κ n) (act : Act κ) : Option (Effect UInt32 Block) :=
  if s.panicked then none
  else
    match act with
    | .bread k a =>
      match s.place k with
      | .outside => s.evicted a
      | _ => none
    | .write k data =>
      match s.place k with
      | .inUse .has a _ => some (.write a data)
      | _ => none
    | .bwrite k =>
      match s.place k with
      | .inUse .has a _ => some (.flush a)
      | _ => none
    | .bpin k =>
      match s.place k with
      | .inUse .has a _ => some (.pin a)
      | _ => none
    | .bunpin k =>
      match s.place k with
      | .inUse .has a b => if s.pins b = 0 then none else some (.unpin a)
      | _ => none
    | .next _ | .brelse _ => none

/-- The steps, each with what it finds and what it is to others. -/
inductive Moves (s : Cache κ n) : Act κ → Option (Effect UInt32 Block) → Cache κ n → Prop
  | stays (act : Act κ) : Moves s act none s
  | hits {k : κ} {a : UInt32} {b : Fin n} (hk : s.place k = .outside) (hb : s.Names b a) :
      Moves s (.bread k a) none
        ((s.setBuf b { s.buf b with refcnt := (s.buf b).refcnt + 1 }).goto k (.inUse .waits a b))
  | recycles {k : κ} {a : UInt32} {b : Fin n} (hk : s.place k = .outside) (hnone : ∀ c, ¬ s.Names c a)
      (hb : s.unused = some b) :
      Moves s (.bread k a) (if (s.buf b).dev = rootDev then some (.evict (s.buf b).blockno) else none)
        ((s.setBuf b { s.buf b with dev := rootDev, blockno := a, valid := false, refcnt := 1 }).goto k
          (.inUse .waits a b))
  | panics {k : κ} {a : UInt32} (hk : s.place k = .outside) (hnone : ∀ c, ¬ s.Names c a) (hfull : s.unused = none) :
      Moves s (.bread k a) none { s with panicked := true }
  | acquires {k : κ} {a : UInt32} {b : Fin n} (hk : s.place k = .inUse .waits a b) (hfree : (s.buf b).lock = none) :
      Moves s (.next k) none ((s.setBuf b { s.buf b with lock := some k }).goto k (.inUse .checks a b))
  | finds {k : κ} {a : UInt32} {b : Fin n} (hk : s.place k = .inUse .checks a b) (hvalid : (s.buf b).valid = true) :
      Moves s (.next k) none ((s.setBuf b (s.buf b)).goto k (.inUse .has a b))
  | fills {k : κ} {a : UInt32} {b : Fin n} (hk : s.place k = .inUse .checks a b) (hvalid : (s.buf b).valid = false) :
      Moves s (.next k) none
        ((s.setBuf b { s.buf b with data := s.disk (s.buf b).blockno }).goto k (.inUse .filled a b))
  | validates {k : κ} {a : UInt32} {b : Fin n} (hk : s.place k = .inUse .filled a b) :
      Moves s (.next k) none ((s.setBuf b { s.buf b with valid := true }).goto k (.inUse .has a b))
  | unrefs {k : κ} {a : UInt32} {b : Fin n} (hk : s.place k = .inUse .gives a b) :
      Moves s (.next k) none ((s.unref b).goto k .outside)
  | writes {k : κ} {a : UInt32} {b : Fin n} (data : Block) (hk : s.place k = .inUse .has a b) :
      Moves s (.write k data) (some (.write a data))
        ((s.setBuf b { s.buf b with data }).goto k (.inUse .has a b))
  | flushes {k : κ} {a : UInt32} {b : Fin n} (hk : s.place k = .inUse .has a b) :
      Moves s (.bwrite k) (some (.flush a))
        { s with disk := Function.update s.disk (s.buf b).blockno (s.buf b).data }
  | pins {k : κ} {a : UInt32} {b : Fin n} (hk : s.place k = .inUse .has a b) :
      Moves s (.bpin k) (some (.pin a)) { s.setBuf b { s.buf b with refcnt := (s.buf b).refcnt + 1 } with
        pins := Function.update s.pins b (s.pins b + 1) }
  | unpins {k : κ} {a : UInt32} {b : Fin n} (hk : s.place k = .inUse .has a b) (hpin : s.pins b ≠ 0) :
      Moves s (.bunpin k) (some (.unpin a)) { s.setBuf b { s.buf b with refcnt := (s.buf b).refcnt - 1 } with
        pins := Function.update s.pins b (s.pins b - 1) }
  | releases {k : κ} {a : UInt32} {b : Fin n} (hk : s.place k = .inUse .has a b) :
      Moves s (.brelse k) none ((s.setBuf b { s.buf b with lock := none }).goto k (.inUse .gives a b))

theorem goto_same (s : Cache κ n) {k : κ} {p : Place n} (h : s.place k = p) : s.goto k p = s := by
  subst h
  simp [goto]

theorem bread_moves {s : Cache κ n} (h : s.Ordered) {k : κ} (hk : s.place k = .outside) (a : UInt32) :
    s.Moves (.bread k a) (s.evicted a) (s.bget k rootDev a) := by
  unfold bget evicted
  cases hb : s.find rootDev a with
  | some b => exact .hits hk (find_some h hb)
  | none =>
    cases hu : s.unused with
    | some b => exact .recycles hk (find_none h hb) hu
    | none => exact .panics hk (find_none h hb) hu

theorem next_moves (s : Cache κ n) (k : κ) : s.Moves (.next k) none (s.next k) := by
  unfold next
  split
  next a b hk =>
    split
    next hfree => exact .acquires hk hfree
    · exact .stays _
  next a b hk =>
    split
    next hvalid =>
      have hmove := Moves.finds hk hvalid
      rw [setBuf_same] at hmove
      exact hmove
    next hvalid => exact .fills hk (by simpa using hvalid)
  next a b hk => exact .validates hk
  next a b hk => exact .unrefs hk
  · exact .stays _

theorem step_moves {s : Cache κ n} (h : s.Ordered) (act : Act κ) : s.Moves act (s.effect act) (s.step act) := by
  unfold step effect
  split
  · exact .stays _
  · cases act with
    | bread k a =>
      simp only [Cache.act]
      cases hk : s.place k with
      | outside => exact bread_moves h hk a
      | inUse => exact .stays _
    | next k => exact next_moves s k
    | write k data =>
      simp only [Cache.act]
      split
      next a b hk =>
        have hmove := Moves.writes data hk
        rw [goto_same (s.setBuf b { s.buf b with data }) hk] at hmove
        exact hmove
      · exact .stays _
    | bwrite k =>
      simp only [Cache.act]
      split
      next a b hk => exact .flushes hk
      · exact .stays _
    | bpin k =>
      simp only [Cache.act]
      split
      next a b hk => exact .pins hk
      · exact .stays _
    | bunpin k =>
      simp only [Cache.act]
      split
      next a b hk =>
        split
        · exact .stays _
        next hpin => exact .unpins hk hpin
      · exact .stays _
    | brelse k =>
      simp only [Cache.act]
      split
      next a b hk => exact .releases hk
      · exact .stays _

/-! ## The list in every run -/

theorem Ordered.moves {s s' : Cache κ n} (h : s.Ordered) {act : Act κ}
    {e : Option (Effect UInt32 Block)} (hmove : s.Moves act e s') : s'.Ordered := by
  cases hmove with
  | @unrefs k a b hk => exact h.unref b
  | _ => exact h

/-! ## References -/

/-- Whether a call counts in `b->refcnt`. -/
def weight (b : Fin n) : Place n → Nat
  | .outside => 0
  | .inUse _ _ c => if c = b then 1 else 0

variable [Fintype κ]

/-- Each reference counts once. -/
def Counted (s : Cache κ n) : Prop := ∀ b, (s.buf b).refcnt = total (weight b) s.place + s.pins b

theorem Counted.goto {s t : Cache κ n} {k : κ} {p : Place n} (h : s.Counted) (hplace : t.place = (s.goto k p).place)
    (hcount : ∀ b, (t.buf b).refcnt + weight b (s.place k) + s.pins b = (s.buf b).refcnt + weight b p + t.pins b) :
    t.Counted := by
  intro b
  have htotal := total_update (weight b) s.place k p
  have hb := hcount b
  rw [h b] at hb
  rw [hplace]
  change _ = total (weight b) (Function.update s.place k p) + t.pins b
  omega

omit [DecidableEq κ] in
/-- Who uses a buffer is counted. -/
theorem Counted.one_le {s : Cache κ n} (h : s.Counted) {k : κ} {st : Stage} {a : UInt32} {b : Fin n}
    (hk : s.place k = .inUse st a b) : 1 + s.pins b ≤ (s.buf b).refcnt := by
  have hle := le_total (weight b) s.place k
  rw [hk] at hle
  rw [h b]
  simp only [weight, if_true] at hle
  omega

theorem Counted.moves {s s' : Cache κ n} (h : s.Counted) (ho : s.Ordered) {act : Act κ}
    {e : Option (Effect UInt32 Block)} (hmove : s.Moves act e s') :
    s'.Counted := by
  have hset : ∀ {b : Fin n} {v : Buf κ} {k : κ} {p : Place n},
      (v.refcnt + weight b (s.place k) = (s.buf b).refcnt + weight b p) →
      (∀ c, c ≠ b → weight c (s.place k) = weight c p) → ((s.setBuf b v).goto k p).Counted := by
    intro b v k p hb hc
    refine h.goto rfl fun c => ?_
    by_cases hcb : c = b
    · subst hcb
      simp [hb]
    · simp [hcb, hc c hcb]
  cases hmove with
  | stays => exact h
  | hits hk hb => exact hset (by simp [hk, weight]) fun c hc => by simp [hk, weight, hc.symm]
  | recycles hk hnone hb =>
    exact hset (by simp [hk, weight, (unused_last ho hb).1]) fun c hc => by simp [hk, weight, hc.symm]
  | panics => exact h
  | acquires hk => exact hset (by simp [hk, weight]) fun c hc => by simp [hk, weight]
  | finds hk => exact hset (by simp [hk, weight]) fun c hc => by simp [hk, weight]
  | fills hk => exact hset (by simp [hk, weight]) fun c hc => by simp [hk, weight]
  | validates hk => exact hset (by simp [hk, weight]) fun c hc => by simp [hk, weight]
  | @unrefs k a b hk =>
    have hle := h.one_le hk
    refine h.goto (k := k) (p := .outside) (by simp only [Cache.goto, unref_place]) fun c => ?_
    by_cases hcb : c = b
    · subst hcb
      simp [unref_buf, unref_pins, hk, weight]
      omega
    · simp [unref_buf, unref_pins, hk, weight, hcb, Ne.symm hcb]
  | writes data hk => exact hset (by rw [hk]) fun c hc => by rw [hk]
  | flushes => exact h
  | @pins k a b hk =>
    refine h.goto (k := k) (by rw [goto_same s rfl]; rfl) fun c => ?_
    by_cases hcb : c = b
    · subst hcb
      simp
      omega
    · simp [hcb]
  | @unpins k a b hk hpin =>
    have hle := h.one_le hk
    refine h.goto (k := k) (by rw [goto_same s rfl]; rfl) fun c => ?_
    by_cases hcb : c = b
    · subst hcb
      simp
      omega
    · simp [hcb]
  | releases hk => exact hset (by simp [hk, weight]) fun c hc => by simp [hk, weight]

end

end Cache

end OsNetworks.Xv6.BufferCache
