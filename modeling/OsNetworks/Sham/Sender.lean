/-
The client inside `send_file`: what each of its statements can do, and the
invariant every statement keeps as long as no sequence number comes near the
wrap. The invariant ties the sequence numbers to the blocks of the file, and
says that each slot the retransmission loop visits holds a block that was sent.
-/
import OsNetworks.Sham.Server
import OsNetworks.Sham.Timeouts

namespace OsNetworks.Sham

/-! ## Blocks of the file -/

/-- A sequence number at which a block of a file of `len` bytes begins, or the one past
the file's end. The file's first byte has number 101. -/
def Boundary (len x : Nat) : Prop := 101 ≤ x ∧ x ≤ 101 + len ∧ ((x - 101) % 1024 = 0 ∨ x = 101 + len)

/-- `p` carries the block of the file that its sequence number names. -/
structure IsBlock (file : List UInt8) (p : Packet) : Prop where
  flags : p.header.flags = 0
  le : 101 ≤ p.header.seqNum.toNat
  aligned : (p.header.seqNum.toNat - 101) % 1024 = 0
  lt : p.header.seqNum.toNat - 101 < file.length
  data : p.data = (file.drop (p.header.seqNum.toNat - 101)).take shamDataSize

theorem IsBlock.length_pos {file p} (h : IsBlock file p) : 0 < p.data.length := by
  have := h.lt
  rw [h.data, List.length_take, List.length_drop, shamDataSize]
  omega

theorem IsBlock.has_eq {file p} (h : IsBlock file p) (f : UInt16) : p.has f = false := by
  simp [Packet.has, h.flags]

/-- The sequence number after a block is a boundary again. -/
theorem IsBlock.boundary {file p} (h : IsBlock file p) :
    Boundary file.length (p.header.seqNum.toNat + p.data.length) := by
  have := h.le; have := h.aligned; have := h.lt
  rw [h.data, List.length_take, List.length_drop, shamDataSize]
  refine ⟨by omega, by omega, ?_⟩
  omega

/-! ## 32-bit arithmetic below the wrap -/

theorem toNat_sub {a b : UInt32} (h : b.toNat ≤ a.toNat) : (a - b).toNat = a.toNat - b.toNat :=
  UInt32.toNat_sub_of_le a b (UInt32.le_iff_toNat_le.mpr h)

theorem toNat_add_ofNat {a : UInt32} {n : Nat} (h : a.toNat + n < UInt32.size) :
    (a + UInt32.ofNat n).toNat = a.toNat + n := by
  simp only [UInt32.size] at h
  rw [UInt32.toNat_add, UInt32.toNat_ofNat']
  omega

/-! ## What the statements do -/

/-- The outcomes of a round of the loop sending new packets. -/
inductive Client.Fills (now : Timeval) (c : Client) : Client × List Outgoing → Prop
  | full : c.doneSending = true ∨ 10240 ≤ c.inFlight → Fills now c ({ c with phase := .waiting }, [])
  | eof : c.doneSending = false → c.inFlight < 10240 → c.unread = [] →
      Fills now c ({ c with doneSending := true, phase := .waiting }, [])
  | sent : c.doneSending = false → c.inFlight < 10240 → c.unread ≠ [] → Fills now c (c.sendNext now)

theorem Client.fill_fills (now : Timeval) (c : Client) : c.Fills now (c.fill now) := by
  simp only [Client.fill, shamWindowSize, shamDataSize]
  split
  next h =>
    simp only [Bool.and_eq_true, Bool.not_eq_true', decide_eq_true_eq] at h
    split
    next he => exact .eof h.1 h.2 (by simpa using he)
    next he => exact .sent h.1 h.2 fun hu => he (by simp [hu])
  next h =>
    simp only [Bool.and_eq_true, Bool.not_eq_true', decide_eq_true_eq, not_and, Nat.not_lt] at h
    refine .full ?_
    cases hd : c.doneSending with
    | true => exact .inl rfl
    | false => exact .inr (h hd)

/-- The outcomes of round `i` of the retransmission loop. -/
inductive Client.Scans (clk : Clock) (i : Nat) (c : Client) : Client × List Outgoing → Prop
  | finish : 10 ≤ i ∨ c.nextSeqNum ≤ c.pktSeq i → Scans clk i c ({ c with phase := .checking }, [])
  | skip : i < 10 → c.pktSeq i < c.windowBase → Scans clk i c ({ c with phase := .scanning (i + 1) }, [])
  | quiet : i < 10 → c.pktSeq i < c.nextSeqNum → c.windowBase ≤ c.pktSeq i →
      ((c.slot (c.scanIdx i)).acked = true ∨
        isTimeout clk.now (c.slot (c.scanIdx i)).sendTime shamTimeoutMs = false) →
      Scans clk i c ({ c with phase := .scanning (i + 1) }, [])
  | giveUp : i < 10 → c.pktSeq i < c.nextSeqNum → c.windowBase ≤ c.pktSeq i →
      isTimeout clk.now (c.slot (c.scanIdx i)).sendTime shamTimeoutMs = true →
      shamMaxRetries ≤ (c.slot (c.scanIdx i)).retries → Scans clk i c ({ c with phase := .exited 1 }, [])
  | resend : i < 10 → c.pktSeq i < c.nextSeqNum → c.windowBase ≤ c.pktSeq i →
      isTimeout clk.now (c.slot (c.scanIdx i)).sendTime shamTimeoutMs = true →
      (c.slot (c.scanIdx i)).retries < shamMaxRetries →
      Scans clk i c ({ c with phase := .scanning (i + 1) }.resend clk.stamp (c.scanIdx i))

theorem Client.scan_scans (clk : Clock) (i : Nat) (c : Client) : c.Scans clk i (c.scan clk i) := by
  simp only [Client.scan]
  split
  next h => exact .finish h
  next h =>
  simp only [not_or, Nat.not_le, ge_iff_le, UInt32.not_le] at h
  split
  next hb => exact .skip h.1 hb
  next hb =>
  have hb := UInt32.not_lt.mp hb
  split
  next ht =>
    simp only [Bool.and_eq_true, Bool.not_eq_true'] at ht
    split
    next hr => exact .giveUp h.1 h.2 hb ht.2 hr
    next hr => exact .resend h.1 h.2 hb ht.2 (Nat.not_le.mp hr)
  next ht =>
    simp only [Bool.and_eq_true, Bool.not_eq_true', not_and, Bool.not_eq_true] at ht
    refine .quiet h.1 h.2 hb ?_
    cases ha : (c.slot (c.scanIdx i)).acked with
    | true => exact .inl rfl
    | false => exact .inr (ht ha)

/-- The outcomes of a statement of the client: it goes elsewhere, handing at most control
packets to `sendto`, or it sends a new block, or it sends one again. -/
inductive Client.Acts (clk : Clock) (c : Client) : Client × List Outgoing → Prop
  | goto (p : ClientPhase) (done : Bool) {out : List Outgoing} : (∀ o ∈ out, o.pkt.data = []) →
      Acts clk c ({ c with phase := p, doneSending := done }, out)
  | sent : c.inFlight < 10240 → c.unread ≠ [] → Acts clk c (c.sendNext clk.stamp)
  | resent {i : Nat} : i < 10 → c.pktSeq i < c.nextSeqNum →
      Acts clk c ({ c with phase := .scanning (i + 1) }.resend clk.stamp (c.scanIdx i))

theorem Client.act_acts (clk : Clock) (c : Client) : c.Acts clk (c.act clk) := by
  have stay : c.Acts clk (c, []) := .goto c.phase c.doneSending (by simp)
  unfold Client.act
  split
  case h_1 => exact .goto .waitSynAck c.doneSending (by simp [sendPacket, synPacket])
  case h_2 => unfold Client.loopHead; split <;> exact .goto _ c.doneSending (by simp)
  case h_3 =>
    have hr := c.fill_fills clk.stamp
    generalize c.fill clk.stamp = r at hr
    cases hr with
    | full => exact .goto .waiting c.doneSending (by simp)
    | eof => exact .goto .waiting true (by simp)
    | sent _ hf hu => exact .sent hf hu
  case h_4 i _ =>
    have hr := c.scan_scans clk i
    generalize c.scan clk i = r at hr
    cases hr
    case resend hi hlt _ _ _ => exact .resent hi hlt
    all_goals exact .goto _ c.doneSending (by simp)
  case h_5 => unfold Client.check; split <;> exact .goto _ c.doneSending (by simp)
  case h_6 => exact .goto _ c.doneSending (by simp [sendPacket, finPacket])
  case h_7 => exact .goto _ c.doneSending (by simp [sendPacket, finalAck])
  case h_8 => exact stay

/-- The outcomes of a wait of a client past its handshake: at most an ACK that reaches
`send_file` moves `window_base`, and only up. -/
inductive Client.Recvs (a : Arrival) (c : Client) : Client × List Outgoing → Prop
  | goto (p : ClientPhase) (addr : Sockaddr) (peerWindow : UInt16) :
      Recvs a c ({ c with phase := p, serverAddr := addr, peerWindow := peerWindow }, [])
  | acked {pkt : Packet} : c.phase = .waiting → (recvPacketTimeout a c.serverAddr).1 = .packet pkt →
      pkt.has shamAck = true → c.windowBase < pkt.header.ackNum → ∀ (addr : Sockaddr) (peerWindow : UInt16),
      Recvs a c ({ c with phase := .scanning 0, serverAddr := addr, windowBase := pkt.header.ackNum,
                          peerWindow := peerWindow }, [])

theorem Client.recv_recvs {c : Client} (hb : c.phase ≠ .waitSynAck) (a : Arrival) : c.Recvs a (c.recv a) := by
  have goes : ∀ pkt next, c.Recvs a (c.ignoreResult a pkt next, []) := fun pkt next => by
    simp only [Client.ignoreResult]
    split <;> exact .goto _ _ c.peerWindow
  unfold Client.recv
  split
  next hp => exact absurd hp hb
  next hp =>
    simp only [Client.onAck]
    split
    next pkt hpkt =>
      split
      next hack =>
        by_cases hgt : pkt.header.ackNum > c.windowBase
        · rw [if_pos hgt]; exact .acked hp hpkt hack hgt _ _
        · rw [if_neg hgt]; exact .goto _ _ _
      next => exact .goto _ _ c.peerWindow
    next => exact .goto _ _ c.peerWindow
  next => exact goes _ _
  next => exact goes _ _
  next => exact .goto c.phase c.serverAddr c.peerWindow

/-- The client is past its handshake, and stays so. -/
def Client.begun (c : Client) : Prop := c.phase ≠ .sendSyn ∧ c.phase ≠ .waitSynAck

theorem act_begun {c : Client} (h : c.begun) (clk : Clock) : (c.act clk).1.begun := by
  unfold Client.begun at h ⊢
  unfold Client.act
  cases hp : c.phase with
  | sendSyn => exact absurd hp h.1
  | waitSynAck => exact absurd hp h.2
  | loopHead =>
    simp only [Client.loopHead]
    split <;> simp
  | filling =>
    simp only []
    have hr := c.fill_fills clk.stamp
    generalize c.fill clk.stamp = r at hr
    cases hr with
    | full => simp
    | eof => simp
    | sent => simp [Client.sendNext, Client.setSlot, hp]
  | scanning i =>
    simp only []
    have hr := c.scan_scans clk i
    generalize c.scan clk i = r at hr
    cases hr <;> simp [Client.resend, Client.setSlot]
  | checking =>
    simp only [Client.check]
    split <;> simp
  | sendFin => simp [Client.sendFin]
  | sendFinalAck pkt => simp [Client.sendFinalAck]
  | _ => simp [hp]

theorem recv_begun {c : Client} (h : c.begun) (a : Arrival) : (c.recv a).1.begun := by
  have goes : ∀ pkt next, (∀ p, next p ≠ .sendSyn ∧ next p ≠ .waitSynAck) → (c.ignoreResult a pkt next).begun := by
    intro pkt next hn
    simp only [Client.ignoreResult, Client.begun]
    split <;> exact hn _
  unfold Client.recv
  cases hp : c.phase with
  | sendSyn => exact absurd hp h.1
  | waitSynAck => exact absurd hp h.2
  | waiting =>
    show (c.onAck a).begun
    simp only [Client.onAck, Client.begun]
    split
    · split <;> simp
    · simp
  | waitFinAck pkt => exact goes _ _ (by simp)
  | waitFin pkt => exact goes _ _ (by simp)
  | _ => exact h

/-- Only an ACK that reaches `send_file` is read for the window it advertises. -/
theorem recv_peerWindow {c : Client} (h : c.begun) (a : Arrival) :
    (c.recv a).1.peerWindow = c.peerWindow ∨
      ∃ pkt, (recvPacketTimeout a c.serverAddr).1 = .packet pkt ∧
        (c.recv a).1.peerWindow = pkt.header.windowSize := by
  unfold Client.recv
  cases hp : c.phase with
  | sendSyn => exact absurd hp h.1
  | waitSynAck => exact absurd hp h.2
  | waiting =>
    simp only [Client.onAck]
    split
    next pkt hpkt =>
      split
      · exact .inr ⟨pkt, hpkt, rfl⟩
      · exact .inl rfl
    next => exact .inl rfl
  | waitFinAck pkt =>
    simp only [Client.ignoreResult]
    split <;> exact .inl rfl
  | waitFin pkt =>
    simp only [Client.ignoreResult]
    split <;> exact .inl rfl
  | _ => exact .inl rfl

theorem recv_silent {c : Client} (hb : c.phase ≠ .waitSynAck) (a : Arrival) : (c.recv a).2 = [] := by
  have hr := Client.recv_recvs hb a
  generalize c.recv a = r at hr
  cases hr <;> rfl

/-! ## The next block -/

/-- What is unread begins at `next_seq_num`. -/
structure Client.Reads (file : List UInt8) (c : Client) : Prop where
  next : Boundary file.length c.nextSeqNum.toNat
  unread : c.unread = file.drop (c.nextSeqNum.toNat - 101)

namespace Client.Reads

variable {file : List UInt8} {c : Client}

theorem aligned (h : c.Reads file) (hu : c.unread ≠ []) :
    c.nextSeqNum.toNat - 101 < file.length ∧ (c.nextSeqNum.toNat - 101) % 1024 = 0 := by
  have hlt : c.nextSeqNum.toNat - 101 < file.length := by
    have hlen := List.length_pos_iff.mpr hu
    rw [h.unread, List.length_drop] at hlen
    exact Nat.lt_of_sub_pos hlen
  refine ⟨hlt, h.next.2.2.resolve_right fun hend => ?_⟩
  rw [hend] at hlt
  omega

theorem nextPacket (h : c.Reads file) (hu : c.unread ≠ []) : IsBlock file c.nextPacket where
  flags := rfl
  le := h.next.1
  aligned := (h.aligned hu).2
  lt := (h.aligned hu).1
  data := by simp only [Client.nextPacket, dataPacket, h.unread]

theorem length_nextPacket (h : c.Reads file) (hu : c.unread ≠ []) :
    c.nextPacket.data.length = min 1024 (file.length - (c.nextSeqNum.toNat - 101)) := by
  rw [(h.nextPacket hu).data, List.length_take, List.length_drop]
  rfl

/-- A block is read off the file, unless `next_seq_num` wraps. -/
theorem sendNext (h : c.Reads file) (hu : c.unread ≠ []) {now : Timeval}
    (hn : (c.sendNext now).1.nextSeqNum.toNat = c.nextSeqNum.toNat + c.nextPacket.data.length) :
    (c.sendNext now).1.Reads file where
  next := hn ▸ (h.nextPacket hu).boundary
  unread := by
    have hlen := h.length_nextPacket hu
    have h101 := h.next.1
    show c.unread.drop shamDataSize = _
    rw [hn, h.unread, List.drop_drop]
    -- a short block is the last one, so nothing is left on either side
    by_cases hfull : file.length - (c.nextSeqNum.toNat - 101) < 1024
    · rw [List.drop_eq_nil_of_le (by simp only [shamDataSize]; omega), List.drop_eq_nil_of_le (by omega)]
    · congr 1
      simp only [shamDataSize]
      omega

end Client.Reads

/-! ## The invariant of `send_file` -/

/-- A packet the client has handed to `sendto` by the time it is in state `c`: one of the
handshake, a block of the file, or one of `perform_termination`. -/
def FromClient (file : List UInt8) (c : Client) (p : Packet) : Prop :=
  (p.data = [] ∧ p.has shamFin = false) ∨
  (IsBlock file p ∧ p.header.seqNum.toNat < c.nextSeqNum.toNat) ∨
  (p.data = [] ∧ c.fileSent = true)

/-- `next_seq_num` is far enough from the wrap for all sums the client forms. -/
def Client.low (c : Client) : Prop := c.nextSeqNum.toNat ≤ 101 + recvCapacity + 10240

/-- The state of a client that has begun `send_file`, for the file and the server's address. -/
structure ClientInv (file : List UInt8) (addr : Sockaddr) (c : Client) : Prop where
  addr : c.serverAddr = addr
  size : c.fileSize = file.length
  begun : c.phase ≠ .sendSyn ∧ c.phase ≠ .waitSynAck
  base : Boundary file.length c.windowBase.toNat
  next : Boundary file.length c.nextSeqNum.toNat
  base_le : c.windowBase.toNat ≤ c.nextSeqNum.toNat
  window_le : c.nextSeqNum.toNat - c.windowBase.toNat ≤ 10240
  unread : c.unread = file.drop (c.nextSeqNum.toNat - 101)
  notAcked : ∀ i : Fin shamWindowSize, (c.slot i).acked = false
  filled : ∀ i : Fin shamWindowSize, c.windowBase.toNat + 1024 * i < c.nextSeqNum.toNat →
    IsBlock file (c.slot i).packet ∧ (c.slot i).packet.header.seqNum.toNat < c.nextSeqNum.toNat
  done : c.doneSending = true → c.nextSeqNum.toNat = 101 + file.length
  sent : c.fileSent = true → c.doneSending = true ∧ c.windowBase = c.nextSeqNum

/-- What a statement of the client does, the server expecting `e` next. -/
structure ClientStep (file : List UInt8) (addr : Sockaddr) (e : Nat) (c : Client)
    (r : Client × List Outgoing) : Prop where
  inv : ClientInv file addr r.1
  base_mono : c.windowBase.toNat ≤ r.1.windowBase.toNat
  base_le : r.1.windowBase.toNat ≤ e
  next_mono : c.nextSeqNum.toNat ≤ r.1.nextSeqNum.toNat
  sent_mono : c.fileSent = true → r.1.fileSent = true
  out : ∀ o ∈ r.2, o.dest = addr ∧ FromClient file r.1 o.pkt

section
variable {file : List UInt8} {addr : Sockaddr} {c : Client} {e : Nat}

theorem FromClient.mono {c' : Client} {p : Packet} (h : FromClient file c p)
    (hn : c.nextSeqNum.toNat ≤ c'.nextSeqNum.toNat) (hs : c.fileSent = true → c'.fileSent = true) :
    FromClient file c' p := by
  rcases h with h | ⟨hb, hlt⟩ | ⟨hd, hf⟩
  · exact .inl h
  · exact .inr (.inl ⟨hb, Nat.lt_of_lt_of_le hlt hn⟩)
  · exact .inr (.inr ⟨hd, hs hf⟩)

theorem winIdx_val {offset : UInt32} (h : offset.toNat < 10240) : (winIdx offset : Nat) = offset.toNat / 1024 := by
  simp only [winIdx, shamDataSize, shamWindowSize]
  omega

theorem Client.low.le (hc : c.low) : c.nextSeqNum.toNat ≤ 10496101 := hc

theorem ClientInv.inFlight_eq (h : ClientInv file addr c) :
    c.inFlight = c.nextSeqNum.toNat - c.windowBase.toNat := toNat_sub h.base_le

theorem ClientInv.pktSeq_eq (h : ClientInv file addr c) (hc : c.low) {i : Nat} (hi : i ≤ 10) :
    (c.pktSeq i).toNat = c.windowBase.toNat + 1024 * i := by
  have := hc.le; have := h.base_le
  simp only [Client.pktSeq, shamDataSize]
  rw [toNat_add_ofNat (by simp only [UInt32.size]; omega)]
  omega

/-- Round `i` of the retransmission loop looks at slot `i`. -/
theorem ClientInv.scanIdx_eq (h : ClientInv file addr c) (hc : c.low) {i : Nat} (hi : i < 10) :
    c.scanIdx i = ⟨i, hi⟩ := by
  have hp := h.pktSeq_eq hc (Nat.le_of_lt hi)
  have hs : (c.pktSeq i - c.windowBase).toNat = 1024 * i := by rw [toNat_sub (by omega)]; omega
  ext
  rw [Client.scanIdx, winIdx_val (by omega), hs]
  simp

/-- Position `i` is visited when `window_base + 1024 i` was sent. -/
theorem ClientInv.visited_iff (h : ClientInv file addr c) (hc : c.low) {i : Nat} (hi : i < 10) :
    c.pktSeq i < c.nextSeqNum ↔ c.windowBase.toNat + 1024 * i < c.nextSeqNum.toNat := by
  rw [UInt32.lt_iff_toNat_lt, h.pktSeq_eq hc (Nat.le_of_lt hi)]

/-- A statement that touches neither the window nor the sequence numbers. -/
theorem ClientInv.phase (h : ClientInv file addr c) {p : ClientPhase} (hb : p ≠ .sendSyn ∧ p ≠ .waitSynAck)
    (hs : ({ c with phase := p } : Client).fileSent = true → c.doneSending = true ∧ c.windowBase = c.nextSeqNum) :
    ClientInv file addr { c with phase := p } :=
  { h with begun := hb, sent := hs }

/-! ## Sending a new packet -/

/-- With bytes left to read, `next_seq_num` is the start of a block. -/
theorem ClientInv.reads (h : ClientInv file addr c) : c.Reads file := ⟨h.next, h.unread⟩

theorem ClientInv.next_aligned (h : ClientInv file addr c) (hu : c.unread ≠ []) :
    c.nextSeqNum.toNat - 101 < file.length ∧ (c.nextSeqNum.toNat - 101) % 1024 = 0 := h.reads.aligned hu

theorem ClientInv.nextPacket (h : ClientInv file addr c) (hu : c.unread ≠ []) : IsBlock file c.nextPacket :=
  h.reads.nextPacket hu

theorem Client.low.sendNext_next (hc : c.low) (now : Timeval) :
    (c.sendNext now).1.nextSeqNum.toNat = c.nextSeqNum.toNat + c.nextPacket.data.length := by
  have := hc.le
  have := c.nextPacket.data_le
  simp only [shamDataSize] at this
  exact toNat_add_ofNat (by simp only [UInt32.size]; omega)

/-- The slot of the next packet, before `SHAM_WINDOW_SIZE` bounds it. -/
theorem ClientInv.next_idx (h : ClientInv file addr c) (hf : c.inFlight < 10240) :
    (winIdx (c.nextSeqNum - c.windowBase) : Nat) = (c.nextSeqNum.toNat - c.windowBase.toNat) / 1024 := by
  rw [winIdx_val hf, toNat_sub h.base_le]

/-- While bytes are left, the blocks in flight begin a multiple of 1024 past `window_base`. -/
theorem ClientInv.base_aligned (h : ClientInv file addr c) (hu : c.unread ≠ []) :
    (c.windowBase.toNat - 101) % 1024 = 0 := by
  have := h.base_le; have := (h.next_aligned hu).1; have := h.next.1; have := h.base.1
  rcases h.base.2.2 with ha | ha
  · exact ha
  · omega

/-- Sending a new packet fills the slot that the next round of the scan reaches. -/
theorem ClientInv.sendNext_slot (h : ClientInv file addr c) (hf : c.inFlight < 10240) (hu : c.unread ≠ [])
    (now : Timeval) (i : Fin shamWindowSize) : (c.sendNext now).1.slot i =
      if c.windowBase.toNat + 1024 * i = c.nextSeqNum.toNat then { packet := c.nextPacket, sendTime := now }
      else c.slot i := by
  have hidx := h.next_idx hf
  have := (h.next_aligned hu).2; have := h.base_aligned hu
  have := h.base_le; have := h.next.1; have := h.base.1
  have hiff : winIdx (c.nextSeqNum - c.windowBase) = i ↔ c.windowBase.toNat + 1024 * i = c.nextSeqNum.toNat := by
    rw [← Fin.val_inj, hidx]
    omega
  show (c.setSlot _ _).slot i = _
  rw [slot_setSlot]
  simp only [hiff]

theorem ClientInv.sendNext_visited (h : ClientInv file addr c) (hc : c.low) (hu : c.unread ≠ [])
    (now : Timeval) (i : Nat) : c.windowBase.toNat + 1024 * i < (c.sendNext now).1.nextSeqNum.toNat ↔
      c.windowBase.toNat + 1024 * i ≤ c.nextSeqNum.toNat := by
  have hle := c.nextPacket.data_le
  have hpos := (h.nextPacket hu).length_pos
  have := (h.next_aligned hu).2; have := h.base_aligned hu
  have := h.base_le; have := h.next.1; have := h.base.1
  rw [hc.sendNext_next]
  simp only [shamDataSize] at hle
  omega

theorem ClientInv.sendNext (h : ClientInv file addr c) (hc : c.low) (hd : c.doneSending = false)
    (hf : c.inFlight < 10240) (hu : c.unread ≠ []) (now : Timeval) : ClientInv file addr (c.sendNext now).1 := by
  have hn := hc.sendNext_next now
  have hblock := h.nextPacket hu
  have hpos := hblock.length_pos
  have hle := h.base_le
  have hal := (h.next_aligned hu).2
  have hbal := h.base_aligned hu
  have h101 := h.next.1; have hb101 := h.base.1
  have hslot := h.sendNext_slot hf hu now
  rw [h.inFlight_eq] at hf
  have hlen := h.reads.length_nextPacket hu
  have hreads := h.reads.sendNext hu hn
  refine { h with next := ?_, base_le := ?_, window_le := ?_, unread := ?_, notAcked := ?_, filled := ?_,
                  done := ?_, sent := ?_ }
  · exact hreads.next
  · rw [hn]; exact Nat.le_add_right_of_le hle
  · rw [hn]
    show c.nextSeqNum.toNat + c.nextPacket.data.length - c.windowBase.toNat ≤ 10240
    omega
  · exact hreads.unread
  · intro i
    rw [hslot]
    split
    · rfl
    · exact h.notAcked i
  · intro i hi
    replace hi : c.windowBase.toNat + 1024 * i ≤ c.nextSeqNum.toNat := (h.sendNext_visited hc hu now i).mp hi
    rw [hslot, hn]
    split
    · refine ⟨hblock, ?_⟩
      show c.nextSeqNum.toNat < _
      omega
    next hne =>
      obtain ⟨h1, h2⟩ := h.filled i (Nat.lt_of_le_of_ne hi hne)
      exact ⟨h1, Nat.lt_add_right _ h2⟩
  · intro hd'
    rw [show (c.sendNext now).1.doneSending = c.doneSending from rfl, hd] at hd'
    exact absurd hd' (by simp)
  · intro hs
    have := (h.sent hs).1
    rw [hd] at this
    exact absurd this (by simp)

/-! ## Retransmission -/

theorem resend_slot (stamp : Timeval) (idx i : Fin shamWindowSize) :
    ((c.resend stamp idx).1.slot i) =
      if idx = i then { (c.slot idx) with sendTime := stamp, retries := (c.slot idx).retries + 1 }
      else (c.slot i) := slot_setSlot c idx i _

@[simp] theorem resend_packet (stamp : Timeval) (idx i : Fin shamWindowSize) :
    ((c.resend stamp idx).1.slot i).packet = (c.slot i).packet := by
  rw [resend_slot]
  split
  next h => rw [h]
  next => rfl

theorem ClientInv.resend (h : ClientInv file addr c) (stamp : Timeval) (idx : Fin shamWindowSize) :
    ClientInv file addr (c.resend stamp idx).1 := by
  refine { h with notAcked := fun i => ?_, filled := fun i hi => ?_ }
  · rw [resend_slot]
    split
    · exact h.notAcked idx
    · exact h.notAcked i
  · rw [resend_packet]
    exact h.filled i hi

/-! ## One statement -/

/-- A statement that only goes elsewhere, sending nothing. -/
theorem ClientInv.goto (h : ClientInv file addr c) (he : c.windowBase.toNat ≤ e) {p : ClientPhase}
    (hb : p ≠ .sendSyn ∧ p ≠ .waitSynAck)
    (hs : ({ c with phase := p } : Client).fileSent = true → c.doneSending = true ∧ c.windowBase = c.nextSeqNum)
    (hm : c.fileSent = true → ({ c with phase := p } : Client).fileSent = true) :
    ClientStep file addr e c ({ c with phase := p }, []) :=
  ⟨h.phase hb hs, Nat.le_refl _, he, Nat.le_refl _, hm, by simp⟩

theorem ClientInv.fills_step (h : ClientInv file addr c) (hc : c.low)
    (he : c.windowBase.toNat ≤ e) (hp : c.phase = .filling) {now : Timeval} {r : Client × List Outgoing}
    (hr : c.Fills now r) : ClientStep file addr e c r := by
  have hns : c.fileSent = false := by simp [Client.fileSent, hp]
  cases hr with
  | full => exact h.goto he (by simp) (by simp [Client.fileSent]) (by simp [hns])
  | eof hd hf hu =>
    refine ⟨{ h with begun := by simp, done := fun _ => ?_, sent := by simp [Client.fileSent] }, Nat.le_refl _, he,
      Nat.le_refl _, by simp [hns], by simp⟩
    have hlen := congrArg List.length h.unread
    have := h.next.1; have := h.next.2.1
    simp only [hu, List.length_nil, List.length_drop] at hlen
    show c.nextSeqNum.toNat = 101 + file.length
    omega
  | sent hd hf hu =>
    have hn := hc.sendNext_next now
    have hblock := h.nextPacket hu
    refine ⟨h.sendNext hc hd hf hu now, Nat.le_refl _, he, by omega, by simp [hns], ?_⟩
    intro o ho
    obtain rfl : o = sendPacket c.serverAddr c.nextPacket := by simpa [Client.sendNext] using ho
    refine ⟨h.addr, .inr (.inl ⟨hblock, ?_⟩)⟩
    rw [hn]
    exact Nat.lt_add_of_pos_right hblock.length_pos

theorem ClientInv.scans_step (h : ClientInv file addr c) (hc : c.low)
    (he : c.windowBase.toNat ≤ e) {i : Nat} (hp : c.phase = .scanning i) {clk : Clock} {r : Client × List Outgoing}
    (hr : c.Scans clk i r) : ClientStep file addr e c r := by
  have hns : c.fileSent = false := by simp [Client.fileSent, hp]
  cases hr
  case resend hi hlt _ _ _ =>
    have hpkt := h.filled (c.scanIdx i) (by
      rw [h.scanIdx_eq hc hi, ← h.pktSeq_eq hc (Nat.le_of_lt hi)]; exact UInt32.lt_iff_toNat_lt.mp hlt)
    refine ⟨(h.phase (p := .scanning (i + 1)) (by simp) (by simp [Client.fileSent])).resend _ _, Nat.le_refl _, he,
      Nat.le_refl _, by simp [hns], ?_⟩
    intro o ho
    obtain rfl : o = sendPacket c.serverAddr (c.slot (c.scanIdx i)).packet := List.mem_singleton.mp ho
    exact ⟨h.addr, .inr (.inl hpkt)⟩
  all_goals exact h.goto he (by simp) (by simp [Client.fileSent]) (by simp [hns])

theorem ClientInv.loopHead_step (h : ClientInv file addr c) (hc : c.low)
    (he : c.windowBase.toNat ≤ e) (hp : c.phase = .loopHead) : ClientStep file addr e c (c.loopHead, []) := by
  have hns : c.fileSent = false := by simp [Client.fileSent, hp]
  simp only [Client.loopHead]
  split
  · exact h.goto he (by simp) (by simp [Client.fileSent]) (by simp [hns])
  next hw =>
    refine h.goto he (by simp) (fun _ => ?_) (by simp [hns])
    simp only [Bool.or_eq_true, decide_eq_true_eq, Bool.not_eq_true', not_or, Bool.not_eq_false, UInt32.not_lt,
      UInt32.le_iff_toNat_le] at hw
    have := hc.le; have := h.base_le; have := h.done hw.2
    rw [toNat_add_ofNat (by rw [h.size]; simp only [UInt32.size]; omega)] at hw
    exact ⟨hw.2, UInt32.toNat_inj.mp (by omega)⟩

theorem ClientInv.check_step (h : ClientInv file addr c) (he : c.windowBase.toNat ≤ e) (hp : c.phase = .checking) :
    ClientStep file addr e c (c.check, []) := by
  have hns : c.fileSent = false := by simp [Client.fileSent, hp]
  simp only [Client.check]
  split
  next hc =>
    refine h.goto he (by simp) (fun _ => ?_) (by simp [hns])
    simp only [Bool.and_eq_true, decide_eq_true_eq, ge_iff_le, UInt32.le_iff_toNat_le] at hc
    have := h.base_le
    exact ⟨hc.1, UInt32.toNat_inj.mp (by omega)⟩
  · exact h.goto he (by simp) (by simp [Client.fileSent]) (by simp [hns])

/-- Every statement that does not read the socket keeps the invariant. -/
theorem ClientInv.act_step (h : ClientInv file addr c) (hc : c.low)
    (he : c.windowBase.toNat ≤ e) (clk : Clock) : ClientStep file addr e c (c.act clk) := by
  have stay : ClientStep file addr e c (c, []) :=
    ⟨h, Nat.le_refl _, he, Nat.le_refl _, fun hs => hs, by simp⟩
  have hb := h.begun
  cases hp : c.phase with
  | sendSyn => exact absurd hp hb.1
  | waitSynAck => exact absurd hp hb.2
  | loopHead => simp only [Client.act, hp]; exact h.loopHead_step hc he hp
  | filling => simp only [Client.act, hp]; exact h.fills_step hc he hp (c.fill_fills _)
  | scanning i => simp only [Client.act, hp]; exact h.scans_step hc he hp (c.scan_scans _ _)
  | checking => simp only [Client.act, hp]; exact h.check_step he hp
  | sendFin =>
    have hs : c.fileSent = true := by simp [Client.fileSent, hp]
    simp only [Client.act, hp]
    refine ⟨h.phase (by simp) fun _ => h.sent hs, Nat.le_refl _, he, Nat.le_refl _,
      by simp [Client.sendFin, Client.fileSent], ?_⟩
    intro o ho
    obtain rfl : o = sendPacket c.serverAddr (finPacket c.nextSeqNum) := by simpa [Client.sendFin] using ho
    exact ⟨h.addr, .inr (.inr ⟨rfl, rfl⟩)⟩
  | sendFinalAck pkt =>
    have hs : c.fileSent = true := by simp [Client.fileSent, hp]
    simp only [Client.act, hp]
    refine ⟨h.phase (by simp) fun _ => h.sent hs, Nat.le_refl _, he, Nat.le_refl _,
      by simp [Client.sendFinalAck, Client.fileSent], ?_⟩
    intro o ho
    obtain rfl : o = sendPacket c.serverAddr (finalAck pkt) := by simpa [Client.sendFinalAck] using ho
    exact ⟨h.addr, .inr (.inr ⟨rfl, rfl⟩)⟩
  | waiting => simp only [Client.act, hp]; exact stay
  | waitFinAck pkt => simp only [Client.act, hp]; exact stay
  | waitFin pkt => simp only [Client.act, hp]; exact stay
  | exited status => simp only [Client.act, hp]; exact stay

/-- A wait of `perform_termination` that ends, however it ends. -/
theorem ClientInv.ignoreResult_step (h : ClientInv file addr c) (he : c.windowBase.toNat ≤ e)
    (hs : c.fileSent = true) {a : Arrival} (ha : (recvPacketTimeout a c.serverAddr).2 = addr) (pkt : Packet)
    {next : Packet → ClientPhase} (hb : ∀ p, next p ≠ .sendSyn ∧ next p ≠ .waitSynAck)
    (hn : ∀ p, ({ c with phase := next p } : Client).fileSent = true) :
    ClientStep file addr e c (c.ignoreResult a pkt next, []) := by
  have key : ∀ p, ClientStep file addr e c ({ c with serverAddr := addr, phase := next p }, []) := fun p =>
    ⟨{ h with addr := rfl, begun := hb p, sent := fun _ => h.sent hs }, Nat.le_refl _, he, Nat.le_refl _,
      fun _ => hn p, by simp⟩
  simp only [Client.ignoreResult]
  split
  · rw [ha]; exact key _
  · rw [ha]; exact key _

/-- A wait that ends without a datagram keeps the invariant. -/
theorem ClientInv.timeout_step (h : ClientInv file addr c) (he : c.windowBase.toNat ≤ e) :
    ClientStep file addr e c (c.recv .timeout) := by
  have stay : ClientStep file addr e c (c, []) :=
    ⟨h, Nat.le_refl _, he, Nat.le_refl _, fun hs => hs, by simp⟩
  unfold Client.recv
  split
  next hp => exact absurd hp h.begun.2
  next hp => exact h.goto he (by simp) (by simp [Client.fileSent]) (by simp [Client.fileSent, hp])
  next hp =>
    exact h.ignoreResult_step (a := .timeout) he (by simp [Client.fileSent, hp]) h.addr _ (by simp)
      (by simp [Client.fileSent])
  next hp =>
    exact h.ignoreResult_step (a := .timeout) he (by simp [Client.fileSent, hp]) h.addr _ (by simp)
      (by simp [Client.fileSent])
  next => exact stay

/-- Receiving a packet keeps the invariant, provided an ACK that reaches `send_file`
acknowledges up to a boundary not past what the server expects. -/
theorem ClientInv.recv_step (h : ClientInv file addr c) (he : c.windowBase.toNat ≤ e)
    (hen : e ≤ c.nextSeqNum.toNat) {p : Packet}
    (hp : c.sending = true → p.has shamAck = true →
      Boundary file.length p.header.ackNum.toNat ∧ p.header.ackNum.toNat ≤ e) :
    ClientStep file addr e c (c.recv (.datagram addr p.toBytes)) := by
  have stay : ClientStep file addr e c (c, []) :=
    ⟨h, Nat.le_refl _, he, Nat.le_refl _, fun hs => hs, by simp⟩
  unfold Client.recv
  split
  next hw => exact absurd hw h.begun.2
  next hw =>
    have hs : c.fileSent = false := by simp [Client.fileSent, hw]
    simp only [Client.onAck, recvPacketTimeout_toBytes]
    split
    next hack =>
      obtain ⟨hbd, hle⟩ := hp (by simp [Client.sending, hw]) hack
      split
      next hgt =>
        have hgt := UInt32.lt_iff_toNat_lt.mp hgt
        refine ⟨{ h with addr := rfl, begun := by simp, base := hbd, base_le := Nat.le_trans hle hen, window_le := ?_,
                         filled := fun i hi => h.filled i ?_, sent := by simp [Client.fileSent] },
          Nat.le_of_lt hgt, hle, Nat.le_refl _, by simp [hs], by simp⟩
        · have := h.window_le
          show c.nextSeqNum.toNat - p.header.ackNum.toNat ≤ 10240
          omega
        · replace hi : p.header.ackNum.toNat + 1024 * i < c.nextSeqNum.toNat := hi
          omega
      next => exact ⟨{ h with addr := rfl, begun := by simp, sent := by simp [Client.fileSent] }, Nat.le_refl _, he,
          Nat.le_refl _, by simp [hs], by simp⟩
    next => exact ⟨{ h with addr := rfl, begun := by simp, sent := by simp [Client.fileSent] }, Nat.le_refl _, he,
        Nat.le_refl _, by simp [hs], by simp⟩
  next hw =>
    exact h.ignoreResult_step he (by simp [Client.fileSent, hw]) (by simp) _ (by simp) (by simp [Client.fileSent])
  next hw =>
    exact h.ignoreResult_step he (by simp [Client.fileSent, hw]) (by simp) _ (by simp) (by simp [Client.fileSent])
  next => exact stay

theorem sending_not_fileSent (h : c.sending = true) : c.fileSent = false := by
  simp only [Client.sending, Client.fileSent] at *
  split at h <;> simp_all

theorem ClientInv.sendStart (file : List UInt8) (addr : Sockaddr) (peerWindow : UInt16) :
    ClientInv file addr (Client.sendStart addr peerWindow file) where
  addr := rfl
  size := rfl
  begun := by simp [Client.sendStart]
  base := by simp [Client.sendStart, Boundary]
  next := by simp [Client.sendStart, Boundary]
  base_le := by simp [Client.sendStart]
  window_le := by simp [Client.sendStart]
  unread := by simp [Client.sendStart]
  notAcked := by simp [Client.sendStart, Client.slot]
  filled := fun i hi => by simp only [Client.sendStart] at hi; omega
  done := by simp [Client.sendStart]
  sent := by simp [Client.sendStart, Client.fileSent]

end

end OsNetworks.Sham
