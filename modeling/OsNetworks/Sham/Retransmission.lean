/-
What the retransmission loop of `send_file` sends again.

A slot is chosen by the distance to `window_base` when a packet is first sent,
and looked up by the distance to a later `window_base` when it is sent again,
while the array is never shifted. So slot and block agree exactly as long as
no ACK moves `window_base` into the middle of what is in flight.
-/
import OsNetworks.Sham.Transfer

namespace OsNetworks.Sham
open Runs

/-- A block that was sent and lies at or above `window_base` is held in a visited slot. -/
def Covered (file : List UInt8) (c : Client) : Prop :=
  ∀ k, c.windowBase.toNat ≤ 101 + 1024 * k → 101 + 1024 * k < c.nextSeqNum.toNat →
    ∃ i < shamWindowSize, c.pktSeq i < c.nextSeqNum ∧
      (c.slot (c.scanIdx i)).packet.header.seqNum.toNat = 101 + 1024 * k ∧
      (c.slot (c.scanIdx i)).packet.data = (file.drop (1024 * k)).take shamDataSize

/-- The retransmission loop covers what is unacknowledged, and nothing else. -/
structure Retransmits (file : List UInt8) (c : Client) : Prop where
  covered : Covered file c
  /-- what round `i` sends again is the packet numbered `pkt_seq`, not yet acknowledged -/
  exact : ∀ clk i, ∀ o ∈ (c.scan clk i).2, o.pkt.header.seqNum = c.pktSeq i ∧ c.windowBase ≤ c.pktSeq i

/-- An ACK that `send_file` processes is stale or acknowledges everything sent so far. -/
def AckSettles (w : World) : Label → Prop
  | .deliverClient i => ∀ p, w.toClient[i]? = some p → w.client.phase = .waiting → p.has shamAck = true →
      p.header.ackNum ≤ w.client.windowBase ∨ p.header.ackNum = w.client.nextSeqNum
  | _ => True

/-- Slot `i` holds the packet numbered `window_base + 1024 i`, where that was sent. -/
def Aligned (c : Client) : Prop := ∀ i : Fin shamWindowSize, c.windowBase.toNat + 1024 * i < c.nextSeqNum.toNat →
  (c.slot i).packet.header.seqNum.toNat = c.windowBase.toNat + 1024 * i

section
variable {file : List UInt8} {addr : Sockaddr} {c : Client}

/-- All that a round sends is the packet in the slot it looks at. -/
theorem scan_sends {clk : Clock} {i : Nat} {o : Outgoing} (ho : o ∈ (c.scan clk i).2) :
    i < 10 ∧ c.pktSeq i < c.nextSeqNum ∧ c.windowBase ≤ c.pktSeq i ∧ o.pkt = (c.slot (c.scanIdx i)).packet := by
  have hr := c.scan_scans clk i
  generalize c.scan clk i = r at hr ho
  cases hr with
  | finish => simp at ho
  | skip => simp at ho
  | quiet => simp at ho
  | giveUp => simp at ho
  | resend hi hlt hle =>
    obtain rfl : o = sendPacket c.serverAddr (c.slot (c.scanIdx i)).packet := List.mem_singleton.mp ho
    exact ⟨hi, hlt, hle, rfl⟩

/-- The packet is sent again if it is not acknowledged, has retries left, and was last sent at least
500 milliseconds ago, or almost, where the second has changed. -/
theorem scan_resends_iff (clk : Clock) (i : Nat) (c : Client) :
    (c.scan clk i).2 ≠ [] ↔
      (i < shamWindowSize ∧ c.pktSeq i < c.nextSeqNum ∧ c.windowBase ≤ c.pktSeq i) ∧
        (c.slot (c.scanIdx i)).acked = false ∧ (c.slot (c.scanIdx i)).retries < shamMaxRetries ∧
        (500000 ≤ elapsedUs clk.now (c.slot (c.scanIdx i)).sendTime ∨
          clk.now.usec < (c.slot (c.scanIdx i)).sendTime.usec ∧
            499000 < elapsedUs clk.now (c.slot (c.scanIdx i)).sendTime) := by
  rw [← isTimeout_500_iff]
  unfold Client.scan
  split
  next hend => exact iff_of_false (fun h => h rfl) fun h => hend.elim (Nat.not_le.mpr h.1.1) (UInt32.not_le.mpr h.1.2.1)
  next hin =>
    obtain ⟨hi, hlt⟩ := not_or.mp hin
    split
    next hbelow => exact iff_of_false (fun h => h rfl) fun h => UInt32.not_lt.mpr h.1.2.2 hbelow
    next hbase =>
      have hround : i < shamWindowSize ∧ c.pktSeq i < c.nextSeqNum ∧ c.windowBase ≤ c.pktSeq i :=
        ⟨Nat.not_le.mp hi, UInt32.not_le.mp hlt, UInt32.not_lt.mp hbase⟩
      dsimp only
      split
      next hdue =>
        rw [Bool.and_eq_true, Bool.not_eq_true'] at hdue
        split
        next hout => exact iff_of_false (fun h => h rfl) fun h => Nat.not_lt.mpr hout h.2.2.1
        next hleft => exact iff_of_true (List.cons_ne_nil _ _) ⟨hround, hdue.1, Nat.not_le.mp hleft, hdue.2⟩
      next hquiet =>
        refine iff_of_false (fun h => h rfl) fun h => hquiet ?_
        rw [h.2.1, h.2.2.2]
        rfl

theorem Aligned.retransmits (h : ClientInv file addr c) (hc : c.low) (ha : Aligned c) :
    Retransmits file c := by
  constructor
  · intro k hk hn
    have := h.window_le; have := h.base.1; have := h.next.2.1; have := h.base.2.2
    -- both ends are multiples of 1024 past 101, and at most ten blocks lie between
    obtain ⟨i, hi⟩ : ∃ i, 101 + 1024 * k = c.windowBase.toNat + 1024 * i :=
      ⟨(101 + 1024 * k - c.windowBase.toNat) / 1024, by omega⟩
    have hlt : i < 10 := by omega
    have hseq := ha ⟨i, hlt⟩ (by show c.windowBase.toNat + 1024 * i < _; omega)
    have hblock := (h.filled ⟨i, hlt⟩ (by show c.windowBase.toNat + 1024 * i < _; omega)).1
    have hs : (c.slot ⟨i, hlt⟩).packet.header.seqNum.toNat = 101 + 1024 * k := by
      rw [hseq, hi]
    refine ⟨i, hlt, (h.visited_iff hc hlt).mpr (by omega), ?_⟩
    rw [h.scanIdx_eq hc hlt]
    refine ⟨hs, ?_⟩
    rw [hblock.data, hs, Nat.add_sub_cancel_left]
  · intro clk i o ho
    obtain ⟨hi, hlt, hle, hpkt⟩ := scan_sends ho
    refine ⟨?_, hle⟩
    rw [hpkt, h.scanIdx_eq hc hi, ← UInt32.toNat_inj, h.pktSeq_eq hc (Nat.le_of_lt hi)]
    exact ha ⟨i, hi⟩ ((h.visited_iff hc hi).mp hlt)

/-! ## What keeps slots and blocks aligned -/

theorem Aligned.same {c' : Client} (ha : Aligned c) (hb : c'.windowBase = c.windowBase)
    (hn : c'.nextSeqNum = c.nextSeqNum) (hw : ∀ i : Fin shamWindowSize, (c'.slot i).packet = (c.slot i).packet) :
    Aligned c' := by
  intro i hi
  rw [hb, hn] at hi
  rw [hw i, hb]
  exact ha i hi

theorem Aligned.sendNext (ha : Aligned c) (h : ClientInv file addr c) (hc : c.low)
    (hf : c.inFlight < 10240) (hu : c.unread ≠ []) (now : Timeval) : Aligned (c.sendNext now).1 := by
  intro i hi
  have hle := (h.sendNext_visited hc hu now i).mp hi
  rw [h.sendNext_slot hf hu]
  split
  next he => exact he.symm
  next hne => exact ha i (Nat.lt_of_le_of_ne hle hne)

theorem Aligned.act (ha : Aligned c) (h : ClientInv file addr c) (hc : c.low) (clk : Clock) :
    Aligned (c.act clk).1 := by
  have hr := c.act_acts clk
  generalize c.act clk = r at hr
  cases hr with
  | goto => exact ha
  | sent hf hu => exact ha.sendNext h hc hf hu _
  | resent => exact ha.same rfl rfl fun i => resend_packet _ _ i

theorem Aligned.timeout (ha : Aligned c) (h : ClientInv file addr c) : Aligned (c.recv .timeout).1 := by
  have hr := Client.recv_recvs h.begun.2 .timeout
  generalize c.recv .timeout = r at hr
  cases hr with
  | goto => exact ha
  | acked _ hp => cases hp

end

/-! ## Exactly when -/

section
variable {file : List UInt8} {addr addr' : Sockaddr} {c c' : Client} {w : World}

/-- With the window settled, moving `window_base` keeps slots and blocks aligned. -/
theorem Aligned.settled (ha : Aligned c) (hw : c'.window = c.window) (hn : c'.nextSeqNum = c.nextSeqNum)
    (hle : c.windowBase ≤ c'.windowBase)
    (hb : c'.windowBase ≤ c.windowBase ∨ c'.windowBase = c.nextSeqNum) : Aligned c' := by
  have hs : ∀ i, c'.slot i = c.slot i := fun i => by simp only [Client.slot, hw]
  rcases hb with hb | hb
  · exact ha.same (UInt32.le_antisymm hb hle) hn fun i => by rw [hs]
  · intro i hi
    rw [hb, hn] at hi
    omega

/-- When `window_base` moves into the middle of what is in flight, the last block sent is
in a slot that is no longer visited. -/
theorem Aligned.covered_settled (ha : Aligned c) (h : ClientInv file addr c) (h' : ClientInv file addr' c')
    (hc' : c'.low) (hw : c'.window = c.window) (hn : c'.nextSeqNum = c.nextSeqNum)
    (hcov : Covered file c') : c'.windowBase ≤ c.windowBase ∨ c'.windowBase = c.nextSeqNum := by
  refine Decidable.byContradiction fun hne => ?_
  obtain ⟨hlt, hne⟩ := not_or.mp hne
  have hlt := UInt32.lt_iff_toNat_lt.mp (UInt32.not_le.mp hlt)
  have hbn : c'.windowBase.toNat < c.nextSeqNum.toNat :=
    Nat.lt_of_le_of_ne (hn ▸ h'.base_le) fun he => hne (UInt32.toNat_inj.mp he)
  have := h.base.1; have := h.base.2.2; have := h.next.2.1; have := h'.base.1; have := h'.base.2.2
  -- the last block sent is numbered `101 + 1024 k`
  obtain ⟨k, hk, hkn⟩ : ∃ k, 101 + 1024 * k < c.nextSeqNum.toNat ∧ c.nextSeqNum.toNat ≤ 101 + 1024 * k + 1024 :=
    ⟨(c.nextSeqNum.toNat - 102) / 1024, by omega, by omega⟩
  obtain ⟨i, hi, hv, hs, -⟩ := hcov k (by omega) (by rw [hn]; exact hk)
  have hv := (h'.visited_iff hc' hi).mp hv
  have hold := ha ⟨i, hi⟩ (by show c.windowBase.toNat + 1024 * i < _; rw [hn] at hv; omega)
  rw [h'.scanIdx_eq hc' hi, show c'.slot ⟨i, hi⟩ = c.slot ⟨i, hi⟩ by simp only [Client.slot, hw]] at hs
  rw [hn] at hv
  replace hold : (c.slot ⟨i, hi⟩).packet.header.seqNum.toNat = c.windowBase.toNat + 1024 * i := hold
  omega

/-- What processing an ACK does to the window. -/
theorem onAck_base (c : Client) {p : Packet} (hack : p.has shamAck = true) (src : Sockaddr) :
    (c.onAck (.datagram src p.toBytes)).window = c.window ∧
      (c.onAck (.datagram src p.toBytes)).nextSeqNum = c.nextSeqNum ∧
      (c.onAck (.datagram src p.toBytes)).windowBase =
        if p.header.ackNum > c.windowBase then p.header.ackNum else c.windowBase := by
  simp [Client.onAck, hack]

/-- At `c'` slots and blocks are aligned and `settles` holds, or only `window_base` differs
from the client of `w`, and `settles` says where it is. -/
def AlignsOrMoves (w : World) (c' : Client) (settles : Prop) : Prop :=
  (Aligned c' ∧ settles) ∨
  (c'.window = w.client.window ∧ c'.nextSeqNum = w.client.nextSeqNum ∧ w.client.windowBase ≤ c'.windowBase ∧
    (settles ↔ c'.windowBase ≤ w.client.windowBase ∨ c'.windowBase = w.client.nextSeqNum))

/-- Processing an ACK moves `window_base` to where it says; anything else the client receives
leaves the window as it is. -/
theorem Aligned.deliver_cases (ha : Aligned w.client) (h : TransferInv file w) (i : Nat) :
    AlignsOrMoves w (w.step (.deliverClient i)).client (AckSettles w (.deliverClient i)) := by
  unfold AlignsOrMoves
  simp only [World.step, AckSettles]
  cases hp : w.toClient[i]? with
  | none => exact .inl ⟨ha, by simp⟩
  | some p =>
    by_cases hw : w.client.phase = .waiting
    · have hrec : w.client.receiving = true := by simp [Client.receiving, hw]
      have hr : w.client.recv (.datagram w.serverAddr p.toBytes) =
          (w.client.onAck (.datagram w.serverAddr p.toBytes), []) := by simp [Client.recv, hw]
      simp only [hrec, if_true, clientTakes_client, hr]
      by_cases hack : p.has shamAck = true
      · obtain ⟨h1, h2, h3⟩ := onAck_base w.client hack w.serverAddr
        refine .inr ⟨h1, h2, ?_, ?_⟩
        · rw [h3]
          split
          next hgt => exact UInt32.le_of_lt hgt
          next => exact UInt32.le_refl _
        · rw [h3]
          split
          next hgt => simp [hack, hw]
          next hle => simp [hack, hw, UInt32.not_lt.mp hle]
      · refine .inl ⟨?_, fun q hq _ hq' => absurd (Option.some.inj hq ▸ hq') hack⟩
        simp only [Client.onAck, recvPacketTimeout_toBytes, hack]
        exact ha
    · refine .inl ⟨?_, fun _ _ hw' => absurd hw' hw⟩
      simp only []
      split
      next =>
        rw [clientTakes_client]
        have hr := Client.recv_recvs h.client.begun.2 (.datagram w.serverAddr p.toBytes)
        generalize w.client.recv (.datagram w.serverAddr p.toBytes) = r at hr
        cases hr with
        | goto => exact ha
        | acked hw' => exact absurd hw' hw
      next => exact ha

/-- A step either keeps slots and blocks aligned and processes no ACK, or only moves
`window_base` to where the ACK that `send_file` processes says. -/
theorem Aligned.step_cases (ha : Aligned w.client) (h : TransferInv file w) (l : Label) :
    AlignsOrMoves w (w.step l).client (AckSettles w l) := by
  cases l with
  | client clk => exact .inl ⟨ha.act h.client h.low clk, trivial⟩
  | clientTimeout => exact .inl ⟨ha.timeout h.client, trivial⟩
  | serverTimeout => exact .inl ⟨ha, trivial⟩
  | deliverServer i drop =>
    refine .inl ⟨?_, trivial⟩
    simp only [World.step]
    split
    · split <;> exact ha
    · exact ha
  | lose d i => cases d <;> exact .inl ⟨ha, trivial⟩
  | copy d i => cases d <;> exact .inl ⟨ha, trivial⟩
  | deliverClient i => exact ha.deliver_cases h i

/-- One step from a state where slots and blocks agree. -/
theorem Aligned.step_iff (ha : Aligned w.client) (h : TransferInv file w) (l : Label) :
    (Retransmits file (w.step l).client ↔ AckSettles w l) ∧ (AckSettles w l → Aligned (w.step l).client) := by
  have hi := h.moves (w.step_moves l)
  rcases ha.step_cases h l with ⟨ha', hs⟩ | ⟨hw, hn, hle, hiff⟩
  · exact ⟨iff_of_true (ha'.retransmits hi.client hi.low) hs, fun _ => ha'⟩
  · refine ⟨⟨fun hr => ?_, fun hs => ?_⟩, fun hs => ?_⟩
    · exact hiff.mpr (ha.covered_settled h.client hi.client hi.low hw hn hr.covered)
    · exact (ha.settled hw hn hle (hiff.mp hs)).retransmits hi.client hi.low
    · exact ha.settled hw hn hle (hiff.mp hs)

end

/-- **When the retransmission loop covers exactly what is unacknowledged**: in the states of
a run it does, if and only if each ACK that `send_file` processes in the run is stale or
acknowledges everything sent so far. -/
theorem retransmits_iff {file : List UInt8} {w₀ : World} (h₀ : Started file w₀) (ls : List Label) :
    Along World.step (fun w l => Retransmits file (w.step l).client) w₀ ls ↔
      Along World.step AckSettles w₀ ls := by
  refine Along.iff (I := fun w => TransferInv file w ∧ Aligned w.client) (fun w l ⟨hi, ha⟩ => (ha.step_iff hi l).1)
    (fun w l ⟨hi, ha⟩ hr => ?_) ⟨h₀.inv, ?_⟩ ls
  · have hs := ha.step_iff hi l
    exact ⟨hi.moves (w.step_moves l), hs.2 (hs.1.mp hr)⟩
  · obtain ⟨pw, hc⟩ := h₀.client
    intro i hi
    simp only [hc, Client.sendStart] at hi
    omega

theorem retransmits_iff_lossyRun :
    Along World.step (fun w l => Retransmits [104, 105] (w.step l).client) (.established ⟨1, 1⟩ ⟨2, 2⟩ [104, 105])
      [.client {}, .client {}, .client {}, .deliverServer 0 false, .deliverClient 0] := by
  refine (retransmits_iff (established_started ⟨1, 1⟩ ⟨2, 2⟩ [104, 105]) _).mpr ?_
  refine ⟨trivial, trivial, trivial, trivial, fun p hp _ _ => .inr ?_, trivial⟩
  rw [show p = dataAck 103 from (Option.some.inj hp).symm]
  decide

/-- Two blocks sent, the first acknowledged. -/
def partlyAcked : World :=
  (World.established ⟨1, 1⟩ ⟨2, 2⟩ (List.replicate 1025 7)).run
    [.client {}, .client {}, .client {}, .client {}, .deliverServer 0 false, .deliverClient 0]

/-- The acknowledged block is sent again in place of the one still missing, which no visited
slot holds. -/
theorem partlyAcked_resends_first :
    ¬ Retransmits (List.replicate 1025 7) partlyAcked.client ∧
      partlyAcked.client.pktSeq 0 = 1125 ∧ partlyAcked.client.windowBase = 1125 ∧
      ((partlyAcked.step (.client { now := ⟨1, 0⟩ })).toServer.map (·.header.seqNum)) = [1125, 101] := by
  refine ⟨fun h => ?_, by decide +kernel⟩
  have hsent : ∃ o ∈ (partlyAcked.client.scan { now := ⟨1, 0⟩ } 0).2,
      o.pkt.header.seqNum ≠ partlyAcked.client.pktSeq 0 := by decide +kernel
  obtain ⟨o, ho, hne⟩ := hsent
  exact hne (h.exact _ 0 o ho).1

end OsNetworks.Sham
