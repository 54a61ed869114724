/-
What can get lost for good in the data phase.

A block is only sent again from a slot the retransmission loop visits, and the
server acknowledges a block only when it stores it. So a block that is in no
visited slot and not in flight never reaches the server, and an ACK lost after
the last block that can be sent never comes again. Both are invariants of
every move, so `send_file` never returns 0 from such a state.
-/
import OsNetworks.Sham.Transfer

namespace OsNetworks.Sham

/-- The block numbered `x` is in flight to the server. -/
def Flying (w : World) (x : Nat) : Prop := ∃ p ∈ w.toServer, p.data ≠ [] ∧ p.header.seqNum.toNat = x

/-- The block numbered `x` is in a slot that the retransmission loop visits. -/
def Held (c : Client) (x : Nat) : Prop :=
  ∃ i < shamWindowSize, c.pktSeq i < c.nextSeqNum ∧ (c.slot (c.scanIdx i)).packet.header.seqNum.toNat = x

/-- An ACK with a number in `P` is in flight to the client. -/
def AckFlying (w : World) (P : UInt32 → Prop) : Prop := ∃ p ∈ w.toClient, p.has shamAck = true ∧ P p.header.ackNum

theorem Flying.mono {w w' : World} {x : Nat} (h : Flying w x) (hts : ∀ p ∈ w.toServer, p ∈ w'.toServer) :
    Flying w' x := by
  obtain ⟨p, hp, hx⟩ := h
  exact ⟨p, hts p hp, hx⟩

theorem AckFlying.mono {w w' : World} {P : UInt32 → Prop} (h : AckFlying w P)
    (htc : ∀ p ∈ w.toClient, p ∈ w'.toClient) : AckFlying w' P := by
  obtain ⟨p, hp, hx⟩ := h
  exact ⟨p, htc p hp, hx⟩

/-! ## Where a block can be -/

section
variable {file : List UInt8} {addr addr' : Sockaddr} {c c' : Client} {x : Nat}

theorem ClientInv.held_iff (h : ClientInv file addr c) (hc : c.low) :
    Held c x ↔ ∃ i : Fin shamWindowSize, c.windowBase.toNat + 1024 * i < c.nextSeqNum.toNat ∧
      (c.slot i).packet.header.seqNum.toNat = x := by
  constructor
  · intro hh
    obtain ⟨i, hi, hv, hx⟩ := hh
    rw [h.scanIdx_eq hc hi] at hx
    exact ⟨⟨i, hi⟩, (h.visited_iff hc hi).mp hv, hx⟩
  · intro hh
    obtain ⟨i, hv, hx⟩ := hh
    refine ⟨i, i.isLt, (h.visited_iff hc i.isLt).mpr hv, ?_⟩
    rw [h.scanIdx_eq hc i.isLt]
    exact hx

/-- A slot visited from a higher `window_base` was visited before. -/
theorem ClientInv.held_of_shrunk (h : ClientInv file addr c) (h' : ClientInv file addr' c')
    (hc : c.low) (hw : ∀ i, (c'.slot i).packet = (c.slot i).packet) (hn : c'.nextSeqNum = c.nextSeqNum)
    (hb : c.windowBase.toNat ≤ c'.windowBase.toNat) (hx : Held c' x) : Held c x := by
  have hc' : c'.low := by
    unfold Client.low
    rw [hn]
    exact hc
  obtain ⟨i, hi, hx⟩ := (h'.held_iff hc').mp hx
  rw [hn] at hi
  exact (h.held_iff hc).mpr ⟨i, by omega, hw i ▸ hx⟩

/-- Sending a new block leaves the older ones in the visited slots as they are. -/
theorem ClientInv.held_sendNext (h : ClientInv file addr c) (hc : c.low) {now : Timeval}
    (h' : ClientInv file addr' (c.sendNext now).1) (hc' : (c.sendNext now).1.low) (hf : c.inFlight < 10240)
    (hu : c.unread ≠ []) (hlt : x < c.nextSeqNum.toNat) : Held (c.sendNext now).1 x ↔ Held c x := by
  rw [h.held_iff hc, h'.held_iff hc']
  constructor
  · intro hh
    obtain ⟨i, hi, hx⟩ := hh
    have hle := (h.sendNext_visited hc hu now i).mp hi
    rw [h.sendNext_slot hf hu] at hx
    split at hx
    · exact absurd hx (Nat.ne_of_gt hlt)
    next hne => exact ⟨i, Nat.lt_of_le_of_ne hle hne, hx⟩
  · intro hh
    obtain ⟨i, hi, hx⟩ := hh
    refine ⟨i, (h.sendNext_visited hc hu now i).mpr (Nat.le_of_lt hi), ?_⟩
    rw [h.sendNext_slot hf hu, if_neg (Nat.ne_of_lt hi)]
    exact hx

/-- A statement sends only new blocks and held ones. -/
theorem act_sends (clk : Clock)
    {o : Outgoing} (ho : o ∈ (c.act clk).2) (hd : o.pkt.data ≠ []) :
    c.nextSeqNum.toNat ≤ o.pkt.header.seqNum.toNat ∨ Held c o.pkt.header.seqNum.toNat := by
  have hr := c.act_acts clk
  generalize c.act clk = r at hr ho
  cases hr with
  | goto _ _ hout => exact absurd (hout o ho) hd
  | sent =>
    obtain rfl : o = sendPacket c.serverAddr c.nextPacket := by simpa [Client.sendNext] using ho
    exact .inl (Nat.le_refl _)
  | resent hi hlt =>
    obtain rfl : o = sendPacket c.serverAddr (c.slot (c.scanIdx _)).packet := List.mem_singleton.mp ho
    exact .inr ⟨_, hi, hlt, rfl⟩

/-- A statement puts no block into a visited slot that was sent before and is in none. -/
theorem ClientInv.held_of_act (h : ClientInv file addr c) (hc : c.low) (clk : Clock)
    (h' : ClientInv file addr' (c.act clk).1) (hc' : (c.act clk).1.low) (hlt : x < c.nextSeqNum.toNat)
    (hx : Held (c.act clk).1 x) : Held c x := by
  have hr := c.act_acts clk
  generalize c.act clk = r at hr h' hc' hx
  cases hr with
  | goto => exact hx
  | sent hf hu => exact (h.held_sendNext hc h' hc' hf hu hlt).mp hx
  | resent => exact h.held_of_shrunk h' hc (fun i => resend_packet _ _ i) rfl (Nat.le_refl _) hx

theorem ClientInv.held_of_recv (h : ClientInv file addr c) (hc : c.low) (a : Arrival)
    (h' : ClientInv file addr' (c.recv a).1) (hx : Held (c.recv a).1 x) : Held c x := by
  have hr := Client.recv_recvs h.begun.2 a
  generalize c.recv a = r at hr h' hx
  cases hr with
  | goto => exact hx
  | acked _ _ _ hlt =>
    exact h.held_of_shrunk h' hc (fun _ => rfl) rfl (Nat.le_of_lt (UInt32.lt_iff_toNat_lt.mp hlt)) hx

end

/-! ## A block is lost -/

/-- The server lacks the block numbered `x`, and the network and the visited slots do too. -/
structure LostAt (file : List UInt8) (x : Nat) (w : World) : Prop where
  inv : TransferInv file w
  lacking : w.server.nextExpectedSeq.toNat ≤ x
  sent : x < w.client.nextSeqNum.toNat
  aligned : (x - 101) % 1024 = 0
  notFlying : ¬ Flying w x
  notHeld : ¬ Held w.client x

section
variable {file : List UInt8} {x : Nat} {w w' : World}

theorem LostAt.not_fileSent (h : LostAt file x w) : w.client.fileSent = false := by
  cases hs : w.client.fileSent with
  | false => rfl
  | true =>
    have := h.inv.whole hs; have := h.lacking; have := h.sent; have := h.inv.client.next.2.1
    omega

/-- The server cannot pass a block that is not in flight. -/
theorem LostAt.server (h : LostAt file x w) {p : Packet} (hp : p ∈ w.toServer)
    (drop : Bool) : (w.server.recv (.datagram w.clientAddr p.toBytes) drop).1.nextExpectedSeq.toNat ≤ x := by
  by_cases hseq : p.data ≠ [] ∧ p.header.seqNum = w.server.nextExpectedSeq
  · obtain ⟨hd, hseq⟩ := hseq
    have hblock := (h.inv.block_of_data hp hd).1
    have hlt : p.header.seqNum.toNat < x :=
      Nat.lt_of_le_of_ne (hseq ▸ h.lacking) fun he => h.notFlying ⟨p, hp, hd, he⟩
    have := hblock.le; have := h.sent; have := h.inv.client.next.2.1
    -- seen from the server, nothing from `x` on has been sent
    refine (h.inv.server.recv_step (fun _ => ⟨hblock, hlt⟩) (fun hf => ?_) ⟨by omega, by omega, .inl h.aligned⟩
      h.lacking drop).next_le
    rw [hblock.has_eq] at hf
    cases hf
  · rw [h.inv.server.recv_next _ _ fun hd he => hseq ⟨hd, he⟩]
    exact h.lacking

theorem LostAt.moves (h : LostAt file x w) (hm : w.Moves w') : LostAt file x w' := by
  have hi := h.inv.moves hm
  cases hm with
  | act clk =>
    have hr := h.inv.client.act_step h.inv.low h.inv.base_le clk
    refine ⟨hi, h.lacking, Nat.lt_of_lt_of_le h.sent hr.next_mono, h.aligned, ?_,
      fun hx => h.notHeld (h.inv.client.held_of_act h.inv.low clk hr.inv hi.low h.sent hx)⟩
    intro hf
    obtain ⟨p, hp, hd, hx⟩ := hf
    rw [clientDid_toServer] at hp
    refine forall_arrived (P := fun p => p.data ≠ [] → p.header.seqNum.toNat ≠ x)
      (fun q hq hd hx => h.notFlying ⟨q, hq, hd, hx⟩) (fun o ho hd hx => ?_) p hp hd hx
    rcases act_sends clk ho hd with hge | hheld
    · have := h.sent
      omega
    · exact h.notHeld (hx ▸ hheld)
  | clientTimeout =>
    have hr := h.inv.client.timeout_step h.inv.base_le
    exact ⟨hi, h.lacking, Nat.lt_of_lt_of_le h.sent hr.next_mono, h.aligned,
      fun hf => h.notFlying (by simpa [Flying, recv_silent h.inv.client.begun.2] using hf),
      fun hx => h.notHeld (h.inv.client.held_of_recv h.inv.low _ hr.inv hx)⟩
  | clientTakes hc hrc =>
    have hr := h.inv.client_recv (List.mem_of_getElem? hc)
    exact ⟨hi, h.lacking, Nat.lt_of_lt_of_le h.sent hr.next_mono, h.aligned,
      fun hf => h.notFlying (by simpa [Flying, recv_silent h.inv.client.begun.2] using hf),
      fun hx => h.notHeld (h.inv.client.held_of_recv h.inv.low _ hr.inv hx)⟩
  | serverTimeout =>
    have hn := h.inv.server.recv_timeout.1
    exact ⟨hi, by simpa [hn] using h.lacking, h.sent, h.aligned, h.notFlying, h.notHeld⟩
  | serverTakes drop hs hr =>
    exact ⟨hi, h.server (List.mem_of_getElem? hs) drop, h.sent, h.aligned,
      fun hf => h.notFlying (hf.mono fun _ => Channel.mem_of_mem_take), h.notHeld⟩
  | network hts htc =>
    exact ⟨hi, h.lacking, h.sent, h.aligned, fun hf => h.notFlying (hf.mono hts), h.notHeld⟩

/-- **A lost block stays lost**: `send_file` never returns 0. -/
theorem LostAt.never_sent (h : LostAt file x w) (ls : List Label) :
    (w.run ls).client.fileSent = false :=
  (World.run_inv (fun _ _ hi hm => hi.moves hm) h ls).not_fileSent

/-! ## An ACK is lost -/

/-- The server holds all that was sent, the client does not know, and no ACK can tell it
any more: none is in flight that would, and nothing new can be sent. -/
structure Muted (file : List UInt8) (w : World) : Prop where
  inv : TransferInv file w
  expected : w.server.nextExpectedSeq = w.client.nextSeqNum
  behind : w.client.windowBase < w.client.nextSeqNum
  noAck : ¬ AckFlying w (· = w.client.nextSeqNum)
  silent : w.client.unread = [] ∨ (10240 ≤ w.client.inFlight ∧ ¬ AckFlying w (· > w.client.windowBase))

theorem Muted.not_fileSent (h : Muted file w) : w.client.fileSent = false := by
  cases hs : w.client.fileSent with
  | false => rfl
  | true =>
    have hb := h.behind
    rw [(h.inv.client.sent hs).2] at hb
    exact absurd hb (UInt32.lt_irrefl _)

/-- The client's side stays as it is, where no new ACK is in flight. -/
theorem Muted.of_same (h : Muted file w) (hi : TransferInv file w')
    (hs : w'.server.nextExpectedSeq = w.server.nextExpectedSeq) (hn : w'.client.nextSeqNum = w.client.nextSeqNum)
    (hb : w'.client.windowBase = w.client.windowBase) (hu : w'.client.unread = w.client.unread)
    (htc : ∀ p ∈ w'.toClient, p ∈ w.toClient) : Muted file w' := by
  refine ⟨hi, by rw [hs, hn]; exact h.expected, by rw [hb, hn]; exact h.behind, ?_, ?_⟩
  · intro hx
    rw [hn] at hx
    exact h.noAck (hx.mono htc)
  · simp only [Client.inFlight, hn, hb, hu]
    exact h.silent.imp id fun hr => ⟨hr.1, fun hx => hr.2 (hx.mono htc)⟩

/-- No statement of the client sends a new block. -/
theorem Muted.act (h : Muted file w) (clk : Clock) :
    (w.client.act clk).1.nextSeqNum = w.client.nextSeqNum ∧
      (w.client.act clk).1.windowBase = w.client.windowBase ∧ (w.client.act clk).1.unread = w.client.unread := by
  have hr := w.client.act_acts clk
  generalize w.client.act clk = r at hr
  cases hr with
  | goto => exact ⟨rfl, rfl, rfl⟩
  | resent => exact ⟨rfl, rfl, rfl⟩
  | sent hf hu =>
    rcases h.silent with hs | ⟨hs, -⟩
    · exact absurd hs hu
    · omega

/-- An ACK still in flight leaves the client behind. -/
theorem Muted.recv (h : Muted file w) {p : Packet} (hp : p ∈ w.toClient) :
    (w.client.recv (.datagram w.serverAddr p.toBytes)).1.nextSeqNum = w.client.nextSeqNum ∧
      (w.client.recv (.datagram w.serverAddr p.toBytes)).1.unread = w.client.unread ∧
      (w.client.recv (.datagram w.serverAddr p.toBytes)).1.windowBase < w.client.nextSeqNum ∧
      (w.client.unread ≠ [] →
        (w.client.recv (.datagram w.serverAddr p.toBytes)).1.windowBase = w.client.windowBase) := by
  have hr := Client.recv_recvs h.inv.client.begun.2 (.datagram w.serverAddr p.toBytes)
  generalize w.client.recv (.datagram w.serverAddr p.toBytes) = r at hr
  cases hr with
  | goto => exact ⟨rfl, rfl, h.behind, fun _ => rfl⟩
  | acked hw hpkt hack hlt =>
    rw [recvPacketTimeout_toBytes] at hpkt
    cases hpkt
    have hle := (h.inv.ack_ok hp (by simp [Client.sending, hw]) hack).2
    rw [h.expected] at hle
    refine ⟨rfl, rfl, UInt32.lt_iff_toNat_lt.mpr (Nat.lt_of_le_of_ne hle fun he => ?_), fun hu => ?_⟩
    · exact h.noAck ⟨p, hp, hack, UInt32.toNat_inj.mp he⟩
    · rcases h.silent with hs | ⟨-, hs⟩
      · exact absurd hs hu
      · exact absurd ⟨p, hp, hack, hlt⟩ hs

/-- The server acknowledges nothing it has already stored. -/
theorem Muted.server (h : Muted file w) {p : Packet} (hp : p ∈ w.toServer) (drop : Bool) :
    w.server.recv (.datagram w.clientAddr p.toBytes) drop = (w.server, []) := by
  have hnl := h.inv.not_left h.not_fileSent
  rcases h.inv.server.begun with hph | hph | hph | hph
  case inr.inl => exact absurd (.inl hph) hnl
  case inr.inr.inl => exact absurd (.inr hph) hnl
  case inr.inr.inr => exact Server.recv_undefined _ _ hph
  rw [Server.recv_transfer _ _ hph]
  have hr := w.server.handleDataTransfer_transfers (.datagram w.clientAddr p.toBytes) drop
  generalize w.server.handleDataTransfer (.datagram w.clientAddr p.toBytes) drop = r at hr
  cases hr with
  | quiet => simp [← h.inv.server.addr]
  | cut hpkt => simp at hpkt
  | fin hpkt hf =>
    rw [recvPacket_toBytes] at hpkt
    cases hpkt
    simpa [h.not_fileSent] using h.inv.fin_sent hp hf
  | data hpkt _ _ hd hseq =>
    rw [recvPacket_toBytes] at hpkt
    cases hpkt
    have hlt := (h.inv.block_of_data hp hd).2
    rw [hseq, h.expected] at hlt
    exact absurd hlt (Nat.lt_irrefl _)

theorem Muted.moves (h : Muted file w) (hm : w.Moves w') : Muted file w' := by
  have hi := h.inv.moves hm
  cases hm with
  | act clk =>
    obtain ⟨hn, hb, hu⟩ := h.act clk
    exact h.of_same hi rfl hn hb hu fun _ hp => hp
  | clientTimeout =>
    have hr := Client.recv_recvs h.inv.client.begun.2 .timeout
    generalize w.client.recv .timeout = r at hr hi
    cases hr with
    | goto => exact h.of_same hi rfl rfl rfl rfl fun _ hp => hp
    | acked _ hp => cases hp
  | serverTimeout =>
    obtain ⟨hn, ho⟩ := h.inv.server.recv_timeout
    exact h.of_same hi hn rfl rfl rfl (by simp [ho])
  | clientTakes hc hr =>
    obtain ⟨hn, hu, hb, hsame⟩ := h.recv (List.mem_of_getElem? hc)
    by_cases he : w.client.unread = []
    · refine ⟨hi, ?_, ?_, ?_, .inl (by rw [clientTakes_client, hu, he])⟩
      · rw [clientTakes_client, hn]; exact h.expected
      · rw [clientTakes_client, hn]; exact hb
      · intro hx
        rw [clientTakes_client, hn] at hx
        exact h.noAck (hx.mono fun _ => Channel.mem_of_mem_take)
    · exact h.of_same hi rfl hn (hsame he) hu fun _ => Channel.mem_of_mem_take
  | serverTakes drop hs hr =>
    have hr := h.server (List.mem_of_getElem? hs) drop
    exact h.of_same hi (by simp [hr]) rfl rfl rfl (by simp [hr])
  | network hts htc => exact h.of_same hi rfl rfl rfl rfl htc

/-- **A missing last ACK stays missing**: `send_file` never returns 0. -/
theorem Muted.never_sent (h : Muted file w) (ls : List Label) :
    (w.run ls).client.fileSent = false :=
  (World.run_inv (fun _ _ hi hm => hi.moves hm) h ls).not_fileSent

end

end OsNetworks.Sham
