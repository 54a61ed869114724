/-
Runs from the start of both processes: `perform_handshake` on the client's
side, `handle_handshake` on the server's, and whatever follows.

The server judges the one datagram it takes after its SYN-ACK by a flag, so
what matters is which packets of the client carry an ACK flag, and that no
ACK reaches `send_file` while the server has not left its handshake.
-/
import OsNetworks.Sham.Safety

namespace OsNetworks.Sham

/-! ## What the client says -/

/-- A packet the client may have handed to `sendto` by the time it is in state `c`. -/
inductive Client.Said (c : Client) : Packet → Prop
  | syn : Said c synPacket
  | ack (serverSeq : UInt32) : Said c (ackPacket serverSeq)
  | data {p : Packet} : p.header.flags = 0 → Said c p
  | fin (seqNum : UInt32) : Said c (finPacket seqNum)
  | finalAck (pkt : Packet) : c.phase = .exited 0 → Said c (finalAck pkt)

/-- The window holds data packets only, or what it was initialised with. -/
def Client.plain (c : Client) : Prop := ∀ i, (c.slot i).packet.header.flags = 0

/-- What a step of the client says. -/
structure Says (c : Client) (r : Client × List Outgoing) : Prop where
  plain : r.1.plain
  out : ∀ o ∈ r.2, r.1.Said o.pkt
  /-- once `main` has returned 0 nothing more happens -/
  stopped : c.phase = .exited 0 → r = (c, [])
  /-- and the last thing done before is to send the final ACK -/
  stops : r.1.phase = .exited 0 → c.phase = .exited 0 ∨ ∃ pkt, r.2.map (·.pkt) = [finalAck pkt]

section
variable {c : Client}

theorem Says.silent {r : Client} (hw : c.window = r.window) (hp : c.plain)
    (hs : c.phase = .exited 0 → r = c) (hr : r.phase = .exited 0 → c.phase = .exited 0) : Says c (r, []) := by
  refine ⟨fun i => ?_, by simp, fun h => by rw [hs h], fun h => .inl (hr h)⟩
  have := hp i
  unfold Client.slot at *
  rw [← hw]
  exact this

theorem Client.Said.of_data {s : Client} {p : Packet} (h : c.plain) {i : Fin shamWindowSize}
    (hp : p = (c.slot i).packet) : s.Said p := .data (hp ▸ h i)

theorem Client.plain.setSlot (h : c.plain) (i : Fin shamWindowSize) {entry : PacketWindow}
    (he : entry.packet.header.flags = 0) : (c.setSlot i entry).plain := by
  intro j
  rw [slot_setSlot]
  split
  · exact he
  · exact h j

theorem Client.plain.fill (h : c.plain) (hp : c.phase = .filling) (now : Timeval) : Says c (c.fill now) := by
  have hr := c.fill_fills now
  generalize c.fill now = r at hr
  cases hr with
  | full => exact .silent rfl h (by simp [hp]) (by simp)
  | eof => exact .silent rfl h (by simp [hp]) (by simp)
  | sent hd hf hu =>
    refine ⟨h.setSlot _ rfl, fun o ho => ?_, by simp [hp], ?_⟩
    · obtain rfl : o = sendPacket c.serverAddr c.nextPacket := List.mem_singleton.mp ho
      exact .data rfl
    · intro hx
      rw [show (c.sendNext now).1.phase = c.phase from rfl] at hx
      exact .inl hx

theorem Client.plain.scan (h : c.plain) {i : Nat} (hp : c.phase = .scanning i) (clk : Clock) :
    Says c (c.scan clk i) := by
  have hr := c.scan_scans clk i
  generalize c.scan clk i = r at hr
  cases hr
  case resend =>
    refine ⟨Client.plain.setSlot h _ (h _), fun o ho => ?_, by simp [hp], ?_⟩
    · obtain rfl : o = sendPacket c.serverAddr (c.slot (c.scanIdx i)).packet := List.mem_singleton.mp ho
      exact .of_data h rfl
    · intro hx
      simp [Client.resend, Client.setSlot] at hx
  all_goals exact .silent rfl h (by simp [hp]) (by simp)

theorem Client.plain.act (h : c.plain) (clk : Clock) : Says c (c.act clk) := by
  have stay : Says c (c, []) := .silent rfl h (fun _ => rfl) id
  cases hp : c.phase with
  | sendSyn =>
    simp only [Client.act, hp, Client.sendSyn]
    refine ⟨h, fun o ho => ?_, by simp [hp], by simp⟩
    obtain rfl := List.mem_singleton.mp ho
    exact .syn
  | loopHead =>
    simp only [Client.act, hp, Client.loopHead]
    split <;> exact .silent rfl h (by simp [hp]) (by simp)
  | filling => simp only [Client.act, hp]; exact h.fill hp _
  | scanning i => simp only [Client.act, hp]; exact h.scan hp _
  | checking =>
    simp only [Client.act, hp, Client.check]
    split <;> exact .silent rfl h (by simp [hp]) (by simp)
  | sendFin =>
    simp only [Client.act, hp, Client.sendFin]
    refine ⟨h, fun o ho => ?_, by simp [hp], by simp⟩
    obtain rfl := List.mem_singleton.mp ho
    exact .fin _
  | sendFinalAck pkt =>
    simp only [Client.act, hp, Client.sendFinalAck]
    refine ⟨h, fun o ho => ?_, by simp [hp], fun _ => .inr ⟨pkt, rfl⟩⟩
    obtain rfl := List.mem_singleton.mp ho
    exact .finalAck pkt rfl
  | waitSynAck => simp only [Client.act, hp]; exact stay
  | waiting => simp only [Client.act, hp]; exact stay
  | waitFinAck pkt => simp only [Client.act, hp]; exact stay
  | waitFin pkt => simp only [Client.act, hp]; exact stay
  | exited k => simp only [Client.act, hp]; exact stay

theorem Client.plain.ignoreResult (h : c.plain) {a : Arrival} {pkt : Packet} {next : Packet → ClientPhase}
    (hc : c.phase ≠ .exited 0) (hn : ∀ p, next p ≠ .exited 0) : Says c (c.ignoreResult a pkt next, []) := by
  simp only [Client.ignoreResult]
  split <;> exact .silent rfl h (fun he => absurd he hc) fun he => absurd he (hn _)

theorem Client.plain.recv (h : c.plain) (a : Arrival) : Says c (c.recv a) := by
  cases hp : c.phase with
  | waitSynAck =>
    simp only [Client.recv, hp, Client.onSynAck]
    split
    next pkt hpkt =>
      split
      · exact .silent rfl h (by simp [hp]) (by simp)
      · refine ⟨fun i => by simp [Client.slot, zeroed], fun o ho => ?_, by simp [hp], by simp⟩
        obtain rfl := List.mem_singleton.mp ho
        exact .ack _
    next => exact .silent rfl h (by simp [hp]) (by simp)
  | waiting =>
    simp only [Client.recv, hp, Client.onAck]
    split
    · split <;> exact .silent rfl h (by simp [hp]) (by simp)
    · exact .silent rfl h (by simp [hp]) (by simp)
  | waitFinAck pkt => simp only [Client.recv, hp]; exact h.ignoreResult (by simp [hp]) (by simp)
  | waitFin pkt => simp only [Client.recv, hp]; exact h.ignoreResult (by simp [hp]) (by simp)
  | _ => simp only [Client.recv, hp]; exact .silent rfl h (fun _ => rfl) id

/-- Only two packets of the client carry an ACK flag. -/
theorem Client.Said.of_ack {p : Packet} (h : c.Said p) (hack : p.has shamAck = true) :
    (∃ n, p = ackPacket n) ∨ c.phase = .exited 0 ∧ ∃ pkt, p = Sham.finalAck pkt := by
  cases h with
  | syn => exact absurd (show (shamSyn &&& shamAck != 0) = true from hack) (by decide)
  | ack n => exact .inl ⟨n, rfl⟩
  | data hf => simp [Packet.has, hf] at hack
  | fin n => exact absurd (show (shamFin &&& shamAck != 0) = true from hack) (by decide)
  | finalAck pkt he => exact .inr ⟨he, pkt, rfl⟩

theorem Client.Said.of_not_ack {p : Packet} (h : c.Said p) (hack : p.has shamAck = false) :
    p = synPacket ∨ p.header.flags = 0 ∨ ∃ n, p = finPacket n := by
  cases h with
  | syn => exact .inl rfl
  | ack n => simp [ackPacket, shamAck] at hack
  | data hf => exact .inr (.inl hf)
  | fin n => exact .inr (.inr ⟨n, rfl⟩)
  | finalAck pkt he => simp [Sham.finalAck, shamAck] at hack

theorem Client.Said.mono {r : Client × List Outgoing} {p : Packet} (hr : Says c r) (h : c.Said p) : r.1.Said p := by
  cases h with
  | syn => exact .syn
  | ack n => exact .ack n
  | data hf => exact .data hf
  | fin n => exact .fin n
  | finalAck pkt he => exact .finalAck pkt (by rw [hr.stopped he]; exact he)

end

/-- What has been said, is in flight and was heard comes from the client. -/
structure Spoken (w : World) : Prop where
  plain : w.client.plain
  said : ∀ p ∈ w.said, w.client.Said p
  toServer : ∀ p ∈ w.toServer, p ∈ w.said
  heard : ∀ p ∈ w.serverHeard, p ∈ w.said
  last : w.client.phase = .exited 0 → ∃ pkt, w.said.getLast? = some (finalAck pkt)

section
variable {w w' : World}

theorem Spoken.boot (ca sa : Sockaddr) (file : List UInt8) : Spoken (.boot ca sa file) := by
  refine ⟨fun i => ?_, by simp [World.boot], by simp [World.boot], by simp [World.boot], ?_⟩
  · simp [World.boot, Client.start, Client.slot, zeroed]
  · intro h
    simp [World.boot, Client.start] at h

theorem Spoken.clientStep (h : Spoken w) {r : Client × List Outgoing} (hr : Says w.client r)
    {tc heard : List Packet} :
    Spoken { w with client := r.1, toServer := w.toServer ++ arriving w.serverAddr r.2, toClient := tc,
                    said := w.said ++ r.2.map (·.pkt), clientHeard := heard } := by
  refine ⟨hr.plain, fun p hp => ?_, fun p hp => ?_, fun p hp => List.mem_append_left _ (h.heard p hp), fun hx => ?_⟩
  · rcases List.mem_append.mp hp with hp | hp
    · exact (h.said p hp).mono hr
    · obtain ⟨o, ho, rfl⟩ := List.mem_map.mp hp
      exact hr.out o ho
  · exact forall_arrived (P := (· ∈ w.said ++ r.2.map (·.pkt)))
      (fun q hq => List.mem_append_left _ (h.toServer q hq))
      (fun o ho => List.mem_append_right _ (List.mem_map_of_mem ho)) p hp
  · show ∃ pkt, (w.said ++ r.2.map (·.pkt)).getLast? = some (finalAck pkt)
    rcases hr.stops hx with hx | ⟨pkt, hout⟩
    · rw [hr.stopped hx, List.map_nil, List.append_nil]
      exact h.last hx
    · exact ⟨pkt, by rw [hout, List.getLast?_concat]⟩

theorem Spoken.moves (h : Spoken w) (hm : w.Moves w') : Spoken w' := by
  cases hm with
  | act clk => exact h.clientStep (h.plain.act clk)
  | clientTimeout => exact h.clientStep (h.plain.recv _)
  | serverTimeout => exact ⟨h.plain, h.said, h.toServer, h.heard, h.last⟩
  | clientTakes hi hr => exact h.clientStep (h.plain.recv _)
  | serverTakes drop hi hr =>
    refine ⟨h.plain, h.said, fun p hp => h.toServer p (Channel.mem_of_mem_take hp), fun p hp => ?_, h.last⟩
    rcases List.mem_append.mp hp with hp | hp
    · exact h.heard p hp
    · obtain rfl := List.mem_singleton.mp hp
      exact h.toServer p (List.mem_of_getElem? hi)
  | network hts htc => exact ⟨h.plain, h.said, fun p hp => h.toServer p (hts p hp), h.heard, h.last⟩

end

/-! ## The client before an answer to its data -/

/-- The client before `send_file`: at its start, waiting for the SYN-ACK, or after giving up. -/
inductive Unstarted (file : List UInt8) (addr : Sockaddr) : Client → Prop
  | booted : Unstarted file addr (.start addr file)
  | waiting : Unstarted file addr { Client.start addr file with phase := .waitSynAck }
  | gaveUp : Unstarted file addr { Client.start addr file with phase := .exited 1 }

/-- The client as long as the server sends nothing but SYN-ACKs. -/
def Unacked (file : List UInt8) (addr : Sockaddr) (c : Client) : Prop :=
  Unstarted file addr c ∨ ClientInv file addr c ∧ c.windowBase = 101

/-- A step of such a client. -/
structure UnackedStep (file : List UInt8) (addr : Sockaddr) (c : Client) (r : Client × List Outgoing) : Prop where
  inv : Unacked file addr r.1
  next_mono : c.nextSeqNum.toNat ≤ r.1.nextSeqNum.toNat
  sent_mono : c.fileSent = true → r.1.fileSent = true
  out : ∀ o ∈ r.2, FromClient file r.1 o.pkt
  unstarted : Unstarted file addr r.1 → Unstarted file addr c ∧ ∀ o ∈ r.2, o.pkt = synPacket

section
variable {file : List UInt8} {addr : Sockaddr} {c : Client}

theorem Unstarted.not_fileSent (h : Unstarted file addr c) : c.fileSent = false := by
  cases h <;> rfl

theorem Unstarted.next (h : Unstarted file addr c) : c.nextSeqNum = 0 := by
  cases h <;> rfl

theorem ClientInv.not_unstarted (h : ClientInv file addr c) : ¬ Unstarted file addr c := by
  intro hu
  have := h.next.1
  rw [hu.next] at this
  exact absurd this (by decide)

theorem Unstarted.act (h : Unstarted file addr c) (clk : Clock) :
    Unstarted file addr (c.act clk).1 ∧ ∀ o ∈ (c.act clk).2, o.pkt = synPacket := by
  cases h with
  | booted =>
    refine ⟨.waiting, fun o ho => ?_⟩
    obtain rfl : o = sendPacket addr synPacket := List.mem_singleton.mp ho
    rfl
  | waiting => exact ⟨.waiting, by simp [Client.act]⟩
  | gaveUp => exact ⟨.gaveUp, by simp [Client.act]⟩

theorem Unstarted.timeout (h : Unstarted file addr c) :
    Unstarted file addr (c.recv .timeout).1 ∧ ∀ o ∈ (c.recv .timeout).2, o.pkt = synPacket := by
  cases h with
  | booted => exact ⟨.booted, by simp [Client.recv, Client.start]⟩
  | waiting => exact ⟨.gaveUp, by simp [Client.recv, Client.onSynAck]⟩
  | gaveUp => exact ⟨.gaveUp, by simp [Client.recv]⟩

theorem FromClient.syn : FromClient file c synPacket := .inl ⟨rfl, rfl⟩

theorem FromClient.ack (n : UInt32) : FromClient file c (ackPacket n) :=
  .inl ⟨rfl, show (shamAck &&& shamFin != 0) = false by decide⟩

/-- The window is never further ahead than its own size. -/
theorem ClientInv.low_of_base (h : ClientInv file addr c) (hb : c.windowBase = 101) : c.low := by
  have := h.window_le
  rw [hb] at this
  unfold Client.low
  simp only [recvCapacity, UInt32.reduceToNat] at *
  omega

theorem Unstarted.unacked (h : Unstarted file addr c) {r : Client × List Outgoing}
    (hr : Unstarted file addr r.1 ∧ ∀ o ∈ r.2, o.pkt = synPacket) : UnackedStep file addr c r where
  inv := .inl hr.1
  next_mono := by rw [h.next]; exact Nat.zero_le _
  sent_mono := by simp [h.not_fileSent]
  out := fun o ho => hr.2 o ho ▸ .syn
  unstarted := fun _ => ⟨h, hr.2⟩

theorem ClientStep.unacked (hb : c.windowBase = 101) {r : Client × List Outgoing}
    (hr : ClientStep file addr 101 c r) : UnackedStep file addr c r where
  inv := by
    have h1 := hr.base_mono; have h2 := hr.base_le
    rw [hb] at h1
    exact .inr ⟨hr.inv, UInt32.toNat_inj.mp (Nat.le_antisymm h2 h1)⟩
  next_mono := hr.next_mono
  sent_mono := hr.sent_mono
  out := fun o ho => (hr.out o ho).2
  unstarted := fun hu => absurd hu hr.inv.not_unstarted

/-- An unacknowledged file is finished only when it is empty. -/
theorem Unacked.empty (h : Unacked file addr c) (hs : c.fileSent = true) : file = [] := by
  rcases h with h | ⟨h, hb⟩
  · rw [h.not_fileSent] at hs; cases hs
  · obtain ⟨hd, he⟩ := h.sent hs
    have := h.done hd
    rw [← he, hb] at this
    exact List.length_eq_zero_iff.mp (by simp only [UInt32.reduceToNat] at this; omega)

theorem Unacked.act (h : Unacked file addr c) (clk : Clock) : UnackedStep file addr c (c.act clk) := by
  rcases h with h | ⟨h, hb⟩
  · exact h.unacked (h.act clk)
  · exact (h.act_step (h.low_of_base hb) (by simp [hb]) clk).unacked hb

theorem Unacked.timeout (h : Unacked file addr c) : UnackedStep file addr c (c.recv .timeout) := by
  rcases h with h | ⟨h, hb⟩
  · exact h.unacked h.timeout
  · exact (h.timeout_step (by simp [hb])).unacked hb

/-- The SYN-ACK opens `send_file`, and means nothing later. -/
theorem Unacked.synAck (h : Unacked file addr c) :
    UnackedStep file addr c (c.recv (.datagram addr (synAckPacket initialSeq).toBytes)) := by
  rcases h with h | ⟨h, hb⟩
  · cases h with
    | booted => exact Unstarted.booted.unacked ⟨.booted, by simp [Client.recv, Client.start]⟩
    | waiting =>
      have hr : Client.recv (.datagram addr (synAckPacket initialSeq).toBytes)
          { Client.start addr file with phase := .waitSynAck } =
          (.sendStart addr receiverWindow file, [sendPacket addr (ackPacket serverSeq)]) := by
        simp only [Client.recv, Client.onSynAck, recvPacketTimeout_toBytes]
        rfl
      have hi := ClientInv.sendStart file addr receiverWindow
      rw [hr]
      refine ⟨.inr ⟨hi, rfl⟩, Nat.zero_le _, by simp [Client.fileSent], fun o ho => ?_,
        fun hu => absurd hu hi.not_unstarted⟩
      obtain rfl := List.mem_singleton.mp ho
      exact .ack _
    | gaveUp => exact Unstarted.gaveUp.unacked ⟨.gaveUp, by simp [Client.recv]⟩
  · refine (h.recv_step (by simp [hb]) h.next.1 fun _ _ => ?_).unacked hb
    exact ⟨by simp [Boundary, synAckPacket, initialSeq], by simp [synAckPacket, initialSeq]⟩

end

/-! ## The server's handshake in a run -/

/-- The client and the network as long as the server has not begun its data phase. -/
structure Unanswered (file : List UInt8) (w : World) : Prop where
  client : Unacked file w.serverAddr w.client
  toServer : ∀ p ∈ w.toServer, FromClient file w.client p
  toClient : ∀ p ∈ w.toClient, p = synAckPacket initialSeq
  unstarted : Unstarted file w.serverAddr w.client → ∀ p ∈ w.toServer, p = synPacket

/-- The server took the client's final ACK for the one of the handshake. -/
structure Late (w : World) : Prop where
  gone : w.client.phase = .exited 0
  noData : ∀ p ∈ w.toServer, p.data = []
  held : w.server.recvBuffer.bytes = []
  written : w.server.receivedFile = none

/-- The data phase, begun on the packet `p`. -/
inductive Begun (file : List UInt8) (w : World) (p : Packet) : Prop
  | ack {n : UInt32} : p = ackPacket n → TransferInv file w → Begun file w p
  | finalAck {pkt : Packet} : p = finalAck pkt → file = [] → Late w → Begun file w p

/-- `handle_handshake` has returned 0. -/
def Server.connected (s : Server) : Bool :=
  match s.phase with
  | .transfer | .waitFinalAck | .exited 0 | .undefined => true
  | _ => false

/-- `next_expected_seq` counts from `first` the bytes received. -/
def Server.counts (first : UInt32) (s : Server) : Prop :=
  s.nextExpectedSeq = first + UInt32.ofNat s.recvBuffer.bytes.length

/-- How far `handle_handshake` has come, by what the server has taken. -/
inductive Session (file : List UInt8) (w : World) : Prop
  | listening : w.server = {} → w.serverHeard = [] → Unstarted file w.serverAddr w.client → w.toClient = [] →
      (∀ p ∈ w.toServer, p = synPacket) → Session file w
  | greeted : w.server = { clientAddr := w.clientAddr, phase := .waitAck } → w.serverHeard = [synPacket] →
      Unanswered file w → Session file w
  | refused {p : Packet} : w.server = { clientAddr := w.clientAddr, phase := .exited 1 } →
      w.serverHeard = [synPacket, p] → p.has shamAck = false → Unanswered file w → Session file w
  | begun {p : Packet} {rest : List Packet} : w.server.connected = true → w.serverHeard = synPacket :: p :: rest →
      p.has shamAck = true → w.server.counts p.header.seqNum → Begun file w p → Session file w

section
variable {s : Server} {first : UInt32}

theorem Server.counts.onData (h : s.counts first) (hp : s.phase = .transfer) (pkt : Packet) :
    (s.onData pkt).1.connected = true ∧ (s.onData pkt).1.counts first := by
  by_cases hseq : pkt.header.seqNum = s.nextExpectedSeq
  · by_cases hle : (s.recvBuffer.bytes ++ pkt.data).length ≤ recvCapacity
    · rw [Server.onData_stored hseq hle]
      refine ⟨by simp [Server.connected, hp], ?_⟩
      unfold Server.counts at *
      simp only [h, List.length_append, UInt32.ofNat_add, UInt32.add_assoc]
    · rw [Server.onData_overflow hseq hle]
      exact ⟨rfl, h⟩
  · rw [Server.onData_ignored hseq]
    exact ⟨by simp [Server.connected, hp], h⟩

/-- The data phase is not left again, and goes on counting. -/
theorem Server.counts.recv (h : s.counts first) (hb : s.connected = true) (a : Arrival) (drop : Bool) :
    (s.recv a drop).1.connected = true ∧ (s.recv a drop).1.counts first := by
  cases hp : s.phase with
  | waitSyn => simp [Server.connected, hp] at hb
  | waitAck => simp [Server.connected, hp] at hb
  | transfer =>
    have hr := s.handleDataTransfer_transfers a drop
    rw [Server.recv_transfer _ _ hp]
    generalize s.handleDataTransfer a drop = r at hr
    cases hr with
    | quiet => exact ⟨by simp [Server.connected, hp], h⟩
    | cut => exact ⟨rfl, h⟩
    | fin => exact ⟨rfl, h⟩
    | data => exact Server.counts.onData (s := { s with clientAddr := (recvPacket a s.clientAddr).2 }) h hp _
  | waitFinalAck => rw [Server.recv_waitFinalAck _ _ hp]; exact ⟨rfl, h⟩
  | exited k => rw [Server.recv_exited _ _ hp]; exact ⟨hb, h⟩
  | undefined => rw [Server.recv_undefined _ _ hp]; exact ⟨hb, h⟩

end

/-! ## What every move keeps -/

section
variable {file : List UInt8} {w w' : World} {p : Packet}

/-- The client moves while the server has not begun its data phase. -/
theorem Unanswered.clientStep (h : Unanswered file w) {r : Client × List Outgoing}
    (hr : UnackedStep file w.serverAddr w.client r) {tc said heard : List Packet} (htc : ∀ p ∈ tc, p ∈ w.toClient) :
    Unanswered file { w with client := r.1, toServer := w.toServer ++ arriving w.serverAddr r.2, toClient := tc,
                             said := said, clientHeard := heard } := by
  refine ⟨hr.inv, forall_arrived (fun p hp => ?_) hr.out, fun p hp => h.toClient p (htc p hp), fun hu => ?_⟩
  · exact (h.toServer p hp).mono hr.next_mono hr.sent_mono
  · obtain ⟨hu, hout⟩ := hr.unstarted hu
    exact forall_arrived (h.unstarted hu) hout

/-- The server and the network move, and nothing new is in flight. -/
theorem Unanswered.keep (h : Unanswered file w) {s : Server} {ts tc heard : List Packet}
    (hts : ∀ p ∈ ts, p ∈ w.toServer) (htc : ∀ p ∈ tc, p ∈ w.toClient) :
    Unanswered file { w with server := s, toServer := ts, toClient := tc, serverHeard := heard } :=
  ⟨h.client, fun p hp => h.toServer p (hts p hp), fun p hp => h.toClient p (htc p hp),
    fun hu p hp => h.unstarted hu p (hts p hp)⟩

/-- What the client takes before the data phase is the SYN-ACK. -/
theorem Unanswered.clientTakes (h : Unanswered file w) {i : Nat} (hi : w.toClient[i]? = some p) :
    Unanswered file (w.clientTakes i p) := by
  obtain rfl := h.toClient p (List.mem_of_getElem? hi)
  exact h.clientStep h.client.synAck fun _ => Channel.mem_of_mem_take

/-- The ACK of the handshake is sent on entering `send_file`. -/
theorem Unanswered.started (h : Unanswered file w) {n : UInt32} (hp : ackPacket n ∈ w.toServer) :
    ClientInv file w.serverAddr w.client ∧ w.client.windowBase = 101 := by
  rcases h.client with hu | hc
  · have := congrArg (fun p => p.header.seqNum) (h.unstarted hu _ hp)
    exact absurd this (by simp [ackPacket, synPacket, initialSeq])
  · exact hc

/-- When the server takes it, the data phase begins as it should. -/
theorem Unanswered.transfer (h : Unanswered file w) (hc : ClientInv file w.serverAddr w.client)
    (hb : w.client.windowBase = 101) (hs : w.server = .transferStart w.clientAddr 101) : TransferInv file w := by
  refine ⟨hc, hs ▸ .start file w.clientAddr, ?_, ?_, h.toServer, fun p hp => ?_, fun hl => ?_⟩
  · rw [hb, hs]
    exact Nat.le_refl _
  · rw [hs]
    exact hc.next.1
  · rw [h.toClient p hp, hs]
    exact .synAck file w.clientAddr
  · exact absurd hl (Server.not_left (by rw [hs]; rfl))

theorem FromClient.noData {c : Client} (h : FromClient [] c p) : p.data = [] := by
  rcases h with ⟨hd, -⟩ | ⟨hb, -⟩ | ⟨hd, -⟩
  · exact hd
  · exact absurd hb.lt (Nat.not_lt_zero _)
  · exact hd

theorem Late.recv {s : Server} (hb : s.recvBuffer.bytes = []) (hw : s.receivedFile = none)
    (hc : s.connected = true) (a : Arrival) (drop : Bool)
    (ha : ∀ pkt, (recvPacket a s.clientAddr).1 = .packet pkt → pkt.data = []) :
    (s.recv a drop).1.recvBuffer.bytes = [] ∧ (s.recv a drop).1.receivedFile = none := by
  have hfin : ∀ s : Server, s.recvBuffer.bytes = [] → s.receivedFile = none →
      s.finish.recvBuffer.bytes = [] ∧ s.finish.receivedFile = none := by
    intro s hb hw
    simp [Server.finish, hb, hw]
  cases hp : s.phase with
  | waitSyn => simp [Server.connected, hp] at hc
  | waitAck => simp [Server.connected, hp] at hc
  | transfer =>
    have hr := s.handleDataTransfer_transfers a drop
    rw [Server.recv_transfer _ _ hp]
    generalize s.handleDataTransfer a drop = r at hr
    cases hr with
    | quiet => exact ⟨hb, hw⟩
    | cut => exact hfin _ hb hw
    | fin => exact ⟨hb, hw⟩
    | data hpkt _ _ hd => exact absurd (ha _ hpkt) hd
  | waitFinalAck => rw [Server.recv_waitFinalAck _ _ hp]; exact hfin _ hb hw
  | exited k => rw [Server.recv_exited _ _ hp]; exact ⟨hb, hw⟩
  | undefined => rw [Server.recv_undefined _ _ hp]; exact ⟨hb, hw⟩

theorem Late.clientStep (h : Late w) {r : Client × List Outgoing} (hr : Says w.client r)
    {tc said heard : List Packet} :
    Late { w with client := r.1, toServer := w.toServer ++ arriving w.serverAddr r.2, toClient := tc,
                  said := said, clientHeard := heard } := by
  obtain rfl := hr.stopped h.gone
  refine ⟨h.gone, ?_, h.held, h.written⟩
  simpa using h.noData

theorem Late.moves (h : Late w) (hs : Spoken w) (hc : w.server.connected = true) (hm : w.Moves w') : Late w' := by
  cases hm with
  | act clk => exact h.clientStep (hs.plain.act clk)
  | clientTimeout => exact h.clientStep (hs.plain.recv _)
  | clientTakes hi hr => exact h.clientStep (hs.plain.recv _)
  | serverTimeout =>
    obtain ⟨hb, hw⟩ := Late.recv h.held h.written hc .timeout false (by simp)
    exact ⟨h.gone, h.noData, hb, hw⟩
  | @serverTakes i q drop hi hr =>
    have hd := h.noData q (List.mem_of_getElem? hi)
    obtain ⟨hb, hw⟩ := Late.recv h.held h.written hc (.datagram w.clientAddr q.toBytes) drop (by simpa using hd)
    exact ⟨h.gone, fun p hp => h.noData p (Channel.mem_of_mem_take hp), hb, hw⟩
  | network hts htc => exact ⟨h.gone, fun p hp => h.noData p (hts p hp), h.held, h.written⟩

theorem Begun.moves (h : Begun file w p) (hs : Spoken w) (hc : w.server.connected = true) (hm : w.Moves w') :
    Begun file w' p := by
  cases h with
  | ack hp ht => exact .ack hp (ht.moves hm)
  | finalAck hp hf hl => exact .finalAck hp hf (hl.moves hs hc hm)

/-- The wait for the SYN: nothing else can arrive. -/
theorem Session.moves_listening (hsrv : w.server = {}) (hheard : w.serverHeard = [])
    (hu : Unstarted file w.serverAddr w.client) (htc : w.toClient = []) (hts : ∀ p ∈ w.toServer, p = synPacket)
    (hm : w.Moves w') : Session file w' := by
  have hnone : ∀ {i : Nat} {p : Packet}, w.toClient[i]? ≠ some p := by simp [htc]
  have client : ∀ {r : Client × List Outgoing}, Unstarted file w.serverAddr r.1 ∧ (∀ o ∈ r.2, o.pkt = synPacket) →
      Session file (w.clientDid r) := by
    intro r hr
    exact .listening hsrv hheard hr.1 htc (forall_arrived hts hr.2)
  cases hm with
  | act clk => exact client (hu.act clk)
  | clientTimeout => exact client hu.timeout
  | clientTakes hi hr => exact absurd hi hnone
  | serverTimeout =>
    have hr : w.server.recv .timeout false = ({}, []) := by rw [hsrv]; rfl
    exact .listening (by rw [serverDid_server, hr]) hheard hu (by rw [serverDid_toClient, htc, hr]; rfl) hts
  | @serverTakes i q drop hi hrc =>
    obtain rfl := hts q (List.mem_of_getElem? hi)
    have hr : w.server.recv (.datagram w.clientAddr synPacket.toBytes) drop =
        ({ clientAddr := w.clientAddr, phase := .waitAck }, [sendPacket w.clientAddr (synAckPacket initialSeq)]) := by
      rw [hsrv, Server.recv_waitSyn _ _ rfl, Server.onSyn, recvPacket_toBytes]
      rfl
    refine .greeted (by rw [serverTakes_server, hr]; rfl) (by simp [World.serverTakes, World.serverDid, hheard])
      ⟨.inl hu, fun p hp => ?_, ?_, fun _ p hp => hts p (Channel.mem_of_mem_take hp)⟩
    · rw [hts p (Channel.mem_of_mem_take hp)]
      exact .syn
    · rw [serverTakes_toClient, htc, hr]
      refine forall_arrived (by simp) fun o ho => ?_
      obtain rfl := List.mem_singleton.mp ho
      rfl
  | network hts' htc' =>
    exact .listening hsrv hheard hu (List.eq_nil_iff_forall_not_mem.mpr fun p hp => by simpa [htc] using htc' p hp)
      fun p hp => hts p (hts' p hp)

/-- The wait for the ACK: the next datagram decides. -/
theorem Session.moves_greeted (hs : Spoken w) (hsrv : w.server = { clientAddr := w.clientAddr, phase := .waitAck })
    (hheard : w.serverHeard = [synPacket]) (h : Unanswered file w) (hm : w.Moves w') : Session file w' := by
  cases hm with
  | act clk => exact .greeted hsrv hheard (h.clientStep (h.client.act clk) fun _ hp => hp)
  | clientTimeout => exact .greeted hsrv hheard (h.clientStep h.client.timeout fun _ hp => hp)
  | clientTakes hi hr => exact .greeted hsrv hheard (h.clientTakes hi)
  | serverTimeout =>
    have hr : w.server.recv .timeout false = (w.server, []) := by rw [hsrv]; rfl
    rw [World.serverDid, hr]
    exact .greeted hsrv hheard (h.keep (fun _ hp => hp) (by simp))
  | network hts htc => exact .greeted hsrv hheard (h.keep hts htc)
  | @serverTakes i q drop hi hrc =>
    have hq := List.mem_of_getElem? hi
    have hh : w.serverHeard ++ [q] = [synPacket, q] := by rw [hheard]; rfl
    cases hack : q.has shamAck with
    | false =>
      have hr : w.server.recv (.datagram w.clientAddr q.toBytes) drop =
          ({ clientAddr := w.clientAddr, phase := .exited 1 }, []) := by
        rw [hsrv, Server.recv_waitAck _ _ rfl, Server.onAck, recvPacket_toBytes]
        simp [hack]
      rw [World.serverTakes, World.serverDid, hr]
      exact .refused rfl hh hack (h.keep (fun _ => Channel.mem_of_mem_take) (by simp))
    | true =>
      have hr : w.server.recv (.datagram w.clientAddr q.toBytes) drop =
          (.transferStart w.clientAddr q.header.seqNum, []) := by
        rw [hsrv, Server.recv_waitAck _ _ rfl, Server.onAck, recvPacket_toBytes]
        simp [hack, Server.transferStart]
      rw [World.serverTakes, World.serverDid, hr]
      have hw : Unanswered file { w with server := .transferStart w.clientAddr q.header.seqNum
                                         toServer := Channel.take w.toServer i
                                         toClient := w.toClient ++ arriving w.clientAddr []
                                         serverHeard := w.serverHeard ++ [q] } :=
        h.keep (fun _ => Channel.mem_of_mem_take) (by simp)
      refine .begun rfl hh hack (by simp [Server.counts, Server.transferStart, RecvBuffer.empty]) ?_
      rcases (hs.said q (hs.toServer q hq)).of_ack hack with ⟨n, rfl⟩ | ⟨hx, pkt, rfl⟩
      · obtain ⟨hc, hb⟩ := h.started hq
        exact .ack rfl (hw.transfer hc hb rfl)
      · have hf := h.client.empty (by simp [Client.fileSent, hx])
        subst hf
        exact .finalAck rfl rfl ⟨hx, fun p hp => (hw.toServer p hp).noData, rfl, rfl⟩

theorem Session.moves (h : Session file w) (hs : Spoken w) (hm : w.Moves w') : Session file w' := by
  cases h with
  | listening hsrv hheard hu htc hts => exact .moves_listening hsrv hheard hu htc hts hm
  | greeted hsrv hheard h => exact .moves_greeted hs hsrv hheard h hm
  | @refused p hsrv hheard hack h =>
    have hx : w.server.phase = .exited 1 := by rw [hsrv]
    have hstop : ∀ a drop, w.server.recv a drop = (w.server, []) := fun a drop => Server.recv_exited a drop hx
    cases hm with
    | act clk => exact .refused hsrv hheard hack (h.clientStep (h.client.act clk) fun _ hp => hp)
    | clientTimeout => exact .refused hsrv hheard hack (h.clientStep h.client.timeout fun _ hp => hp)
    | clientTakes hi hr => exact .refused hsrv hheard hack (h.clientTakes hi)
    | serverTimeout =>
      rw [World.serverDid, hstop]
      exact .refused hsrv hheard hack (h.keep (fun _ hp => hp) (by simp))
    | serverTakes drop hi hr => simp [Server.receiving, hx] at hr
    | network hts htc => exact .refused hsrv hheard hack (h.keep hts htc)
  | @begun p rest hc hheard hack hcount hb =>
    have hb' := hb.moves hs hc hm
    cases hm with
    | act clk => exact .begun hc hheard hack hcount hb'
    | clientTimeout => exact .begun hc hheard hack hcount hb'
    | clientTakes hi hr => exact .begun hc hheard hack hcount hb'
    | serverTimeout =>
      obtain ⟨hc', hcount'⟩ := hcount.recv hc .timeout false
      exact .begun hc' hheard hack hcount' hb'
    | @serverTakes i q drop hi hr =>
      obtain ⟨hc', hcount'⟩ := hcount.recv hc (.datagram w.clientAddr q.toBytes) drop
      have hheard' : w.serverHeard ++ [q] = synPacket :: p :: (rest ++ [q]) := by rw [hheard]; rfl
      exact .begun hc' hheard' hack hcount' hb'
    | network hts htc => exact .begun hc hheard hack hcount hb'

/-- Every run of the two processes. -/
theorem boot_session (ca sa : Sockaddr) (file : List UInt8) (ls : List Label) :
    Spoken ((World.boot ca sa file).run ls) ∧ Session file ((World.boot ca sa file).run ls) :=
  World.run_inv (I := fun w => Spoken w ∧ Session file w) (fun _ _ h hm => ⟨h.1.moves hm, h.2.moves h.1 hm⟩)
    ⟨.boot ca sa file, .listening rfl rfl .booted rfl (by simp [World.boot])⟩ ls

end

/-! ## What the handshake comes to -/

/-- `handle_handshake` has not returned. -/
def Server.handshaking (s : Server) : Bool :=
  match s.phase with
  | .waitSyn | .waitAck => true
  | _ => false

/-- Waiting, or in the data phase from the client's first data byte on. -/
def HandshakeAgrees (w : World) : Prop :=
  w.server.handshaking = true ∨ w.server.connected = true ∧ w.server.counts 101

/-- Where `handle_handshake` is, by the packets of the client that the server has taken. -/
inductive HandshakeOutcome (file : List UInt8) (w : World) : Prop
  | waiting : w.server.handshaking = true → (w.serverHeard = [] ∨ w.serverHeard = [synPacket]) →
      HandshakeOutcome file w
  /-- the first packet after the SYN has no ACK flag -/
  | failed {p : Packet} : w.server.phase = .exited 1 → w.serverHeard = [synPacket, p] → p ∈ w.said →
      p.has shamAck = false → (p = synPacket ∨ p.header.flags = 0 ∨ ∃ n, p = finPacket n) → HandshakeOutcome file w
  /-- the first packet after the SYN has an ACK flag -/
  | returned {p : Packet} {rest : List Packet} : w.server.connected = true → w.serverHeard = synPacket :: p :: rest →
      p ∈ w.said → p.has shamAck = true → (file ≠ [] ∨ (∃ n, p = ackPacket n) → w.server.counts 101) →
      HandshakeOutcome file w

/-- **What the handshake comes to** in every run of the two processes, for any file: the
server waits, or it failed on a packet of the client that is no ACK, or it entered the
data phase on one that is; from the first data byte on whenever the packet is the
handshake's ACK, and always so for a file that is not empty. -/
theorem handshake_outcome (ca sa : Sockaddr) (file : List UInt8) (ls : List Label) :
    HandshakeOutcome file ((World.boot ca sa file).run ls) := by
  obtain ⟨hs, h⟩ := boot_session ca sa file ls
  generalize (World.boot ca sa file).run ls = w at hs h
  cases h with
  | listening hsrv hheard _ _ _ => exact .waiting (by rw [hsrv]; rfl) (.inl hheard)
  | greeted hsrv hheard _ => exact .waiting (by rw [hsrv]; rfl) (.inr hheard)
  | @refused p hsrv hheard hack _ =>
    have hp : p ∈ w.said := hs.heard p (by simp [hheard])
    exact .failed (by rw [hsrv]) hheard hp hack ((hs.said p hp).of_not_ack hack)
  | @begun p rest hc hheard hack hcount hb =>
    refine .returned hc hheard (hs.heard p (by simp [hheard])) hack fun hf => ?_
    cases hb with
    | ack hp _ => subst hp; exact hcount
    | finalAck hp hfile _ =>
      rcases hf with hf | ⟨n, hn⟩
      · exact absurd hfile hf
      · subst hn; exact hcount

/-- The SYN arrives twice. -/
def duplicatedSyn : List Label :=
  [.client {}, .copy .toServer 0, .deliverServer 0 false, .deliverServer 0 false]

/-- All the client sends after its SYN is lost but the final ACK. -/
def lateAck : List Label :=
  [.client {}, .deliverServer 0 false, .deliverClient 0, .client {}, .client {}, .clientTimeout, .client {},
   .client {}, .client {}, .clientTimeout, .clientTimeout, .client {}, .deliverServer 2 false]

theorem handshake_disagrees :
    ¬ HandshakeAgrees ((World.boot ⟨1, 1⟩ ⟨2, 2⟩ [104]).run duplicatedSyn) ∧
    ¬ HandshakeAgrees ((World.boot ⟨1, 1⟩ ⟨2, 2⟩ []).run lateAck) := by
  unfold HandshakeAgrees Server.counts
  decide

end OsNetworks.Sham
