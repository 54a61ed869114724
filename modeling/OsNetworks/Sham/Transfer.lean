/-
The data phase as a whole: `send_file` and what follows it on the client's
side, `handle_data_transfer` on the server's, and the datagrams in flight
between them.

`TransferInv` is the joint invariant of every state reached from the end of
the handshake: what the server holds is the beginning of the file, what is in
flight to it are blocks of the file, and what is in flight to the client
acknowledges no more than the server holds.
-/
import OsNetworks.Sham.World
import OsNetworks.Sham.Sender

namespace OsNetworks.Sham

/-! ## The server's side -/

/-- The server left its loop on a FIN. -/
def Server.left (s : Server) : Prop := s.phase = .waitFinalAck ∨ s.phase = .exited 0

/-- An ACK in flight acknowledges up to a boundary the server has reached, as long as the
server has answered no FIN. -/
def FromServer (file : List UInt8) (s : Server) (p : Packet) : Prop :=
  ¬ s.left → p.has shamAck = true →
    Boundary file.length p.header.ackNum.toNat ∧ p.header.ackNum.toNat ≤ s.nextExpectedSeq.toNat

/-- The state of a server that has begun `handle_data_transfer`. -/
structure ServerInv (file : List UInt8) (addr : Sockaddr) (s : Server) : Prop where
  addr : s.clientAddr = addr
  begun : s.phase = .transfer ∨ s.phase = .waitFinalAck ∨ s.phase = .exited 0 ∨ s.phase = .undefined
  next : Boundary file.length s.nextExpectedSeq.toNat
  buffer : s.recvBuffer.bytes = file.take (s.nextExpectedSeq.toNat - 101)
  whole : s.left → s.nextExpectedSeq.toNat = 101 + file.length
  written : s.receivedFile = if s.phase = .exited 0 ∧ file ≠ [] then some file else none
  /-- only a file longer than the buffer is written past its end -/
  overflow : s.phase = .undefined → recvCapacity < file.length

/-- What a wait of the server that ends with `p` does, the client sending `n` next. -/
structure ServerStep (file : List UInt8) (addr : Sockaddr) (n : Nat) (p : Packet) (s : Server)
    (r : Server × List Outgoing) : Prop where
  inv : ServerInv file addr r.1
  next_mono : s.nextExpectedSeq.toNat ≤ r.1.nextExpectedSeq.toNat
  next_le : r.1.nextExpectedSeq.toNat ≤ n
  left_mono : s.left → r.1.left
  closes : r.1.left → s.left ∨ p.has shamFin = true
  out : ∀ o ∈ r.2, o.dest = addr ∧ FromServer file r.1 o.pkt

section
variable {file : List UInt8} {addr : Sockaddr} {s : Server} {n : Nat}

theorem Server.not_left (h : s.phase = .transfer) : ¬ s.left := by simp [Server.left, h]

theorem FromServer.mono {s' : Server} {p : Packet} (h : FromServer file s p)
    (hn : s.nextExpectedSeq.toNat ≤ s'.nextExpectedSeq.toNat) (hs : s.left → s'.left) : FromServer file s' p := by
  intro hl hack
  obtain ⟨hb, hle⟩ := h (fun hs' => hl (hs hs')) hack
  exact ⟨hb, Nat.le_trans hle hn⟩

theorem take_length_take {α} (l : List α) (k : Nat) : l.take (l.take k).length = l.take k := by
  rw [List.length_take, ← List.take_take, List.take_length]

/-- The bytes held after storing the next block in order. -/
theorem IsBlock.append {p : Packet} (h : IsBlock file p) :
    file.take (p.header.seqNum.toNat - 101) ++ p.data =
      file.take (p.header.seqNum.toNat + p.data.length - 101) := by
  have := h.le
  rw [show p.header.seqNum.toNat + p.data.length - 101 = p.header.seqNum.toNat - 101 + p.data.length by omega,
    List.take_add, h.data, take_length_take]

theorem ServerInv.stay (h : ServerInv file addr s) (hn : s.nextExpectedSeq.toNat ≤ n) (p : Packet) :
    ServerStep file addr n p s (s, []) :=
  ⟨h, Nat.le_refl _, hn, id, .inl, by simp⟩

/-- Writing the file is what is left to do once the loop is over. -/
theorem ServerInv.finish (h : ServerInv file addr s) (hl : s.left) (hn : s.nextExpectedSeq.toNat ≤ n)
    (p : Packet) : ServerStep file addr n p s (s.finish, []) := by
  have hw := h.whole hl
  have hb : s.recvBuffer.bytes = file := by
    rw [h.buffer, hw, Nat.add_sub_cancel_left, List.take_length]
  refine ⟨{ h with begun := by simp [Server.finish], whole := fun _ => hw, written := ?_,
                   overflow := by simp [Server.finish] },
    Nat.le_refl _, hn, fun _ => .inr rfl, fun _ => .inl hl, by simp⟩
  simp only [Server.finish, hb, true_and]
  cases hf : file with
  | cons b bs => simp
  | nil =>
    have := h.written
    simp only [hf, ne_eq, not_true_eq_false, and_false, if_false] at this
    simp [this]

theorem ServerInv.onFin (h : ServerInv file addr s) (hp : s.phase = .transfer) {p : Packet}
    (hfin : p.has shamFin = true) (hw : s.nextExpectedSeq.toNat = 101 + file.length)
    (hn : s.nextExpectedSeq.toNat ≤ n) : ServerStep file addr n p s (s.onFin p) := by
  have hwr : s.receivedFile = none := by simpa [hp] using h.written
  refine ⟨{ h with begun := by simp [Server.onFin], whole := fun _ => hw, written := by simp [Server.onFin, hwr],
                   overflow := by simp [Server.onFin] },
    Nat.le_refl _, hn, fun _ => .inl rfl, fun _ => .inr hfin, ?_⟩
  intro o ho
  refine ⟨?_, fun ht => absurd (.inl rfl) ht⟩
  simp only [Server.onFin, List.mem_cons, List.not_mem_nil, or_false] at ho
  rcases ho with rfl | rfl <;> exact h.addr

theorem ServerInv.append_eq (h : ServerInv file addr s) {p : Packet} (hblock : IsBlock file p)
    (hseq : p.header.seqNum = s.nextExpectedSeq) :
    s.recvBuffer.bytes ++ p.data = file.take (s.nextExpectedSeq.toNat + p.data.length - 101) := by
  have happ := hblock.append
  rw [hseq, ← h.buffer] at happ
  exact happ

/-- A block in order fits the buffer. -/
theorem ServerInv.fits (h : ServerInv file addr s) (hL : file.length ≤ recvCapacity) {p : Packet}
    (hblock : IsBlock file p) (hseq : p.header.seqNum = s.nextExpectedSeq) :
    (s.recvBuffer.bytes ++ p.data).length ≤ recvCapacity := by
  rw [h.append_eq hblock hseq, List.length_take]
  omega

/-- `next_expected_seq` counts what the buffer holds. -/
theorem ServerInv.next_eq (h : ServerInv file addr s) :
    s.nextExpectedSeq.toNat = 101 + s.recvBuffer.bytes.length := by
  have := h.next.1; have := h.next.2.1
  rw [h.buffer, List.length_take]
  omega

theorem ServerInv.next_add (h : ServerInv file addr s) {p : Packet}
    (hle : (s.recvBuffer.bytes ++ p.data).length ≤ recvCapacity) :
    (s.nextExpectedSeq + UInt32.ofNat p.data.length).toNat = s.nextExpectedSeq.toNat + p.data.length := by
  have := h.next_eq
  simp only [List.length_append, recvCapacity] at hle
  exact toNat_add_ofNat (by simp only [UInt32.size]; omega)

/-- What the server does with a block in order that fits: it stores and acknowledges it. -/
theorem ServerInv.onData_eq (h : ServerInv file addr s) {p : Packet} (hseq : p.header.seqNum = s.nextExpectedSeq)
    (hle : (s.recvBuffer.bytes ++ p.data).length ≤ recvCapacity) :
    s.onData p = ({ s with recvBuffer := ⟨s.recvBuffer.bytes ++ p.data, hle⟩
                           nextExpectedSeq := s.nextExpectedSeq + UInt32.ofNat p.data.length },
      [sendPacket addr (dataAck (s.nextExpectedSeq + UInt32.ofNat p.data.length))]) := by
  rw [Server.onData_stored hseq hle, h.addr]

/-- `n` is a boundary past `next_expected_seq`, so not before the next one. -/
theorem ServerInv.next_block_le (h : ServerInv file addr s) {p : Packet} (hblock : IsBlock file p)
    (hseq : p.header.seqNum = s.nextExpectedSeq) (hlt : p.header.seqNum.toNat < n) (hbn : Boundary file.length n) :
    s.nextExpectedSeq.toNat + p.data.length ≤ n := by
  have hd := congrArg List.length hblock.data
  have hle := p.data_le
  have hal := hblock.aligned
  rw [List.length_take, List.length_drop, hseq] at hd
  rw [hseq] at hal hlt
  have := hbn.1; have := hbn.2.1; have := hbn.2.2; have := h.next.1
  simp only [shamDataSize] at hd hle
  omega

/-- Storing a block in order, and acknowledging it. -/
theorem ServerInv.onData_stored (h : ServerInv file addr s) (hp : s.phase = .transfer) {p : Packet}
    (hblock : IsBlock file p) (hseq : p.header.seqNum = s.nextExpectedSeq)
    (hle : (s.recvBuffer.bytes ++ p.data).length ≤ recvCapacity)
    (hlt : p.header.seqNum.toNat < n) (hbn : Boundary file.length n) : ServerStep file addr n p s (s.onData p) := by
  have hnext := h.next_add hle
  have hbd := hblock.boundary
  rw [hseq, ← hnext] at hbd
  rw [h.onData_eq hseq hle]
  have hnl := Server.not_left hp
  refine ⟨⟨h.addr, .inl hp, hbd, ?_, fun hl => absurd hl hnl, ?_, h.overflow⟩, ?_, ?_, fun hl => absurd hl hnl,
    fun hl => absurd hl hnl, ?_⟩
  · show s.recvBuffer.bytes ++ p.data = file.take ((s.nextExpectedSeq + UInt32.ofNat p.data.length).toNat - 101)
    rw [h.append_eq hblock hseq, hnext]
  · simpa [hp] using h.written
  · rw [hnext]; exact Nat.le_add_right _ _
  · rw [hnext]; exact h.next_block_le hblock hseq hlt hbn
  · intro o ho
    obtain rfl := List.mem_singleton.mp ho
    exact ⟨rfl, fun _ _ => ⟨hbd, Nat.le_refl _⟩⟩

/-- A block in order that does not fit leaves nothing defined. -/
theorem ServerInv.onData_overflow (h : ServerInv file addr s) (hp : s.phase = .transfer) {p : Packet}
    (hblock : IsBlock file p) (hseq : p.header.seqNum = s.nextExpectedSeq)
    (hgt : ¬ (s.recvBuffer.bytes ++ p.data).length ≤ recvCapacity) (hn : s.nextExpectedSeq.toNat ≤ n) :
    ServerStep file addr n p s (s.onData p) := by
  have hwr : s.receivedFile = none := by simpa [hp] using h.written
  have hnl : ¬ ({ s with phase := .undefined } : Server).left := by simp [Server.left]
  rw [Server.onData_overflow hseq hgt]
  refine ⟨⟨h.addr, .inr (.inr (.inr rfl)), h.next, h.buffer, fun hl => absurd hl hnl, by simp [hwr], fun _ => ?_⟩,
    Nat.le_refl _, hn, fun hl => absurd hl (Server.not_left hp), fun hl => absurd hl hnl, by simp⟩
  rw [h.append_eq hblock hseq, List.length_take] at hgt
  omega

theorem ServerInv.onData (h : ServerInv file addr s) (hp : s.phase = .transfer) {p : Packet}
    (hblock : IsBlock file p) (hlt : p.header.seqNum.toNat < n) (hbn : Boundary file.length n)
    (hn : s.nextExpectedSeq.toNat ≤ n) : ServerStep file addr n p s (s.onData p) := by
  by_cases hseq : p.header.seqNum = s.nextExpectedSeq
  · by_cases hle : (s.recvBuffer.bytes ++ p.data).length ≤ recvCapacity
    · exact h.onData_stored hp hblock hseq hle hlt hbn
    · exact h.onData_overflow hp hblock hseq hle hn
  · rw [Server.onData_ignored hseq]
    exact h.stay hn p

/-- A wait that ends without a datagram. -/
theorem ServerInv.timeout_step (h : ServerInv file addr s) (hn : s.nextExpectedSeq.toNat ≤ n) :
    ServerStep file addr n zeroed s (s.recv .timeout false) := by
  rcases h.begun with hp | hp | hp | hp
  · rw [Server.recv_transfer _ _ hp]
    exact h.stay hn zeroed
  · rw [Server.recv_waitFinalAck _ _ hp]
    exact h.finish (.inl hp) hn zeroed
  · rw [Server.recv_exited _ _ hp]
    exact h.stay hn zeroed
  · rw [Server.recv_undefined _ _ hp]
    exact h.stay hn zeroed

/-- Receiving one of the client's packets keeps the server's side, provided a FIN comes
only when the server holds the whole file. -/
theorem ServerInv.recv_step (h : ServerInv file addr s) {p : Packet}
    (hblock : p.data ≠ [] → IsBlock file p ∧ p.header.seqNum.toNat < n)
    (hfin : p.has shamFin = true → s.nextExpectedSeq.toNat = 101 + file.length)
    (hbn : Boundary file.length n) (hn : s.nextExpectedSeq.toNat ≤ n) (drop : Bool) :
    ServerStep file addr n p s (s.recv (.datagram addr p.toBytes) drop) := by
  have hs : ({ s with clientAddr := addr } : Server) = s := by rw [← h.addr]
  rcases h.begun with hp | hp | hp | hp
  · rw [Server.recv_transfer _ _ hp, Server.handleDataTransfer, recvPacket_toBytes]
    simp only [hs]
    split
    next hf => exact h.onFin hp hf (hfin hf) hn
    next hf =>
      split
      · exact h.stay hn p
      · split
        next hpos =>
          obtain ⟨hb, hlt⟩ := hblock (List.length_pos_iff.mp hpos)
          exact h.onData hp hb hlt hbn hn
        next => exact h.stay hn p
  · rw [Server.recv_waitFinalAck _ _ hp, Server.onFinalAck, recvPacket_toBytes]
    simp only [hs]
    exact h.finish (.inl hp) hn p
  · rw [Server.recv_exited _ _ hp]
    exact h.stay hn p
  · rw [Server.recv_undefined _ _ hp]
    exact h.stay hn p

/-- A wait that ends without a datagram sends nothing and stores nothing. -/
theorem ServerInv.recv_timeout (h : ServerInv file addr s) :
    (s.recv .timeout false).1.nextExpectedSeq = s.nextExpectedSeq ∧ (s.recv .timeout false).2 = [] := by
  rcases h.begun with hp | hp | hp | hp
  · rw [Server.recv_transfer _ _ hp]; exact ⟨rfl, rfl⟩
  · rw [Server.recv_waitFinalAck _ _ hp]; exact ⟨rfl, rfl⟩
  · rw [Server.recv_exited _ _ hp]; exact ⟨rfl, rfl⟩
  · rw [Server.recv_undefined _ _ hp]; exact ⟨rfl, rfl⟩

/-- Only data that is next in order moves `next_expected_seq`. -/
theorem ServerInv.recv_next (h : ServerInv file addr s) {p : Packet} (src : Sockaddr) (drop : Bool)
    (hp : p.data ≠ [] → p.header.seqNum ≠ s.nextExpectedSeq) :
    (s.recv (.datagram src p.toBytes) drop).1.nextExpectedSeq = s.nextExpectedSeq := by
  rcases h.begun with hph | hph | hph | hph
  · rw [Server.recv_transfer _ _ hph]
    have hr := s.handleDataTransfer_transfers (.datagram src p.toBytes) drop
    generalize s.handleDataTransfer (.datagram src p.toBytes) drop = r at hr
    cases hr with
    | quiet => rfl
    | cut => rfl
    | fin => rfl
    | data hpkt _ _ hd hseq =>
      rw [recvPacket_toBytes] at hpkt
      cases hpkt
      exact absurd hseq (hp hd)
  · rw [Server.recv_waitFinalAck _ _ hph]; rfl
  · rw [Server.recv_exited _ _ hph]
  · rw [Server.recv_undefined _ _ hph]

end

/-! ## Both sides together -/

/-- A world at the start of the data phase: both sides have done the handshake, and the
network may still hold datagrams of it. -/
structure Started (file : List UInt8) (w : World) : Prop where
  client : ∃ peerWindow, w.client = .sendStart w.serverAddr peerWindow file
  server : w.server = { clientAddr := w.clientAddr, nextExpectedSeq := 101, phase := .transfer }
  toServer : ∀ p ∈ w.toServer, p = synPacket ∨ p = ackPacket serverSeq
  toClient : ∀ p ∈ w.toClient, p = synAckPacket initialSeq

/-- The data phase of `file` about to begin, over an empty network. -/
def World.established (clientAddr serverAddr : Sockaddr) (file : List UInt8) : World :=
  { clientAddr, serverAddr, client := .sendStart serverAddr receiverWindow file,
    server := { clientAddr, nextExpectedSeq := 101, phase := .transfer } }

theorem established_started (ca sa : Sockaddr) (file : List UInt8) : Started file (.established ca sa file) :=
  ⟨⟨receiverWindow, rfl⟩, rfl, by simp [World.established], by simp [World.established]⟩

/-- The joint invariant of the data phase. -/
structure TransferInv (file : List UInt8) (w : World) : Prop where
  client : ClientInv file w.serverAddr w.client
  server : ServerInv file w.clientAddr w.server
  base_le : w.client.windowBase.toNat ≤ w.server.nextExpectedSeq.toNat
  expected_le : w.server.nextExpectedSeq.toNat ≤ w.client.nextSeqNum.toNat
  toServer : ∀ p ∈ w.toServer, FromClient file w.client p
  toClient : ∀ p ∈ w.toClient, FromServer file w.server p
  closed : w.server.left → w.client.fileSent = true

section
variable {file : List UInt8} {w w' : World}

theorem ServerInv.start (file : List UInt8) (addr : Sockaddr) : ServerInv file addr (.transferStart addr 101) :=
  ⟨rfl, .inl rfl, by simp [Boundary, Server.transferStart], by simp [Server.transferStart, RecvBuffer.empty],
    by simp [Server.transferStart, Server.left], by simp [Server.transferStart], by simp [Server.transferStart]⟩

theorem FromServer.synAck (file : List UInt8) (addr : Sockaddr) :
    FromServer file (.transferStart addr 101) (synAckPacket initialSeq) := fun _ _ =>
  ⟨by simp [Boundary, synAckPacket, initialSeq], by simp [synAckPacket, initialSeq, Server.transferStart]⟩

theorem Started.inv (h : Started file w) : TransferInv file w := by
  obtain ⟨pw, hc⟩ := h.client
  have hs : w.server = .transferStart w.clientAddr 101 := h.server
  refine ⟨hc ▸ .sendStart file w.serverAddr pw, hs ▸ .start file w.clientAddr, ?_, ?_, fun p hp => .inl ?_,
    fun p hp => ?_, ?_⟩
  · simp [hc, hs, Client.sendStart, Server.transferStart]
  · simp [hc, hs, Client.sendStart, Server.transferStart]
  · rcases h.toServer p hp with rfl | rfl
    · exact ⟨rfl, rfl⟩
    · exact ⟨rfl, rfl⟩
  · rw [h.toClient p hp, hs]
    exact .synAck file w.clientAddr
  · simp [hs, Server.transferStart, Server.left]

/-- The joint invariant after the client moved. -/
theorem TransferInv.clientStep (h : TransferInv file w) {r : Client × List Outgoing}
    (hr : ClientStep file w.serverAddr w.server.nextExpectedSeq.toNat w.client r)
    {tc said heard : List Packet} (htc : ∀ p ∈ tc, p ∈ w.toClient) :
    TransferInv file { w with client := r.1, toServer := w.toServer ++ arriving w.serverAddr r.2, toClient := tc,
                              said := said, clientHeard := heard } := by
  refine ⟨hr.inv, h.server, hr.base_le, Nat.le_trans h.expected_le hr.next_mono,
    forall_arrived (fun p hp => ?_) fun o ho => (hr.out o ho).2,
    fun p hp => h.toClient p (htc p hp), fun hc => hr.sent_mono (h.closed hc)⟩
  exact (h.toServer p hp).mono hr.next_mono hr.sent_mono

/-- The joint invariant after the server moved. -/
theorem TransferInv.serverStep (h : TransferInv file w) {p : Packet} {r : Server × List Outgoing}
    (hr : ServerStep file w.clientAddr w.client.nextSeqNum.toNat p w.server r)
    (hfin : p.has shamFin = true → w.client.fileSent = true)
    {ts heard : List Packet} (hts : ∀ p ∈ ts, p ∈ w.toServer) :
    TransferInv file { w with server := r.1, toClient := w.toClient ++ arriving w.clientAddr r.2, toServer := ts,
                              serverHeard := heard } := by
  refine ⟨h.client, hr.inv, Nat.le_trans h.base_le hr.next_mono, hr.next_le, fun q hq => h.toServer q (hts q hq),
    forall_arrived (fun q hq => ?_) fun o ho => (hr.out o ho).2, fun hc => ?_⟩
  · exact (h.toClient q hq).mono hr.next_mono hr.left_mono
  · rcases hr.closes hc with hc | hf
    · exact h.closed hc
    · exact hfin hf

/-- Once `send_file` has returned 0 the server holds the whole file. -/
theorem TransferInv.whole (h : TransferInv file w) (hs : w.client.fileSent = true) :
    w.server.nextExpectedSeq.toNat = 101 + file.length := by
  obtain ⟨hd, hb⟩ := h.client.sent hs
  have := h.client.done hd; have := h.base_le; have := h.expected_le
  rw [hb] at *
  omega

theorem TransferInv.not_left (h : TransferInv file w) (hs : w.client.fileSent = false) : ¬ w.server.left := by
  intro hl
  rw [h.closed hl] at hs
  cases hs

/-- A file that fits the buffer leaves the server no way out of its loop but the FIN. -/
theorem TransferInv.left (h : TransferInv file w) (hL : file.length ≤ recvCapacity)
    (hp : w.server.phase ≠ .transfer) : w.server.left := by
  rcases h.server.begun with h' | h' | h' | h'
  · exact absurd h' hp
  · exact .inl h'
  · exact .inr h'
  · exact absurd (h.server.overflow h') (Nat.not_lt.mpr hL)

/-- What the client may receive inside `send_file`. -/
theorem TransferInv.ack_ok (h : TransferInv file w) {p : Packet} (hp : p ∈ w.toClient)
    (hs : w.client.sending = true) (hack : p.has shamAck = true) :
    Boundary file.length p.header.ackNum.toNat ∧ p.header.ackNum.toNat ≤ w.server.nextExpectedSeq.toNat :=
  h.toClient p hp (h.not_left (sending_not_fileSent hs)) hack

/-- The window keeps `next_seq_num` close to what the server's buffer can hold. -/
theorem TransferInv.low (h : TransferInv file w) : w.client.low := by
  have := h.server.next_eq; have := h.base_le; have := h.client.window_le; have := w.server.recvBuffer.le
  unfold Client.low
  omega

theorem TransferInv.fin_sent (h : TransferInv file w) {p : Packet} (hp : p ∈ w.toServer)
    (hf : p.has shamFin = true) : w.client.fileSent = true := by
  rcases h.toServer p hp with ⟨-, h'⟩ | ⟨hb, -⟩ | ⟨-, hs⟩
  · rw [hf] at h'; cases h'
  · rw [hb.has_eq] at hf; cases hf
  · exact hs

theorem TransferInv.block_of_data (h : TransferInv file w) {p : Packet} (hp : p ∈ w.toServer) (hd : p.data ≠ []) :
    IsBlock file p ∧ p.header.seqNum.toNat < w.client.nextSeqNum.toNat := by
  rcases h.toServer p hp with ⟨h', -⟩ | hb | ⟨h', -⟩
  · exact absurd h' hd
  · exact hb
  · exact absurd h' hd

/-- The server's step for a packet in flight. -/
theorem TransferInv.server_recv (h : TransferInv file w) {p : Packet} (hp : p ∈ w.toServer) (drop : Bool) :
    ServerStep file w.clientAddr w.client.nextSeqNum.toNat p w.server
      (w.server.recv (.datagram w.clientAddr p.toBytes) drop) :=
  h.server.recv_step (h.block_of_data hp) (fun hf => h.whole (h.fin_sent hp hf)) h.client.next h.expected_le drop

/-- The client's step for a packet in flight. -/
theorem TransferInv.client_recv (h : TransferInv file w) {p : Packet} (hp : p ∈ w.toClient) :
    ClientStep file w.serverAddr w.server.nextExpectedSeq.toNat w.client
      (w.client.recv (.datagram w.serverAddr p.toBytes)) :=
  h.client.recv_step h.base_le h.expected_le (h.ack_ok hp)

/-- **Every move keeps the joint invariant.** -/
theorem TransferInv.moves (h : TransferInv file w) (hm : w.Moves w') :
    TransferInv file w' := by
  cases hm with
  | act clk => exact h.clientStep (h.client.act_step h.low h.base_le clk) fun _ hp => hp
  | clientTimeout => exact h.clientStep (h.client.timeout_step h.base_le) fun _ hp => hp
  | serverTimeout =>
    exact h.serverStep (h.server.timeout_step h.expected_le) (by simp [zeroed]) fun _ hp => hp
  | clientTakes hi hr =>
    exact h.clientStep (h.client_recv (List.mem_of_getElem? hi)) fun _ => Channel.mem_of_mem_take
  | serverTakes drop hi hr =>
    have hp := List.mem_of_getElem? hi
    exact h.serverStep (h.server_recv hp drop) (h.fin_sent hp) fun _ => Channel.mem_of_mem_take
  | network hts htc =>
    exact ⟨h.client, h.server, h.base_le, h.expected_le, fun p hp => h.toServer p (hts p hp),
      fun p hp => h.toClient p (htc p hp), h.closed⟩

theorem Started.run_inv (h : Started file w) (ls : List Label) : TransferInv file (w.run ls) :=
  World.run_inv (fun _ _ hi hm => hi.moves hm) h.inv ls

end

end OsNetworks.Sham
