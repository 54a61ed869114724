/-
The client of `client.c` in file mode as a state machine: `perform_handshake`,
`send_file`, `perform_termination` and the part of `main` that chains them.

A state is the program between two of its statements. `Client.act` takes the
next statement that does not read the socket, `Client.recv` completes the call
of `recv_packet_timeout` the client is waiting in; both give the datagrams
handed to `sendto` on the way. What the program reads of its surroundings is
an input: the arriving datagram, and every result of `gettimeofday`, so that
no assumption about the clock is made.
-/
import OsNetworks.Sham.Packet

namespace OsNetworks.Sham

/-! ## Time -/

structure Timeval where
  sec : Int := 0
  usec : Int := 0
  deriving DecidableEq, Repr

/-- `is_timeout`, `now` being what `gettimeofday` returns. -/
def isTimeout (now sentTime : Timeval) (timeoutMs : Int) : Bool :=
  let elapsedMs := (now.sec - sentTime.sec) * 1000 + (now.usec - sentTime.usec).tdiv 1000
  elapsedMs ≥ timeoutMs

/-- The two clock readings one statement may make: in `is_timeout`, and for a `send_time`. -/
structure Clock where
  now : Timeval := {}
  stamp : Timeval := {}
  deriving DecidableEq, Repr

/-! ## State -/

/-- `struct packet_window`; `data_len` is the length of the packet's data. -/
structure PacketWindow where
  packet : Packet := zeroed
  sendTime : Timeval := {}
  retries : Nat := 0
  acked : Bool := false
  deriving DecidableEq, Repr

/-- The statement the client is at. In `perform_termination` the packet buffer goes along. -/
inductive ClientPhase
  | sendSyn
  | waitSynAck
  /-- the condition of the outer loop of `send_file` -/
  | loopHead
  /-- the loop sending new packets -/
  | filling
  /-- waiting for an ACK -/
  | waiting
  /-- the retransmission loop at position `i` -/
  | scanning (i : Nat)
  /-- the test at the end of the outer loop -/
  | checking
  | sendFin
  | waitFinAck (pkt : Packet)
  | waitFin (pkt : Packet)
  | sendFinalAck (pkt : Packet)
  /-- `main` returned `status` -/
  | exited (status : Nat)
  deriving DecidableEq, Repr

structure Client where
  serverAddr : Sockaddr
  window : Vector PacketWindow shamWindowSize := Vector.replicate shamWindowSize {}
  windowBase : UInt32 := 0
  nextSeqNum : UInt32 := 0
  peerWindow : UInt16 := 65535
  /-- `ftell` at the end of the file -/
  fileSize : Nat
  /-- the bytes `fread` has not returned yet -/
  unread : List UInt8
  doneSending : Bool := false
  phase : ClientPhase

/-- The client with the server's address and the file to send. -/
def Client.start (serverAddr : Sockaddr) (file : List UInt8) : Client :=
  { serverAddr, fileSize := file.length, unread := file, phase := .sendSyn }

/-- `window[i]`. -/
def Client.slot (c : Client) (i : Fin shamWindowSize) : PacketWindow := c.window[i]

def Client.setSlot (c : Client) (i : Fin shamWindowSize) (entry : PacketWindow) : Client :=
  { c with window := c.window.set i entry }

theorem slot_setSlot (c : Client) (i j : Fin shamWindowSize) (entry : PacketWindow) :
    (c.setSlot i entry).slot j = if i = j then entry else c.slot j := by
  simp only [Client.slot, Client.setSlot, Fin.getElem_fin, Vector.getElem_set, Fin.ext_iff]

/-- The client as `send_file` begins, right after a handshake that left `peerWindow`. -/
def Client.sendStart (serverAddr : Sockaddr) (peerWindow : UInt16) (file : List UInt8) : Client :=
  { serverAddr, peerWindow, windowBase := 101, nextSeqNum := 101, fileSize := file.length, unread := file,
    phase := .loopHead }

/-! ## perform_handshake -/

def initialSeq : UInt32 := 100

def synPacket : Packet := control { seqNum := initialSeq, flags := shamSyn, windowSize := 65535 }

/-- The last packet of the handshake, answering the SYN-ACK of sequence number `serverSeq`. -/
def ackPacket (serverSeq : UInt32) : Packet :=
  control { seqNum := initialSeq + 1, ackNum := serverSeq + 1, flags := shamAck, windowSize := 65535 }

def Client.sendSyn (c : Client) : Client × List Outgoing :=
  ({ c with phase := .waitSynAck }, [sendPacket c.serverAddr synPacket])

/-- The rest of `perform_handshake`, once `recv_packet_timeout` returns, and the start of
`send_file`. Without a SYN-ACK `main` returns 1. -/
def Client.onSynAck (a : Arrival) (c : Client) : Client × List Outgoing :=
  let (ret, serverAddr) := recvPacketTimeout a c.serverAddr
  match ret with
  | .packet pkt =>
    if !pkt.has shamSyn || !pkt.has shamAck then ({ c with serverAddr, phase := .exited 1 }, [])
    else
      ({ c with serverAddr
                peerWindow := pkt.header.windowSize
                nextSeqNum := initialSeq + 1
                windowBase := initialSeq + 1
                window := Vector.replicate shamWindowSize {}
                phase := .loopHead },
        [sendPacket serverAddr (ackPacket pkt.header.seqNum)])
  | _ => ({ c with serverAddr, phase := .exited 1 }, [])

/-! ## send_file -/

/-- `while (window_base < next_seq_num + (uint32_t)file_size || !done_sending)`. -/
def Client.loopHead (c : Client) : Client :=
  if c.windowBase < c.nextSeqNum + UInt32.ofNat c.fileSize || !c.doneSending then { c with phase := .filling }
  else { c with phase := .sendFin }

/-- The window slot of a sequence number `offset` bytes past `window_base`. -/
def winIdx (offset : UInt32) : Fin shamWindowSize :=
  ⟨offset.toNat / shamDataSize % shamWindowSize, Nat.mod_lt _ (by decide)⟩

/-- The packet carrying the bytes `fread` put into `buffer`. -/
def dataPacket (seqNum : UInt32) (buffer : List UInt8) (h : buffer.length ≤ shamDataSize) : Packet :=
  ⟨{ seqNum, flags := 0, windowSize := 65535 }, buffer, h⟩

/-- The packet for what the next `fread` returns. -/
def Client.nextPacket (c : Client) : Packet :=
  dataPacket c.nextSeqNum (c.unread.take shamDataSize) (List.length_take_le _ _)

/-- Filling the window slot of the next packet and sending it. -/
def Client.sendNext (now : Timeval) (c : Client) : Client × List Outgoing :=
  let idx := winIdx (c.nextSeqNum - c.windowBase)
  ({ c.setSlot idx { packet := c.nextPacket, sendTime := now } with
      nextSeqNum := c.nextSeqNum + UInt32.ofNat c.nextPacket.data.length
      unread := c.unread.drop shamDataSize },
    [sendPacket c.serverAddr c.nextPacket])

/-- `next_seq_num - window_base`, the bytes sent and not yet acknowledged. -/
def Client.inFlight (c : Client) : Nat := (c.nextSeqNum - c.windowBase).toNat

/-- One round of the loop sending new packets. -/
def Client.fill (now : Timeval) (c : Client) : Client × List Outgoing :=
  if !c.doneSending && decide (c.inFlight < shamWindowSize * shamDataSize) then
    if c.unread.take shamDataSize = [] then ({ c with doneSending := true, phase := .waiting }, [])
    else c.sendNext now
  else ({ c with phase := .waiting }, [])

/-- The handling of what `recv_packet_timeout` returned while waiting for ACKs. -/
def Client.onAck (a : Arrival) (c : Client) : Client :=
  let (ret, serverAddr) := recvPacketTimeout a c.serverAddr
  let c := { c with serverAddr, phase := .scanning 0 }
  match ret with
  | .packet ackPkt =>
    if ackPkt.has shamAck then
      { c with windowBase := if ackPkt.header.ackNum > c.windowBase then ackPkt.header.ackNum else c.windowBase
               peerWindow := ackPkt.header.windowSize }
    else c
  | _ => c

/-- The sequence number the retransmission loop looks at in its round `i`. -/
def Client.pktSeq (c : Client) (i : Nat) : UInt32 := c.windowBase + UInt32.ofNat (i * shamDataSize)

/-- The slot the retransmission loop looks at in its round `i`. -/
def Client.scanIdx (c : Client) (i : Nat) : Fin shamWindowSize := winIdx (c.pktSeq i - c.windowBase)

/-- Sending the packet of slot `idx` again. -/
def Client.resend (stamp : Timeval) (idx : Fin shamWindowSize) (c : Client) : Client × List Outgoing :=
  let entry := c.slot idx
  (c.setSlot idx { entry with sendTime := stamp, retries := entry.retries + 1 }, [sendPacket c.serverAddr entry.packet])

/-- Round `i` of the retransmission loop. Out of retries, `send_file` returns -1 and
`main` returns 1. -/
def Client.scan (clk : Clock) (i : Nat) (c : Client) : Client × List Outgoing :=
  if shamWindowSize ≤ i ∨ c.pktSeq i ≥ c.nextSeqNum then ({ c with phase := .checking }, [])
  else if c.pktSeq i < c.windowBase then ({ c with phase := .scanning (i + 1) }, [])
  else
    let entry := c.slot (c.scanIdx i)
    if !entry.acked && isTimeout clk.now entry.sendTime shamTimeoutMs then
      if entry.retries ≥ shamMaxRetries then ({ c with phase := .exited 1 }, [])
      else { c with phase := .scanning (i + 1) }.resend clk.stamp (c.scanIdx i)
    else ({ c with phase := .scanning (i + 1) }, [])

/-- The test closing the outer loop: `send_file` returns 0 or goes round again. -/
def Client.check (c : Client) : Client :=
  if c.doneSending && decide (c.windowBase ≥ c.nextSeqNum) then { c with phase := .sendFin }
  else { c with phase := .loopHead }

/-! ## perform_termination -/

def finPacket (seqNum : UInt32) : Packet := control { seqNum, flags := shamFin, windowSize := 65535 }

/-- The packet answering the server's FIN, built in the buffer `pkt` that received it:
the buffer is cleared first. -/
def finalAck (_pkt : Packet) : Packet :=
  let pkt := zeroed
  control { pkt.header with ackNum := pkt.header.seqNum + 1, flags := shamAck, windowSize := 65535 }

def Client.sendFin (c : Client) : Client × List Outgoing :=
  ({ c with phase := .waitFinAck (finPacket c.nextSeqNum) }, [sendPacket c.serverAddr (finPacket c.nextSeqNum)])

/-- A wait whose result is ignored: the buffer keeps what it held unless a packet came. -/
def Client.ignoreResult (a : Arrival) (c : Client) (pkt : Packet) (next : Packet → ClientPhase) : Client :=
  let (ret, serverAddr) := recvPacketTimeout a c.serverAddr
  match ret with
  | .packet pkt' => { c with serverAddr, phase := next pkt' }
  | _ => { c with serverAddr, phase := next pkt }

def Client.sendFinalAck (c : Client) (pkt : Packet) : Client × List Outgoing :=
  ({ c with phase := .exited 0 }, [sendPacket c.serverAddr (finalAck pkt)])

/-! ## The machine -/

/-- The client's next statement, where it does not wait for a datagram. -/
def Client.act (clk : Clock) (c : Client) : Client × List Outgoing :=
  match c.phase with
  | .sendSyn => c.sendSyn
  | .loopHead => (c.loopHead, [])
  | .filling => c.fill clk.stamp
  | .scanning i => c.scan clk i
  | .checking => (c.check, [])
  | .sendFin => c.sendFin
  | .sendFinalAck pkt => c.sendFinalAck pkt
  | _ => (c, [])

/-- The client's next statement, where it waits for a datagram. -/
def Client.recv (a : Arrival) (c : Client) : Client × List Outgoing :=
  match c.phase with
  | .waitSynAck => c.onSynAck a
  | .waiting => (c.onAck a, [])
  | .waitFinAck pkt => (c.ignoreResult a pkt .waitFin, [])
  | .waitFin pkt => (c.ignoreResult a pkt .sendFinalAck, [])
  | _ => (c, [])

/-- The client waits in `recv_packet_timeout`. -/
def Client.receiving (c : Client) : Bool :=
  match c.phase with
  | .waitSynAck | .waiting | .waitFinAck _ | .waitFin _ => true
  | _ => false

/-- `send_file` has returned 0. -/
def Client.fileSent (c : Client) : Bool :=
  match c.phase with
  | .sendFin | .waitFinAck _ | .waitFin _ | .sendFinalAck _ | .exited 0 => true
  | _ => false

/-- The client is inside `send_file`. -/
def Client.sending (c : Client) : Bool :=
  match c.phase with
  | .loopHead | .filling | .waiting | .scanning _ | .checking => true
  | _ => false

/-- What the client takes as one step on its own: a clock or an arrival. -/
inductive ClientInput
  | act (clk : Clock)
  | recv (a : Arrival)

def Client.step (c : Client) : ClientInput → Client × List Outgoing
  | .act clk => c.act clk
  | .recv a => c.recv a

end OsNetworks.Sham
