/-
The server of `server.c` in file mode as a state machine: `handle_handshake`,
`handle_data_transfer` and the part of `main` that chains them.

Every state is a wait in `recv_packet`, so one step completes that call and
runs to the next one. Besides the arrival a step reads what
`should_drop_packet` answers if the step calls it.
-/
import OsNetworks.Sham.Packet

namespace OsNetworks.Sham

/-- `sizeof(recv_buffer)`. -/
abbrev recvCapacity : Nat := 10 * 1024 * 1024

/-- The bytes `recv_buffer[0 .. recv_buffer_size)`; they lie inside the array. -/
@[ext] structure RecvBuffer where
  bytes : List UInt8
  le : bytes.length ≤ recvCapacity
  deriving DecidableEq, Repr

def RecvBuffer.empty : RecvBuffer := ⟨[], by simp⟩

/-- `memcpy(recv_buffer + recv_buffer_size, data, data_len)` with the new size, or `none`
where it would write past the array. -/
def RecvBuffer.memcpy (b : RecvBuffer) (data : List UInt8) : Option RecvBuffer :=
  if h : (b.bytes ++ data).length ≤ recvCapacity then some ⟨b.bytes ++ data, h⟩ else none

/-- `receiver_window`, which no statement assigns. -/
def receiverWindow : UInt16 := 65535

/-- Which call of `recv_packet` the server is in. -/
inductive ServerPhase
  | waitSyn
  | waitAck
  /-- the loop of `handle_data_transfer` -/
  | transfer
  | waitFinalAck
  /-- `main` returned `status` -/
  | exited (status : Nat)
  /-- after a write outside `recv_buffer`: the C program's behaviour is undefined -/
  | undefined
  deriving DecidableEq, Repr

structure Server where
  clientAddr : Sockaddr := {}
  recvBuffer : RecvBuffer := .empty
  nextExpectedSeq : UInt32 := 0
  phase : ServerPhase := .waitSyn
  /-- what was written to `received_file`, when it was -/
  receivedFile : Option (List UInt8) := none
  deriving DecidableEq, Repr

/-! ## handle_handshake -/

def serverSeq : UInt32 := 5000

def synAckPacket (clientSeq : UInt32) : Packet :=
  control { seqNum := serverSeq, ackNum := clientSeq + 1, flags := shamSyn ||| shamAck,
            windowSize := receiverWindow }

/-- The wait for a SYN. `main` returns 1 when `handle_handshake` fails. -/
def Server.onSyn (a : Arrival) (s : Server) : Server × List Outgoing :=
  let (ret, clientAddr) := recvPacket a s.clientAddr
  match ret with
  | .timeout => ({ s with clientAddr }, [])
  | .invalid => ({ s with clientAddr, phase := .exited 1 }, [])
  | .packet pkt =>
    if !pkt.has shamSyn then ({ s with clientAddr, phase := .exited 1 }, [])
    else ({ s with clientAddr, phase := .waitAck }, [sendPacket clientAddr (synAckPacket pkt.header.seqNum)])

/-- The wait for the ACK that ends the handshake. -/
def Server.onAck (a : Arrival) (s : Server) : Server × List Outgoing :=
  let (ret, clientAddr) := recvPacket a s.clientAddr
  match ret with
  | .timeout => ({ s with clientAddr }, [])
  | .invalid => ({ s with clientAddr, phase := .exited 1 }, [])
  | .packet pkt =>
    if !pkt.has shamAck then ({ s with clientAddr, phase := .exited 1 }, [])
    else ({ s with clientAddr, nextExpectedSeq := pkt.header.seqNum, phase := .transfer }, [])

/-! ## handle_data_transfer -/

/-- An ACK of the data phase. -/
def dataAck (ackNum : UInt32) : Packet :=
  control { ackNum, flags := shamAck, windowSize := receiverWindow }

@[simp] theorem dataAck_has_ack (ackNum : UInt32) : (dataAck ackNum).has shamAck = true := by
  simp [dataAck, shamAck]

def serverFin (seqNum : UInt32) : Packet :=
  control { seqNum, flags := shamFin, windowSize := receiverWindow }

/-- What follows the loop: received data is written to the file, and `main` returns 0. -/
def Server.finish (s : Server) : Server :=
  { s with receivedFile := if s.recvBuffer.bytes.length > 0 then some s.recvBuffer.bytes else s.receivedFile
           phase := .exited 0 }

/-- The loop body for a FIN, up to the wait for the final ACK. -/
def Server.onFin (pkt : Packet) (s : Server) : Server × List Outgoing :=
  ({ s with phase := .waitFinalAck },
    [sendPacket s.clientAddr (dataAck (pkt.header.seqNum + 1)),
     sendPacket s.clientAddr (serverFin s.nextExpectedSeq)])

/-- The loop body for a data packet: stored and acknowledged if it is the next in order. -/
def Server.onData (pkt : Packet) (s : Server) : Server × List Outgoing :=
  if pkt.header.seqNum = s.nextExpectedSeq then
    match s.recvBuffer.memcpy pkt.data with
    | none => ({ s with phase := .undefined }, [])
    | some recvBuffer =>
      let nextExpectedSeq := s.nextExpectedSeq + UInt32.ofNat pkt.data.length
      ({ s with recvBuffer, nextExpectedSeq }, [sendPacket s.clientAddr (dataAck nextExpectedSeq)])
  else (s, [])

/-- One round of the loop of `handle_data_transfer`; `drop` is what `should_drop_packet`
answers. -/
def Server.handleDataTransfer (a : Arrival) (drop : Bool) (s : Server) : Server × List Outgoing :=
  let (ret, clientAddr) := recvPacket a s.clientAddr
  let s := { s with clientAddr }
  match ret with
  | .timeout => (s, [])
  | .invalid => (s.finish, [])
  | .packet pkt =>
    if pkt.has shamFin then s.onFin pkt
    else if drop && decide (pkt.data.length > 0) then (s, [])
    else if pkt.data.length > 0 then s.onData pkt
    else (s, [])

/-- The wait for the final ACK, whose result is ignored. -/
def Server.onFinalAck (a : Arrival) (s : Server) : Server :=
  { s with clientAddr := (recvPacket a s.clientAddr).2 }.finish

/-! ## The machine -/

/-- The server's next step: `recv_packet` returns what arrived. -/
def Server.recv (a : Arrival) (drop : Bool) (s : Server) : Server × List Outgoing :=
  match s.phase with
  | .waitSyn => s.onSyn a
  | .waitAck => s.onAck a
  | .transfer => s.handleDataTransfer a drop
  | .waitFinalAck => (s.onFinalAck a, [])
  | .exited _ | .undefined => (s, [])

section
variable {s : Server} (a : Arrival) (drop : Bool)

theorem Server.recv_waitSyn (h : s.phase = .waitSyn) : s.recv a drop = s.onSyn a := by
  simp only [Server.recv, h]

theorem Server.recv_waitAck (h : s.phase = .waitAck) : s.recv a drop = s.onAck a := by
  simp only [Server.recv, h]

theorem Server.recv_transfer (h : s.phase = .transfer) : s.recv a drop = s.handleDataTransfer a drop := by
  simp only [Server.recv, h]

theorem Server.recv_waitFinalAck (h : s.phase = .waitFinalAck) : s.recv a drop = (s.onFinalAck a, []) := by
  simp only [Server.recv, h]

theorem Server.recv_exited {k : Nat} (h : s.phase = .exited k) : s.recv a drop = (s, []) := by
  simp only [Server.recv, h]

theorem Server.recv_undefined (h : s.phase = .undefined) : s.recv a drop = (s, []) := by
  simp only [Server.recv, h]

end

/-! ## What a round of the loop can do -/

section
variable {s : Server} {pkt : Packet}

theorem Server.onData_ignored (h : pkt.header.seqNum ≠ s.nextExpectedSeq) : s.onData pkt = (s, []) := by
  unfold Server.onData
  rw [if_neg h]

theorem Server.onData_stored (h : pkt.header.seqNum = s.nextExpectedSeq)
    (hle : (s.recvBuffer.bytes ++ pkt.data).length ≤ recvCapacity) :
    s.onData pkt = ({ s with recvBuffer := ⟨s.recvBuffer.bytes ++ pkt.data, hle⟩
                             nextExpectedSeq := s.nextExpectedSeq + UInt32.ofNat pkt.data.length },
      [sendPacket s.clientAddr (dataAck (s.nextExpectedSeq + UInt32.ofNat pkt.data.length))]) := by
  unfold Server.onData RecvBuffer.memcpy
  rw [if_pos h, dif_pos hle]

theorem Server.onData_overflow (h : pkt.header.seqNum = s.nextExpectedSeq)
    (hgt : ¬ (s.recvBuffer.bytes ++ pkt.data).length ≤ recvCapacity) :
    s.onData pkt = ({ s with phase := .undefined }, []) := by
  unfold Server.onData RecvBuffer.memcpy
  rw [if_pos h, dif_neg hgt]

end

/-- The outcomes of a round of the loop: the datagram changes nothing but the address, or
it is no packet and ends the loop, or it is a FIN, or data that is next in order. -/
inductive Server.Transfers (a : Arrival) (drop : Bool) (s : Server) : Server × List Outgoing → Prop
  | quiet : Transfers a drop s ({ s with clientAddr := (recvPacket a s.clientAddr).2 }, [])
  | cut : (recvPacket a s.clientAddr).1 = .invalid →
      Transfers a drop s (({ s with clientAddr := (recvPacket a s.clientAddr).2 } : Server).finish, [])
  | fin {pkt : Packet} : (recvPacket a s.clientAddr).1 = .packet pkt → pkt.has shamFin = true →
      Transfers a drop s (({ s with clientAddr := (recvPacket a s.clientAddr).2 } : Server).onFin pkt)
  | data {pkt : Packet} : (recvPacket a s.clientAddr).1 = .packet pkt → pkt.has shamFin = false → drop = false →
      pkt.data ≠ [] → pkt.header.seqNum = s.nextExpectedSeq →
      Transfers a drop s (({ s with clientAddr := (recvPacket a s.clientAddr).2 } : Server).onData pkt)

theorem Server.handleDataTransfer_transfers (a : Arrival) (drop : Bool) (s : Server) :
    s.Transfers a drop (s.handleDataTransfer a drop) := by
  simp only [Server.handleDataTransfer]
  split
  next => exact .quiet
  next h => exact .cut h
  next pkt h =>
    split
    next hf => exact .fin h hf
    next hf =>
      split
      next => exact .quiet
      next hd =>
        split
        next hpos =>
          by_cases hseq : pkt.header.seqNum = s.nextExpectedSeq
          · refine .data h (by simpa using hf) ?_ (List.length_pos_iff.mp hpos) hseq
            simpa [hpos] using hd
          · simp only [Server.onData, hseq, if_false]
            exact .quiet
        next => exact .quiet

/-- The server waits in `recv_packet`. -/
def Server.receiving (s : Server) : Bool :=
  match s.phase with
  | .exited _ | .undefined => false
  | _ => true

/-! ## Datagrams one after another -/

/-- A datagram that reaches the server's socket, with what `should_drop_packet` answers if
it is called for it. -/
structure Datagram where
  src : Sockaddr
  bytes : List UInt8
  drop : Bool := false
  deriving DecidableEq, Repr

def Server.deliver (s : Server) (d : Datagram) : Server × List Outgoing := s.recv (.datagram d.src d.bytes) d.drop

/-- The server as `handle_data_transfer` begins, expecting `nextExpectedSeq`. -/
def Server.transferStart (clientAddr : Sockaddr) (nextExpectedSeq : UInt32) : Server :=
  { clientAddr, nextExpectedSeq, phase := .transfer }

/-- What a datagram is to a server that expects sequence number `expected`. -/
inductive Reading
  /-- no packet: it ends the loop -/
  | cut
  | fin (pkt : Packet)
  /-- data that is next in order -/
  | next (pkt : Packet)
  /-- dropped, without data, or out of order -/
  | ignored
  deriving DecidableEq, Repr

def Datagram.reading (expected : UInt32) (d : Datagram) : Reading :=
  match parse d.bytes with
  | .packet pkt =>
    if pkt.has shamFin then .fin pkt
    else if d.drop = false ∧ pkt.data ≠ [] ∧ pkt.header.seqNum = expected then .next pkt
    else .ignored
  | _ => .cut

/-- What the server does with a datagram in the loop. -/
def Server.loopBody (s : Server) : Reading → Server × List Outgoing
  | .cut => (s.finish, [])
  | .fin pkt => s.onFin pkt
  | .next pkt => s.onData pkt
  | .ignored => (s, [])

theorem parse_ne_timeout (bytes : List UInt8) : parse bytes ≠ .timeout := by
  unfold parse
  split <;> simp

theorem Server.deliver_transfer {s : Server} (h : s.phase = .transfer) (d : Datagram) :
    s.deliver d = ({ s with clientAddr := d.src } : Server).loopBody (d.reading s.nextExpectedSeq) := by
  have hr : recvPacket (.datagram d.src d.bytes) s.clientAddr = (parse d.bytes, d.src) := rfl
  unfold Server.deliver Datagram.reading
  rw [Server.recv_transfer _ _ h, Server.handleDataTransfer, hr]
  cases hp : parse d.bytes with
  | timeout => exact absurd hp (parse_ne_timeout _)
  | invalid => rfl
  | packet pkt =>
    simp only []
    split
    next => rfl
    next =>
      by_cases hd : pkt.data = []
      · simp [hd, Server.loopBody]
      · have hpos := List.length_pos_iff.mpr hd
        cases hdrop : d.drop with
        | true => simp [hpos, Server.loopBody]
        | false =>
          by_cases hseq : pkt.header.seqNum = s.nextExpectedSeq
          · simp [hpos, hd, hseq, Server.loopBody]
          · simp [hpos, hseq, Server.loopBody, Server.onData]

theorem Server.deliver_stopped {s : Server} (h : s.receiving = false) (d : Datagram) : s.deliver d = (s, []) := by
  unfold Server.receiving at h
  unfold Server.deliver
  split at h
  next k hp => exact Server.recv_exited _ _ hp
  next hp => exact Server.recv_undefined _ _ hp
  next => cases h

end OsNetworks.Sham
