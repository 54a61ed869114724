/-
The S.H.A.M. packet (`sham.h`) and the two sides of the socket: what
`send_packet` puts on the wire and what `recv_packet` makes of a datagram.

The header is a packed struct copied as it lies in memory, so its fields are
little-endian on the machines the program is built for. A packet's `data` is
the `data_len` bytes of the array that are sent or were received; what the
array holds beyond them is never read.
-/
import OsNetworks.Lib.LittleEndian

namespace OsNetworks.Sham
open LittleEndian

/-! ## Protocol constants -/

def shamSyn : UInt16 := 0x1
def shamAck : UInt16 := 0x2
def shamFin : UInt16 := 0x4

/-- Payload bytes in a packet, at most. -/
abbrev shamDataSize : Nat := 1024
/-- Packets in the sliding window. -/
abbrev shamWindowSize : Nat := 10
abbrev shamTimeoutMs : Int := 500
abbrev shamMaxRetries : Nat := 10
/-- `sizeof(struct sham_header)`. -/
abbrev shamHeaderSize : Nat := 12
abbrev shamPacketSize : Nat := shamHeaderSize + shamDataSize

/-! ## Packets -/

structure Header where
  seqNum : UInt32 := 0
  ackNum : UInt32 := 0
  flags : UInt16 := 0
  windowSize : UInt16 := 0
  deriving DecidableEq, Repr

/-- A header and its payload, which fits the packet's array. -/
@[ext] structure Packet where
  header : Header
  data : List UInt8
  data_le : data.length ≤ shamDataSize
  deriving DecidableEq, Repr

/-- A packet without payload. -/
def control (h : Header) : Packet := ⟨h, [], by simp⟩

@[simp] theorem control_header (h : Header) : (control h).header = h := rfl
@[simp] theorem control_data (h : Header) : (control h).data = [] := rfl

/-- The packet after `memset(&pkt, 0, sizeof(pkt))`. -/
def zeroed : Packet := control {}

/-- `pkt.header.flags & flag`, as a condition. -/
def Packet.has (p : Packet) (flag : UInt16) : Bool := p.header.flags &&& flag != 0

@[simp] theorem has_control (h : Header) (f : UInt16) : (control h).has f = (h.flags &&& f != 0) := rfl

/-- The address and port of a `struct sockaddr_in`. -/
structure Sockaddr where
  addr : UInt32 := 0
  port : UInt16 := 0
  deriving DecidableEq, Repr

/-- A datagram handed to `sendto`. -/
structure Outgoing where
  dest : Sockaddr
  pkt : Packet
  deriving DecidableEq, Repr

/-- `send_packet`: the header and the payload go to `dest_addr`. A failing `sendto`
is reported and otherwise ignored, so it is one more way to lose a datagram. -/
def sendPacket (destAddr : Sockaddr) (pkt : Packet) : Outgoing := ⟨destAddr, pkt⟩

/-! ## The wire -/

def Header.toBytes (h : Header) : List UInt8 :=
  encode 4 h.seqNum.toNat ++ (encode 4 h.ackNum.toNat ++ (encode 2 h.flags.toNat ++ encode 2 h.windowSize.toNat))

def Header.ofBytes (bs : List UInt8) : Header where
  seqNum := UInt32.ofNat (decode (bs.take 4))
  ackNum := UInt32.ofNat (decode ((bs.drop 4).take 4))
  flags := UInt16.ofNat (decode ((bs.drop 8).take 2))
  windowSize := UInt16.ofNat (decode ((bs.drop 10).take 2))

/-- The bytes `sendto` is given: `SHAM_HEADER_SIZE + data_len` of them. -/
def Packet.toBytes (p : Packet) : List UInt8 := p.header.toBytes ++ p.data

@[simp] theorem Header.length_toBytes (h : Header) : h.toBytes.length = shamHeaderSize := by
  simp [Header.toBytes]

theorem Header.ofBytes_toBytes (h : Header) (bs : List UInt8) : Header.ofBytes (h.toBytes ++ bs) = h := by
  have h4 : ∀ x : UInt32, x.toNat % Nat.pow 256 4 = x.toNat := fun x => Nat.mod_eq_of_lt x.toNat_lt
  have h2 : ∀ x : UInt16, x.toNat % Nat.pow 256 2 = x.toNat := fun x => Nat.mod_eq_of_lt x.toNat_lt
  simp only [Header.ofBytes, Header.toBytes, List.append_assoc]
  rw [List.take_left' (length_encode 4 _), List.drop_left' (length_encode 4 _),
    List.take_left' (length_encode 4 _),
    show (8 : Nat) = 4 + 4 from rfl, ← List.drop_drop, List.drop_left' (length_encode 4 _),
    List.drop_left' (length_encode 4 _), List.take_left' (length_encode 2 _),
    show (10 : Nat) = 4 + (4 + 2) from rfl, ← List.drop_drop, List.drop_left' (length_encode 4 _),
    ← List.drop_drop, List.drop_left' (length_encode 4 _), List.drop_left' (length_encode 2 _),
    List.take_left' (length_encode 2 _)]
  simp only [decode_encode, h4, h2, UInt32.ofNat_toNat, UInt16.ofNat_toNat]

/-! ## Receiving -/

/-- What one call of `recvfrom` meets: no datagram before the timeout, a failure, or a
datagram and its sender's address. -/
inductive Arrival
  | timeout
  | error
  | datagram (src : Sockaddr) (bytes : List UInt8)
  deriving DecidableEq, Repr

/-- The result of a receiving function: `0`, `-1`, or `1` with the packet it stored. -/
inductive Received
  | timeout
  | invalid
  | packet (pkt : Packet)
  deriving DecidableEq, Repr

/-- A datagram cut off at `SHAM_PACKET_SIZE` bytes and, when it holds a header, read as
a packet. -/
def parse (bytes : List UInt8) : Received :=
  if (bytes.take shamPacketSize).length < shamHeaderSize then .invalid
  else .packet ⟨Header.ofBytes bytes, (bytes.take shamPacketSize).drop shamHeaderSize, by
    simp only [List.length_drop, List.length_take, shamPacketSize, shamHeaderSize, shamDataSize]; omega⟩

/-- Receiving with the address variable `recvfrom` overwrites, whatever the datagram holds. -/
def receive (srcAddr : Sockaddr) : Arrival → Received × Sockaddr
  | .timeout => (.timeout, srcAddr)
  | .error => (.invalid, srcAddr)
  | .datagram src bytes => (parse bytes, src)

/-- The server's `recv_packet`. -/
def recvPacket (a : Arrival) (srcAddr : Sockaddr) : Received × Sockaddr := receive srcAddr a

/-- The client's `recv_packet_timeout`; an arrival of `timeout` is `select` returning no
ready socket. -/
def recvPacketTimeout (a : Arrival) (srcAddr : Sockaddr) : Received × Sockaddr := receive srcAddr a

theorem parse_short {bytes : List UInt8} (h : bytes.length < shamHeaderSize) : parse bytes = .invalid := by
  simp only [parse, List.length_take, shamPacketSize, shamHeaderSize] at h ⊢
  rw [if_pos (by omega)]

theorem parse_long {bytes : List UInt8} (h : shamHeaderSize ≤ bytes.length) : ∃ p, parse bytes = .packet p := by
  simp only [parse, List.length_take, shamPacketSize, shamHeaderSize, shamDataSize] at h ⊢
  rw [if_neg (by omega)]
  exact ⟨_, rfl⟩

/-- **The wire format round-trips**: a receiver reads back the packet that was sent. -/
theorem parse_toBytes (p : Packet) : parse p.toBytes = .packet p := by
  have hlen : p.toBytes.length = shamHeaderSize + p.data.length := by simp [Packet.toBytes]
  have htake : p.toBytes.take shamPacketSize = p.toBytes :=
    List.take_of_length_le (by rw [hlen]; exact Nat.add_le_add_left p.data_le _)
  have hdrop : p.toBytes.drop shamHeaderSize = p.data := List.drop_left' p.header.length_toBytes
  simp only [parse, htake, hdrop]
  rw [if_neg (by rw [hlen]; exact Nat.not_lt.mpr (Nat.le_add_right _ _))]
  congr 1
  ext1
  · exact Header.ofBytes_toBytes p.header p.data
  · rfl

@[simp] theorem recvPacket_toBytes (p : Packet) (src old : Sockaddr) :
    recvPacket (.datagram src p.toBytes) old = (.packet p, src) := by
  simp [recvPacket, receive, parse_toBytes]

@[simp] theorem recvPacketTimeout_toBytes (p : Packet) (src old : Sockaddr) :
    recvPacketTimeout (.datagram src p.toBytes) old = (.packet p, src) := by
  simp [recvPacketTimeout, receive, parse_toBytes]

@[simp] theorem recvPacket_timeout (old : Sockaddr) : recvPacket .timeout old = (.timeout, old) := rfl
@[simp] theorem recvPacketTimeout_timeout (old : Sockaddr) : recvPacketTimeout .timeout old = (.timeout, old) := rfl

end OsNetworks.Sham
