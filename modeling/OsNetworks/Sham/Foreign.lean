/-
Datagrams from someone other than the peer.

Neither program looks at where a datagram comes from: `recvfrom` overwrites the
peer's address, and the packet is processed as if the peer had sent it. This
module says what of the state and of the later packets the address reaches,
and which foreign datagrams change nothing else.
-/
import OsNetworks.Lib.Runs
import OsNetworks.Sham.Sender
import OsNetworks.Sham.Capacity

namespace OsNetworks.Sham
open Runs

def Server.redirect (s : Server) (addr : Sockaddr) : Server := { s with clientAddr := addr }

def Client.redirect (c : Client) (addr : Sockaddr) : Client := { c with serverAddr := addr }

/-- The server's state without the address of its peer. -/
def Server.view (s : Server) : Server := s.redirect {}

/-- The client's state without the address of its peer. -/
def Client.view (c : Client) : Client := c.redirect {}

/-! ## The server -/

section
variable {s : Server} {d : Datagram} {pkt : Packet}

end

/-! ## The client -/

section
variable {c c' : Client}

end

/-- The state after one input. -/
abbrev stepped (c : Client) (i : ClientInput) : Client := (c.step i).1

/-- The input is no datagram. -/
def ClientInput.silent : ClientInput → Prop
  | .recv (.datagram _ _) => False
  | _ => True

section
variable {c : Client} {src : Sockaddr} {bytes : List UInt8} {pkt : Packet}

/-- The client after the packet it waited for, whoever sent it. -/
theorem recv_packet (hw : c.phase = .waiting) (hb : parse bytes = .packet pkt) (src : Sockaddr) :
    (c.recv (.datagram src bytes)).1 =
      if pkt.has shamAck then
        { c with serverAddr := src, phase := .scanning 0, peerWindow := pkt.header.windowSize
                 windowBase := if pkt.header.ackNum > c.windowBase then pkt.header.ackNum else c.windowBase }
      else { c with serverAddr := src, phase := .scanning 0 } := by
  have hr : recvPacketTimeout (.datagram src bytes) c.serverAddr = (.packet pkt, src) := by
    show (parse bytes, src) = _
    rw [hb]
  unfold Client.recv
  rw [hw]
  unfold Client.onAck
  rw [hr]

end

/-! ## Both -/

end OsNetworks.Sham
