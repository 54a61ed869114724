/-
Chat mode (`handle_chat_mode` of both programs), from the end of the handshake
on. The two sides are alike: each sends the lines it reads and shows what
arrives. They part in how they end: the client runs `perform_termination`, the
server sends a FIN and leaves.

`select` may report any of the two descriptors at any time, so a step of a side
is one line read, or one datagram received.
-/
import Mathlib.Logic.Function.Basic
import OsNetworks.Sham.World
import OsNetworks.Shell.Log

namespace OsNetworks.Sham
open Runs

inductive Side
  | client
  | server
  deriving DecidableEq, Repr

def Side.other : Side → Side
  | .client => .server
  | .server => .client

@[simp] theorem other_other (s : Side) : s.other.other = s := by cases s <;> rfl
@[simp] theorem other_ne (s : Side) : s.other ≠ s := by cases s <;> decide
@[simp] theorem ne_other (s : Side) : s ≠ s.other := by cases s <;> decide

theorem eq_or_other (s t : Side) : t = s ∨ t = s.other := by cases s <;> cases t <;> simp [Side.other]

/-- Where a side is. The waits are those of `perform_termination`. -/
inductive ChatPhase
  | chatting
  | waitFinAck (pkt : Packet)
  | waitFin (pkt : Packet)
  | sendFinalAck (pkt : Packet)
  | left
  deriving DecidableEq, Repr

structure Chatter where
  side : Side
  peerAddr : Sockaddr
  /-- `next_seq_num` of the client, `next_expected_seq` of the server -/
  seq : UInt32
  /-- what is still to be read from the standard input -/
  stdin : List UInt8
  phase : ChatPhase := .chatting
  /-- the lines sent so far -/
  sent : List (List UInt8) := []
  /-- what was printed after `Peer: ` -/
  shown : List (List UInt8) := []
  /-- A line that begins with `/quit` has been read. -/
  quit : Bool := false

/-- `/quit` -/
def quitWord : List UInt8 := [47, 113, 117, 105, 116]

/-- The string that `fgets` leaves in `line`. -/
def chatLine (stdin : List UInt8) : List UInt8 := Shell.cstring (Shell.getLine (shamDataSize - 1) stdin).1

theorem length_chatLine (stdin : List UInt8) : (chatLine stdin).length ≤ shamDataSize :=
  Nat.le_trans (List.takeWhile_sublist _).length_le (Nat.le_trans (Shell.length_getLine _ _) (Nat.sub_le _ _))

/-- The packet that carries the next line. -/
def chatPacket (seqNum : UInt32) (stdin : List UInt8) : Packet := ⟨{ seqNum }, chatLine stdin, length_chatLine stdin⟩

namespace Chatter

/-- What follows the line `/quit`: the client's first packet of `perform_termination`, or the server's last. -/
def leave (c : Chatter) : Chatter × List Outgoing :=
  match c.side with
  | .client => ({ c with phase := .waitFinAck (finPacket c.seq) }, [sendPacket c.peerAddr (finPacket c.seq)])
  | .server => ({ c with phase := .left }, [sendPacket c.peerAddr (control { seqNum := c.seq, flags := shamFin })])

/-- The standard input is ready. At its end `fgets` returns NULL. -/
def readStdin (c : Chatter) : Chatter × List Outgoing :=
  if c.stdin = [] then (c, [])
  else
    let rest := (Shell.getLine (shamDataSize - 1) c.stdin).2
    let line := chatLine c.stdin
    if quitWord <+: line then { c with stdin := rest, quit := true }.leave
    else
      ({ c with stdin := rest, seq := c.seq + UInt32.ofNat line.length, sent := c.sent ++ [line] },
        [sendPacket c.peerAddr (chatPacket c.seq c.stdin)])

/-- The socket is ready. -/
def readSocket (a : Arrival) (c : Chatter) : Chatter :=
  let (ret, peerAddr) := receive c.peerAddr a
  match ret with
  | .packet pkt =>
    if pkt.has shamFin then { c with peerAddr, phase := .left }
    else if pkt.data.length > 0 then { c with peerAddr, shown := c.shown ++ [Shell.cstring pkt.data] }
    else { c with peerAddr }
  | _ => { c with peerAddr }

/-- A wait of `perform_termination`, whose result is ignored. -/
def ignoreResult (a : Arrival) (c : Chatter) (pkt : Packet) (next : Packet → ChatPhase) : Chatter :=
  let (ret, peerAddr) := recvPacketTimeout a c.peerAddr
  match ret with
  | .packet pkt' => { c with peerAddr, phase := next pkt' }
  | _ => { c with peerAddr, phase := next pkt }

/-- A step that takes nothing from the network. -/
def act (c : Chatter) : Chatter × List Outgoing :=
  match c.phase with
  | .chatting => c.readStdin
  | .sendFinalAck pkt => ({ c with phase := .left }, [sendPacket c.peerAddr (finalAck pkt)])
  | _ => (c, [])

def recv (a : Arrival) (c : Chatter) : Chatter :=
  match c.phase with
  | .chatting => c.readSocket a
  | .waitFinAck pkt => c.ignoreResult a pkt .waitFin
  | .waitFin pkt => c.ignoreResult a pkt .sendFinalAck
  | _ => c

/-- The side takes datagrams from its socket. -/
def receiving (c : Chatter) : Bool :=
  match c.phase with
  | .chatting | .waitFinAck _ | .waitFin _ => true
  | _ => false

end Chatter

/-! ## What a side does -/

/-- What a step of a side on its own may be: the side and what it sends. -/
inductive ChatActs (c : Chatter) : Chatter × List Outgoing → Prop
  | quiet : ChatActs c (c, [])
  | talks (seq : UInt32) (hchat : c.phase = .chatting) (hquit : ¬ quitWord <+: chatLine c.stdin) :
      ChatActs c ({ c with
          stdin := (Shell.getLine (shamDataSize - 1) c.stdin).2
          seq, sent := c.sent ++ [chatLine c.stdin] },
        [sendPacket c.peerAddr (chatPacket c.seq c.stdin)])
  | quits (p : Packet) (phase : ChatPhase) (hchat : c.phase = .chatting) (hquit : quitWord <+: chatLine c.stdin)
      (hp : p.header.flags = shamFin) (hdata : p.data = []) (hphase : phase ≠ .chatting)
      (hside : c.side = .server → phase = .left) :
      ChatActs c ({ c with stdin := (Shell.getLine (shamDataSize - 1) c.stdin).2, phase, quit := true },
        [sendPacket c.peerAddr p])
  | ends (p : Packet) (hchat : c.phase ≠ .chatting) (hleft : c.phase ≠ .left) (hp : p.header.flags = shamAck)
      (hdata : p.data = []) : ChatActs c ({ c with phase := .left }, [sendPacket c.peerAddr p])

theorem act_acts (c : Chatter) : ChatActs c c.act := by
  unfold Chatter.act
  split
  next hchat =>
    unfold Chatter.readStdin
    split
    · exact .quiet
    · simp only
      split
      next hquit =>
        unfold Chatter.leave
        split
        next hside =>
          exact .quits (finPacket c.seq) (.waitFinAck (finPacket c.seq)) hchat hquit rfl rfl (by simp)
            fun h => absurd (hside.symm.trans h) (by decide)
        · exact .quits (control { seqNum := c.seq, flags := shamFin }) .left hchat hquit rfl rfl (by simp) fun _ => rfl
      next hquit => exact .talks _ hchat hquit
  next pkt hsend => exact .ends _ (by simp [hsend]) (by simp [hsend]) rfl rfl
  · exact .quiet

/-- What becomes of a side that takes `p`, or nothing. -/
inductive ChatTakes (c : Chatter) (peerAddr : Sockaddr) : Option Packet → Chatter → Prop
  | quiet (p : Option Packet) (hp : c.phase = .chatting → ∀ q ∈ p, q.has shamFin = false ∧ q.data = []) :
      ChatTakes c peerAddr p { c with peerAddr }
  | told (p : Packet) (hchat : c.phase = .chatting) (hfin : p.has shamFin = true) :
      ChatTakes c peerAddr (some p) { c with peerAddr, phase := .left }
  | shows (p : Packet) (hchat : c.phase = .chatting) (hfin : p.has shamFin = false) (hdata : p.data ≠ []) :
      ChatTakes c peerAddr (some p) { c with peerAddr, shown := c.shown ++ [Shell.cstring p.data] }
  | waits (p : Option Packet) (phase : ChatPhase) (hchat : c.phase ≠ .chatting) (hleft : c.phase ≠ .left)
      (hphase : phase ≠ .chatting) : ChatTakes c peerAddr p { c with peerAddr, phase }

theorem recv_takes (c : Chatter) (hrecv : c.receiving = true) (src : Sockaddr) (p : Packet) :
    ChatTakes c src (some p) (c.recv (.datagram src p.toBytes)) := by
  unfold Chatter.recv
  cases hphase : c.phase with
  | chatting =>
    simp only [Chatter.readSocket, receive, parse_toBytes]
    by_cases hfin : p.has shamFin = true
    · rw [if_pos hfin]
      exact .told p hphase hfin
    · rw [if_neg hfin]
      rw [Bool.not_eq_true] at hfin
      by_cases hdata : p.data.length > 0
      · rw [if_pos hdata]
        exact .shows p hphase hfin (List.length_pos_iff.mp hdata)
      · rw [if_neg hdata]
        refine .quiet _ fun _ q hq => ?_
        obtain rfl := Option.some.inj hq
        exact ⟨hfin, List.length_eq_zero_iff.mp (Nat.eq_zero_of_not_pos hdata)⟩
  | waitFinAck pkt =>
    simp only [Chatter.ignoreResult, recvPacketTimeout_toBytes]
    exact .waits _ (.waitFin p) (by simp [hphase]) (by simp [hphase]) (by simp)
  | waitFin pkt =>
    simp only [Chatter.ignoreResult, recvPacketTimeout_toBytes]
    exact .waits _ (.sendFinalAck p) (by simp [hphase]) (by simp [hphase]) (by simp)
  | _ => simp [Chatter.receiving, hphase] at hrecv

theorem recv_timeout_takes (c : Chatter) : ChatTakes c c.peerAddr none (c.recv .timeout) := by
  unfold Chatter.recv
  cases hphase : c.phase with
  | chatting => exact .quiet none fun _ q hq => absurd hq (by simp)
  | waitFinAck pkt => exact .waits _ (.waitFin pkt) (by simp [hphase]) (by simp [hphase]) (by simp)
  | waitFin pkt => exact .waits _ (.sendFinalAck pkt) (by simp [hphase]) (by simp [hphase]) (by simp)
  | _ => exact .quiet _ fun hchat => by simp [hphase] at hchat

/-! ## The two sides and the network -/

structure Chat where
  addr : Side → Sockaddr
  chatter : Side → Chatter
  /-- the datagrams in flight to each side -/
  inbox : Side → List Packet

inductive ChatLabel
  | act (s : Side)
  /-- a wait for a datagram ends without one -/
  | timeout (s : Side)
  /-- the datagram at place `i` reaches the side -/
  | deliver (s : Side) (i : Nat)
  | lose (s : Side) (i : Nat)
  | copy (s : Side) (i : Nat)
  deriving DecidableEq, Repr

namespace Chat

/-- Both sides at the start of `handle_chat_mode`, with what the handshake left in flight. -/
def start (addr : Side → Sockaddr) (seq : Side → UInt32) (stdin : Side → List UInt8) (inbox : Side → List Packet) :
    Chat where
  addr
  chatter s := { side := s, peerAddr := addr s.other, seq := seq s, stdin := stdin s }
  inbox

/-- The world after `s` did `r`. -/
def did (w : Chat) (s : Side) (r : Chatter × List Outgoing) : Chat :=
  { w with
    chatter := Function.update w.chatter s r.1
    inbox := Function.update w.inbox s.other (w.inbox s.other ++ arriving (w.addr s.other) r.2) }

def setInbox (w : Chat) (s : Side) (inbox : List Packet) : Chat := { w with inbox := Function.update w.inbox s inbox }

def setChatter (w : Chat) (s : Side) (c : Chatter) : Chat := { w with chatter := Function.update w.chatter s c }

def step (w : Chat) : ChatLabel → Chat
  | .act s => w.did s (w.chatter s).act
  | .timeout s => w.setChatter s ((w.chatter s).recv .timeout)
  | .deliver s i =>
    match (w.inbox s)[i]? with
    | some p =>
      if (w.chatter s).receiving then
        (w.setInbox s (Channel.take (w.inbox s) i)).setChatter s
          ((w.chatter s).recv (.datagram (w.addr s.other) p.toBytes))
      else w
    | none => w
  | .lose s i => w.setInbox s (Channel.take (w.inbox s) i)
  | .copy s i => w.setInbox s (Channel.copy (w.inbox s) i)

abbrev run (w : Chat) (ls : List ChatLabel) : Chat := Runs.run step w ls

/-! ## What a move changes -/

section
variable (w : Chat) (s : Side) (r : Chatter × List Outgoing) (c : Chatter) (inbox : List Packet)

@[simp] theorem did_addr : (w.did s r).addr = w.addr := rfl
@[simp] theorem did_chatter_self : (w.did s r).chatter s = r.1 := Function.update_self ..
@[simp] theorem did_chatter_other : (w.did s r).chatter s.other = w.chatter s.other :=
  Function.update_of_ne (other_ne s) ..
@[simp] theorem did_inbox_self : (w.did s r).inbox s = w.inbox s := Function.update_of_ne (ne_other s) ..
@[simp] theorem did_inbox_other :
    (w.did s r).inbox s.other = w.inbox s.other ++ arriving (w.addr s.other) r.2 := Function.update_self ..

@[simp] theorem setChatter_addr : (w.setChatter s c).addr = w.addr := rfl
@[simp] theorem setChatter_inbox : (w.setChatter s c).inbox = w.inbox := rfl
@[simp] theorem setChatter_self : (w.setChatter s c).chatter s = c := Function.update_self ..
@[simp] theorem setChatter_other : (w.setChatter s c).chatter s.other = w.chatter s.other :=
  Function.update_of_ne (other_ne s) ..

@[simp] theorem setInbox_addr : (w.setInbox s inbox).addr = w.addr := rfl
@[simp] theorem setInbox_chatter : (w.setInbox s inbox).chatter = w.chatter := rfl
@[simp] theorem setInbox_self : (w.setInbox s inbox).inbox s = inbox := Function.update_self ..
@[simp] theorem setInbox_other : (w.setInbox s inbox).inbox s.other = w.inbox s.other :=
  Function.update_of_ne (other_ne s) ..

end

/-- What a label may do: a side moves on its own, a side takes a datagram or gives up
waiting for one, or the network moves by itself. -/
inductive Moves (w : Chat) : ChatLabel → Chat → Prop
  | acts (s : Side) {r : Chatter × List Outgoing} (h : ChatActs (w.chatter s) r) : Moves w (.act s) (w.did s r)
  | times (s : Side) {c : Chatter} (h : ChatTakes (w.chatter s) (w.chatter s).peerAddr none c) :
      Moves w (.timeout s) (w.setChatter s c)
  | takes (s : Side) {i : Nat} {p : Packet} {c : Chatter} (hp : (w.inbox s)[i]? = some p)
      (h : ChatTakes (w.chatter s) (w.addr s.other) (some p) c) :
      Moves w (.deliver s i) ((w.setInbox s (Channel.take (w.inbox s) i)).setChatter s c)
  | stays (l : ChatLabel) : Moves w l w
  | loses (s : Side) (i : Nat) : Moves w (.lose s i) (w.setInbox s (Channel.take (w.inbox s) i))
  | copies (s : Side) (i : Nat) : Moves w (.copy s i) (w.setInbox s (Channel.copy (w.inbox s) i))

theorem step_moves (w : Chat) (l : ChatLabel) : w.Moves l (w.step l) := by
  cases l with
  | act s => exact .acts s (act_acts _)
  | timeout s => exact .times s (recv_timeout_takes _)
  | deliver s i =>
    simp only [step]
    split
    next p hp =>
      split
      next hrecv => exact .takes s hp (recv_takes _ hrecv _ p)
      · exact .stays _
    · exact .stays _
  | lose s i => exact .loses s i
  | copy s i => exact .copies s i

end Chat

end OsNetworks.Sham
