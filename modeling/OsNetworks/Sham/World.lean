/-
One client process and one server process over a network that may drop,
duplicate, delay and reorder their datagrams.

A label names who moves and what the move reads of its surroundings; a label
that is not enabled leaves the world as it is. The datagrams in flight are
kept as packets, and a delivery hands over their bytes.
-/
import OsNetworks.Lib.Runs
import OsNetworks.Lib.Channel
import OsNetworks.Sham.Client
import OsNetworks.Sham.Server

namespace OsNetworks.Sham
open Runs

inductive Direction
  | toServer
  | toClient
  deriving DecidableEq, Repr

inductive Label
  /-- the client's next statement, reading the clock as given -/
  | client (clk : Clock)
  | clientTimeout
  | serverTimeout
  /-- the datagram at place `i` reaches the client -/
  | deliverClient (i : Nat)
  /-- the datagram at place `i` reaches the server, which may drop it on purpose -/
  | deliverServer (i : Nat) (drop : Bool)
  | lose (d : Direction) (i : Nat)
  | copy (d : Direction) (i : Nat)
  deriving DecidableEq, Repr

structure World where
  clientAddr : Sockaddr
  serverAddr : Sockaddr
  client : Client
  server : Server
  toServer : List Packet := []
  toClient : List Packet := []
  /-- all the client has sent so far -/
  said : List Packet := []
  /-- what the client has received so far, in order -/
  clientHeard : List Packet := []
  /-- what the server has received so far, in order -/
  serverHeard : List Packet := []

/-- Both processes at their start, the client with `file` to send. -/
def World.boot (clientAddr serverAddr : Sockaddr) (file : List UInt8) : World :=
  { clientAddr, serverAddr, client := .start serverAddr file, server := {} }

/-- The datagrams that reach the socket bound to `addr`. -/
def arriving (addr : Sockaddr) (out : List Outgoing) : List Packet :=
  (out.filter (·.dest = addr)).map (·.pkt)

/-- The world after the client did `r`. -/
def World.clientDid (w : World) (r : Client × List Outgoing) : World :=
  { w with client := r.1, toServer := w.toServer ++ arriving w.serverAddr r.2, said := w.said ++ r.2.map (·.pkt) }

/-- The world after the server did `r`. -/
def World.serverDid (w : World) (r : Server × List Outgoing) : World :=
  { w with server := r.1, toClient := w.toClient ++ arriving w.clientAddr r.2 }

/-- The client takes `p`, which was at place `i`. -/
def World.clientTakes (w : World) (i : Nat) (p : Packet) : World :=
  { w with toClient := Channel.take w.toClient i, clientHeard := w.clientHeard ++ [p] }.clientDid
    (w.client.recv (.datagram w.serverAddr p.toBytes))

/-- The server takes `p`, which was at place `i`. -/
def World.serverTakes (w : World) (i : Nat) (p : Packet) (drop : Bool) : World :=
  { w with toServer := Channel.take w.toServer i, serverHeard := w.serverHeard ++ [p] }.serverDid
    (w.server.recv (.datagram w.clientAddr p.toBytes) drop)

def World.step (w : World) : Label → World
  | .client clk => w.clientDid (w.client.act clk)
  | .clientTimeout => w.clientDid (w.client.recv .timeout)
  | .serverTimeout => w.serverDid (w.server.recv .timeout false)
  | .deliverClient i =>
    match w.toClient[i]? with
    | some p => if w.client.receiving then w.clientTakes i p else w
    | none => w
  | .deliverServer i drop =>
    match w.toServer[i]? with
    | some p => if w.server.receiving then w.serverTakes i p drop else w
    | none => w
  | .lose .toServer i => { w with toServer := Channel.take w.toServer i }
  | .lose .toClient i => { w with toClient := Channel.take w.toClient i }
  | .copy .toServer i => { w with toServer := Channel.copy w.toServer i }
  | .copy .toClient i => { w with toClient := Channel.copy w.toClient i }

/-- The world after the labels `ls`. -/
abbrev World.run (w : World) (ls : List Label) : World := Runs.run World.step w ls

/-! ## What a move changes -/

section
variable (w : World) (i : Nat) (p : Packet) (drop : Bool)

@[simp] theorem clientDid_client (r : Client × List Outgoing) : (w.clientDid r).client = r.1 := rfl
@[simp] theorem clientDid_toServer (r : Client × List Outgoing) :
    (w.clientDid r).toServer = w.toServer ++ arriving w.serverAddr r.2 := rfl

@[simp] theorem serverDid_server (r : Server × List Outgoing) : (w.serverDid r).server = r.1 := rfl
@[simp] theorem serverDid_toClient (r : Server × List Outgoing) :
    (w.serverDid r).toClient = w.toClient ++ arriving w.clientAddr r.2 := rfl

@[simp] theorem clientTakes_client :
    (w.clientTakes i p).client = (w.client.recv (.datagram w.serverAddr p.toBytes)).1 := rfl
@[simp] theorem clientTakes_toServer : (w.clientTakes i p).toServer =
    w.toServer ++ arriving w.serverAddr (w.client.recv (.datagram w.serverAddr p.toBytes)).2 := rfl

@[simp] theorem serverTakes_server :
    (w.serverTakes i p drop).server = (w.server.recv (.datagram w.clientAddr p.toBytes) drop).1 := rfl
@[simp] theorem serverTakes_toClient : (w.serverTakes i p drop).toClient =
    w.toClient ++ arriving w.clientAddr (w.server.recv (.datagram w.clientAddr p.toBytes) drop).2 := rfl

end

@[simp] theorem arriving_nil (addr : Sockaddr) : arriving addr [] = [] := rfl

theorem mem_arriving {addr : Sockaddr} {out : List Outgoing} {p : Packet} :
    p ∈ arriving addr out ↔ ∃ o ∈ out, o.dest = addr ∧ o.pkt = p := by
  simp [arriving, and_assoc]

/-- What holds of the packets in flight and of those just sent holds of all that are in flight then. -/
theorem forall_arrived {P : Packet → Prop} {ps : List Packet} {addr : Sockaddr} {out : List Outgoing}
    (h : ∀ p ∈ ps, P p) (ho : ∀ o ∈ out, P o.pkt) : ∀ p ∈ ps ++ arriving addr out, P p := by
  intro p hp
  rcases List.mem_append.mp hp with hp | hp
  · exact h p hp
  · obtain ⟨o, hm, -, rfl⟩ := mem_arriving.mp hp
    exact ho o hm

theorem sent_arrives (ps : List Packet) {addr : Sockaddr} {out : List Outgoing} {o : Outgoing} (ho : o ∈ out)
    (hd : o.dest = addr) : o.pkt ∈ ps ++ arriving addr out :=
  List.mem_append_right _ (mem_arriving.mpr ⟨o, ho, hd, rfl⟩)

/-- What one label can do to a world: a statement of the client, a wait that ends with or
without a datagram, or a change of the network that brings nothing new into flight. -/
inductive World.Moves (w : World) : World → Prop
  | act (clk : Clock) : Moves w (w.clientDid (w.client.act clk))
  | clientTimeout : Moves w (w.clientDid (w.client.recv .timeout))
  | serverTimeout : Moves w (w.serverDid (w.server.recv .timeout false))
  | clientTakes {i : Nat} {p : Packet} : w.toClient[i]? = some p → w.client.receiving = true →
      Moves w (w.clientTakes i p)
  | serverTakes {i : Nat} {p : Packet} (drop : Bool) : w.toServer[i]? = some p → w.server.receiving = true →
      Moves w (w.serverTakes i p drop)
  | network {ts tc : List Packet} : (∀ p ∈ ts, p ∈ w.toServer) → (∀ p ∈ tc, p ∈ w.toClient) →
      Moves w { w with toServer := ts, toClient := tc }

theorem World.Moves.stay (w : World) : w.Moves w := .network (fun _ h => h) fun _ h => h

theorem World.step_moves (w : World) (l : Label) : w.Moves (w.step l) := by
  cases l with
  | client clk => exact .act clk
  | clientTimeout => exact .clientTimeout
  | serverTimeout => exact .serverTimeout
  | deliverClient i =>
    simp only [World.step]
    split
    next p hp =>
      split
      next hr => exact .clientTakes hp hr
      next => exact .stay w
    next => exact .stay w
  | deliverServer i drop =>
    simp only [World.step]
    split
    next p hp =>
      split
      next hr => exact .serverTakes drop hp hr
      next => exact .stay w
    next => exact .stay w
  | lose d i =>
    cases d with
    | toServer => exact .network (fun _ => Channel.mem_of_mem_take) fun _ h => h
    | toClient => exact .network (fun _ h => h) fun _ => Channel.mem_of_mem_take
  | copy d i =>
    cases d with
    | toServer => exact .network (fun _ => Channel.mem_copy.mp) fun _ h => h
    | toClient => exact .network (fun _ h => h) fun _ => Channel.mem_copy.mp

/-- What every move keeps, every run keeps. -/
theorem World.run_inv {I : World → Prop} (hI : ∀ w w', I w → w.Moves w' → I w') {w : World} (h : I w)
    (ls : List Label) : I (w.run ls) :=
  Runs.run_inv (fun s l hs => hI s _ hs (s.step_moves l)) h ls

end OsNetworks.Sham
