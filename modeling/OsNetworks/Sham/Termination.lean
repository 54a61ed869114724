/-
How a run of the two processes ends: `perform_termination` on the client's
side, the FIN branch of `handle_data_transfer` on the server's.
-/
import OsNetworks.Sham.Handshake

namespace OsNetworks.Sham

/-! ## FINs of the server -/

theorem dataAck_no_fin (n : UInt32) : (dataAck n).has shamFin = false :=
  show (shamAck &&& shamFin != 0) = false by decide

theorem synAckPacket_no_fin (n : UInt32) : (synAckPacket n).has shamFin = false :=
  show ((shamSyn ||| shamAck) &&& shamFin != 0) = false by decide

section
variable {s : Server} {o : Outgoing}

theorem Server.onSyn_out {a : Arrival} (ho : o ∈ (s.onSyn a).2) : o.pkt.has shamFin = false := by
  simp only [Server.onSyn] at ho
  split at ho
  · cases ho
  · cases ho
  · split at ho
    · cases ho
    · obtain rfl := List.mem_singleton.mp ho
      exact synAckPacket_no_fin _

theorem Server.onAck_out (a : Arrival) : (s.onAck a).2 = [] := by
  simp only [Server.onAck]
  split
  · rfl
  · rfl
  · split <;> rfl

theorem Server.onData_out {pkt : Packet} (ho : o ∈ (s.onData pkt).2) : o.pkt.has shamFin = false := by
  by_cases hseq : pkt.header.seqNum = s.nextExpectedSeq
  · by_cases hle : (s.recvBuffer.bytes ++ pkt.data).length ≤ recvCapacity
    · rw [Server.onData_stored hseq hle] at ho
      obtain rfl := List.mem_singleton.mp ho
      exact dataAck_no_fin _
    · rw [Server.onData_overflow hseq hle] at ho
      cases ho
  · rw [Server.onData_ignored hseq] at ho
    cases ho

theorem Server.handleDataTransfer_fin {a : Arrival} {drop : Bool} (ho : o ∈ (s.handleDataTransfer a drop).2)
    (hf : o.pkt.has shamFin = true) : o.pkt.header.seqNum = s.nextExpectedSeq := by
  have hr := s.handleDataTransfer_transfers a drop
  generalize s.handleDataTransfer a drop = r at hr ho
  cases hr with
  | quiet => cases ho
  | cut => cases ho
  | fin =>
    simp only [Server.onFin, List.mem_cons, List.not_mem_nil, or_false] at ho
    rcases ho with rfl | rfl
    · exact absurd hf (by rw [sendPacket, dataAck_no_fin]; simp)
    · rfl
  | data => exact absurd hf (by rw [Server.onData_out ho]; simp)

/-- The server sends a FIN in its receive loop, numbered with what it expects next. -/
theorem Server.recv_fin {a : Arrival} {drop : Bool} (ho : o ∈ (s.recv a drop).2) (hf : o.pkt.has shamFin = true) :
    s.phase = .transfer ∧ o.pkt.header.seqNum = s.nextExpectedSeq := by
  cases hp : s.phase with
  | waitSyn =>
    rw [Server.recv_waitSyn _ _ hp] at ho
    exact absurd hf (by rw [Server.onSyn_out ho]; simp)
  | waitAck =>
    rw [Server.recv_waitAck _ _ hp, Server.onAck_out] at ho
    cases ho
  | transfer =>
    rw [Server.recv_transfer _ _ hp] at ho
    exact ⟨rfl, Server.handleDataTransfer_fin ho hf⟩
  | waitFinalAck => rw [Server.recv_waitFinalAck _ _ hp] at ho; cases ho
  | exited k => rw [Server.recv_exited _ _ hp] at ho; cases ho
  | undefined => rw [Server.recv_undefined _ _ hp] at ho; cases ho

end

/-- A server that took the handshake's ACK expects a number past 100; one that took the
client's final ACK instead answers a client that is gone. -/
theorem Session.expected {file : List UInt8} {w : World} (h : Session file w) (hp : w.server.phase = .transfer) :
    w.server.nextExpectedSeq ≠ 0 ∨ w.client.phase = .exited 0 := by
  cases h with
  | listening hsrv _ _ _ _ => simp [hsrv] at hp
  | greeted hsrv _ _ => simp [hsrv] at hp
  | refused hsrv _ _ _ => simp [hsrv] at hp
  | begun _ _ _ hcount hb =>
    cases hb with
    | finalAck _ _ hl => exact .inr hl.gone
    | ack hpkt _ =>
      subst hpkt
      refine .inl fun h0 => ?_
      have hle := w.server.recvBuffer.le
      simp only [recvCapacity] at hle
      have hn : (101 + UInt32.ofNat w.server.recvBuffer.bytes.length).toNat = 0 := by
        rw [show (101 : UInt32) + _ = w.server.nextExpectedSeq from hcount.symm, h0]
        rfl
      rw [toNat_add_ofNat (by simp only [UInt32.size, UInt32.reduceToNat]; omega)] at hn
      simp only [UInt32.reduceToNat] at hn
      omega

/-- The FINs that reach a client before it exits have a number other than 0. -/
structure FinsCounted (w : World) : Prop where
  toClient : ∀ p ∈ w.toClient, p.has shamFin = true → p.header.seqNum ≠ 0 ∨ w.client.phase = .exited 0
  heard : ∀ p ∈ w.clientHeard, p.has shamFin = true → p.header.seqNum ≠ 0

section
variable {file : List UInt8} {w w' : World}

theorem FinsCounted.moves (h : FinsCounted w) (hs : Spoken w) (hw : Session file w) (hm : w.Moves w') :
    FinsCounted w' := by
  have gone : ∀ {r : Client × List Outgoing}, Says w.client r → w.client.phase = .exited 0 →
      r.1.phase = .exited 0 := by
    intro r hr hx
    rw [hr.stopped hx]
    exact hx
  have server : ∀ (a : Arrival) (drop : Bool), ∀ p ∈ w.toClient ++ arriving w.clientAddr (w.server.recv a drop).2,
      p.has shamFin = true → p.header.seqNum ≠ 0 ∨ w.client.phase = .exited 0 := by
    intro a drop
    refine forall_arrived h.toClient fun o ho hf => ?_
    obtain ⟨hph, hseq⟩ := Server.recv_fin ho hf
    rw [hseq]
    exact hw.expected hph
  cases hm with
  | act clk => exact ⟨fun p hp hf => (h.toClient p hp hf).imp_right (gone (hs.plain.act clk)), h.heard⟩
  | clientTimeout => exact ⟨fun p hp hf => (h.toClient p hp hf).imp_right (gone (hs.plain.recv _)), h.heard⟩
  | serverTimeout => exact ⟨server _ _, h.heard⟩
  | serverTakes drop hi hr => exact ⟨server _ _, h.heard⟩
  | network hts htc => exact ⟨fun p hp hf => h.toClient p (htc p hp) hf, h.heard⟩
  | @clientTakes i q hi hr =>
    refine ⟨fun p hp hf => (h.toClient p (Channel.mem_of_mem_take hp) hf).imp_right (gone (hs.plain.recv _)),
      fun p hp hf => ?_⟩
    rcases List.mem_append.mp hp with hp | hp
    · exact h.heard p hp hf
    · obtain rfl := List.mem_singleton.mp hp
      rcases h.toClient p (List.mem_of_getElem? hi) hf with h0 | hx
      · exact h0
      · simp [Client.receiving, hx] at hr

theorem boot_finsCounted (ca sa : Sockaddr) (file : List UInt8) (ls : List Label) :
    FinsCounted ((World.boot ca sa file).run ls) :=
  (World.run_inv (I := fun w => (Spoken w ∧ Session file w) ∧ FinsCounted w)
    (fun _ _ h hm => ⟨⟨h.1.1.moves hm, h.1.2.moves h.1.1 hm⟩, h.2.moves h.1.1 h.1.2 hm⟩)
    ⟨boot_session ca sa file [], by simp [World.boot], by simp [World.boot]⟩ ls).2

end

/-! ## Agreement on the exit -/

/-- The two waits of `perform_termination` may end in any way: the client exits with
status 0, and its last packet is the same. -/
theorem termination_blind {c : Client} {pkt : Packet} (hp : c.phase = .waitFinAck pkt) (a b : Arrival)
    (clk : Clock) :
    (((c.recv a).1.recv b).1.act clk).1.phase = .exited 0 ∧
      (((c.recv a).1.recv b).1.act clk).2.map (·.pkt) = [finalAck zeroed] := by
  have wait : ∀ (c : Client) (a : Arrival) (pkt : Packet) (next : Packet → ClientPhase),
      ∃ p, (c.ignoreResult a pkt next).phase = next p := by
    intro c a pkt next
    simp only [Client.ignoreResult]
    split
    next p _ => exact ⟨p, rfl⟩
    next => exact ⟨pkt, rfl⟩
  obtain ⟨p, h1⟩ := wait c a pkt .waitFin
  obtain ⟨q, h2⟩ := wait (c.ignoreResult a pkt .waitFin) b p .sendFinalAck
  have e1 : c.recv a = (c.ignoreResult a pkt .waitFin, []) := by simp only [Client.recv, hp]
  have e2 : (c.ignoreResult a pkt .waitFin).recv b =
      ((c.ignoreResult a pkt .waitFin).ignoreResult b p .sendFinalAck, []) := by simp only [Client.recv, h1]
  rw [e1, e2]
  simp only [Client.act, h2, Client.sendFinalAck]
  exact ⟨trivial, rfl⟩

/-- The client exits with status 0 only after it received the server's FIN, which its final
ACK acknowledges, and the server left its receive loop with the whole file. -/
def ExitAgreement (file : List UInt8) (w : World) : Prop :=
  w.client.phase = .exited 0 → ∃ fin ack : Packet,
    (fin ∈ w.clientHeard ∧ fin.has shamFin = true) ∧
    (w.said.getLast? = some ack ∧ ack.header.ackNum = fin.header.seqNum + 1) ∧
    (w.server.phase = .waitFinalAck ∨ w.server.phase = .exited 0) ∧ w.server.recvBuffer.bytes = file

/-- **The exit is never agreed upon**: `ack_num` is computed from the cleared buffer, so
it is 1, and no FIN that the client received has number 0. -/
theorem exit_agreement_iff (ca sa : Sockaddr) (file : List UInt8) (ls : List Label) :
    let w := (World.boot ca sa file).run ls
    ExitAgreement file w ↔ w.client.phase ≠ .exited 0 := by
  intro w
  have hs : Spoken w := (boot_session ca sa file ls).1
  have hf : FinsCounted w := boot_finsCounted ca sa file ls
  constructor
  · intro h hx
    obtain ⟨fin, ack, ⟨hfin, hflag⟩, ⟨hack, hnum⟩, -⟩ := h hx
    obtain ⟨pkt, hlast⟩ := hs.last hx
    obtain rfl := Option.some.inj (hlast.symm.trans hack)
    have h1 : fin.header.seqNum + 1 = 0 + 1 := hnum.symm
    exact hf.heard fin hfin hflag ((UInt32.add_left_inj 1).mp h1)
  · intro hx h
    exact absurd h hx

/-- A file of one byte, and nothing lost or reordered. -/
def orderlyRun : List Label :=
  [.client {}, .deliverServer 0 false, .deliverClient 0, .deliverServer 0 false, .client {}, .client {}, .client {},
   .deliverServer 0 false, .deliverClient 0, .client {}, .client {}, .client {}, .deliverServer 0 false,
   .deliverClient 0, .deliverClient 0, .client {}, .deliverServer 0 false]

/-- The same up to the client's FIN, which is lost. -/
def finLost : List Label :=
  orderlyRun.take 12 ++ [.lose .toServer 0, .clientTimeout, .clientTimeout, .client {}]

theorem exits_disagree :
    ¬ ExitAgreement [104] ((World.boot ⟨1, 1⟩ ⟨2, 2⟩ [104]).run orderlyRun) ∧
    ((World.boot ⟨1, 1⟩ ⟨2, 2⟩ [104]).run finLost).client.phase = .exited 0 ∧
    ((World.boot ⟨1, 1⟩ ⟨2, 2⟩ [104]).run finLost).clientHeard.any (·.has shamFin) = false := by
  have hx : ((World.boot ⟨1, 1⟩ ⟨2, 2⟩ [104]).run orderlyRun).client.phase = .exited 0 := by decide
  have hfins : ∀ fin ∈ ((World.boot ⟨1, 1⟩ ⟨2, 2⟩ [104]).run orderlyRun).clientHeard, fin.has shamFin = true →
      ((World.boot ⟨1, 1⟩ ⟨2, 2⟩ [104]).run orderlyRun).said.getLast?.map (·.header.ackNum) ≠
        some (fin.header.seqNum + 1) := by decide
  refine ⟨fun h => ?_, by decide, by decide⟩
  obtain ⟨fin, ack, ⟨hfin, hflag⟩, ⟨hack, hnum⟩, -⟩ := h hx
  exact hfins fin hfin hflag (by rw [hack, Option.map_some, hnum])

end OsNetworks.Sham
