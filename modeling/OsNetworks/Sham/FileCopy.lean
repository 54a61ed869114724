/-
What a whole session is for: a copy of the file, from the start of both
processes on. Seen through what the server holds, what the client reports and
what was written, every run of the two processes is a run of a copy.
-/
import OsNetworks.Lib.Copying
import OsNetworks.Sham.Handshake

namespace OsNetworks.Sham
open Copying Relation Runs

/-- A session as a copy: what the server holds, whether `send_file` has returned 0, and
what was written to the file. -/
def World.copy (w : World) : Copy UInt8 :=
  ⟨w.server.recvBuffer.bytes, w.client.fileSent, w.server.receivedFile⟩

/-! ## One move -/

theorem act_fileSent {c : Client} (h : c.fileSent = true) (clk : Clock) : (c.act clk).1.fileSent = true := by
  cases hp : c.phase with
  | sendFin => simp [Client.act, hp, Client.sendFin, Client.fileSent]
  | sendFinalAck pkt => simp [Client.act, hp, Client.sendFinalAck, Client.fileSent]
  | waitFinAck pkt => simpa only [Client.act, hp] using h
  | waitFin pkt => simpa only [Client.act, hp] using h
  | exited k => simpa only [Client.act, hp] using h
  | _ => simp [Client.fileSent, hp] at h

theorem recv_fileSent {c : Client} (h : c.fileSent = true) (a : Arrival) : (c.recv a).1.fileSent = true := by
  have goes : ∀ pkt next, (∀ p, ({ c with phase := next p } : Client).fileSent = true) →
      (c.ignoreResult a pkt next).fileSent = true := by
    intro pkt next hn
    simp only [Client.ignoreResult]
    split <;> exact hn _
  cases hp : c.phase with
  | waitFinAck pkt =>
    simp only [Client.recv, hp]
    exact goes _ _ (by simp [Client.fileSent])
  | waitFin pkt =>
    simp only [Client.recv, hp]
    exact goes _ _ (by simp [Client.fileSent])
  | sendFin => simpa only [Client.recv, hp] using h
  | sendFinalAck pkt => simpa only [Client.recv, hp] using h
  | exited k => simpa only [Client.recv, hp] using h
  | _ => simp [Client.fileSent, hp] at h

/-- From `s` to `s'` the server added to what it holds, or wrote that out and exited. -/
def Server.Copies (s s' : Server) : Prop :=
  ((∃ block, s'.recvBuffer.bytes = s.recvBuffer.bytes ++ block) ∧ s'.receivedFile = s.receivedFile) ∨
  (s'.recvBuffer.bytes = s.recvBuffer.bytes ∧ s'.receivedFile = some s.recvBuffer.bytes ∧ s'.phase = .exited 0)

section
variable {s s' : Server}

theorem Server.Copies.same (hb : s'.recvBuffer = s.recvBuffer) (hf : s'.receivedFile = s.receivedFile) :
    s.Copies s' :=
  .inl ⟨⟨[], by rw [hb, List.append_nil]⟩, hf⟩

theorem Server.Copies.finish (s : Server) (addr : Sockaddr) :
    s.Copies ({ s with clientAddr := addr } : Server).finish := by
  unfold Server.finish
  by_cases hpos : s.recvBuffer.bytes.length > 0
  · exact .inr ⟨rfl, if_pos hpos, rfl⟩
  · exact .same rfl (if_neg hpos)

theorem Server.onSyn_copies (s : Server) (a : Arrival) : s.Copies (s.onSyn a).1 := by
  simp only [Server.onSyn]
  split
  · exact .same rfl rfl
  · exact .same rfl rfl
  · split <;> exact .same rfl rfl

theorem Server.onAck_copies (s : Server) (a : Arrival) : s.Copies (s.onAck a).1 := by
  simp only [Server.onAck]
  split
  · exact .same rfl rfl
  · exact .same rfl rfl
  · split <;> exact .same rfl rfl

theorem Server.handleDataTransfer_copies (s : Server) (a : Arrival) (drop : Bool) :
    s.Copies (s.handleDataTransfer a drop).1 := by
  have hr := s.handleDataTransfer_transfers a drop
  generalize s.handleDataTransfer a drop = r at hr
  cases hr with
  | quiet => exact .same rfl rfl
  | cut => exact .finish s _
  | fin => exact .same rfl rfl
  | @data pkt _ _ _ _ hseq =>
    by_cases hle : (s.recvBuffer.bytes ++ pkt.data).length ≤ recvCapacity
    · rw [Server.onData_stored (s := { s with clientAddr := (recvPacket a s.clientAddr).2 }) hseq hle]
      exact .inl ⟨⟨pkt.data, rfl⟩, rfl⟩
    · rw [Server.onData_overflow (s := { s with clientAddr := (recvPacket a s.clientAddr).2 }) hseq hle]
      exact .same rfl rfl

/-- Whatever ends a wait of the server. -/
theorem Server.recv_copies (s : Server) (a : Arrival) (drop : Bool) : s.Copies (s.recv a drop).1 := by
  cases hp : s.phase with
  | waitSyn => rw [Server.recv_waitSyn _ _ hp]; exact s.onSyn_copies a
  | waitAck => rw [Server.recv_waitAck _ _ hp]; exact s.onAck_copies a
  | transfer => rw [Server.recv_transfer _ _ hp]; exact s.handleDataTransfer_copies a drop
  | waitFinalAck => rw [Server.recv_waitFinalAck _ _ hp]; exact .finish s _
  | exited k => rw [Server.recv_exited _ _ hp]; exact .same rfl rfl
  | undefined => rw [Server.recv_undefined _ _ hp]; exact .same rfl rfl

end

section
variable {file : List UInt8} {w w' : World}

/-- What the server holds is the beginning of the file, and all of it once the client reports. -/
theorem Session.held (h : Session file w) :
    w.server.recvBuffer.bytes <+: file ∧ (w.client.fileSent = true → w.server.recvBuffer.bytes = file) := by
  have nothing : w.server.recvBuffer.bytes = [] → (w.client.fileSent = true → file = []) →
      w.server.recvBuffer.bytes <+: file ∧ (w.client.fileSent = true → w.server.recvBuffer.bytes = file) :=
    fun hb hf => ⟨hb ▸ List.nil_prefix, fun hs => by rw [hb, hf hs]⟩
  cases h with
  | listening hsrv _ hu _ _ => exact nothing (by rw [hsrv]; rfl) (by simp [hu.not_fileSent])
  | greeted hsrv _ h => exact nothing (by rw [hsrv]; rfl) h.client.empty
  | refused hsrv _ _ h => exact nothing (by rw [hsrv]; rfl) h.client.empty
  | begun _ _ _ _ hb =>
    cases hb with
    | ack _ ht => exact ⟨ht.received.1, ht.whole_buffer⟩
    | finalAck _ hf hl => exact nothing hl.held fun _ => hf

/-- The server exits with status 0 only after the client is done. -/
theorem Session.exited (h : Session file w) (hp : w.server.phase = .exited 0) : w.client.fileSent = true := by
  cases h with
  | listening hsrv _ _ _ _ => simp [hsrv] at hp
  | greeted hsrv _ _ => simp [hsrv] at hp
  | refused hsrv _ _ _ => simp [hsrv] at hp
  | begun _ _ _ _ hb =>
    cases hb with
    | ack _ ht => exact ht.closed (.inr hp)
    | finalAck _ _ hl => simp [Client.fileSent, hl.gone]

theorem copy_clientDid (h' : Session file w') {r : Client × List Outgoing} (hc : w'.client = r.1)
    (hs : w'.server = w.server) (hm : w.client.fileSent = true → r.1.fileSent = true) :
    w'.copy = w.copy ∨ Next file w.copy w'.copy := by
  have heq : w'.copy = { w.copy with reported := r.1.fileSent } := by simp only [World.copy, hc, hs]
  rw [heq]
  cases hr : r.1.fileSent with
  | true =>
    refine .inr (.report ?_)
    have hheld := h'.held.2 (by rw [hc, hr])
    rw [hs] at hheld
    exact hheld
  | false =>
    refine .inl ?_
    cases hw : w.client.fileSent with
    | true =>
      rw [hm hw] at hr
      cases hr
    | false => simp only [World.copy, hw]

theorem copy_serverDid (h' : Session file w') {a : Arrival} {drop : Bool} (hc : w'.client = w.client)
    (hs : w'.server = (w.server.recv a drop).1) : w'.copy = w.copy ∨ Next file w.copy w'.copy := by
  have hheld := h'.held.1
  rcases w.server.recv_copies a drop with ⟨⟨block, hb⟩, hf⟩ | ⟨hb, hf, hp⟩
  · have heq : w'.copy = { w.copy with held := w.copy.held ++ block } := by
      simp only [World.copy, hc, hs, hb, hf]
    rw [hs, hb] at hheld
    rw [heq]
    exact .inr (.arrive hheld)
  · have heq : w'.copy = { w.copy with written := some w.copy.held } := by
      simp only [World.copy, hc, hs, hb, hf]
    have hsent := h'.exited (by rw [hs, hp])
    rw [hc] at hsent
    rw [heq]
    exact .inr (.write hsent)

theorem copy_moves (h' : Session file w') (hm : w.Moves w') : w'.copy = w.copy ∨ Next file w.copy w'.copy := by
  cases hm with
  | act clk => exact copy_clientDid h' rfl rfl fun h => act_fileSent h clk
  | clientTimeout => exact copy_clientDid h' rfl rfl fun h => recv_fileSent h _
  | clientTakes hi hr => exact copy_clientDid h' rfl rfl fun h => recv_fileSent h _
  | serverTimeout => exact copy_serverDid h' rfl rfl
  | serverTakes drop hi hr => exact copy_serverDid h' rfl rfl
  | network hts htc => exact .inl rfl

/-- **A session refines a copy of the file.** -/
theorem session_refines (file : List UInt8) :
    Refines World.step (fun w => Spoken w ∧ Session file w) World.copy (Next file) where
  inv := fun w l h => ⟨h.1.moves (w.step_moves l), h.2.moves h.1 (w.step_moves l)⟩
  sim := fun w l h => copy_moves (h.2.moves h.1 (w.step_moves l)) (w.step_moves l)

end

/-! ## Whole sessions -/

/-- **A whole session is safe.** From the start of both processes, over any network: the
server holds a prefix of the file, all of it when `send_file` has returned 0, and writes
nothing but the file, only after that. -/
theorem session_sound (ca sa : Sockaddr) (file : List UInt8) (ls : List Label) :
    Sound file ((World.boot ca sa file).run ls).copy :=
  (session_refines file).run_inv (J := Sound file) (fun _ _ => Sound.next) (boot_session ca sa file [])
    (Sound.start file) ls

/-- **Nothing is taken back** in the course of a session. -/
theorem session_grows (ca sa : Sockaddr) (file : List UInt8) (ls ls' : List Label) :
    Grows ((World.boot ca sa file).run ls).copy ((World.boot ca sa file).run (ls ++ ls')).copy := by
  have hrun := (session_refines file).run (boot_session ca sa file ls) ls'
  have happ : (World.boot ca sa file).run (ls ++ ls') = ((World.boot ca sa file).run ls).run ls' :=
    run_append _ ls ls'
  rw [happ]
  exact (session_sound ca sa file ls).grows hrun

end OsNetworks.Sham
