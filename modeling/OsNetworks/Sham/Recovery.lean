/-
From where the data phase can still be completed.

The way back is one and the same from every repairable state: the clock passes
every timeout, one round of the retransmission loop puts every held block in
flight, the server takes them in order, and its last ACK brings the client
past all that was sent; then the next blocks of the file follow.
-/
import OsNetworks.Sham.Loss

namespace OsNetworks.Sham
open Runs

/-- A step by which the network loses nothing: a statement, a timeout or a delivery. -/
def Lossless : Label → Prop
  | .lose _ _ | .copy _ _ => False
  | .deliverServer _ drop => drop = false
  | _ => True

/-- `send_file` can still return 0, by lossless steps. -/
def Recoverable (w : World) : Prop := ∃ w', Reaches World.step Lossless w w' ∧ w'.client.fileSent = true

theorem Lossless.reaches (w : World) (l : Label) (hl : Lossless l) : Reaches World.step Lossless w (w.step l) :=
  .one hl

/-- Nothing that is still needed is lost. -/
structure Repairable (w : World) : Prop where
  /-- each block the server lacks is in flight or in a visited slot -/
  blocks : ∀ k, w.server.nextExpectedSeq.toNat ≤ 101 + 1024 * k → 101 + 1024 * k < w.client.nextSeqNum.toNat →
    Flying w (101 + 1024 * k) ∨ Held w.client (101 + 1024 * k)
  /-- when the server lacks none, the client knows, or the ACK that says so is in flight, or
  a new block can be sent: at once, or after an ACK in flight -/
  acks : w.server.nextExpectedSeq = w.client.nextSeqNum → w.client.windowBase = w.client.nextSeqNum ∨
    AckFlying w (· = w.client.nextSeqNum) ∨
    (w.client.unread ≠ [] ∧ (w.client.inFlight < 10240 ∨ AckFlying w (· > w.client.windowBase)))

/-! ## The client on its own -/

/-- The packet in slot `i` was sent at time `T`, and is in flight. -/
def Fresh (T : Timeval) (w : World) (i : Fin shamWindowSize) : Prop :=
  (w.client.slot i).sendTime = T ∧ (w.client.slot i).packet ∈ w.toServer

/-- The packet in slot `i` is due at time `T`, and may be sent again. -/
def Due (T : Timeval) (w : World) (i : Fin shamWindowSize) : Prop :=
  isTimeout T (w.client.slot i).sendTime shamTimeoutMs = true ∧ (w.client.slot i).retries < shamMaxRetries

/-- `send_file` at time `T`, with every block the server lacks in flight or held. -/
structure Ready (file : List UInt8) (T : Timeval) (w : World) : Prop where
  inv : TransferInv file w
  sending : w.client.sending = true
  slots : ∀ i : Fin shamWindowSize, w.client.windowBase.toNat + 1024 * i < w.client.nextSeqNum.toNat →
    Fresh T w i ∨ Due T w i
  blocks : ∀ k, w.server.nextExpectedSeq.toNat ≤ 101 + 1024 * k → 101 + 1024 * k < w.client.nextSeqNum.toNat →
    Flying w (101 + 1024 * k) ∨ Held w.client (101 + 1024 * k)

/-- The visited slots the retransmission loop is past are fresh, and the loop sending new
packets stopped for a reason. -/
structure Swept (T : Timeval) (w : World) : Prop where
  fresh : ∀ j : Fin shamWindowSize, w.client.windowBase.toNat + 1024 * j < w.client.nextSeqNum.toNat →
    (∀ i, w.client.phase = .scanning i → (j : Nat) < i) → Fresh T w j
  full : w.client.phase = .waiting → w.client.doneSending = true ∨ 10240 ≤ w.client.inFlight

/-- What the client's statements leave as it was. -/
structure Unmoved (w w' : World) : Prop where
  server : w'.server = w.server
  toClient : w'.toClient = w.toClient
  base : w'.client.windowBase = w.client.windowBase
  next : w.client.nextSeqNum.toNat ≤ w'.client.nextSeqNum.toNat

theorem Unmoved.refl (w : World) : Unmoved w w := ⟨rfl, rfl, rfl, Nat.le_refl _⟩

theorem Unmoved.trans {u v w : World} (h₁ : Unmoved u v) (h₂ : Unmoved v w) : Unmoved u w :=
  ⟨h₂.server.trans h₁.server, h₂.toClient.trans h₁.toClient, h₂.base.trans h₁.base, Nat.le_trans h₁.next h₂.next⟩

/-- How many statements `send_file` is from its wait for ACKs, at most. -/
def Client.rank (c : Client) : Nat :=
  match c.phase with
  | .filling => c.unread.length + 1
  | .loopHead => c.unread.length + 2
  | .checking => c.unread.length + 3
  | .scanning i => c.unread.length + 4 + (11 - i)
  | _ => 0

section
variable {file : List UInt8} {T : Timeval} {w w' : World}

theorem Fresh.keep {i : Fin shamWindowSize} (h : Fresh T w i) (hslot : w'.client.slot i = w.client.slot i)
    (hts : ∀ p ∈ w.toServer, p ∈ w'.toServer) : Fresh T w' i := by
  rw [Fresh, hslot]
  exact ⟨h.1, hts _ h.2⟩

theorem Due.keep {i : Fin shamWindowSize} (h : Due T w i) (hslot : w'.client.slot i = w.client.slot i) :
    Due T w' i := by
  rw [Due, hslot]
  exact h

/-- A step that leaves window and sequence numbers as they are. -/
theorem Ready.same (h : Ready file T w) (hi : TransferInv file w') (hsend : w'.client.sending = true)
    (hw : w'.client.window = w.client.window) (hn : w'.client.nextSeqNum = w.client.nextSeqNum)
    (hb : w'.client.windowBase = w.client.windowBase) (hs : w'.server = w.server)
    (hts : ∀ p ∈ w.toServer, p ∈ w'.toServer) : Ready file T w' := by
  have hslot : ∀ i, w'.client.slot i = w.client.slot i := fun i => by simp only [Client.slot, hw]
  refine ⟨hi, hsend, fun i hi => ?_, fun k hk hkn => ?_⟩
  · rw [hb, hn] at hi
    exact (h.slots i hi).imp (fun hf => hf.keep (hslot i) hts) fun hd => hd.keep (hslot i)
  · rw [hs] at hk
    rw [hn] at hkn
    refine (h.blocks k hk hkn).imp (fun hf => hf.mono hts) fun hx => ?_
    simpa only [Held, Client.scanIdx, Client.pktSeq, hb, hn, hslot] using hx

/-- Slots that were fresh still are, where the window did not change. -/
theorem Swept.same (h : Swept T w) (hw : w'.client.window = w.client.window)
    (hn : w'.client.nextSeqNum = w.client.nextSeqNum) (hb : w'.client.windowBase = w.client.windowBase)
    (hts : ∀ p ∈ w.toServer, p ∈ w'.toServer)
    (hph : ∀ j : Fin shamWindowSize, w.client.windowBase.toNat + 1024 * j < w.client.nextSeqNum.toNat →
      (∀ i, w'.client.phase = .scanning i → (j : Nat) < i) →
      (∀ i, w.client.phase = .scanning i → (j : Nat) < i) ∨ Fresh T w j)
    (hfull : w'.client.phase = .waiting → w'.client.doneSending = true ∨ 10240 ≤ w'.client.inFlight) :
    Swept T w' := by
  refine ⟨fun j hj hi => ?_, hfull⟩
  rw [hb, hn] at hj
  have hf : Fresh T w j := (hph j hj hi).elim (h.fresh j hj) id
  exact hf.keep (by rw [Client.slot, Client.slot, hw]) hts

/-- What one statement of `send_file` at time `T` achieves, up to its wait for ACKs. -/
structure Ticks (file : List UInt8) (T : Timeval) (w w' : World) : Prop where
  ready : Ready file T w'
  unmoved : Unmoved w w'
  rank : w'.client.rank < w.client.rank
  swept : Swept T w → Swept T w'

/-- The world after the client's next statement at time `T`. -/
abbrev tick (T : Timeval) (w : World) : World := w.step (.client ⟨T, T⟩)

theorem mem_tick {p : Packet} (hp : p ∈ w.toServer) : p ∈ (tick T w).toServer := List.mem_append_left _ hp

/-- A statement that only goes elsewhere. -/
theorem Ready.goto (h : Ready file T w) {p : ClientPhase} {d : Bool}
    (hact : w.client.act ⟨T, T⟩ = ({ w.client with phase := p, doneSending := d }, []))
    (hsend : ({ w.client with phase := p } : Client).sending = true)
    (hrank : ({ w.client with phase := p } : Client).rank < w.client.rank)
    (hph : Swept T w → ∀ j : Fin shamWindowSize, w.client.windowBase.toNat + 1024 * j < w.client.nextSeqNum.toNat →
      (∀ i, p = .scanning i → (j : Nat) < i) → (∀ i, w.client.phase = .scanning i → (j : Nat) < i) ∨ Fresh T w j)
    (hfull : p = .waiting → d = true ∨ 10240 ≤ w.client.inFlight) : Ticks file T w (tick T w) := by
  have hi : TransferInv file (tick T w) := h.inv.moves (w.step_moves _)
  have hc : (tick T w).client = { w.client with phase := p, doneSending := d } := by
    simp only [tick, World.step, clientDid_client, hact]
  refine ⟨h.same hi (by rw [hc]; exact hsend) (by rw [hc]) (by rw [hc]) (by rw [hc]) rfl fun _ => mem_tick,
    ⟨rfl, rfl, by rw [hc], Nat.le_of_eq (by rw [hc])⟩, by rw [hc]; exact hrank, fun hs => ?_⟩
  exact hs.same (by rw [hc]) (by rw [hc]) (by rw [hc]) (fun _ => mem_tick) (by rw [hc]; exact hph hs)
    (by rw [hc]; exact hfull)

theorem tick_client (w : World) (T : Timeval) : (tick T w).client = (w.client.act ⟨T, T⟩).1 := rfl

/-- Sending a new block. -/
theorem Ready.tick_sent (h : Ready file T w) (hp : w.client.phase = .filling)
    (hf : w.client.inFlight < 10240) (hu : w.client.unread ≠ [])
    (hact : w.client.act ⟨T, T⟩ = w.client.sendNext T) : Ticks file T w (tick T w) := by
  have hi : TransferInv file (tick T w) := h.inv.moves (w.step_moves _)
  have hc : (tick T w).client = (w.client.sendNext T).1 := by rw [tick_client, hact]
  have hci := hi.client
  have hv := h.inv.client.sendNext_visited h.inv.low hu T
  have hslot : ∀ i : Fin shamWindowSize, (tick T w).client.slot i =
      if w.client.windowBase.toNat + 1024 * i = w.client.nextSeqNum.toNat then
        { packet := w.client.nextPacket, sendTime := T }
      else w.client.slot i := fun i => by rw [hc]; exact h.inv.client.sendNext_slot hf hu T i
  have hmem : w.client.nextPacket ∈ (tick T w).toServer := by
    show w.client.nextPacket ∈ w.toServer ++ arriving w.serverAddr (w.client.act ⟨T, T⟩).2
    rw [hact]
    exact sent_arrives _ (List.mem_singleton_self _) h.inv.client.addr
  have new : ∀ i : Fin shamWindowSize, w.client.windowBase.toNat + 1024 * i = w.client.nextSeqNum.toNat →
      Fresh T (tick T w) i := fun i heq => by
    rw [Fresh, (hslot i).trans (if_pos heq)]
    exact ⟨rfl, hmem⟩
  have hn : w.client.nextSeqNum.toNat ≤ (w.client.sendNext T).1.nextSeqNum.toNat := by
    rw [h.inv.low.sendNext_next]; exact Nat.le_add_right _ _
  have hblock := h.inv.client.nextPacket hu
  have hlow := hi.low
  rw [hc] at hci hlow
  refine ⟨⟨hi, ?_, fun i hiv => ?_, fun k hk hkn => ?_⟩, ⟨rfl, rfl, by rw [hc]; rfl, by rw [hc]; exact hn⟩, ?_,
    fun hs => ⟨fun j hj _ => ?_, ?_⟩⟩
  · simp [hc, Client.sendNext, Client.sending, Client.setSlot, hp]
  · rw [hc] at hiv
    have hle := (hv i).mp hiv
    by_cases heq : w.client.windowBase.toNat + 1024 * i = w.client.nextSeqNum.toNat
    · exact .inl (new i heq)
    · have hsame := (hslot i).trans (if_neg heq)
      exact (h.slots i (Nat.lt_of_le_of_ne hle heq)).imp (fun hf => hf.keep hsame fun _ => mem_tick) (·.keep hsame)
  · rw [hc, h.inv.low.sendNext_next] at hkn
    by_cases hlt : 101 + 1024 * k < w.client.nextSeqNum.toNat
    · refine (h.blocks k hk hlt).imp (fun hf => hf.mono fun _ => mem_tick) fun hx => ?_
      rw [hc]
      exact (h.inv.client.held_sendNext h.inv.low hci hlow hf hu hlt).mpr hx
    · refine .inl ⟨_, hmem, fun he => ?_, ?_⟩
      · have := hblock.length_pos
        rw [he] at this
        cases this
      · have := hblock.aligned; have := hblock.le; have := w.client.nextPacket.data_le
        have hseq : w.client.nextPacket.header.seqNum = w.client.nextSeqNum := rfl
        simp only [shamDataSize, hseq] at *
        omega
  · have := List.length_pos_iff.mpr hu
    simp only [hc, Client.sendNext, Client.rank, Client.setSlot, hp, List.length_drop, shamDataSize]
    omega
  · rw [hc] at hj
    have hle := (hv j).mp hj
    by_cases heq : w.client.windowBase.toNat + 1024 * j = w.client.nextSeqNum.toNat
    · exact new j heq
    · have hfresh := hs.fresh j (Nat.lt_of_le_of_ne hle heq) (by simp [hp])
      exact hfresh.keep ((hslot j).trans (if_neg heq)) fun _ => mem_tick
  · simp [hc, Client.sendNext, Client.setSlot, hp]

/-- Sending the packet of a due slot again. -/
theorem Ready.tick_resent (h : Ready file T w) {i : Nat} (hi : i < 10)
    (hp : w.client.phase = .scanning i)
    (hact : w.client.act ⟨T, T⟩ = { w.client with phase := .scanning (i + 1) }.resend T ⟨i, hi⟩) :
    Ticks file T w (tick T w) := by
  have hinv : TransferInv file (tick T w) := h.inv.moves (w.step_moves _)
  have hc : (tick T w).client = ({ w.client with phase := .scanning (i + 1) }.resend T ⟨i, hi⟩).1 := by
    rw [tick_client, hact]
  have hmem : (w.client.slot ⟨i, hi⟩).packet ∈ (tick T w).toServer := by
    show _ ∈ w.toServer ++ arriving w.serverAddr (w.client.act ⟨T, T⟩).2
    rw [hact]
    exact sent_arrives _ (List.mem_singleton_self _) h.inv.client.addr
  have hslot : ∀ j, (tick T w).client.slot j =
      if ⟨i, hi⟩ = j then { (w.client.slot ⟨i, hi⟩) with sendTime := T, retries := (w.client.slot ⟨i, hi⟩).retries + 1 }
      else w.client.slot j := fun j => by rw [hc]; exact resend_slot T _ j
  have new : Fresh T (tick T w) ⟨i, hi⟩ := by
    rw [Fresh, (hslot _).trans (if_pos rfl)]
    exact ⟨rfl, hmem⟩
  have hpkt : ∀ j, ((tick T w).client.slot j).packet = (w.client.slot j).packet := fun j => by
    rw [hc]; exact resend_packet T _ j
  have hn : (tick T w).client.nextSeqNum = w.client.nextSeqNum := by rw [hc]; rfl
  have hb : (tick T w).client.windowBase = w.client.windowBase := by rw [hc]; rfl
  have hph : (tick T w).client.phase = .scanning (i + 1) := by rw [hc]; rfl
  refine ⟨⟨hinv, by simp [Client.sending, hph], fun j hj => ?_, fun k hk hkn => ?_⟩,
    ⟨rfl, rfl, hb, Nat.le_of_eq (by rw [hn])⟩, ?_, fun hs => ⟨fun j hj hlt => ?_, by simp [hph]⟩⟩
  · rw [hb, hn] at hj
    by_cases heq : ⟨i, hi⟩ = j
    · exact .inl (heq ▸ new)
    · have hsame := (hslot j).trans (if_neg heq)
      exact (h.slots j hj).imp (fun hf => hf.keep hsame fun _ => mem_tick) (·.keep hsame)
  · rw [hn] at hkn
    refine (h.blocks k hk hkn).imp (fun hf => hf.mono fun _ => mem_tick) fun hx => ?_
    simpa only [Held, Client.scanIdx, Client.pktSeq, hb, hn, hpkt] using hx
  · have hu : (tick T w).client.unread = w.client.unread := by rw [hc]; rfl
    simp only [Client.rank, hph, hp, hu]
    omega
  · rw [hb, hn] at hj
    by_cases heq : ⟨i, hi⟩ = j
    · exact heq ▸ new
    · have hji := hlt (i + 1) hph
      have hne : (j : Nat) ≠ i := fun he => heq (Fin.ext he.symm)
      have hfresh := hs.fresh j hj fun i' hi' => by
        rw [hp] at hi'
        cases hi'
        omega
      exact hfresh.keep ((hslot j).trans (if_neg heq)) fun _ => mem_tick

/-- A visited slot that is not due is fresh, and one that is due may be sent again. -/
theorem Ready.slot_cases (h : Ready file T w) {i : Fin shamWindowSize}
    (hi : w.client.windowBase.toNat + 1024 * i < w.client.nextSeqNum.toNat) :
    (isTimeout T (w.client.slot i).sendTime shamTimeoutMs = false → Fresh T w i) ∧
    (isTimeout T (w.client.slot i).sendTime shamTimeoutMs = true → (w.client.slot i).retries < shamMaxRetries) := by
  rcases h.slots i hi with hf | ⟨ht, hr⟩
  · refine ⟨fun _ => hf, fun ht => ?_⟩
    rw [hf.1, isTimeout_self] at ht
    cases ht
  · refine ⟨fun hf => ?_, fun _ => hr⟩
    rw [ht] at hf
    cases hf

theorem Ready.tick_filling (h : Ready file T w) (hp : w.client.phase = .filling) :
    Ticks file T w (tick T w) := by
  have hact : w.client.act ⟨T, T⟩ = w.client.fill T := by simp only [Client.act, hp]
  have hr := w.client.fill_fills T
  generalize w.client.fill T = r at hr hact
  cases hr with
  | full hfull =>
    exact h.goto (d := w.client.doneSending) hact rfl (by simp [Client.rank, hp])
      (fun _ _ _ _ => .inl (by simp [hp])) fun _ => hfull
  | eof =>
    exact h.goto hact rfl (by simp [Client.rank, hp]) (fun _ _ _ _ => .inl (by simp [hp])) fun _ => .inl rfl
  | sent _ hf hu => exact h.tick_sent hp hf hu hact

theorem Ready.tick_scanning (h : Ready file T w) {i : Nat}
    (hp : w.client.phase = .scanning i) : Ticks file T w (tick T w) := by
  have hci := h.inv.client
  have hact : w.client.act ⟨T, T⟩ = w.client.scan ⟨T, T⟩ i := by simp only [Client.act, hp]
  have hr := w.client.scan_scans ⟨T, T⟩ i
  generalize w.client.scan ⟨T, T⟩ i = r at hr hact
  have visited : ∀ hi : i < 10, w.client.pktSeq i < w.client.nextSeqNum →
      w.client.windowBase.toNat + 1024 * (⟨i, hi⟩ : Fin shamWindowSize) < w.client.nextSeqNum.toNat :=
    fun hi hlt => (hci.visited_iff h.inv.low hi).mp hlt
  have next : ∀ {j : Nat}, (∀ i', ClientPhase.scanning (i + 1) = .scanning i' → j < i') → j ≠ i →
      ∀ i', w.client.phase = .scanning i' → j < i' := fun hj hne i' hi' => by
    rw [hp] at hi'
    cases hi'
    have := hj (i + 1) rfl
    omega
  cases hr with
  | finish hfin =>
    refine h.goto (d := w.client.doneSending) hact rfl (by simp [Client.rank, hp]; omega)
      (fun _ j hj _ => .inl fun i' hi' => ?_) (by simp)
    rw [hp] at hi'
    cases hi'
    rcases hfin with hge | hle
    · exact Nat.lt_of_lt_of_le j.isLt hge
    · refine Decidable.byContradiction fun hlt => ?_
      have := j.isLt
      rw [UInt32.le_iff_toNat_le, hci.pktSeq_eq h.inv.low (by simp only [shamWindowSize] at *; omega)] at hle
      omega
  | skip hi hlt =>
    rw [UInt32.lt_iff_toNat_lt, hci.pktSeq_eq h.inv.low (Nat.le_of_lt hi)] at hlt
    omega
  | quiet hi hlt _ hq =>
    rw [hci.scanIdx_eq h.inv.low hi, hci.notAcked] at hq
    have hfresh := (h.slot_cases (visited hi hlt)).1 (hq.resolve_left (by simp))
    refine h.goto (d := w.client.doneSending) hact rfl (by simp [Client.rank, hp]; omega)
      (fun _ j _ hj => ?_) (by simp)
    by_cases he : (j : Nat) = i
    · exact .inr ((Fin.ext he : j = ⟨i, hi⟩) ▸ hfresh)
    · exact .inl (next hj he)
  | giveUp hi hlt _ ht hret =>
    rw [hci.scanIdx_eq h.inv.low hi] at ht hret
    exact absurd hret (Nat.not_le.mpr ((h.slot_cases (visited hi hlt)).2 ht))
  | resend hi hlt =>
    rw [hci.scanIdx_eq h.inv.low hi] at hact
    exact h.tick_resent hi hp hact

/-- **One statement** of `send_file` at time `T`, unless it waits. -/
theorem Ready.tick (h : Ready file T w) (hw : w.client.phase ≠ .waiting) :
    (tick T w).client.fileSent = true ∨ Ticks file T w (tick T w) := by
  cases hp : w.client.phase with
  | waiting => exact absurd hp hw
  | loopHead =>
    have hact : w.client.act ⟨T, T⟩ = (w.client.loopHead, []) := by simp only [Client.act, hp]
    unfold Client.loopHead at hact
    split at hact
    · exact .inr (h.goto (d := w.client.doneSending) hact rfl (by simp [Client.rank, hp])
        (fun _ _ _ _ => .inl (by simp [hp])) (by simp))
    · exact .inl (by rw [tick_client, hact]; rfl)
  | filling => exact .inr (h.tick_filling hp)
  | scanning i => exact .inr (h.tick_scanning hp)
  | checking =>
    have hact : w.client.act ⟨T, T⟩ = (w.client.check, []) := by simp only [Client.act, hp]
    unfold Client.check at hact
    split at hact
    · exact .inl (by rw [tick_client, hact]; rfl)
    · exact .inr (h.goto (d := w.client.doneSending) hact rfl (by simp [Client.rank, hp])
        (fun _ _ _ _ => .inl (by simp [hp])) (by simp))
  | _ => simpa [Client.sending, hp] using h.sending

/-- Statement by statement, `send_file` returns 0 or comes to wait for ACKs. -/
theorem Ready.settle (h : Ready file T w) {K : Prop} (hK : K → Swept T w) :
    Recoverable w ∨ ∃ w', Reaches World.step Lossless w w' ∧ Ready file T w' ∧ w'.client.phase = .waiting ∧
      Unmoved w w' ∧ (K → Swept T w') := by
  have hdesc : ∃ w', Reaches World.step Lossless w w' ∧ (w'.client.fileSent = true ∨
      (Ready file T w' ∧ w'.client.phase = .waiting ∧ Unmoved w w' ∧ (K → Swept T w'))) := by
    refine Reaches.descend (P := fun u => Ready file T u ∧ Unmoved w u ∧ (K → Swept T u)) (fun u => u.client.rank)
      (fun u ⟨hu, hm, hs⟩ => ?_) ⟨h, Unmoved.refl w, hK⟩
    have hone := Lossless.reaches u (.client ⟨T, T⟩) trivial
    by_cases hw : u.client.phase = .waiting
    · exact .inl ⟨u, .refl u, .inr ⟨hu, hw, hm, hs⟩⟩
    · rcases hu.tick hw with hf | ht
      · exact .inl ⟨_, hone, .inl hf⟩
      · exact .inr ⟨_, hone, ⟨ht.ready, hm.trans ht.unmoved, fun k => ht.swept (hs k)⟩, ht.rank⟩
  obtain ⟨w', hr, hq | hq⟩ := hdesc
  · exact .inl ⟨w', hr, hq⟩
  · exact .inr ⟨w', hr, hq⟩

/-! ## Deliveries -/

/-- Everything the server lacks is in flight, and so is the ACK that will be needed, unless
it is still to be sent. -/
structure Inbound (file : List UInt8) (w : World) : Prop where
  inv : TransferInv file w
  sending : w.client.sending = true
  flying : ∀ k, w.server.nextExpectedSeq.toNat ≤ 101 + 1024 * k → 101 + 1024 * k < w.client.nextSeqNum.toNat →
    Flying w (101 + 1024 * k)
  acks : w.server.nextExpectedSeq = w.client.nextSeqNum → w.client.windowBase = w.client.nextSeqNum ∨
    AckFlying w (· = w.client.nextSeqNum)

theorem TransferInv.server_transfer (h : TransferInv file w) (hL : file.length ≤ recvCapacity)
    (hs : w.client.sending = true) : w.server.phase = .transfer :=
  Decidable.byContradiction fun hne => h.not_left (sending_not_fileSent hs) (h.left hL hne)

/-- Delivering the block that is next in order. -/
theorem Inbound.deliver (h : Inbound file w) (hL : file.length ≤ recvCapacity)
    (hlt : w.server.nextExpectedSeq.toNat < w.client.nextSeqNum.toNat) :
    ∃ i, Inbound file (w.step (.deliverServer i false)) ∧ (w.step (.deliverServer i false)).client = w.client ∧
      w.server.nextExpectedSeq.toNat < (w.step (.deliverServer i false)).server.nextExpectedSeq.toNat := by
  have hn := h.inv.server.next; have hcn := h.inv.client.next.2.1
  obtain ⟨k, hk⟩ : ∃ k, w.server.nextExpectedSeq.toNat = 101 + 1024 * k := by
    have := hn.1; have := hn.2.2
    exact ⟨(w.server.nextExpectedSeq.toNat - 101) / 1024, by omega⟩
  obtain ⟨p, hp, hd, hx⟩ := h.flying k (by omega) (by omega)
  obtain ⟨i, hi⟩ := Channel.exists_getElem? hp
  have hblock := (h.inv.block_of_data hp hd).1
  have hseq : p.header.seqNum = w.server.nextExpectedSeq := UInt32.toNat_inj.mp (by omega)
  have hph := h.inv.server_transfer hL h.sending
  have hr : w.server.recv (.datagram w.clientAddr p.toBytes) false = w.server.onData p := by
    rw [Server.recv_transfer _ _ hph, Server.handleDataTransfer, recvPacket_toBytes]
    simp [hblock.has_eq, hblock.length_pos, ← h.inv.server.addr]
  have hstep : w.step (.deliverServer i false) = w.serverTakes i p false := by
    simp [World.step, hi, Server.receiving, hph]
  have hinv := h.inv.moves (w.step_moves (.deliverServer i false))
  refine ⟨i, ?_⟩
  rw [hstep] at hinv ⊢
  have hfits := h.inv.server.fits hL hblock hseq
  have hnext := h.inv.server.next_add hfits
  have hs : (w.serverTakes i p false).server.nextExpectedSeq =
      w.server.nextExpectedSeq + UInt32.ofNat p.data.length := by
    rw [serverTakes_server, hr, h.inv.server.onData_eq hseq hfits]
  have hpos := hblock.length_pos
  refine ⟨⟨hinv, h.sending, fun k' hk' hkn' => ?_,
    fun he => .inr ⟨dataAck (w.server.nextExpectedSeq + UInt32.ofNat p.data.length), ?_, ?_, ?_⟩⟩, rfl, ?_⟩
  · rw [hs, hnext] at hk'
    obtain ⟨p', hp', hd', hx'⟩ := h.flying k' (by omega) hkn'
    refine ⟨p', Channel.mem_take_of_ne hi hp' fun he => ?_, hd', hx'⟩
    rw [he] at hx'
    omega
  · rw [serverTakes_toClient, hr, h.inv.server.onData_eq hseq hfits]
    exact sent_arrives _ (List.mem_singleton_self _) rfl
  · exact dataAck_has_ack _
  · show w.server.nextExpectedSeq + UInt32.ofNat p.data.length = _
    rw [← hs, he]
  · rw [hs, hnext]
    omega

/-- Delivering all the server lacks. -/
theorem Inbound.deliverAll (h : Inbound file w) (hL : file.length ≤ recvCapacity) :
    ∃ w', Reaches World.step Lossless w w' ∧ Inbound file w' ∧ w'.client = w.client ∧
      w'.server.nextExpectedSeq = w'.client.nextSeqNum := by
  refine Reaches.descend (P := fun u => Inbound file u ∧ u.client = w.client)
    (fun u => u.client.nextSeqNum.toNat - u.server.nextExpectedSeq.toNat) (fun u ⟨hu, hc⟩ => ?_) ⟨h, rfl⟩
  by_cases hlt : u.server.nextExpectedSeq.toNat < u.client.nextSeqNum.toNat
  · obtain ⟨i, hi, hci, hgt⟩ := hu.deliver hL hlt
    exact .inr ⟨_, Lossless.reaches u (.deliverServer i false) rfl, ⟨hi, hci.trans hc⟩, by rw [hci]; omega⟩
  · have := hu.inv.expected_le
    exact .inl ⟨u, .refl u, hu, hc, UInt32.toNat_inj.mp (by omega)⟩

/-! ## Rounds -/

/-- After a whole round of the retransmission loop every block the server lacks is in flight. -/
theorem Ready.inbound (h : Ready file T w) (hw : w.client.phase = .waiting)
    (hs : Swept T w) (hacks : w.server.nextExpectedSeq = w.client.nextSeqNum →
      w.client.windowBase = w.client.nextSeqNum ∨ AckFlying w (· = w.client.nextSeqNum)) : Inbound file w := by
  refine ⟨h.inv, h.sending, fun k hk hkn => ?_, hacks⟩
  rcases h.blocks k hk hkn with hf | hheld
  · exact hf
  · obtain ⟨i, hi, hx⟩ := (h.inv.client.held_iff h.inv.low).mp hheld
    obtain ⟨-, hmem⟩ := hs.fresh i hi (by simp [hw])
    have hpos := (h.inv.client.filled i hi).1.length_pos
    exact ⟨_, hmem, List.length_pos_iff.mp hpos, hx⟩

/-- What the end of a wait leaves as it was, the retransmission loop next. -/
structure Woken (b : UInt32) (w w' : World) : Prop where
  phase : w'.client.phase = .scanning 0
  base : w'.client.windowBase = b
  next : w'.client.nextSeqNum = w.client.nextSeqNum
  window : w'.client.window = w.client.window
  done : w'.client.doneSending = w.client.doneSending
  server : w'.server = w.server
  toServer : w'.toServer = w.toServer

theorem woken_timeout (hw : w.client.phase = .waiting) : Woken w.client.windowBase w (w.step .clientTimeout) := by
  have hr : w.client.recv .timeout = ({ w.client with phase := .scanning 0 }, []) := by
    simp [Client.recv, hw, Client.onAck]
  simp only [World.step, hr]
  exact ⟨rfl, rfl, rfl, rfl, rfl, rfl, by simp⟩

/-- Delivering an ACK above `window_base`. -/
theorem woken_ack (hw : w.client.phase = .waiting) {P : UInt32 → Prop} (h : AckFlying w P)
    (hP : ∀ b, P b → w.client.windowBase < b) :
    ∃ i b, P b ∧ Woken b w (w.step (.deliverClient i)) := by
  obtain ⟨p, hp, hack, hx⟩ := h
  obtain ⟨i, hi⟩ := Channel.exists_getElem? hp
  have hr : w.client.recv (.datagram w.serverAddr p.toBytes) =
      ({ w.client with serverAddr := w.serverAddr, phase := .scanning 0, windowBase := p.header.ackNum,
                       peerWindow := p.header.windowSize }, []) := by
    have hgt : p.header.ackNum > w.client.windowBase := hP _ hx
    simp [Client.recv, hw, Client.onAck, hack, hgt]
  have hstep : w.step (.deliverClient i) = w.clientTakes i p := by
    simp [World.step, hi, Client.receiving, hw]
  refine ⟨i, p.header.ackNum, hx, ?_⟩
  rw [hstep]
  exact ⟨by rw [clientTakes_client, hr], by rw [clientTakes_client, hr], by rw [clientTakes_client, hr],
    by rw [clientTakes_client, hr], by rw [clientTakes_client, hr], rfl, by rw [clientTakes_toServer, hr]; simp⟩

/-- The retransmission loop is about to start, so it is past no slot yet. -/
theorem Woken.swept {b : UInt32} (h : Woken b w w') : Swept T w' :=
  ⟨fun j _ hj => absurd (hj 0 h.phase) (Nat.not_lt_zero _), by simp [h.phase]⟩

theorem Woken.sending {b : UInt32} (h : Woken b w w') : w'.client.sending = true := by
  simp [Client.sending, h.phase]

/-- With nothing unacknowledged, `send_file` is ready for its next round. -/
theorem Woken.ready (h : Woken w.client.nextSeqNum w w') (hi : TransferInv file w')
    (he : w.server.nextExpectedSeq = w.client.nextSeqNum) : Ready file T w' := by
  refine ⟨hi, h.sending, fun i hi => ?_, fun k hk hkn => ?_⟩
  · rw [h.base, h.next] at hi
    omega
  · rw [h.server, he] at hk
    rw [h.next] at hkn
    omega

/-- With the whole file read and nothing unacknowledged, `send_file` returns 0. -/
theorem Woken.returns (h : Woken w.client.nextSeqNum w w') (hi : TransferInv file w')
    (hd : w.client.doneSending = true) : Recoverable w' := by
  have hpk := hi.client.pktSeq_eq hi.low (Nat.zero_le 10)
  have hfin : w'.client.nextSeqNum ≤ w'.client.pktSeq 0 := by
    exact UInt32.le_iff_toNat_le.mpr (Nat.le_of_eq (by rw [hpk, h.base, h.next]; rfl))
  have hb : w'.client.nextSeqNum ≤ w'.client.windowBase := UInt32.le_of_eq (by rw [h.base, h.next])
  have h1 : (w'.client.act {}).1 = { w'.client with phase := .checking } := by
    simp [Client.act, h.phase, Client.scan, hfin]
  have h2 : ((w'.step (.client {})).step (.client {})).client.fileSent = true := by
    show ((w'.client.act {}).1.act {}).1.fileSent = true
    rw [h1]
    simp [Client.act, Client.check, h.done, hd, hb, Client.fileSent]
  exact ⟨_, (Lossless.reaches _ (.client {}) trivial).trans (Lossless.reaches _ (.client {}) trivial), h2⟩

/-- What is left to do: the bytes not yet sent, and noticing the end of the file. -/
def Client.remaining (c : Client) (len : Nat) : Nat :=
  101 + len - c.nextSeqNum.toNat + if c.doneSending then 0 else 1

/-- One round: all that was sent is delivered and acknowledged, and `send_file` returns 0
or sends more. -/
theorem Inbound.round (h : Inbound file w) (hL : file.length ≤ recvCapacity) (hw : w.client.phase = .waiting) :
    Recoverable w ∨ ∃ w', Reaches World.step Lossless w w' ∧ (Inbound file w' ∧ w'.client.phase = .waiting) ∧
      w'.client.remaining file.length < w.client.remaining file.length := by
  obtain ⟨u, hwu, hu, huc, hue⟩ := h.deliverAll hL
  have huw : u.client.phase = .waiting := by rw [huc, hw]
  -- the client learns that all was received, if it does not know
  obtain ⟨l, hl, hv⟩ : ∃ l, Lossless l ∧ Woken u.client.nextSeqNum u (u.step l) := by
    by_cases hb : u.client.windowBase = u.client.nextSeqNum
    · exact ⟨.clientTimeout, trivial, hb ▸ woken_timeout huw⟩
    · have hlt : u.client.windowBase < u.client.nextSeqNum := by
        have := hu.inv.client.base_le
        rw [UInt32.lt_iff_toNat_lt]
        exact Nat.lt_of_le_of_ne this fun he => hb (UInt32.toNat_inj.mp he)
      obtain ⟨i, b, rfl, hv⟩ := woken_ack huw ((hu.acks hue).resolve_left hb) (fun b hb => hb ▸ hlt)
      exact ⟨.deliverClient i, trivial, hv⟩
  have hwv := hwu.trans (Lossless.reaches u l hl)
  have hvi := hu.inv.moves (u.step_moves l)
  cases hd : u.client.doneSending with
  | true =>
    obtain ⟨x, hx, hs⟩ := hv.returns hvi hd
    exact .inl ⟨x, hwv.trans hx, hs⟩
  | false =>
    rcases (hv.ready hvi hue : Ready file {} (u.step l)).settle fun (_ : True) => hv.swept with
      ⟨x, hx, hs⟩ | ⟨x, hx, hxr, hxw, hxm, hxs⟩
    · exact .inl ⟨x, hwv.trans hx, hs⟩
    · refine .inr ⟨x, hwv.trans hx, ⟨hxr.inbound hxw (hxs trivial) fun he => .inl ?_, hxw⟩, ?_⟩
      · rw [hxm.base, hv.base, ← hue, ← he, hxm.server, hv.server]
      · have hn := hxm.next
        have hlen := hxr.inv.client.next.2.1
        rw [hv.next, huc] at hn
        simp only [Client.remaining, huc ▸ hd]
        rcases (hxs trivial).full hxw with hxd | hfull
        · simp only [hxd, if_true]
          simp; omega
        · rw [hxr.inv.client.inFlight_eq, hxm.base, hv.base, huc] at hfull
          split <;> simp <;> omega

theorem Inbound.recoverable (h : Inbound file w) (hL : file.length ≤ recvCapacity) (hw : w.client.phase = .waiting) :
    Recoverable w := by
  refine Reaches.descend (P := fun u => Inbound file u ∧ u.client.phase = .waiting)
    (fun u => u.client.remaining file.length) (fun u ⟨hu, huw⟩ => ?_) ⟨h, hw⟩
  exact hu.round hL huw

/-! ## From where -/

/-- A wait that ends with nothing new acknowledged leaves `send_file` ready. -/
theorem Ready.woken {b : UInt32} (h : Ready file T w) (hi : TransferInv file w') (hv : Woken b w w')
    (hb : w.client.windowBase ≤ b)
    (hblocks : b = w.client.windowBase ∨ w.server.nextExpectedSeq = w.client.nextSeqNum) : Ready file T w' := by
  have hslot : ∀ i, w'.client.slot i = w.client.slot i := fun i => by simp only [Client.slot, hv.window]
  have hle := UInt32.le_iff_toNat_le.mp hb
  refine ⟨hi, hv.sending, fun i hi => ?_, fun k hk hkn => ?_⟩
  · rw [hv.base, hv.next] at hi
    simp only [Fresh, Due, hslot, hv.toServer]
    exact h.slots i (by omega)
  · rw [hv.server] at hk
    rw [hv.next] at hkn
    rcases hblocks with hbase | he
    · simpa only [Flying, Held, Client.scanIdx, Client.pktSeq, hv.base, hv.next, hv.toServer, hslot, hbase] using
        h.blocks k hk hkn
    · rw [he] at hk
      omega

/-- Swept and waiting, `send_file` has sent as much as the file and the window allow. -/
theorem Ready.sent_all (h : Ready file T w) (hw : w.client.phase = .waiting) (hs : Swept T w) :
    w.client.nextSeqNum.toNat = 101 + file.length ∨
      w.client.windowBase.toNat + 10240 ≤ w.client.nextSeqNum.toNat := by
  rcases hs.full hw with hd | hf
  · exact .inl (h.inv.client.done hd)
  · rw [h.inv.client.inFlight_eq] at hf
    exact .inr (by omega)

theorem TransferInv.next_lt_of_unread (h : TransferInv file w) (hu : w.client.unread ≠ []) :
    w.client.nextSeqNum.toNat < 101 + file.length := by
  have := (h.client.next_aligned hu).1; have := h.client.next.1
  omega

/-- The rest of the way, with every held block in flight again. -/
theorem Ready.resume (hL : file.length ≤ recvCapacity) {x : World} (hxr : Ready file T x)
    (hxw : x.client.phase = .waiting) (hxs : Swept T x) (hm : Unmoved w x) (h : Repairable w)
    (hi : TransferInv file w) : Recoverable x := by
  by_cases he : x.server.nextExpectedSeq = x.client.nextSeqNum
  · have hn : x.client.nextSeqNum.toNat = w.client.nextSeqNum.toNat := by
      have := hm.next; have := hi.expected_le
      rw [hm.server] at he
      rw [he] at this
      omega
    have hn' := UInt32.toNat_inj.mp hn
    have hack : ∀ P, AckFlying w P → AckFlying x P := fun P hP => by simpa only [AckFlying, hm.toClient] using hP
    rcases h.acks (by rw [← hn', ← he, hm.server]) with hb | hb | ⟨hu, hb⟩
    · exact (hxr.inbound hxw hxs fun _ => .inl (by rw [hm.base, hb, hn'])).recoverable hL hxw
    · exact (hxr.inbound hxw hxs fun _ => .inr (hack _ (hn' ▸ hb))).recoverable hL hxw
    · have hu := hi.next_lt_of_unread hu
      rcases hb with hb | hb
      · -- a new block could be sent, so one was
        rw [hi.client.inFlight_eq] at hb
        rcases hxr.sent_all hxw hxs with h' | h'
        · omega
        · rw [hm.base] at h'
          omega
      · -- the ACK makes room for a new block
        obtain ⟨i, b, hgt, hv⟩ := woken_ack hxw (hack _ hb) (fun b hb => hm.base ▸ hb)
        have hgt' := UInt32.lt_iff_toNat_lt.mp hgt
        have hyr := hxr.woken (hxr.inv.moves (x.step_moves _)) hv (hm.base ▸ UInt32.le_of_lt hgt) (.inr he)
        have hxy := Lossless.reaches x (.deliverClient i) trivial
        rcases hyr.settle fun (_ : True) => hv.swept with ⟨z, hz, hzs⟩ | ⟨z, hz, hzr, hzw, hzm, hzs⟩
        · exact ⟨z, hxy.trans hz, hzs⟩
        · have hlt : x.client.nextSeqNum.toNat < z.client.nextSeqNum.toNat := by
            have := hi.client.window_le
            rcases hzr.sent_all hzw (hzs trivial) with h' | h'
            · omega
            · rw [hzm.base, hv.base] at h'
              omega
          obtain ⟨y, hy, hys⟩ := (hzr.inbound hzw (hzs trivial) fun hz' => by
            rw [hzm.server, hv.server, he] at hz'
            rw [hz'] at hlt
            exact absurd hlt (Nat.lt_irrefl _)).recoverable hL hzw
          exact ⟨y, (hxy.trans hz).trans hy, hys⟩
  · exact (hxr.inbound hxw hxs fun h' => absurd h' he).recoverable hL hxw

/-- **Nothing needed is lost, so the transfer can be completed.** -/
theorem Repairable.recoverable (h : Repairable w) (hi : TransferInv file w) (hL : file.length ≤ recvCapacity)
    (hs : w.client.sending = true) (hr : ∀ i, (w.client.slot i).retries < shamMaxRetries) : Recoverable w := by
  obtain ⟨T, hT⟩ := exists_late w.client
  have h0 : Ready file T w := ⟨hi, hs, fun i _ => .inr ⟨hT i, hr i⟩, h.blocks⟩
  -- to the next wait, and from there once round the retransmission loop
  rcases h0.settle (K := False) False.elim with hrec | ⟨u, hwu, hu, huw, hum, -⟩
  · exact hrec
  have hv := woken_timeout huw
  have hvr := hu.woken (hu.inv.moves (u.step_moves _)) hv (UInt32.le_refl _) (.inl rfl)
  have hwv := hwu.trans (Lossless.reaches u .clientTimeout trivial)
  rcases hvr.settle fun (_ : True) => hv.swept with ⟨x, hx, hxs⟩ | ⟨x, hx, hxr, hxw, hxm, hxs⟩
  · exact ⟨x, hwv.trans hx, hxs⟩
  have hwx := hwv.trans hx
  have hm : Unmoved w x := (hum.trans ⟨hv.server, rfl, hv.base, Nat.le_of_eq (by rw [hv.next])⟩).trans hxm
  obtain ⟨y, hy, hys⟩ := hxr.resume hL hxw (hxs trivial) hm h hi
  exact ⟨y, hwx.trans hy, hys⟩

/-- A block or an ACK that is lost for good rules every continuation out. -/
theorem Recoverable.repairable (h : Recoverable w) (hi : TransferInv file w) :
    Repairable w := by
  obtain ⟨w', ⟨ls, -, rfl⟩, hs⟩ := h
  refine ⟨fun k hk hkn => Classical.byContradiction fun hno => ?_, fun he => Classical.byContradiction fun hno => ?_⟩
  · obtain ⟨hf, hh⟩ := not_or.mp hno
    have hlost : LostAt file (101 + 1024 * k) w := ⟨hi, hk, hkn, by omega, hf, hh⟩
    rw [hlost.never_sent ls] at hs
    cases hs
  · obtain ⟨hb, hack, hroom⟩ : _ ∧ _ ∧ _ := ⟨fun h => hno (.inl h), fun h => hno (.inr (.inl h)),
      fun h => hno (.inr (.inr h))⟩
    have hlt : w.client.windowBase < w.client.nextSeqNum :=
      UInt32.lt_iff_toNat_lt.mpr (Nat.lt_of_le_of_ne hi.client.base_le fun h => hb (UInt32.toNat_inj.mp h))
    have hmuted : Muted file w := by
      refine ⟨hi, he, hlt, hack, ?_⟩
      by_cases hu : w.client.unread = []
      · exact .inl hu
      · exact .inr ⟨Nat.not_lt.mp fun h => hroom ⟨hu, .inl h⟩, fun h => hroom ⟨hu, .inr h⟩⟩
    rw [hmuted.never_sent ls] at hs
    cases hs

end

/-- **From where the data phase can recover**: with retries left everywhere, `send_file` can
still return 0 without further loss if and only if each block the server lacks is in flight
or in a visited slot and, when it lacks none, the client knows, or will be told by an ACK in
flight or by the ACK of a new block. -/
theorem recoverable_iff {file : List UInt8} {w₀ : World} (hL : file.length ≤ recvCapacity) (h₀ : Started file w₀)
    (ls : List Label) (hs : (w₀.run ls).client.sending = true)
    (hr : ∀ i, ((w₀.run ls).client.slot i).retries < shamMaxRetries) :
    Recoverable (w₀.run ls) ↔ Repairable (w₀.run ls) := by
  have hi : TransferInv file (w₀.run ls) := h₀.run_inv ls
  exact ⟨fun h => h.repairable hi, fun h => h.recoverable hi hL hs hr⟩

/-- One byte sent, and its packet lost. -/
def dataLost : World :=
  (World.established ⟨1, 1⟩ ⟨2, 2⟩ [7]).run [.client {}, .client {}, .client {}, .lose .toServer 0]

theorem recoverable_iff_dataLost : Recoverable dataLost := by
  refine (recoverable_iff (by decide) (established_started ⟨1, 1⟩ ⟨2, 2⟩ [7]) _ (by decide) (by decide)).mpr ?_
  refine ⟨fun k _ hk => .inr ?_, fun he => absurd he (by decide)⟩
  obtain rfl : k = 0 := by
    replace hk : 101 + 1024 * k < dataLost.client.nextSeqNum.toNat := hk
    rw [show dataLost.client.nextSeqNum.toNat = 102 from by decide] at hk
    omega
  exact ⟨0, by decide, by decide, by decide⟩

/-- One byte sent and stored, and its ACK lost. -/
def ackLost : World :=
  (World.established ⟨1, 1⟩ ⟨2, 2⟩ [7]).run
    [.client {}, .client {}, .client {}, .deliverServer 0 false, .lose .toClient 0]

/-- The server answers no duplicate, so the client waits for an ACK that never comes. -/
theorem ackLost_not_recoverable :
    ackLost.client.sending = true ∧ (∀ i, (ackLost.client.slot i).retries < shamMaxRetries) ∧
      ¬ Recoverable ackLost := by
  refine ⟨by decide, by decide, ?_⟩
  intro hr
  obtain ⟨w', ⟨ls, -, rfl⟩, hs⟩ := hr
  have hi : TransferInv [7] ackLost := (established_started ⟨1, 1⟩ ⟨2, 2⟩ [7]).run_inv _
  have hmuted : Muted [7] ackLost := by
    refine ⟨hi, by decide, by decide, ?_, .inl (by decide)⟩
    intro hx
    obtain ⟨p, hp, -⟩ := hx
    rw [show ackLost.toClient = [] from by decide] at hp
    cases hp
  rw [hmuted.never_sent ls] at hs
  cases hs

end OsNetworks.Sham
