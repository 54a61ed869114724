/-
What the joint invariant of the data phase says about the program: the file
arrives as it was sent, and the sender's window arithmetic is sound.
-/
import OsNetworks.Sham.Transfer

namespace OsNetworks.Sham

section
variable {file : List UInt8} {w : World}

/-! ## The file arrives -/

theorem TransferInv.received (h : TransferInv file w) :
    w.server.recvBuffer.bytes <+: file ∧
      w.server.nextExpectedSeq.toNat = 101 + w.server.recvBuffer.bytes.length :=
  ⟨h.server.buffer ▸ List.take_prefix _ _, h.server.next_eq⟩

theorem TransferInv.whole_buffer (h : TransferInv file w) (hs : w.client.fileSent = true) :
    w.server.recvBuffer.bytes = file := by
  rw [h.server.buffer, h.whole hs, Nat.add_sub_cancel_left, List.take_length]

end

/-- **The transfer is safe.** Whatever the network drops, duplicates, delays or reorders:
the server holds a prefix of the file and expects the byte after it; when `send_file` has
returned 0, the server holds the file; and a server that left its loop, which it does on a
FIN only, holds the file and writes exactly its bytes, to no file at all when there are
none. -/
theorem transfer_safe {file : List UInt8} {w₀ : World} (hL : file.length ≤ recvCapacity) (h₀ : Started file w₀)
    (ls : List Label) :
    let w := w₀.run ls
    (w.server.recvBuffer.bytes <+: file ∧
      w.server.nextExpectedSeq.toNat = 101 + w.server.recvBuffer.bytes.length) ∧
    (w.client.fileSent = true → w.server.recvBuffer.bytes = file) ∧
    (w.server.phase ≠ .transfer → w.server.recvBuffer.bytes = file) ∧
    (w.server.phase = .exited 0 → w.server.receivedFile = if file = [] then none else some file) := by
  intro w
  have h : TransferInv file w := h₀.run_inv ls
  refine ⟨h.received, h.whole_buffer, fun hp => h.whole_buffer (h.closed (h.left hL hp)), fun hp => ?_⟩
  rw [h.server.written, hp]
  by_cases hf : file = [] <;> simp [hf]

/-- Two bytes sent, the first copy of their packet lost, the retransmission delivered. -/
def lossyRun : List Label :=
  [.client {}, .client {}, .client {}, .lose .toServer 0, .clientTimeout, .client { now := ⟨1, 0⟩ },
   .deliverServer 0 false, .client {}, .client {}, .client {}, .client {}, .deliverClient 0, .client {}, .client {},
   .client {}, .deliverServer 0 false, .serverTimeout]

theorem transfer_safe_lossyRun :
    let w := (World.established ⟨1, 1⟩ ⟨2, 2⟩ [104, 105]).run lossyRun
    w.client.fileSent = true ∧ w.server.recvBuffer.bytes = [104, 105] ∧ w.server.receivedFile = some [104, 105] := by
  have h := transfer_safe (by decide) (established_started ⟨1, 1⟩ ⟨2, 2⟩ [104, 105]) lossyRun
  exact ⟨by decide, h.2.1 (by decide), h.2.2.2 (by decide)⟩

/-! ## The window -/

/-- The sender's sequence numbers against the receiver's, for a file of `file.length` bytes. -/
structure WindowSound (file : List UInt8) (w : World) : Prop where
  base_le : w.client.windowBase.toNat ≤ w.server.nextExpectedSeq.toNat
  expected_le : w.server.nextExpectedSeq.toNat ≤ w.client.nextSeqNum.toNat
  next_le : w.client.nextSeqNum.toNat ≤ 101 + file.length
  base : (∃ k, w.client.windowBase.toNat = 101 + 1024 * k) ∨ w.client.windowBase.toNat = 101 + file.length
  next : (∃ k, w.client.nextSeqNum.toNat = 101 + 1024 * k) ∨ w.client.nextSeqNum.toNat = 101 + file.length
  window : w.client.nextSeqNum.toNat - w.client.windowBase.toNat ≤ shamWindowSize * shamDataSize
  /-- `next_seq_num - window_base` does not wrap -/
  noWrap : w.client.inFlight = w.client.nextSeqNum.toNat - w.client.windowBase.toNat
  /-- nor does `pkt_seq - window_base` in the retransmission loop -/
  scanNoWrap : ∀ i < shamWindowSize, w.client.windowBase ≤ w.client.pktSeq i ∧
    (w.client.pktSeq i - w.client.windowBase).toNat = i * shamDataSize
  /-- the slot of a new packet, before the remainder is taken -/
  newSlot : ∀ now, w.client.phase = .filling → (w.client.fill now).2 ≠ [] →
    (w.client.nextSeqNum - w.client.windowBase).toNat / shamDataSize < shamWindowSize
  /-- a visited slot holds a block that was sent -/
  visited : ∀ i < shamWindowSize, w.client.pktSeq i < w.client.nextSeqNum →
    IsBlock file (w.client.slot (w.client.scanIdx i)).packet ∧
      (w.client.slot (w.client.scanIdx i)).packet.header.seqNum < w.client.nextSeqNum

theorem Boundary.multiple {len x : Nat} (h : Boundary len x) : (∃ k, x = 101 + 1024 * k) ∨ x = 101 + len := by
  have h1 := h.1
  rcases h.2.2 with ha | ha
  · exact .inl ⟨(x - 101) / 1024, by omega⟩
  · exact .inr ha

theorem newSlot_lt {c : Client} {now : Timeval} (hf : (c.fill now).2 ≠ []) : c.inFlight < 10240 := by
  have hr := c.fill_fills now
  generalize c.fill now = r at hr hf
  cases hr with
  | full => exact absurd rfl hf
  | eof => exact absurd rfl hf
  | sent _ hlt _ => exact hlt

theorem TransferInv.windowSound {file : List UInt8} {w : World} (h : TransferInv file w) :
    WindowSound file w where
  base_le := h.base_le
  expected_le := h.expected_le
  next_le := h.client.next.2.1
  base := h.client.base.multiple
  next := h.client.next.multiple
  window := h.client.window_le
  noWrap := h.client.inFlight_eq
  scanNoWrap := by
    intro i hi
    have hp := h.client.pktSeq_eq h.low (Nat.le_of_lt hi)
    have hle : w.client.windowBase.toNat ≤ (w.client.pktSeq i).toNat := by omega
    refine ⟨UInt32.le_iff_toNat_le.mpr hle, ?_⟩
    rw [toNat_sub hle, hp]
    simp only [shamDataSize]
    omega
  newSlot := by
    intro now _ hf
    have := newSlot_lt hf
    simp only [Client.inFlight, shamDataSize, shamWindowSize] at *
    omega
  visited := by
    intro i hi hlt
    have hlt := UInt32.lt_iff_toNat_lt.mp hlt
    rw [h.client.pktSeq_eq h.low (Nat.le_of_lt hi)] at hlt
    obtain ⟨h1, h2⟩ := h.client.filled (w.client.scanIdx i) (by rw [h.client.scanIdx_eq h.low hi]; exact hlt)
    exact ⟨h1, UInt32.lt_iff_toNat_lt.mpr h2⟩

/-- `window_base` never decreases. -/
theorem TransferInv.base_mono {file : List UInt8} {w w' : World} (h : TransferInv file w) (hm : w.Moves w') :
    w.client.windowBase ≤ w'.client.windowBase := by
  rw [UInt32.le_iff_toNat_le]
  cases hm with
  | act clk => exact (h.client.act_step h.low h.base_le clk).base_mono
  | clientTimeout => exact (h.client.timeout_step h.base_le).base_mono
  | serverTimeout => exact Nat.le_refl _
  | clientTakes hi hr => exact (h.client_recv (List.mem_of_getElem? hi)).base_mono
  | serverTakes => exact Nat.le_refl _
  | network => exact Nat.le_refl _

/-- **The window arithmetic is sound** in every state of every run, and `window_base` never
decreases. -/
theorem window_sound {file : List UInt8} {w₀ : World} (h₀ : Started file w₀) (ls : List Label) :
    let w := w₀.run ls
    WindowSound file w ∧ ∀ l, w.client.windowBase ≤ (w.step l).client.windowBase := by
  intro w
  have h : TransferInv file w := h₀.run_inv ls
  exact ⟨h.windowSound, fun l => h.base_mono (w.step_moves l)⟩

theorem window_sound_lossyRun :
    WindowSound [104, 105] ((World.established ⟨1, 1⟩ ⟨2, 2⟩ [104, 105]).run lossyRun) :=
  (window_sound (established_started ⟨1, 1⟩ ⟨2, 2⟩ [104, 105]) lossyRun).1

end OsNetworks.Sham
