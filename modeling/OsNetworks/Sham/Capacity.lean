/-
The receive buffer of `handle_data_transfer` against the datagrams it is given.

Nothing bounds what is stored, and the window in every ACK is the constant
65535. So the buffer is safe, and its advertised window honest, exactly as
long as the data that arrives in order leaves 65535 bytes of the array free.
-/
import OsNetworks.Lib.Runs
import OsNetworks.Sham.Client
import OsNetworks.Sham.Server

namespace OsNetworks.Sham
open Runs

/-- A step wrote inside `recv_buffer`, and each ACK it sent advertises no more than the
space then left. -/
def BufferSafe (r : Server × List Outgoing) : Prop :=
  r.1.phase ≠ .undefined ∧
    ∀ o ∈ r.2, o.pkt.has shamAck = true →
      o.pkt.header.windowSize.toNat ≤ recvCapacity - r.1.recvBuffer.bytes.length

/-- The state after the datagram `d`. -/
abbrev delivered (s : Server) (d : Datagram) : Server := (s.deliver d).1

/-- How many bytes of the datagrams `ds` continue the sequence at `expected`, up to the
first FIN or the first datagram that is no packet. -/
def inOrder (expected : UInt32) : List Datagram → Nat
  | [] => 0
  | d :: ds =>
    match d.reading expected with
    | .cut | .fin _ => 0
    | .ignored => inOrder expected ds
    | .next pkt => pkt.data.length + inOrder (expected + UInt32.ofNat pkt.data.length) ds

theorem reading_next {d : Datagram} {x : UInt32} {pkt : Packet} (h : d.reading x = .next pkt) :
    pkt.header.seqNum = x ∧ pkt.data ≠ [] := by
  unfold Datagram.reading at h
  split at h
  · split at h
    · cases h
    · split at h
      next hc =>
        cases h
        exact ⟨hc.2.2, hc.2.1⟩
      · cases h
  · cases h

section
variable {s : Server}

/-- A server that has left its loop stores and acknowledges nothing. -/
theorem closed_safe (h : s.phase = .waitFinalAck ∨ ∃ k, s.phase = .exited k) (ds : List Datagram) :
    Along delivered (fun s d => BufferSafe (s.deliver d)) s ds := by
  have step : ∀ (s : Server) (d : Datagram), (s.phase = .waitFinalAck ∨ ∃ k, s.phase = .exited k) →
      ((delivered s d).phase = .waitFinalAck ∨ ∃ k, (delivered s d).phase = .exited k) ∧ (s.deliver d).2 = [] := by
    intro s d hs
    unfold delivered Server.deliver
    rcases hs with hp | ⟨k, hp⟩
    · rw [Server.recv_waitFinalAck _ _ hp]
      exact ⟨.inr ⟨0, rfl⟩, rfl⟩
    · rw [Server.recv_exited _ _ hp]
      exact ⟨.inr ⟨k, hp⟩, rfl⟩
  refine Along.of_inv (fun s d hs => (step s d hs).1) (fun s d hs => ?_) h ds
  obtain ⟨hp, hout⟩ := step s d hs
  refine ⟨fun hu => ?_, fun o ho => ?_⟩
  · rcases hp with hp | ⟨k, hp⟩ <;> rw [hu] at hp <;> cases hp
  · rw [hout] at ho
    cases ho

/-- Storing data that is next in order is safe when it leaves room for the window that the
ACK advertises. -/
theorem onData_safe {pkt : Packet} (hseq : pkt.header.seqNum = s.nextExpectedSeq) (hp : s.phase = .transfer) :
    BufferSafe (s.onData pkt) ↔ s.recvBuffer.bytes.length + pkt.data.length + 65535 ≤ recvCapacity := by
  by_cases hle : (s.recvBuffer.bytes ++ pkt.data).length ≤ recvCapacity
  · rw [Server.onData_stored hseq hle]
    have hw : (dataAck (s.nextExpectedSeq + UInt32.ofNat pkt.data.length)).header.windowSize.toNat = 65535 := rfl
    simp only [BufferSafe, List.mem_singleton, forall_eq, sendPacket, dataAck_has_ack, true_implies, hw, hp]
    rw [List.length_append] at hle ⊢
    constructor
    · intro h
      have := h.2
      omega
    · intro h
      exact ⟨by simp, by omega⟩
  · rw [Server.onData_overflow hseq hle]
    rw [List.length_append] at hle
    constructor
    · intro h
      exact absurd rfl h.1
    · intro h
      omega

/-- What is stored after data that is next in order, where it fits. -/
theorem onData_state {pkt : Packet} (hseq : pkt.header.seqNum = s.nextExpectedSeq)
    (hle : s.recvBuffer.bytes.length + pkt.data.length ≤ recvCapacity) :
    (s.onData pkt).1.phase = s.phase ∧
      (s.onData pkt).1.recvBuffer.bytes.length = s.recvBuffer.bytes.length + pkt.data.length ∧
      (s.onData pkt).1.nextExpectedSeq = s.nextExpectedSeq + UInt32.ofNat pkt.data.length := by
  rw [Server.onData_stored hseq (by rw [List.length_append]; exact hle)]
  exact ⟨rfl, List.length_append, rfl⟩

theorem onData_overflow {pkt : Packet} (hseq : pkt.header.seqNum = s.nextExpectedSeq)
    (hgt : recvCapacity < s.recvBuffer.bytes.length + pkt.data.length) : (s.onData pkt).1.phase = .undefined := by
  rw [Server.onData_overflow hseq (by rw [List.length_append]; exact Nat.not_le.mpr hgt)]

/-- Induction on the datagrams: safe so far means room for one more window. -/
theorem along_safe_iff (hp : s.phase = .transfer) (hroom : s.recvBuffer.bytes.length + 65535 ≤ recvCapacity)
    (ds : List Datagram) : Along delivered (fun s d => BufferSafe (s.deliver d)) s ds ↔
      s.recvBuffer.bytes.length + inOrder s.nextExpectedSeq ds + 65535 ≤ recvCapacity := by
  induction ds generalizing s with
  | nil => simpa [Along, inOrder] using hroom
  | cons d ds ih =>
    unfold Along inOrder delivered
    rw [Server.deliver_transfer hp d]
    have hw : ∀ n, (dataAck n).header.windowSize.toNat = 65535 := fun _ => rfl
    cases hr : d.reading s.nextExpectedSeq with
    | cut =>
      have hsafe : BufferSafe (({ s with clientAddr := d.src } : Server).finish, []) :=
        ⟨by simp [Server.finish], by simp⟩
      exact iff_of_true ⟨hsafe, closed_safe (.inr ⟨0, rfl⟩) ds⟩ hroom
    | fin pkt =>
      have hsafe : BufferSafe (({ s with clientAddr := d.src } : Server).onFin pkt) := by
        refine ⟨by simp [Server.onFin], fun o ho _ => ?_⟩
        have hwin : o.pkt.header.windowSize.toNat = 65535 := by
          simp only [Server.onFin, List.mem_cons, List.not_mem_nil, or_false] at ho
          rcases ho with rfl | rfl <;> rfl
        show o.pkt.header.windowSize.toNat ≤ recvCapacity - s.recvBuffer.bytes.length
        omega
      exact iff_of_true ⟨hsafe, closed_safe (.inl rfl) ds⟩ hroom
    | ignored =>
      have hsafe : BufferSafe (({ s with clientAddr := d.src } : Server), []) := ⟨by simp [hp], by simp⟩
      exact (and_iff_right hsafe).trans (ih (s := { s with clientAddr := d.src }) hp hroom)
    | next pkt =>
      obtain ⟨hseq, -⟩ := reading_next hr
      have hsafe := onData_safe (s := { s with clientAddr := d.src }) hseq hp
      simp only [Server.loopBody]
      rw [hsafe]
      by_cases hle : s.recvBuffer.bytes.length + pkt.data.length + 65535 ≤ recvCapacity
      · obtain ⟨hp', hb', hn'⟩ :=
          onData_state (s := { s with clientAddr := d.src }) hseq (Nat.le_trans (Nat.le_add_right _ 65535) hle)
        have := ih (hp'.trans hp) (by rw [hb']; exact hle)
        rw [and_iff_right hle, this, hb', hn', Nat.add_assoc _ pkt.data.length]
      · refine iff_of_false (fun h => hle h.1) fun h => ?_
        omega

end

/-- **When the receive buffer is safe.** For every sequence of datagrams: each `memcpy`
stays inside `recv_buffer`, and each ACK advertises no more than the space then left, if and
only if the data that arrives in order leaves 65535 of its bytes free. -/
theorem buffer_safe_iff (clientAddr : Sockaddr) (nextExpectedSeq : UInt32) (ds : List Datagram) :
    Along delivered (fun s d => BufferSafe (s.deliver d)) (.transferStart clientAddr nextExpectedSeq) ds ↔
      inOrder nextExpectedSeq ds + 65535 ≤ recvCapacity := by
  have h := along_safe_iff (s := .transferStart clientAddr nextExpectedSeq) rfl (by
    simp only [Server.transferStart, RecvBuffer.empty, List.length_nil, recvCapacity]; omega) ds
  simpa only [Server.transferStart, RecvBuffer.empty, List.length_nil, Nat.zero_add] using h

/-! ## A sender that does not stop -/

/-- The data packet numbered `x` with 1024 zero bytes. -/
def fullPacket (x : UInt32) : Packet := dataPacket x (List.replicate shamDataSize 0) (by simp)

/-- `n` full data packets in order, the first numbered `x`. -/
def stream (src : Sockaddr) (x : UInt32) : Nat → List Datagram
  | 0 => []
  | n + 1 => { src, bytes := (fullPacket x).toBytes } :: stream src (x + UInt32.ofNat shamDataSize) n

theorem reading_stream (src : Sockaddr) (x : UInt32) :
    ({ src, bytes := (fullPacket x).toBytes } : Datagram).reading x = .next (fullPacket x) := by
  unfold Datagram.reading
  rw [parse_toBytes]
  simp [fullPacket, dataPacket, Packet.has]

theorem delivered_undefined {s : Server} (h : s.phase = .undefined) (ds : List Datagram) :
    (run delivered s ds).phase = .undefined := by
  refine run_inv (I := fun s : Server => s.phase = .undefined) (fun s d hs => ?_) h ds
  unfold delivered
  rw [Server.deliver_stopped (by simp [Server.receiving, hs])]
  exact hs

/-- A stream longer than the buffer ends in a write outside it. -/
theorem stream_overflow (src : Sockaddr) (n : Nat) {s : Server} (hp : s.phase = .transfer)
    (hlong : recvCapacity < s.recvBuffer.bytes.length + shamDataSize * n) :
    (run delivered s (stream src s.nextExpectedSeq n)).phase = .undefined := by
  induction n generalizing s with
  | zero => exact absurd s.recvBuffer.le (Nat.not_le.mpr hlong)
  | succ n ih =>
    have hlen : (fullPacket s.nextExpectedSeq).data.length = shamDataSize := List.length_replicate
    unfold stream
    rw [run_cons]
    unfold delivered
    rw [Server.deliver_transfer hp, reading_stream]
    show (run delivered (Server.onData (fullPacket s.nextExpectedSeq) { s with clientAddr := src }).1 _).phase = _
    rw [Nat.mul_succ] at hlong
    by_cases hle : s.recvBuffer.bytes.length + shamDataSize ≤ recvCapacity
    · have hseq : (fullPacket s.nextExpectedSeq).header.seqNum = s.nextExpectedSeq := rfl
      obtain ⟨hp', hb', hn'⟩ := onData_state (s := { s with clientAddr := src }) hseq (by rw [hlen]; exact hle)
      rw [hlen] at hb' hn'
      have hlong' : recvCapacity < s.recvBuffer.bytes.length + shamDataSize + shamDataSize * n := by omega
      have hnext := ih (hp'.trans hp) (hb' ▸ hlong')
      rw [hn'] at hnext
      exact hnext
    · exact delivered_undefined (onData_overflow rfl (by rw [hlen]; exact Nat.not_le.mp hle)) _

/-- 10241 full packets in order make the server write past `recv_buffer`. -/
theorem stream_not_safe :
    let s := Server.transferStart ⟨1, 1⟩ 101
    let ds := stream ⟨1, 1⟩ 101 10241
    (run delivered s ds).phase = .undefined ∧ ¬ Along delivered (fun s d => BufferSafe (s.deliver d)) s ds := by
  intro s ds
  have hover : (run delivered s ds).phase = .undefined := stream_overflow ⟨1, 1⟩ 10241 rfl (by
    simp only [s, Server.transferStart, RecvBuffer.empty, List.length_nil, shamDataSize, recvCapacity]; omega)
  refine ⟨hover, fun hsafe => ?_⟩
  have hdef := run_inv_along (I := fun s : Server => s.phase ≠ .undefined) (fun s d _ hd => hd.1)
    (by simp [s, Server.transferStart]) hsafe
  exact hdef hover

end OsNetworks.Sham
