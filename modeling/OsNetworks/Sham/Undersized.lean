/-
Datagrams shorter than a header.

`recv_packet` answers -1 for them, as it does for a failing `recvfrom`, and
the loop of `handle_data_transfer` ends on -1 and writes the file. So such a
datagram is discarded only where the loop does not see it: after a FIN.
-/
import OsNetworks.Lib.Runs
import OsNetworks.Sham.Capacity

namespace OsNetworks.Sham
open Runs

def Datagram.undersized (d : Datagram) : Bool := decide (d.bytes.length < shamHeaderSize)

/-- What comes of a transfer: where the program is, what it wrote to the file, and all that
it sent. -/
@[ext] structure Outcome where
  phase : ServerPhase
  receivedFile : Option (List UInt8)
  sent : List Outgoing
  deriving DecidableEq, Repr

/-- The outcome of the datagrams `ds`, after which nothing more arrives: a wait for the
final ACK times out. -/
def Server.outcome (s : Server) (ds : List Datagram) : Outcome where
  phase := ((feed Server.deliver s ds).1.recv .timeout false).1.phase
  receivedFile := ((feed Server.deliver s ds).1.recv .timeout false).1.receivedFile
  sent := (feed Server.deliver s ds).2

/-- The datagrams that hold a header. -/
def wellSized (ds : List Datagram) : List Datagram := ds.filter fun d => !d.undersized

/-- An undersized datagram ended the loop, and a file was written all the same. -/
def CutShort (s : Server) (ds : List Datagram) : Prop :=
  ∃ pre d post, ds = pre ++ d :: post ∧ (run delivered s pre).phase = .transfer ∧ d.undersized = true ∧
    (s.outcome ds).receivedFile ≠ none

/-- The server is past its handshake. -/
def Server.begun (s : Server) : Prop := s.phase ≠ .waitSyn ∧ s.phase ≠ .waitAck

section
variable {s : Server} {d : Datagram} {ds : List Datagram}

theorem reading_cut {x : UInt32} (h : d.reading x = .cut) : d.undersized = true := by
  unfold Datagram.reading at h
  refine decide_eq_true (Decidable.byContradiction fun hle => ?_)
  obtain ⟨p, hp⟩ := parse_long (Nat.not_lt.mp hle)
  simp only [hp] at h
  split at h
  · cases h
  · split at h <;> cases h

theorem reading_undersized (h : d.undersized = true) (x : UInt32) : d.reading x = .cut := by
  unfold Datagram.reading
  rw [parse_short (of_decide_eq_true h)]

/-- Data either is acknowledged or, past the array, leaves nothing defined. -/
theorem onData_cases {pkt : Packet} (hseq : pkt.header.seqNum = s.nextExpectedSeq) :
    ((s.onData pkt).1.phase = s.phase ∧ (s.onData pkt).2 ≠ []) ∨ (s.onData pkt).1.phase = .undefined := by
  by_cases hle : (s.recvBuffer.bytes ++ pkt.data).length ≤ recvCapacity
  · rw [Server.onData_stored hseq hle]
    exact .inl ⟨rfl, by simp⟩
  · rw [Server.onData_overflow hseq hle]
    exact .inr rfl

theorem deliver_begun (h : s.begun) (d : Datagram) : (s.deliver d).1.begun := by
  unfold Server.begun at h ⊢
  cases hp : s.phase with
  | waitSyn => exact absurd hp h.1
  | waitAck => exact absurd hp h.2
  | transfer =>
    rw [Server.deliver_transfer hp]
    cases hr : d.reading s.nextExpectedSeq with
    | cut => simp [Server.loopBody, Server.finish]
    | fin pkt => simp [Server.loopBody, Server.onFin]
    | ignored => simp [Server.loopBody, hp]
    | next pkt =>
      have hp' : ({ s with clientAddr := d.src } : Server).phase = .transfer := hp
      have hc := onData_cases (s := { s with clientAddr := d.src }) (reading_next hr).1
      generalize ({ s with clientAddr := d.src } : Server) = s' at hp' hc
      simp only [Server.loopBody]
      rcases hc with ⟨hd, -⟩ | hd
      · simp [hd, hp']
      · simp [hd]
  | waitFinalAck =>
    unfold Server.deliver
    rw [Server.recv_waitFinalAck _ _ hp]
    simp [Server.onFinalAck, Server.finish]
  | exited k => rw [Server.deliver_stopped (by simp [Server.receiving, hp])]; simp [hp]
  | undefined => rw [Server.deliver_stopped (by simp [Server.receiving, hp])]; simp [hp]

/-! ## Outcomes step by step -/

theorem outcome_cons (s : Server) (d : Datagram) (ds : List Datagram) :
    s.outcome (d :: ds) =
      { (s.deliver d).1.outcome ds with sent := (s.deliver d).2 ++ ((s.deliver d).1.outcome ds).sent } := rfl

theorem outcome_stopped (h : s.receiving = false) (ds : List Datagram) :
    s.outcome ds = ⟨s.phase, s.receivedFile, []⟩ := by
  unfold Server.outcome
  rw [feed_stuck (fun d => Server.deliver_stopped h d)]
  unfold Server.receiving at h
  split at h
  next k hp => rw [Server.recv_exited _ _ hp, hp]
  next hp => rw [Server.recv_undefined _ _ hp, hp]
  next => cases h

/-- Whatever ends the wait for the final ACK, the file is written. -/
theorem outcome_waitFinalAck (h : s.phase = .waitFinalAck) (ds : List Datagram) :
    s.outcome ds = ⟨.exited 0, s.finish.receivedFile, []⟩ := by
  cases ds with
  | nil =>
    unfold Server.outcome
    rw [feed_nil, Server.recv_waitFinalAck _ _ h]
    rfl
  | cons d ds =>
    have hd : s.deliver d = (s.onFinalAck (.datagram d.src d.bytes), []) := Server.recv_waitFinalAck _ _ h
    rw [outcome_cons, hd, outcome_stopped rfl]
    rfl

/-- Out of its loop, the server's outcome no longer depends on what arrives. -/
theorem outcome_left (hb : s.begun) (h : s.phase ≠ .transfer) (ds ds' : List Datagram) :
    s.outcome ds = s.outcome ds' := by
  cases hp : s.phase with
  | waitSyn => exact absurd hp hb.1
  | waitAck => exact absurd hp hb.2
  | transfer => exact absurd hp h
  | waitFinalAck => rw [outcome_waitFinalAck hp, outcome_waitFinalAck hp]
  | exited k =>
    have hr : s.receiving = false := by simp [Server.receiving, hp]
    rw [outcome_stopped hr, outcome_stopped hr]
  | undefined =>
    have hr : s.receiving = false := by simp [Server.receiving, hp]
    rw [outcome_stopped hr, outcome_stopped hr]

theorem deliver_left (h : s.phase ≠ .transfer) (hb : s.begun) (d : Datagram) :
    (delivered s d).phase ≠ .transfer := by
  unfold delivered
  cases hp : s.phase with
  | waitSyn => exact absurd hp hb.1
  | waitAck => exact absurd hp hb.2
  | transfer => exact absurd hp h
  | waitFinalAck =>
    unfold Server.deliver
    rw [Server.recv_waitFinalAck _ _ hp]
    simp [Server.onFinalAck, Server.finish]
  | exited k => rw [Server.deliver_stopped (by simp [Server.receiving, hp])]; simp [hp]
  | undefined => rw [Server.deliver_stopped (by simp [Server.receiving, hp])]; simp [hp]

/-- In the loop, an undersized datagram ends everything at once and in silence. -/
theorem outcome_undersized (hp : s.phase = .transfer) (hd : d.undersized = true) (ds : List Datagram) :
    (s.outcome (d :: ds)).phase = .exited 0 ∧ (s.outcome (d :: ds)).sent = [] := by
  rw [outcome_cons, Server.deliver_transfer hp, reading_undersized hd]
  unfold Server.loopBody
  rw [outcome_stopped rfl]
  exact ⟨rfl, rfl⟩

/-- With well-sized datagrams only, the loop does not end in silence. -/
theorem outcome_not_silent (hp : s.phase = .transfer) (hds : ∀ d ∈ ds, d.undersized = false)
    (he : (s.outcome ds).phase = .exited 0) : (s.outcome ds).sent ≠ [] := by
  induction ds generalizing s with
  | nil =>
    unfold Server.outcome at he
    rw [feed_nil, Server.recv_transfer _ _ hp] at he
    rw [show (s.handleDataTransfer .timeout false).1.phase = s.phase from rfl, hp] at he
    cases he
  | cons d ds ih =>
    rw [outcome_cons, Server.deliver_transfer hp] at he ⊢
    cases hr : d.reading s.nextExpectedSeq with
    | cut =>
      have := hds d List.mem_cons_self
      rw [reading_cut hr] at this
      cases this
    | fin pkt => simp [Server.loopBody, Server.onFin]
    | ignored =>
      rw [hr] at he
      exact ih hp (fun d hd => hds d (List.mem_cons_of_mem _ hd)) he
    | next pkt =>
      have hc := onData_cases (s := { s with clientAddr := d.src }) (reading_next hr).1
      rw [hr] at he
      generalize ({ s with clientAddr := d.src } : Server) = s' at he hc ⊢
      simp only [Server.loopBody] at he ⊢
      rcases hc with ⟨-, hout⟩ | hd
      · simp [hout]
      · rw [outcome_stopped (by simp only [Server.receiving, hd])] at he
        simp only [hd] at he
        cases he

/-! ## Exactly when -/

/-- Without an undersized datagram in the loop, those elsewhere change nothing. -/
theorem outcome_wellSized (hb : s.begun)
    (h : Along delivered (fun s d => s.phase = .transfer → d.undersized = false) s ds) :
    s.outcome ds = s.outcome (wellSized ds) := by
  induction ds generalizing s with
  | nil => rfl
  | cons d ds ih =>
    by_cases hp : s.phase = .transfer
    · have hd := h.1 hp
      have hw : wellSized (d :: ds) = d :: wellSized ds := by simp [wellSized, hd]
      rw [hw, outcome_cons, outcome_cons, ih (deliver_begun hb d) h.2]
    · exact outcome_left hb hp _ _

theorem wellSized_of_outcome (hb : s.begun) (h : s.outcome ds = s.outcome (wellSized ds)) :
    Along delivered (fun s d => s.phase = .transfer → d.undersized = false) s ds := by
  induction ds generalizing s with
  | nil => trivial
  | cons d ds ih =>
    by_cases hp : s.phase = .transfer
    · cases hd : d.undersized with
      | true =>
        -- with it the loop ends in silence, and without it never does
        obtain ⟨hph, hsent⟩ := outcome_undersized hp hd ds
        rw [h] at hph hsent
        refine absurd hsent (outcome_not_silent hp (fun e he => ?_) hph)
        simpa using (List.mem_filter.mp he).2
      | false =>
        have hw : wellSized (d :: ds) = d :: wellSized ds := by simp [wellSized, hd]
        rw [hw, outcome_cons, outcome_cons] at h
        simp only [Outcome.mk.injEq, List.append_cancel_left_eq] at h
        exact ⟨fun _ => hd, ih (deliver_begun hb d) (Outcome.ext h.1 h.2.1 h.2.2)⟩
    · refine ⟨fun hp' => absurd hp' hp, ?_⟩
      exact Along.of_inv (I := fun s : Server => s.begun ∧ s.phase ≠ .transfer)
        (fun s d hs => ⟨deliver_begun hs.1 d, deliver_left hs.2 hs.1 d⟩) (fun s d hs hp' => absurd hp' hs.2)
        ⟨deliver_begun hb d, deliver_left hp hb d⟩ ds

end

theorem not_cutShort {s : Server} {ds : List Datagram}
    (h : Along delivered (fun s d => s.phase = .transfer → d.undersized = false) s ds) : ¬ CutShort s ds := by
  intro hc
  obtain ⟨pre, d, post, rfl, hp, hd, -⟩ := hc
  have := (Along.append.mp h).2.1 hp
  rw [hd] at this
  cases this

/-- **When undersized datagrams are discarded.** For every sequence of datagrams: the
outcome is that of the sequence without its undersized ones, and no file is written from a
transfer that one of them ended, if and only if none arrives while the loop is running. -/
theorem undersized_discarded_iff (clientAddr : Sockaddr) (nextExpectedSeq : UInt32) (ds : List Datagram) :
    let s := Server.transferStart clientAddr nextExpectedSeq
    (s.outcome ds = s.outcome (wellSized ds) ∧ ¬ CutShort s ds) ↔
      Along delivered (fun s d => s.phase = .transfer → d.undersized = false) s ds := by
  intro s
  have hb : s.begun := by simp [Server.begun, s, Server.transferStart]
  exact ⟨fun h => wellSized_of_outcome hb h.1, fun h => ⟨outcome_wellSized hb h, not_cutShort h⟩⟩

/-- One byte of data, then one stray byte: the file is written, though no FIN has come. -/
theorem stray_byte_cuts :
    let s := Server.transferStart ⟨1, 1⟩ 101
    let ds : List Datagram := [⟨⟨1, 1⟩, (dataPacket 101 [7] (by decide)).toBytes, false⟩, ⟨⟨9, 9⟩, [0], false⟩]
    s.outcome ds ≠ s.outcome (wellSized ds) ∧ CutShort s ds :=
  ⟨by decide, [⟨⟨1, 1⟩, (dataPacket 101 [7] (by decide)).toBytes, false⟩], ⟨⟨9, 9⟩, [0], false⟩, [], rfl,
    by decide, by decide, by decide⟩

end OsNetworks.Sham
