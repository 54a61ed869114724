/-
When `send_file` reports success: what it has sent and which ACKs it was given
by then, for every size of the file whose sequence numbers do not wrap. The
condition of its outer loop adds `file_size` to a number that counts the bytes
sent already, so that the sum wraps for half of these sizes.
-/
import OsNetworks.Lib.Runs
import OsNetworks.Sham.Sender

namespace OsNetworks.Sham
open OsNetworks.Runs

/-- The client with everything it handed to `sendto`, and the numbers of the ACKs that `send_file`
was given; no statement reads the two. -/
structure Sending where
  client : Client
  sent : List Packet := []
  acks : List UInt32 := []

/-- The number of the ACK that `send_file` takes from an arrival. -/
def Client.ackOf (c : Client) (a : Arrival) : Option UInt32 :=
  match c.phase, (recvPacketTimeout a c.serverAddr).1 with
  | .waiting, .packet pkt => if pkt.has shamAck then some pkt.header.ackNum else none
  | _, _ => none

namespace Sending

def start (serverAddr : Sockaddr) (peerWindow : UInt16) (file : List UInt8) : Sending where
  client := Client.sendStart serverAddr peerWindow file

def step (s : Sending) (i : ClientInput) : Sending where
  client := (s.client.step i).1
  sent := s.sent ++ (s.client.step i).2.map Outgoing.pkt
  acks :=
    match i with
    | .act _ => s.acks
    | .recv a => (s.client.ackOf a).toList ++ s.acks

def goto (s : Sending) (p : ClientPhase) : Sending := { s with client := { s.client with phase := p } }

end Sending

/-- No ACK acknowledges more than a file of `len` bytes. -/
def AckWithin (len : Nat) : ClientInput → Prop
  | .act _ => True
  | .recv a => ∀ serverAddr pkt, (recvPacketTimeout a serverAddr).1 = .packet pkt → pkt.has shamAck = true →
      pkt.header.ackNum.toNat ≤ 101 + len

/-- Every block of the file was handed to `sendto`. -/
def Transmitted (file : List UInt8) (sent : List Packet) : Prop :=
  ∀ k, 1024 * k < file.length → ∃ p ∈ sent, IsBlock file p ∧ p.header.seqNum.toNat = 101 + 1024 * k

/-- Where `send_file` has returned 0, the whole file was sent, and its end acknowledged. -/
def Confirmed (file : List UInt8) (s : Sending) : Prop :=
  s.client.fileSent = true →
    Transmitted file s.sent ∧ (file = [] ∨ UInt32.ofNat (101 + file.length) ∈ s.acks)

/-- What the statements of `send_file` keep, whatever is acknowledged. -/
structure Sending.Sound (file : List UInt8) (s : Sending) : Prop where
  size : s.client.fileSize = file.length
  begun : s.client.begun
  next : Boundary file.length s.client.nextSeqNum.toNat
  unread : s.client.unread = file.drop (s.client.nextSeqNum.toNat - 101)
  sent : ∀ k, 101 + 1024 * k < s.client.nextSeqNum.toNat →
    ∃ p ∈ s.sent, IsBlock file p ∧ p.header.seqNum.toNat = 101 + 1024 * k
  done : s.client.doneSending = true → s.client.unread = []
  base : s.client.windowBase = 101 ∨ s.client.windowBase ∈ s.acks
  acks : ∀ n ∈ s.acks, n.toNat ≤ 101 + file.length

section
variable {file : List UInt8} {s s' : Sending} {c : Client}

/-! ## The client's statements -/

/-- `done_sending` is set at the end of the file. -/
theorem act_done {clk : Clock} (h : (c.act clk).1.doneSending = true) : c.doneSending = true ∨ c.unread = [] := by
  unfold Client.act at h
  split at h
  case h_2 =>
    unfold Client.loopHead at h
    split at h <;> exact .inl h
  case h_3 =>
    have hr := c.fill_fills clk.stamp
    generalize c.fill clk.stamp = r at h hr
    cases hr with
    | full => exact .inl h
    | eof _ _ hu => exact .inr hu
    | sent => exact .inl h
  case h_4 i _ =>
    have hr := c.scan_scans clk i
    generalize c.scan clk i = r at h hr
    cases hr <;> exact .inl h
  case h_5 =>
    unfold Client.check at h
    split at h <;> exact .inl h
  all_goals exact .inl h

/-- The two ways in which `send_file` returns 0. -/
theorem act_exit {clk : Clock} (hs : c.fileSent = false) (h : (c.act clk).1.fileSent = true) :
    c.doneSending = true ∧
      (c.nextSeqNum ≤ c.windowBase ∨ c.nextSeqNum + UInt32.ofNat c.fileSize ≤ c.windowBase) := by
  unfold Client.act at h
  split at h
  case h_1 => cases h
  case h_2 =>
    unfold Client.loopHead at h
    split at h
    next => cases h
    next hw =>
      simp only [Bool.or_eq_true, decide_eq_true_eq, Bool.not_eq_true', not_or, Bool.not_eq_false, UInt32.not_lt] at hw
      exact ⟨hw.2, .inr hw.1⟩
  case h_3 hp =>
    have hr := c.fill_fills clk.stamp
    generalize c.fill clk.stamp = r at h hr
    cases hr with
    | full => cases h
    | eof => cases h
    | sent => simp [Client.fileSent, Client.sendNext, Client.setSlot, hp] at h
  case h_4 i _ =>
    have hr := c.scan_scans clk i
    generalize c.scan clk i = r at h hr
    cases hr <;> simp [Client.fileSent, Client.resend, Client.setSlot] at h
  case h_5 =>
    unfold Client.check at h
    split at h
    next hc =>
      simp only [Bool.and_eq_true, decide_eq_true_eq] at hc
      exact ⟨hc.1, .inl hc.2⟩
    next => cases h
  case h_6 hp => simp [Client.fileSent, hp] at hs
  case h_7 hp => simp [Client.fileSent, hp] at hs
  case h_8 => exact absurd (hs.symm.trans h) (by simp)

theorem fileSent_of_recv (hb : c.begun) {a : Arrival} (h : (c.recv a).1.fileSent = true) : c.fileSent = true := by
  unfold Client.recv at h
  split at h
  next hp => exact absurd hp hb.2
  next =>
    simp only [Client.onAck] at h
    split at h
    next =>
      split at h <;> cases h
    next => cases h
  next hp => simp [Client.fileSent, hp]
  next hp => simp [Client.fileSent, hp]
  next => exact h

theorem ackOf_eq_some {a : Arrival} {n : UInt32} (h : c.ackOf a = some n) :
    ∃ pkt, (recvPacketTimeout a c.serverAddr).1 = .packet pkt ∧ pkt.has shamAck = true ∧ pkt.header.ackNum = n := by
  unfold Client.ackOf at h
  split at h
  next pkt _ hpkt =>
    obtain ⟨hack, heq⟩ := Option.ite_none_right_eq_some.1 h
    exact ⟨pkt, hpkt, hack, Option.some.inj heq⟩
  next => cases h

theorem ackOf_waiting (hp : c.phase = .waiting) {a : Arrival} {pkt : Packet}
    (hpkt : (recvPacketTimeout a c.serverAddr).1 = .packet pkt) (hack : pkt.has shamAck = true) :
    c.ackOf a = some pkt.header.ackNum := by
  simp [Client.ackOf, hp, hpkt, hack]

/-! ## The invariant -/

namespace Sending.Sound

theorem start (file : List UInt8) (serverAddr : Sockaddr) (peerWindow : UInt16) :
    (Sending.start serverAddr peerWindow file).Sound file where
  size := rfl
  begun := by simp [Sending.start, Client.sendStart, Client.begun]
  next := by simp [Sending.start, Client.sendStart, Boundary]
  unread := rfl
  sent k hk := absurd hk (by simp [Sending.start, Client.sendStart])
  done h := by cases h
  base := .inl rfl
  acks _ hn := by cases hn

/-- A step that reads nothing from the file. -/
theorem same (h : s.Sound file) (hsize : s'.client.fileSize = s.client.fileSize) (hbegun : s'.client.begun)
    (hnext : s'.client.nextSeqNum = s.client.nextSeqNum) (hunread : s'.client.unread = s.client.unread)
    (hdone : s'.client.doneSending = true → s.client.unread = [])
    (hbase : s'.client.windowBase = s.client.windowBase ∨ s'.client.windowBase ∈ s'.acks)
    (hsent : ∀ p ∈ s.sent, p ∈ s'.sent) (hacks : ∀ n ∈ s.acks, n ∈ s'.acks)
    (hwithin : ∀ n ∈ s'.acks, n.toNat ≤ 101 + file.length) : s'.Sound file where
  size := hsize.trans h.size
  begun := hbegun
  next := hnext ▸ h.next
  unread := by rw [hunread, hnext, h.unread]
  sent k hk := by
    obtain ⟨p, hp, hblock⟩ := h.sent k (hnext ▸ hk)
    exact ⟨p, hsent p hp, hblock⟩
  done hd := hunread.trans (hdone hd)
  base := by
    rcases hbase with hbase | hbase
    · rw [hbase]
      exact h.base.imp_right (hacks _)
    · exact .inr hbase
  acks := hwithin

theorem reads (h : s.Sound file) : s.client.Reads file := ⟨h.next, h.unread⟩

/-- The next block goes out. -/
theorem sendNext (h : s.Sound file) (hsize : 101 + file.length < UInt32.size) (hu : s.client.unread ≠ [])
    (now : Timeval) :
    Sending.Sound file ⟨(s.client.sendNext now).1, s.sent ++ (s.client.sendNext now).2.map Outgoing.pkt, s.acks⟩ := by
  have hblock := h.reads.nextPacket hu
  obtain ⟨hlt, hal⟩ := h.reads.aligned hu
  have hlen := h.reads.length_nextPacket hu
  have h101 := h.next.1
  have hn : (s.client.sendNext now).1.nextSeqNum.toNat =
      s.client.nextSeqNum.toNat + s.client.nextPacket.data.length := toNat_add_ofNat (by omega)
  have hreads := h.reads.sendNext hu hn
  constructor
  case size => exact h.size
  case begun => exact h.begun
  case next => exact hreads.next
  case unread => exact hreads.unread
  case sent =>
    intro k hk
    dsimp only at hk
    rw [hn] at hk
    by_cases hold : 101 + 1024 * k < s.client.nextSeqNum.toNat
    · obtain ⟨p, hp, hpk⟩ := h.sent k hold
      exact ⟨p, List.mem_append_left _ hp, hpk⟩
    · -- the block at `next_seq_num` is the only one between the two
      refine ⟨s.client.nextPacket, by simp [Client.sendNext, sendPacket], hblock, ?_⟩
      show s.client.nextSeqNum.toNat = 101 + 1024 * k
      omega
  case done =>
    intro hd
    exact absurd (h.done hd) hu
  case base => exact h.base
  case acks => exact h.acks

theorem act (h : s.Sound file) (hsize : 101 + file.length < UInt32.size) (clk : Clock) :
    (s.step (.act clk)).Sound file := by
  have hbegun := act_begun h.begun clk
  have hdone : (s.client.act clk).1.doneSending = true → s.client.unread = [] := fun hd =>
    (act_done hd).elim h.done id
  have hr := s.client.act_acts clk
  show Sending.Sound file ⟨(s.client.act clk).1, s.sent ++ (s.client.act clk).2.map Outgoing.pkt, s.acks⟩
  generalize s.client.act clk = r at hr hbegun hdone
  cases hr with
  | goto => exact h.same rfl hbegun rfl rfl hdone (.inl rfl) (fun _ => List.mem_append_left _) (fun _ => id) h.acks
  | sent _ hu => exact h.sendNext hsize hu clk.stamp
  | resent => exact h.same rfl hbegun rfl rfl hdone (.inl rfl) (fun _ => List.mem_append_left _) (fun _ => id) h.acks

theorem recv (h : s.Sound file) {a : Arrival} (ha : AckWithin file.length (.recv a)) :
    (s.step (.recv a)).Sound file := by
  have hbegun := recv_begun h.begun a
  have hacks : ∀ n ∈ s.acks, n ∈ (s.client.ackOf a).toList ++ s.acks := fun n => List.mem_append_right _
  have hwithin : ∀ n ∈ (s.client.ackOf a).toList ++ s.acks, n.toNat ≤ 101 + file.length := by
    intro n hn
    rcases List.mem_append.1 hn with hnew | hold
    · obtain ⟨pkt, hpkt, hack, rfl⟩ := ackOf_eq_some (Option.mem_toList.1 hnew)
      exact ha _ pkt hpkt hack
    · exact h.acks n hold
  have hr := Client.recv_recvs h.begun.2 a
  show Sending.Sound file ⟨(s.client.recv a).1, s.sent ++ (s.client.recv a).2.map Outgoing.pkt,
    (s.client.ackOf a).toList ++ s.acks⟩
  generalize s.client.recv a = r at hr hbegun
  cases hr with
  | goto => exact h.same rfl hbegun rfl rfl h.done (.inl rfl) (fun _ => List.mem_append_left _) hacks hwithin
  | acked hp hpkt hack =>
    refine h.same rfl hbegun rfl rfl h.done (.inr ?_) (fun _ => List.mem_append_left _) hacks hwithin
    rw [ackOf_waiting hp hpkt hack]
    exact List.mem_cons_self

theorem step (h : s.Sound file) (hsize : 101 + file.length < UInt32.size) {i : ClientInput}
    (hi : AckWithin file.length i) : (s.step i).Sound file := by
  cases i with
  | act clk => exact h.act hsize clk
  | recv a => exact h.recv hi

theorem reached (h : s.Sound file) (hsize : 101 + file.length < UInt32.size)
    (hr : Reaches Sending.step (AckWithin file.length) s s') : s'.Sound file := by
  have hstep : ∀ (s : Sending) i, AckWithin file.length i → s.Sound file → (s.step i).Sound file :=
    fun _ _ hi hs => hs.step hsize hi
  exact hr.inv_of hstep h

theorem next_done (h : s.Sound file) (hd : s.client.doneSending = true) :
    s.client.nextSeqNum.toNat = 101 + file.length := by
  have hle := List.drop_eq_nil_iff.1 (h.unread.symm.trans (h.done hd))
  have h101 := h.next.1
  have hle' := h.next.2.1
  omega

/-- `window_base` at the file's end was acknowledged, unless the file is empty. -/
theorem base_end (h : s.Sound file) (hbase : 101 + file.length ≤ s.client.windowBase.toNat) :
    file = [] ∨ UInt32.ofNat (101 + file.length) ∈ s.acks := by
  rcases h.base with hstart | hack
  · rw [hstart] at hbase
    exact .inl (List.eq_nil_of_length_eq_zero (Nat.le_zero.1 (Nat.le_of_add_le_add_left hbase)))
  · have heq : UInt32.ofNat (101 + file.length) = s.client.windowBase := by
      rw [Nat.le_antisymm hbase (h.acks _ hack), UInt32.ofNat_toNat]
    exact .inr (heq ▸ hack)

end Sending.Sound

/-! ## Where the sum of the loop's condition does not wrap -/

/-- Once `send_file` has returned 0 nothing is taken back. -/
theorem Confirmed.keep (h : Confirmed file s) (hs : s.client.fileSent = true) (hsent : ∀ p ∈ s.sent, p ∈ s'.sent)
    (hacks : ∀ n ∈ s.acks, n ∈ s'.acks) : Confirmed file s' := by
  intro _
  obtain ⟨htrans, hack⟩ := h hs
  refine ⟨fun k hk => ?_, hack.imp_right (hacks _)⟩
  obtain ⟨p, hp, hblock⟩ := htrans k hk
  exact ⟨p, hsent p hp, hblock⟩

theorem Confirmed.step (h : Confirmed file s) (hs : s.Sound file) (hsmall : 101 + 2 * file.length < UInt32.size)
    (i : ClientInput) : Confirmed file (s.step i) := by
  cases hsent : s.client.fileSent with
  | true =>
    refine h.keep hsent (fun _ => List.mem_append_left _) ?_
    cases i with
    | act clk => exact fun _ => id
    | recv a => exact fun _ => List.mem_append_right _
  | false =>
    cases i with
    | recv a =>
      intro hnow
      exact absurd (hsent.symm.trans (fileSent_of_recv hs.begun hnow)) (by simp)
    | act clk =>
      intro hnow
      obtain ⟨hd, hexit⟩ := act_exit hsent hnow
      have hnext := hs.next_done hd
      constructor
      · intro k hk
        obtain ⟨p, hp, hblock⟩ := hs.sent k (by omega)
        exact ⟨p, List.mem_append_left _ hp, hblock⟩
      · refine hs.base_end ?_
        rcases hexit with hle | hle
        · exact hnext ▸ UInt32.le_iff_toNat_le.1 hle
        · have hle := UInt32.le_iff_toNat_le.1 hle
          rw [toNat_add_ofNat (by rw [hs.size]; omega), hs.size] at hle
          omega

/-! ## Where it wraps -/

namespace Sending

/-- A statement that only goes elsewhere. -/
theorem step_goto {clk : Clock} {p : ClientPhase} (h : s.client.act clk = ({ s.client with phase := p }, [])) :
    s.step (.act clk) = s.goto p := by
  show Sending.mk (s.client.act clk).1 (s.sent ++ (s.client.act clk).2.map Outgoing.pkt) s.acks = _
  rw [h, List.map_nil, List.append_nil]
  rfl

theorem act_reaches (len : Nat) (s : Sending) (clk : Clock) :
    Reaches Sending.step (AckWithin len) s (s.step (.act clk)) :=
  .one trivial

/-- The retransmission loop ends without sending anything, if the clock stands still long enough. -/
theorem scan_reaches (len : Nat) {T : Timeval} {i : Nat} (hp : s.client.phase = .scanning i)
    (hT : ∀ j, isTimeout T (s.client.slot j).sendTime shamTimeoutMs = false) :
    Reaches Sending.step (AckWithin len) s (s.goto .checking) := by
  generalize hn : 10 - i = n
  induction n generalizing s i with
  | zero =>
    have hstep := act_reaches len s ⟨T, {}⟩
    rwa [step_goto (p := .checking)] at hstep
    simp only [Client.act, hp, Client.scan]
    rw [if_pos (.inl (by simp only [shamWindowSize]; omega))]
  | succ n ih =>
    have hstep := act_reaches len s ⟨T, {}⟩
    have hact : s.client.act ⟨T, {}⟩ = s.client.scan ⟨T, {}⟩ i := by simp only [Client.act, hp]
    have hr := s.client.scan_scans ⟨T, {}⟩ i
    rw [← hact] at hr
    have hon : s.client.act ⟨T, {}⟩ = ({ s.client with phase := .scanning (i + 1) }, []) →
        Reaches Sending.step (AckWithin len) s (s.goto .checking) := by
      intro hgo
      rw [step_goto hgo] at hstep
      exact hstep.trans (ih (s := s.goto (.scanning (i + 1))) rfl hT (by omega))
    generalize hr' : s.client.act ⟨T, {}⟩ = r at hr
    cases hr with
    | finish => exact step_goto hr' ▸ hstep
    | skip => exact hon hr'
    | quiet => exact hon hr'
    | giveUp _ _ _ hlate => exact absurd ((hT _).symm.trans hlate) (by simp)
    | resend _ _ _ hlate => exact absurd ((hT _).symm.trans hlate) (by simp)

/-- An ACK arrives. -/
def ackInput (n : UInt32) : ClientInput := .recv (.datagram {} (control { ackNum := n, flags := shamAck }).toBytes)

/-- After the ACK `n`, at `p`. -/
def acked (s : Sending) (n : UInt32) (p : ClientPhase) : Sending :=
  { s with
    client := { s.client with serverAddr := {}, windowBase := n, peerWindow := 0, phase := p }
    acks := n :: s.acks }

theorem ackInput_within {len : Nat} {n : UInt32} (hn : n.toNat ≤ 101 + len) : AckWithin len (ackInput n) := by
  intro serverAddr pkt hpkt _
  rw [recvPacketTimeout_toBytes] at hpkt
  cases hpkt
  exact hn

theorem step_ackInput (hp : s.client.phase = .waiting) {n : UInt32} (hn : s.client.windowBase ≤ n) :
    s.step (ackInput n) = s.acked n (.scanning 0) := by
  have hack : (control { ackNum := n, flags := shamAck }).has shamAck = true := by
    show (shamAck &&& shamAck != 0) = true
    decide
  have hbase : (if n > s.client.windowBase then n else s.client.windowBase) = n := by
    split
    next => rfl
    next hle => exact UInt32.le_antisymm hn (UInt32.not_lt.1 hle)
  have hrecv : s.client.recv (.datagram {} (control { ackNum := n, flags := shamAck }).toBytes) =
      ((s.acked n (.scanning 0)).client, []) := by
    simp only [Client.recv, hp, Client.onAck, recvPacketTimeout_toBytes, hack, if_true, control_header]
    exact congrArg (fun b => ((Sending.acked s b (.scanning 0)).client, ([] : List Outgoing))) hbase
  have hof : s.client.ackOf (.datagram {} (control { ackNum := n, flags := shamAck }).toBytes) = some n :=
    ackOf_waiting hp (by rw [recvPacketTimeout_toBytes]) hack
  show Sending.mk (s.client.recv _).1 (s.sent ++ (s.client.recv _).2.map Outgoing.pkt)
    ((s.client.ackOf _).toList ++ s.acks) = _
  rw [hrecv, hof, List.map_nil, List.append_nil]
  rfl

/-- From the wait for an ACK to the test at the end of the outer loop. -/
theorem acked_reaches (len : Nat) (hp : s.client.phase = .waiting) {n : UInt32} (hn : s.client.windowBase ≤ n)
    (hlen : n.toNat ≤ 101 + len) : Reaches Sending.step (AckWithin len) s (s.acked n .checking) := by
  obtain ⟨T, hT⟩ := exists_early s.client
  have hone : Reaches Sending.step (AckWithin len) s (s.acked n (.scanning 0)) :=
    step_ackInput hp hn ▸ .one (ackInput_within hlen)
  exact hone.trans (scan_reaches len (s := s.acked n (.scanning 0)) rfl hT)

/-- Not all of the file is acknowledged. -/
structure Partial (file : List UInt8) (s : Sending) : Prop where
  sound : s.Sound file
  base_le : s.client.windowBase ≤ s.client.nextSeqNum
  base_lt : s.client.windowBase.toNat ≤ 100 + file.length
  acks : ∀ n ∈ s.acks, n.toNat ≤ 100 + file.length

/-- Some of the file is still to be read. -/
structure Reading (file : List UInt8) (s : Sending) : Prop extends Partial file s where
  phase : s.client.phase = .filling
  done : s.client.doneSending = false

/-- All is read, and the client waits. -/
structure Drained (file : List UInt8) (s : Sending) : Prop extends Partial file s where
  phase : s.client.phase = .waiting
  done : s.client.doneSending = true

theorem Partial.acked (h : s.Partial file) {n : UInt32} (hn : n ≤ s.client.nextSeqNum)
    (hlt : n.toNat ≤ 100 + file.length) {p : ClientPhase}
    (hs : (s.acked n p).Sound file) : (s.acked n p).Partial file where
  sound := hs
  base_le := hn
  base_lt := hlt
  acks m hm := by
    rcases List.mem_cons.1 hm with rfl | hm
    · exact hlt
    · exact h.acks m hm

/-- With the window full, an ACK for what was sent opens it again. -/
theorem Partial.reopen (h : s.Partial file) (hsize : 101 + file.length < UInt32.size)
    (hp : s.client.phase = .waiting) (hd : s.client.doneSending = false) :
    ∃ t, Reaches Sending.step (AckWithin file.length) s t ∧ t.Reading file ∧ t.client.unread = s.client.unread ∧
      t.client.inFlight < 10240 := by
  -- at the end of the file the last byte is left out
  obtain ⟨n, hn⟩ : ∃ n : UInt32, n.toNat = min s.client.nextSeqNum.toNat (100 + file.length) :=
    ⟨UInt32.ofNat (min s.client.nextSeqNum.toNat (100 + file.length)), UInt32.toNat_ofNat_of_lt' (by omega)⟩
  have hle := h.sound.next.2.1
  have hbase := UInt32.le_iff_toNat_le.1 h.base_le
  have hbase' := h.base_lt
  have hnext : n ≤ s.client.nextSeqNum := UInt32.le_iff_toNat_le.2 (by omega)
  have hreach := acked_reaches file.length hp (UInt32.le_iff_toNat_le.2 (by omega)) (by omega : n.toNat ≤ _)
  have hcheck : (s.acked n .checking).step (.act {}) = s.acked n .loopHead :=
    step_goto (by simp [Client.act, Sending.acked, Client.check, hd])
  have hloop : (s.acked n .loopHead).step (.act {}) = s.acked n .filling :=
    step_goto (by simp [Client.act, Sending.acked, Client.loopHead, hd])
  have hall := (hreach.trans (hcheck ▸ act_reaches file.length _ {})).trans (hloop ▸ act_reaches file.length _ {})
  have hsound := h.sound.reached hsize hall
  refine ⟨_, hall, ⟨h.acked hnext (by omega) hsound, rfl, hd⟩, rfl, ?_⟩
  show (s.client.nextSeqNum - n).toNat < 10240
  rw [toNat_sub (UInt32.le_iff_toNat_le.1 hnext)]
  omega

/-- Rounds of the outer loop read the file to its end. -/
theorem Reading.drains (h : s.Reading file) (hsize : 101 + file.length < UInt32.size) :
    ∃ t, Reaches Sending.step (AckWithin file.length) s t ∧ t.Drained file := by
  refine Reaches.descend
    (fun s => 2 * s.client.unread.length + if 10240 ≤ s.client.inFlight then 1 else 0) (fun s h => ?_) h
  have hstep := act_reaches file.length s {}
  have hsound := h.sound.step hsize (i := .act {}) trivial
  have hact : s.client.act {} = s.client.fill {} := by simp only [Client.act, h.phase]
  have hr := s.client.fill_fills {}
  rw [← hact] at hr
  generalize hr' : s.client.act {} = r at hr
  cases hr with
  | full hfull =>
    rw [step_goto hr'] at hstep hsound
    have hfull := hfull.resolve_left (by simp [h.done])
    obtain ⟨t, hreach, ht, hu, hflight⟩ :=
      Partial.reopen (s := s.goto .waiting) ⟨hsound, h.base_le, h.base_lt, h.acks⟩ hsize rfl h.done
    refine .inr ⟨t, hstep.trans hreach, ht, ?_⟩
    rw [hu, if_pos hfull, if_neg (Nat.not_le.2 hflight)]
    exact Nat.lt_succ_self _
  | eof _ _ hu =>
    have heq : s.step (.act {}) =
        { s with client := { s.client with doneSending := true, phase := .waiting } } := by
      show Sending.mk (s.client.act {}).1 (s.sent ++ (s.client.act {}).2.map Outgoing.pkt) s.acks = _
      rw [hr', List.map_nil, List.append_nil]
    rw [heq] at hstep hsound
    exact .inl ⟨_, hstep, ⟨hsound, h.base_le, h.base_lt, h.acks⟩, rfl, rfl⟩
  | sent _ _ hu =>
    have heq : s.step (.act {}) =
        ⟨(s.client.sendNext {}).1, s.sent ++ (s.client.sendNext {}).2.map Outgoing.pkt, s.acks⟩ := by
      show Sending.mk (s.client.act {}).1 (s.sent ++ (s.client.act {}).2.map Outgoing.pkt) s.acks = _
      rw [hr']
    rw [heq] at hstep hsound
    have hlen := List.length_pos_iff.2 hu
    have hnext : (s.client.sendNext {}).1.nextSeqNum.toNat =
        s.client.nextSeqNum.toNat + s.client.nextPacket.data.length := by
      have hb := (h.sound.reads.nextPacket hu).boundary.2.1
      exact toNat_add_ofNat (Nat.lt_of_le_of_lt hb hsize)
    have hbase := UInt32.le_iff_toNat_le.1 h.base_le
    refine .inr ⟨_, hstep, ⟨⟨hsound, UInt32.le_iff_toNat_le.2 ?_, h.base_lt, h.acks⟩, h.phase, h.done⟩, ?_⟩
    · rw [hnext]
      exact Nat.le_add_right_of_le hbase
    · show 2 * (s.client.unread.drop shamDataSize).length + _ < _
      rw [List.length_drop]
      simp only [shamDataSize]
      split <;> omega

/-- With all read, an ACK for all but the last byte makes the condition of the loop false. -/
theorem Drained.reports (h : s.Drained file) (hsize : 101 + file.length < UInt32.size)
    (hbig : UInt32.size ≤ 101 + 2 * file.length) :
    ∃ t, Reaches Sending.step (AckWithin file.length) s t ∧ ¬ Confirmed file t := by
  obtain ⟨n, hn⟩ : ∃ n : UInt32, n.toNat = 100 + file.length :=
    ⟨UInt32.ofNat (100 + file.length), UInt32.toNat_ofNat_of_lt' (by omega)⟩
  have hnext := h.sound.next_done h.done
  have hreach := acked_reaches file.length h.phase (UInt32.le_iff_toNat_le.2 (hn ▸ h.base_lt))
    (by omega : n.toNat ≤ _)
  have hlt : ¬ n ≥ s.client.nextSeqNum := by
    rw [ge_iff_le, UInt32.le_iff_toNat_le]
    omega
  have hwrap : ¬ n < s.client.nextSeqNum + UInt32.ofNat s.client.fileSize := by
    rw [UInt32.lt_iff_toNat_lt, UInt32.toNat_add, UInt32.toNat_ofNat', h.sound.size, hnext, hn]
    simp only [UInt32.size] at hsize hbig
    omega
  have hcheck : (s.acked n .checking).step (.act {}) = s.acked n .loopHead :=
    step_goto (by simp [Client.act, Sending.acked, Client.check, hlt])
  have hloop : (s.acked n .loopHead).step (.act {}) = s.acked n .sendFin :=
    step_goto (by simp [Client.act, Sending.acked, Client.loopHead, h.done, hwrap])
  have hall := (hreach.trans (hcheck ▸ act_reaches file.length _ {})).trans (hloop ▸ act_reaches file.length _ {})
  refine ⟨_, hall, fun hc => ?_⟩
  rcases (hc rfl).2 with rfl | hmem
  · simp only [UInt32.size, List.length_nil] at hbig
    omega
  · have hle : (UInt32.ofNat (101 + file.length)).toNat ≤ 100 + file.length := by
      rcases List.mem_cons.1 hmem with heq | hmem
      · exact Nat.le_of_eq (heq ▸ hn)
      · exact h.acks _ hmem
    rw [UInt32.toNat_ofNat_of_lt' hsize] at hle
    omega

theorem exits_early (hsize : 101 + file.length < UInt32.size) (hbig : UInt32.size ≤ 101 + 2 * file.length)
    (serverAddr : Sockaddr) (peerWindow : UInt16) :
    ∃ t, Reaches Sending.step (AckWithin file.length) (Sending.start serverAddr peerWindow file) t ∧
      ¬ Confirmed file t := by
  have hloop : (Sending.start serverAddr peerWindow file).step (.act {}) =
      (Sending.start serverAddr peerWindow file).goto .filling :=
    step_goto (by simp [Client.act, Sending.start, Client.sendStart, Client.loopHead])
  have hstep := act_reaches file.length (Sending.start serverAddr peerWindow file) {}
  have hsound := (Sound.start file serverAddr peerWindow).step hsize (i := .act {}) trivial
  rw [hloop] at hstep hsound
  have hreading : ((Sending.start serverAddr peerWindow file).goto .filling).Reading file := by
    refine ⟨⟨hsound, UInt32.le_refl _, ?_, fun n hn => by cases hn⟩, rfl, rfl⟩
    show 101 ≤ 100 + file.length
    simp only [UInt32.size] at hbig
    omega
  obtain ⟨u, hu, hdrained⟩ := hreading.drains hsize
  obtain ⟨t, ht, hbad⟩ := hdrained.reports hsize hbig
  exact ⟨t, (hstep.trans hu).trans ht, hbad⟩

end Sending

end

/-- `send_file` returns 0 after the whole file is sent and acknowledged, whatever ACKs for no more
than the file arrive, exactly where twice the size of the file does not wrap. -/
theorem sendFile_confirmed_iff (file : List UInt8) (hsize : 101 + file.length < UInt32.size)
    (serverAddr : Sockaddr) (peerWindow : UInt16) :
    (∀ s, Reaches Sending.step (AckWithin file.length) (Sending.start serverAddr peerWindow file) s →
      Confirmed file s) ↔ 101 + 2 * file.length < UInt32.size := by
  constructor
  · intro hall
    refine Nat.lt_of_not_le fun hbig => ?_
    obtain ⟨t, ht, hbad⟩ := Sending.exits_early hsize hbig serverAddr peerWindow
    exact hbad (hall t ht)
  · intro hsmall s hs
    have hstep : ∀ (s : Sending) i, AckWithin file.length i → s.Sound file ∧ Confirmed file s →
        (s.step i).Sound file ∧ Confirmed file (s.step i) :=
      fun _ i hi h => ⟨h.1.step hsize hi, h.2.step h.1 hsmall i⟩
    exact (hs.inv_of hstep ⟨Sending.Sound.start file serverAddr peerWindow, fun h => by cases h⟩).2

/-- The file of a single byte. -/
theorem sendFile_confirmed_iff_one :
    101 + [(7 : UInt8)].length < UInt32.size ∧
      ∀ s, Reaches Sending.step (AckWithin 1) (Sending.start {} 65535 [7]) s → Confirmed [7] s :=
  ⟨by decide, (sendFile_confirmed_iff [7] (by decide) {} 65535).2 (by decide)⟩

/-- A file of 2147483598 bytes is reported as sent before its end is acknowledged. -/
theorem sendFile_unconfirmed :
    101 + 2147483598 < UInt32.size ∧
      ∃ s, Reaches Sending.step (AckWithin 2147483598)
        (Sending.start {} 65535 (List.replicate 2147483598 0)) s ∧
          ¬ Confirmed (List.replicate 2147483598 0) s := by
  have hlen : (List.replicate 2147483598 (0 : UInt8)).length = 2147483598 := List.length_replicate
  refine ⟨by decide, ?_⟩
  have hearly := @Sending.exits_early (List.replicate 2147483598 0) (by rw [hlen]; decide)
    (by rw [hlen]; decide) {} 65535
  rwa [hlen] at hearly

end OsNetworks.Sham
