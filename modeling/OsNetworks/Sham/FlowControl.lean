/-
The advertised window against what `send_file` keeps in flight.

`peer_window` is recorded and never read; what bounds the bytes in flight is
the window of ten packets alone. So the advertised window is respected in all
runs exactly when it is never smaller than the most that `send_file` can have
in flight for a file of that size.
-/
import OsNetworks.Lib.Runs
import OsNetworks.Sham.Sender
import OsNetworks.Sham.Foreign

namespace OsNetworks.Sham
open Runs

/-- What may reach `send_file`: time, and ACKs numbered between `window_base` and
`next_seq_num` that advertise at least `W` bytes. -/
def AckInput (W : Nat) (c : Client) : ClientInput → Prop
  | .recv (.datagram _ bytes) => ∃ p : Packet, bytes = p.toBytes ∧ p.has shamAck = true ∧
      c.windowBase ≤ p.header.ackNum ∧ p.header.ackNum ≤ c.nextSeqNum ∧ W ≤ p.header.windowSize.toNat
  | _ => True

/-- If the step sends a new data packet, what is then in flight fits the window that was
advertised last. -/
def HonoursWindow (c : Client) (i : ClientInput) : Prop :=
  c.phase = .filling → (c.step i).2 ≠ [] → (c.step i).1.inFlight ≤ (c.step i).1.peerWindow.toNat

/-- The most bytes of a file of length `len` that `send_file` can have in flight after a
new packet: ten packets, or one byte less than eleven where an ACK of a single byte makes
room for one more. -/
def maxOutstanding (len : Nat) : Nat := if len ≤ 10240 then len else min (len - 1) 11263

/-! ## What is in flight -/

/-- The first `n` bytes of the file have been sent. -/
structure Sent (file : List UInt8) (c : Client) (n : Nat) : Prop where
  next : c.nextSeqNum.toNat = 101 + n
  unread : c.unread = file.drop n
  le : n ≤ file.length
  aligned : n % 1024 = 0 ∨ n = file.length

section
variable {file : List UInt8} {c : Client} {n : Nat}

theorem Sent.unread_iff (h : Sent file c n) : c.unread ≠ [] ↔ n < file.length := by
  have := h.le
  rw [h.unread, ← List.length_pos_iff, List.length_drop]
  omega

theorem nextPacket_length (c : Client) : c.nextPacket.data.length = min 1024 c.unread.length := List.length_take

theorem Sent.inFlight (h : Sent file c n) (hb : c.windowBase.toNat ≤ 101 + n) :
    c.inFlight = 101 + n - c.windowBase.toNat := by
  unfold Client.inFlight
  rw [toNat_sub (by rw [h.next]; exact hb), h.next]

theorem Sent.reads (h : Sent file c n) : c.Reads file where
  next := by
    have hle := h.le
    have hal := h.aligned
    rw [h.next, Boundary]
    omega
  unread := by rw [h.next, Nat.add_sub_cancel_left, h.unread]

/-- Sending the next block, far from the wrap. -/
theorem Sent.sendNext (h : Sent file c n) (hn : n ≤ 11263) (hu : n < file.length) (now : Timeval) :
    Sent file (c.sendNext now).1 (n + min 1024 (file.length - n)) := by
  have hlen : c.nextPacket.data.length = min 1024 (file.length - n) := by
    rw [nextPacket_length, h.unread, List.length_drop]
  have hnext : (c.sendNext now).1.nextSeqNum.toNat = c.nextSeqNum.toNat + c.nextPacket.data.length :=
    toNat_add_ofNat (by rw [h.next, hlen]; simp only [UInt32.size]; omega)
  have hreads := h.reads.sendNext (h.unread_iff.mpr hu) hnext
  have hal := h.aligned
  have hsum : (c.sendNext now).1.nextSeqNum.toNat = 101 + (n + min 1024 (file.length - n)) := by
    rw [hnext, h.next, hlen, Nat.add_assoc]
  refine ⟨hsum, ?_, by omega, by omega⟩
  rw [hreads.unread, hsum, Nat.add_sub_cancel_left]

end

/-! ## A window that is never too small -/

section
variable {file : List UInt8} {c : Client} {W : Nat}

/-- Sending adds the packet's length to what is in flight, whatever the sequence numbers. -/
theorem sendNext_inFlight (c : Client) (hf : c.inFlight < 10240) (now : Timeval) :
    (c.sendNext now).1.inFlight = c.inFlight + c.nextPacket.data.length := by
  have hle := c.nextPacket.data_le
  simp only [shamDataSize] at hle
  have he : c.nextSeqNum + UInt32.ofNat c.nextPacket.data.length - c.windowBase =
      (c.nextSeqNum - c.windowBase) + UInt32.ofNat c.nextPacket.data.length := by
    rw [UInt32.sub_eq_add_neg, UInt32.sub_eq_add_neg, UInt32.add_assoc, UInt32.add_assoc,
      UInt32.add_comm (UInt32.ofNat _) (-c.windowBase)]
  unfold Client.inFlight at hf ⊢
  show (c.nextSeqNum + UInt32.ofNat c.nextPacket.data.length - c.windowBase).toNat = _
  rw [he, toNat_add_ofNat (by simp only [UInt32.size]; omega)]

/-- The windows advertised so far are at least `W`, and for a file that is sent far from the
wrap the sequence numbers say what was sent. -/
structure Advertised (W : Nat) (file : List UInt8) (c : Client) : Prop where
  begun : c.begun
  window : W ≤ c.peerWindow.toNat
  sent : file.length ≤ 11263 → ∃ n, Sent file c n ∧ 101 ≤ c.windowBase.toNat ∧ c.windowBase.toNat ≤ 101 + n

theorem Sent.same {c' : Client} {n : Nat} (h : Sent file c n) (hn : c'.nextSeqNum = c.nextSeqNum)
    (hu : c'.unread = c.unread) : Sent file c' n :=
  ⟨by rw [hn]; exact h.next, by rw [hu]; exact h.unread, h.le, h.aligned⟩

theorem Advertised.same {c' : Client} (h : Advertised W file c) (hc : c'.begun) (hw : W ≤ c'.peerWindow.toNat)
    (hb : c'.windowBase = c.windowBase) (hn : c'.nextSeqNum = c.nextSeqNum) (hu : c'.unread = c.unread) :
    Advertised W file c' := by
  refine ⟨hc, hw, fun hL => ?_⟩
  obtain ⟨n, hs, hbase⟩ := h.sent hL
  exact ⟨n, hs.same hn hu, by rw [hb]; exact hbase⟩

theorem Advertised.act (h : Advertised W file c) (clk : Clock) : Advertised W file (c.act clk).1 := by
  have hb := act_begun h.begun clk
  have hr := c.act_acts clk
  generalize c.act clk = r at hr hb
  cases hr with
  | goto => exact h.same hb h.window rfl rfl rfl
  | resent => exact h.same hb h.window rfl rfl rfl
  | sent _ hu =>
    refine ⟨hb, h.window, fun hL => ?_⟩
    obtain ⟨n, hs, h101, hbase⟩ := h.sent hL
    have hlt := hs.unread_iff.mp hu
    refine ⟨_, hs.sendNext (by omega) hlt clk.stamp, h101, ?_⟩
    show c.windowBase.toNat ≤ _
    omega

theorem Advertised.recv (h : Advertised W file c) {a : Arrival} (ha : AckInput W c (.recv a)) :
    Advertised W file (c.recv a).1 := by
  have hb := recv_begun h.begun a
  have hw : W ≤ (c.recv a).1.peerWindow.toNat := by
    rcases recv_peerWindow h.begun a with he | ⟨pkt, hpkt, he⟩
    · rw [he]; exact h.window
    · cases a with
      | timeout => cases hpkt
      | error => cases hpkt
      | datagram src bytes =>
        obtain ⟨p, rfl, -, -, -, hle⟩ := ha
        rw [recvPacketTimeout_toBytes] at hpkt
        cases hpkt
        rw [he]; exact hle
  have hr := Client.recv_recvs h.begun.2 a
  generalize c.recv a = r at hr hb hw
  cases hr with
  | goto => exact h.same hb hw rfl rfl rfl
  | acked _ hpkt _ hlt =>
    refine ⟨hb, hw, fun hL => ?_⟩
    obtain ⟨n, hs, h101, hbase⟩ := h.sent hL
    cases a with
    | timeout => cases hpkt
    | error => cases hpkt
    | datagram src bytes =>
      obtain ⟨p, rfl, -, -, hle, -⟩ := ha
      rw [recvPacketTimeout_toBytes] at hpkt
      cases hpkt
      have hlt := UInt32.lt_iff_toNat_lt.mp hlt
      have hle := UInt32.le_iff_toNat_le.mp hle
      rw [hs.next] at hle
      exact ⟨n, hs.same rfl rfl, Nat.le_trans h101 (Nat.le_of_lt hlt), hle⟩

/-- The bytes in flight after a new packet. -/
theorem Advertised.honours (h : Advertised W file c) (hW : maxOutstanding file.length ≤ W) (i : ClientInput) :
    HonoursWindow c i := by
  intro hp hout
  cases i with
  | recv a =>
    have hr : c.recv a = (c, []) := by simp only [Client.recv, hp]
    exact absurd (show (c.recv a).2 = [] by rw [hr]) hout
  | act clk =>
    have hact : c.step (.act clk) = c.fill clk.stamp := by simp only [Client.step, Client.act, hp]
    rw [hact] at hout ⊢
    have hr := c.fill_fills clk.stamp
    generalize c.fill clk.stamp = r at hr hout
    cases hr with
    | full => exact absurd rfl hout
    | eof => exact absurd rfl hout
    | sent _ hf hu =>
      have hle := c.nextPacket.data_le
      simp only [shamDataSize] at hle
      rw [sendNext_inFlight c hf]
      refine Nat.le_trans ?_ h.window
      refine Nat.le_trans ?_ hW
      unfold maxOutstanding
      by_cases hL : file.length ≤ 11263
      · obtain ⟨n, hs, h101, hbase⟩ := h.sent hL
        have hlt := hs.unread_iff.mp hu
        have hal := hs.aligned
        rw [hs.inFlight hbase] at hf ⊢
        rw [nextPacket_length, hs.unread, List.length_drop]
        split <;> omega
      · rw [if_neg (by omega)]
        omega

end

/-! ## A window that is -/

/-- How many statements the client is from its loop sending new packets, at most. -/
def Client.stage (c : Client) : Nat :=
  match c.phase with
  | .scanning i => 13 - i
  | .checking => 2
  | .loopHead => 1
  | _ => 0

/-- The input is a statement of the client. -/
def IsAct : ClientInput → Prop
  | .act _ => True
  | .recv _ => False

/-- `send_file` on the way to its loop sending new packets, as far as the sender goes where
the client stands in `c₀`. -/
structure Filling (c₀ c : Client) : Prop where
  base : c.windowBase = c₀.windowBase
  window : c.peerWindow = c₀.peerWindow
  done : c.doneSending = false

theorem Filling.refl {c : Client} (hd : c.doneSending = false) : Filling c c := ⟨rfl, rfl, hd⟩

section
variable {file : List UInt8} {c c₀ : Client} {n : Nat}

theorem act_reaches (c : Client) (clk : Clock) : Reaches stepped IsAct c (c.act clk).1 :=
  Reaches.one (i := ClientInput.act clk) trivial

theorem fill_sends (hp : c.phase = .filling) (hd : c.doneSending = false) (hf : c.inFlight < 10240)
    (hu : c.unread ≠ []) (clk : Clock) : c.act clk = c.sendNext clk.stamp := by
  have hact : c.act clk = c.fill clk.stamp := by simp only [Client.act, hp]
  rw [hact]
  have hr := c.fill_fills clk.stamp
  generalize c.fill clk.stamp = r at hr
  cases hr with
  | full hfull =>
    rcases hfull with h | h
    · rw [hd] at h; cases h
    · omega
  | eof _ _ he => exact absurd he hu
  | sent => rfl

theorem fill_waits (hp : c.phase = .filling) (hf : 10240 ≤ c.inFlight) (clk : Clock) :
    c.act clk = ({ c with phase := .waiting }, []) := by
  have hact : c.act clk = c.fill clk.stamp := by simp only [Client.act, hp]
  rw [hact]
  have hr := c.fill_fills clk.stamp
  generalize c.fill clk.stamp = r at hr
  cases hr with
  | full => rfl
  | eof _ h => omega
  | sent _ h => omega

/-- Filling up to the first `m` bytes, while these are in flight and the file is longer. -/
theorem fill_up_to {m : Nat} (hm : m ≤ 10240) (h1024 : m % 1024 = 0) (hlong : m < file.length)
    (h101 : c₀.windowBase = 101) (hs : Sent file c n) (hle : n ≤ m) (hn : n % 1024 = 0) (hp : c.phase = .filling)
    (hf : Filling c₀ c) :
    ∃ c', Reaches stepped IsAct c c' ∧ Sent file c' m ∧ c'.phase = .filling ∧ Filling c₀ c' := by
  refine Reaches.descend
    (P := fun c => ∃ n, n ≤ m ∧ n % 1024 = 0 ∧ Sent file c n ∧ c.phase = .filling ∧ Filling c₀ c)
    (fun c => c.unread.length) (fun c hc => ?_) ⟨n, hle, hn, hs, hp, hf⟩
  · obtain ⟨n, hle, hn, hs, hp, hf⟩ := hc
    by_cases he : n = m
    · subst he
      exact .inl ⟨c, .refl c, hs, hp, hf⟩
    · have hlt : n < file.length := by omega
      have hbase : c.windowBase.toNat = 101 := by rw [hf.base, h101]; rfl
      have hact := fill_sends hp hf.done (by rw [hs.inFlight (by omega), hbase]; omega) (hs.unread_iff.mpr hlt) {}
      have hs' := hs.sendNext (by omega) hlt {}
      have hmin : min 1024 (file.length - n) = 1024 := by omega
      rw [hmin] at hs'
      refine .inr ⟨(c.sendNext {}).1, ?_, ⟨n + 1024, by omega, by omega, hs', ?_, ⟨hf.base, hf.window, hf.done⟩⟩, ?_⟩
      · have hreach := act_reaches c {}
        rw [hact] at hreach
        exact hreach
      · exact hp
      · rw [hs'.unread, hs.unread, List.length_drop, List.length_drop]
        omega

/-- What a round without a timeout leaves as it was. -/
structure Idle (c c' : Client) : Prop where
  base : c'.windowBase = c.windowBase
  next : c'.nextSeqNum = c.nextSeqNum
  slots : c'.window = c.window
  unread : c'.unread = c.unread
  window : c'.peerWindow = c.peerWindow
  done : c'.doneSending = c.doneSending

theorem Idle.goto {c' : Client} (h : Idle c c') (p : ClientPhase) : Idle c { c' with phase := p } :=
  ⟨h.base, h.next, h.slots, h.unread, h.window, h.done⟩

/-- From the retransmission loop back to the loop sending new packets, before any timeout. -/
theorem idle_round (hd : c.doneSending = false) (hp : c.phase = .scanning 0) :
    ∃ c', Reaches stepped IsAct c c' ∧ Idle c c' ∧ c'.phase = .filling := by
  obtain ⟨T, hT⟩ := exists_early c
  refine Reaches.descend
    (P := fun c' => Idle c c' ∧ ((∃ i ≤ 10, c'.phase = .scanning i) ∨ c'.phase = .checking ∨ c'.phase = .loopHead))
    Client.stage (fun c' hc' => ?_) ⟨⟨rfl, rfl, rfl, rfl, rfl, rfl⟩, .inl ⟨0, by decide, hp⟩⟩
  obtain ⟨hs, ⟨i, hi, hp⟩ | hp | hp⟩ := hc'
  · -- no slot has timed out, so the round goes on or ends
    have hact : c'.act { now := T } = c'.scan { now := T } i := by simp only [Client.act, hp]
    have hreach := act_reaches c' { now := T }
    have hquiet : ∀ j : Fin shamWindowSize, isTimeout T (c'.slot j).sendTime shamTimeoutMs = false := by
      intro j
      have := hT j
      unfold Client.slot at this ⊢
      rw [hs.slots]
      exact this
    have hr := c'.scan_scans { now := T } i
    rw [hact] at hreach
    generalize c'.scan { now := T } i = r at hr hreach
    have hgo : ∀ {p : ClientPhase}, (∃ i ≤ 10, p = .scanning i) ∨ p = .checking ∨ p = .loopHead →
        ({ c' with phase := p } : Client).stage < c'.stage → Reaches stepped IsAct c' { c' with phase := p } →
        ∃ t, Reaches stepped IsAct c' t ∧ (Idle c t ∧ ((∃ i ≤ 10, t.phase = .scanning i) ∨ t.phase = .checking ∨
          t.phase = .loopHead)) ∧ t.stage < c'.stage := fun hph hst hre => ⟨_, hre, ⟨hs.goto _, hph⟩, hst⟩
    cases hr with
    | finish => exact .inr (hgo (.inr (.inl rfl)) (by simp only [Client.stage, hp]; omega) hreach)
    | skip hlt => exact .inr (hgo (.inl ⟨i + 1, hlt, rfl⟩) (by simp only [Client.stage, hp]; omega) hreach)
    | quiet hlt => exact .inr (hgo (.inl ⟨i + 1, hlt, rfl⟩) (by simp only [Client.stage, hp]; omega) hreach)
    | giveUp _ _ _ ht =>
      rw [hquiet] at ht
      cases ht
    | resend _ _ _ ht =>
      rw [hquiet] at ht
      cases ht
  · have hact : c'.act {} = ({ c' with phase := .loopHead }, []) := by
      simp [Client.act, hp, Client.check, hs.done, hd]
    have hreach := act_reaches c' {}
    rw [hact] at hreach
    exact .inr ⟨_, hreach, ⟨hs.goto _, .inr (.inr rfl)⟩, by simp [Client.stage, hp]⟩
  · have hact : c'.act {} = ({ c' with phase := .filling }, []) := by
      simp [Client.act, hp, Client.loopHead, hs.done, hd]
    have hreach := act_reaches c' {}
    rw [hact] at hreach
    exact .inl ⟨_, hreach, hs.goto _, rfl⟩

end

/-! ## Exactly when -/

section
variable {file : List UInt8} {c c' : Client} {W n : Nat}

/-- `c'` is reached from `c` by inputs that a receiver advertising at least `W` allows. -/
def Gets (W : Nat) (c c' : Client) : Prop := ∃ is, Along stepped (AckInput W) c is ∧ run stepped c is = c'

theorem Gets.trans {c'' : Client} (h : Gets W c c') (h' : Gets W c' c'') : Gets W c c'' := by
  obtain ⟨is, ha, rfl⟩ := h
  obtain ⟨js, hb, rfl⟩ := h'
  exact ⟨is ++ js, Along.append.mpr ⟨ha, hb⟩, run_append c is js⟩

theorem Gets.one {i : ClientInput} (h : AckInput W c i) : Gets W c (stepped c i) := ⟨[i], ⟨h, trivial⟩, rfl⟩

/-- Statements of the client may come at any time. -/
theorem Gets.acts (h : Reaches stepped IsAct c c') : Gets W c c' := by
  obtain ⟨is, his, hrun⟩ := h
  refine ⟨is, ?_, hrun⟩
  clear hrun
  induction is generalizing c with
  | nil => trivial
  | cons i is ih =>
    refine ⟨?_, ih fun j hj => his j (List.mem_cons_of_mem _ hj)⟩
    have hi := his i List.mem_cons_self
    cases i with
    | act => trivial
    | recv => exact hi.elim

/-- If all runs honour the window, so does the next statement of each state they reach. -/
theorem Gets.honours (h : Gets W c c')
    (hall : ∀ is, Along stepped (AckInput W) c is → Along stepped HonoursWindow c is) :
    HonoursWindow c' (.act {}) := by
  obtain ⟨is, ha, rfl⟩ := h
  have hact : AckInput W (run stepped c is) (.act {}) := trivial
  have hlast := hall (is ++ [.act {}]) (Along.append.mpr ⟨ha, hact, trivial⟩)
  exact (Along.append.mp hlast).2.1

/-- The next new packet shows whether the window is honoured. -/
theorem honoured_bound (hs : Sent file c n) (hn : n ≤ 11263) (hu : n < file.length) (hb : c.windowBase.toNat ≤ 101 + n)
    (hp : c.phase = .filling) (hd : c.doneSending = false) (hf : c.inFlight < 10240)
    (h : HonoursWindow c (.act {})) :
    101 + n + min 1024 (file.length - n) - c.windowBase.toNat ≤ c.peerWindow.toNat := by
  have hact : c.step (.act {}) = c.sendNext {} := fill_sends hp hd hf (hs.unread_iff.mpr hu) {}
  have hle := h hp (by rw [hact]; simp [Client.sendNext])
  rw [hact, (hs.sendNext hn hu {}).inFlight (by show c.windowBase.toNat ≤ _; omega)] at hle
  exact Nat.le_trans (by show _ ≤ 101 + (n + min 1024 (file.length - n)) - c.windowBase.toNat; omega) hle

theorem sendStart_filling (addr : Sockaddr) (peerWindow : UInt16) (file : List UInt8) :
    ∃ c, Reaches stepped IsAct (.sendStart addr peerWindow file) c ∧ Sent file c 0 ∧ c.phase = .filling ∧
      Filling (.sendStart addr peerWindow file) c := by
  have hact : (Client.sendStart addr peerWindow file).act {} =
      ({ Client.sendStart addr peerWindow file with phase := .filling }, []) := by
    simp [Client.act, Client.sendStart, Client.loopHead]
  have hreach := act_reaches (.sendStart addr peerWindow file) {}
  rw [hact] at hreach
  exact ⟨_, hreach, ⟨rfl, rfl, Nat.zero_le _, .inl rfl⟩, rfl, ⟨rfl, rfl, rfl⟩⟩

/-- A file that fits the window of ten packets goes out at once, however small the window
that the receiver advertised. -/
theorem small_file_bound {addr : Sockaddr} {peerWindow : UInt16} (hpos : 0 < file.length) (hL : file.length ≤ 10240)
    (hall : ∀ is, Along stepped (AckInput W) (.sendStart addr peerWindow file) is →
      Along stepped HonoursWindow (.sendStart addr peerWindow file) is) : file.length ≤ peerWindow.toNat := by
  obtain ⟨c₁, h₁, hs₁, hp₁, hf₁⟩ := sendStart_filling addr peerWindow file
  -- all blocks but the last
  obtain ⟨m, hm, hmod, hlt⟩ : ∃ m, m < file.length ∧ m % 1024 = 0 ∧ file.length ≤ m + 1024 :=
    ⟨1024 * ((file.length - 1) / 1024), by omega, by omega, by omega⟩
  obtain ⟨c₂, h₂, hs₂, hp₂, hf₂⟩ :=
    fill_up_to (by omega) hmod hm rfl hs₁ (Nat.zero_le m) rfl hp₁ hf₁
  have hb : c₂.windowBase.toNat = 101 := by rw [hf₂.base]; rfl
  have h := honoured_bound hs₂ (by omega) hm (by omega) hp₂ hf₂.done (by rw [hs₂.inFlight (by omega)]; omega)
    ((Gets.acts (h₁.trans h₂)).honours hall)
  rw [hf₂.window, hb] at h
  have hw : (Client.sendStart addr peerWindow file).peerWindow = peerWindow := rfl
  rw [hw] at h
  omega

/-- With a longer file, an ACK of one byte makes room for an eleventh packet. -/
theorem long_file_bound {addr : Sockaddr} {peerWindow : UInt16} (hL : 10240 < file.length)
    (hW : W ≤ peerWindow.toNat)
    (hall : ∀ is, Along stepped (AckInput W) (.sendStart addr peerWindow file) is →
      Along stepped HonoursWindow (.sendStart addr peerWindow file) is) :
    10239 + min 1024 (file.length - 10240) ≤ peerWindow.toNat := by
  obtain ⟨c₁, h₁, hs₁, hp₁, hf₁⟩ := sendStart_filling addr peerWindow file
  obtain ⟨c₂, h₂, hs₂, hp₂, hf₂⟩ :=
    fill_up_to (m := 10240) (by omega) rfl hL rfl hs₁ (Nat.zero_le _) rfl hp₁ hf₁
  have hb : c₂.windowBase = 101 := hf₂.base
  have hin : c₂.inFlight = 10240 := by rw [hs₂.inFlight (by rw [hb]; decide), hb]; rfl
  -- the window is full, and the client waits
  have h₃ := act_reaches c₂ {}
  rw [fill_waits hp₂ (Nat.le_of_eq hin.symm)] at h₃
  -- the ACK of the first byte
  let p := control { ackNum := 102, flags := shamAck, windowSize := peerWindow }
  have hack : p.has shamAck = true := by simp [p, shamAck]
  have hin₃ : AckInput W { c₂ with phase := .waiting } (.recv (.datagram addr p.toBytes)) := by
    refine ⟨p, rfl, hack, ?_, ?_, hW⟩
    · show c₂.windowBase ≤ 102
      rw [hb]; decide
    · show (102 : UInt32) ≤ c₂.nextSeqNum
      rw [UInt32.le_iff_toNat_le, hs₂.next]; decide
  have h₄ := Gets.one hin₃
  have hrecv : stepped { c₂ with phase := .waiting } (.recv (.datagram addr p.toBytes)) =
      { c₂ with serverAddr := addr, phase := .scanning 0, peerWindow := peerWindow, windowBase := 102 } := by
    have hgt : (102 : UInt32) > c₂.windowBase := by rw [hb]; decide
    show (Client.recv (.datagram addr p.toBytes) { c₂ with phase := .waiting }).1 = _
    rw [recv_packet rfl (parse_toBytes p) addr, if_pos hack]
    simp [p, hgt]
  rw [hrecv] at h₄
  obtain ⟨c₅, h₅, hi₅, hp₅⟩ := idle_round
    (c := { c₂ with serverAddr := addr, phase := .scanning 0, peerWindow := peerWindow, windowBase := 102 })
    hf₂.done rfl
  have hs₅ : Sent file c₅ 10240 := hs₂.same hi₅.next hi₅.unread
  have hb₅ : c₅.windowBase = 102 := hi₅.base
  have h := honoured_bound hs₅ (by omega) hL (by rw [hb₅]; decide) hp₅ (hi₅.done.trans hf₂.done)
    (by rw [hs₅.inFlight (by rw [hb₅]; decide), hb₅]; decide)
    (((Gets.acts ((h₁.trans h₂).trans h₃)).trans (h₄.trans (Gets.acts h₅))).honours hall)
  rw [hi₅.window, hb₅] at h
  have h102 : (102 : UInt32).toNat = 102 := rfl
  rw [h102] at h
  show 10239 + min 1024 (file.length - 10240) ≤ peerWindow.toNat
  replace h : 101 + 10240 + min 1024 (file.length - 10240) - 102 ≤ peerWindow.toNat := h
  omega

/-- **When the advertised window is honoured.** For every file and every bound `W`: in all
runs whose SYN-ACK and ACKs advertise at least `W` bytes, what is in flight after each new
packet fits the window advertised last, if and only if `W` is at least the most that
`send_file` can have in flight for a file of that size. -/
theorem window_honoured_iff (addr : Sockaddr) (file : List UInt8) (W : Nat) :
    (∀ (peerWindow : UInt16) (is : List ClientInput), W ≤ peerWindow.toNat →
      Along stepped (AckInput W) (.sendStart addr peerWindow file) is →
      Along stepped HonoursWindow (.sendStart addr peerWindow file) is) ↔ maxOutstanding file.length ≤ W := by
  constructor
  · intro h
    refine Nat.not_lt.mp fun hlt => ?_
    have hsmall : W < 65536 := by unfold maxOutstanding at hlt; split at hlt <;> omega
    have hw : (UInt16.ofNat W).toNat = W := UInt16.toNat_ofNat_of_lt' hsmall
    have hall := fun is => h (UInt16.ofNat W) is (Nat.le_of_eq hw.symm)
    unfold maxOutstanding at hlt
    by_cases hL : file.length ≤ 10240
    · rw [if_pos hL] at hlt
      have := small_file_bound (by omega) hL hall
      omega
    · rw [if_neg hL] at hlt
      have := long_file_bound (Nat.not_le.mp hL) (Nat.le_of_eq hw.symm) hall
      omega
  · intro hW peerWindow is hle ha
    refine Along.imp (I := Advertised W file) (fun c i hc _ => hc.honours hW i) (fun c i hc hi => ?_) ?_ ha
    · cases i with
      | act clk => exact hc.act clk
      | recv a => exact hc.recv hi
    · refine ⟨⟨by simp [Client.sendStart], by simp [Client.sendStart]⟩, hle, fun _ => ⟨0, ?_, ?_⟩⟩
      · exact ⟨rfl, rfl, Nat.zero_le _, .inl rfl⟩
      · exact ⟨Nat.le_refl 101, Nat.le_refl 101⟩

end

/-- A SYN-ACK that advertises no room at all does not keep the first packet back. -/
theorem closed_window_overrun :
    let c := Client.sendStart ⟨2, 2⟩ 0 [7]
    Along stepped (AckInput 0) c [.act {}, .act {}] ∧ ¬ Along stepped HonoursWindow c [.act {}, .act {}] := by
  intro c
  refine ⟨⟨trivial, trivial, trivial⟩, fun h => ?_⟩
  have hle := h.2.1 (by decide) (by decide)
  exact absurd hle (by decide)

end OsNetworks.Sham
