/-
What the two sides of a chat see of each other: over any network, and over one
that keeps the order of its datagrams and loses none.
-/
import OsNetworks.Sham.Chat

namespace OsNetworks.Sham
open Runs

/-- The two sides' facts, one of them in sight. -/
theorem forall_side {P : Side → Prop} (s : Side) (hs : P s) (ho : P s.other) (t : Side) : P t := by
  rcases eq_or_other s t with rfl | rfl
  · exact hs
  · exact ho

/-! ## A side alone -/

/-- What holds of a side whatever the other does. -/
structure Chatter.Own (addr : Sockaddr) (c : Chatter) : Prop where
  peer : c.peerAddr = addr
  lines : ∀ line ∈ c.sent, Shell.cstring line = line ∧ ¬ quitWord <+: line
  quits : c.quit = true → c.phase ≠ .chatting

/-- What a packet is to the side that takes it: `c` sent it, or it carries nothing. -/
structure Chatter.Carries (c : Chatter) (p : Packet) : Prop where
  line : p.data ≠ [] → p.data ∈ c.sent
  fin : p.has shamFin = true → c.quit = true ∧ p.data = []

theorem cstring_chatLine (stdin : List UInt8) : Shell.cstring (chatLine stdin) = chatLine stdin :=
  Shell.cstring_of_noNul fun h => by simpa using List.mem_takeWhile_imp h

variable {c c' : Chatter} {r : Chatter × List Outgoing} {addr : Sockaddr} {p : Packet} {q : Option Packet}

theorem ChatActs.own (h : ChatActs c r) (hc : c.Own addr) : r.1.Own addr := by
  cases h with
  | quiet => exact hc
  | talks seq hchat hquit =>
    refine ⟨hc.peer, fun line hm => ?_, hc.quits⟩
    rcases List.mem_append.mp hm with hm | hm
    · exact hc.lines line hm
    · obtain rfl := List.mem_singleton.mp hm
      exact ⟨cstring_chatLine _, hquit⟩
  | quits p phase hchat hquit hp hdata hphase => exact ⟨hc.peer, hc.lines, fun _ => hphase⟩
  | ends => exact ⟨hc.peer, hc.lines, fun _ => by simp⟩

theorem ChatTakes.own (h : ChatTakes c addr q c') (hc : c.Own addr) : c'.Own addr := by
  cases h with
  | quiet => exact ⟨rfl, hc.lines, hc.quits⟩
  | told => exact ⟨rfl, hc.lines, fun _ => by simp⟩
  | shows => exact ⟨rfl, hc.lines, hc.quits⟩
  | waits q phase hchat hleft hphase => exact ⟨rfl, hc.lines, fun _ => hphase⟩

/-- Taking changes nothing that was said. -/
theorem ChatTakes.keeps (h : ChatTakes c addr q c') : c'.sent = c.sent ∧ c'.quit = c.quit := by
  cases h <;> exact ⟨rfl, rfl⟩

theorem ChatActs.shown (h : ChatActs c r) : r.1.shown = c.shown := by cases h <;> rfl

theorem ChatActs.quit (h : ChatActs c r) (hq : c.quit = true) : r.1.quit = true := by
  cases h
  case quits => rfl
  all_goals exact hq

theorem ChatActs.sent (h : ChatActs c r) : c.sent ⊆ r.1.sent := by
  cases h
  case talks => exact List.subset_append_left _ _
  all_goals exact List.Subset.refl _

/-- A side stops chatting by itself only as it reads `/quit`. -/
theorem ChatActs.left (h : ChatActs c r) (hr : r.1.phase ≠ .chatting) : c.phase ≠ .chatting ∨ r.1.quit = true := by
  cases h with
  | quits => exact .inr rfl
  | ends p hchat => exact .inl hchat
  | _ => exact .inl hr

/-- Every packet is one line, the FIN of a `/quit`, or the ACK of `perform_termination`. -/
theorem ChatActs.carries (h : ChatActs c r) : ∀ o ∈ r.2, r.1.Carries o.pkt := by
  cases h with
  | quiet => simp
  | talks seq hchat hquit =>
    simp only [List.mem_singleton, forall_eq]
    exact ⟨fun _ => List.mem_append_right _ (List.mem_singleton.mpr rfl),
      fun hfin => absurd (show (0 &&& shamFin != 0) = true from hfin) (by decide)⟩
  | quits p phase hchat hquit hp hdata =>
    simp only [List.mem_singleton, forall_eq]
    exact ⟨fun hne => absurd hdata hne, fun _ => ⟨rfl, hdata⟩⟩
  | ends p hchat hleft hp hdata =>
    simp only [List.mem_singleton, forall_eq]
    refine ⟨fun hne => absurd hdata hne, fun hfin => ?_⟩
    simp only [sendPacket, Packet.has, hp] at hfin
    exact absurd hfin (by decide)

theorem Chatter.Carries.mono (h : c.Carries p) (hsent : c.sent ⊆ c'.sent) (hquit : c.quit = true → c'.quit = true) :
    c'.Carries p :=
  ⟨fun hne => hsent (h.line hne), fun hfin => ⟨hquit (h.fin hfin).1, (h.fin hfin).2⟩⟩

/-- `fgets` splits what is typed, and drops nothing. -/
theorem getLine_append (room : Nat) (stdin : List UInt8) :
    (Shell.getLine room stdin).1 ++ (Shell.getLine room stdin).2 = stdin := by
  induction room generalizing stdin with
  | zero => simp [Shell.getLine]
  | succ room ih =>
    cases stdin with
    | nil => simp [Shell.getLine]
    | cons c stdin =>
      unfold Shell.getLine
      split
      · rfl
      · simpa using ih stdin

theorem chatLine_typed (stdin : List UInt8) : chatLine stdin <+: stdin :=
  (List.takeWhile_prefix _).trans ⟨_, getLine_append _ stdin⟩

/-- Where a side is in what is typed at it: all of it was sent but what is still to be
read, or what came after a `/quit`. -/
structure Chatter.Reads (typed : List UInt8) (c : Chatter) : Prop where
  goesOn : c.quit = false → c.sent.flatten ++ c.stdin = typed
  stops : c.quit = true → ∃ rest, c.sent.flatten ++ rest = typed ∧ quitWord <+: rest

theorem ChatActs.reads (h : ChatActs c r) (hc : c.Own addr) {typed : List UInt8} (hnul : 0 ∉ typed)
    (hr : c.Reads typed) : r.1.Reads typed := by
  have hgoes : c.phase = .chatting → c.sent.flatten ++ c.stdin = typed := fun hchat =>
    hr.goesOn (by simpa using mt hc.quits (by simp [hchat]))
  cases h with
  | quiet => exact hr
  | talks seq hchat =>
    have hread := hgoes hchat
    have hline : chatLine c.stdin = (Shell.getLine (shamDataSize - 1) c.stdin).1 := by
      refine Shell.cstring_of_noNul fun h0 => hnul ?_
      rw [← hread, ← getLine_append (shamDataSize - 1) c.stdin]
      exact List.mem_append_right _ (List.mem_append_left _ h0)
    refine ⟨fun _ => ?_, fun hq => absurd hchat (hc.quits hq)⟩
    rw [List.flatten_append, List.flatten_singleton, hline, List.append_assoc, getLine_append, hread]
  | quits p phase hchat hquit =>
    exact ⟨fun hq => absurd hq (by simp), fun _ => ⟨c.stdin, hgoes hchat, hquit.trans (chatLine_typed _)⟩⟩
  | ends => exact ⟨hr.goesOn, hr.stops⟩

theorem ChatTakes.reads (h : ChatTakes c addr q c') {typed : List UInt8} (hr : c.Reads typed) : c'.Reads typed := by
  cases h <;> exact ⟨hr.goesOn, hr.stops⟩

/-! ## Any network -/

namespace Chat

/-- What holds of a chat whatever its network does. -/
structure Inv (w : Chat) : Prop where
  own : ∀ s, (w.chatter s).Own (w.addr s.other)
  inFlight : ∀ s, ∀ p ∈ w.inbox s, (w.chatter s.other).Carries p
  shown : ∀ s, (w.chatter s).shown ⊆ (w.chatter s.other).sent
  left : ∀ s, (w.chatter s).phase ≠ .chatting → (w.chatter s).quit = true ∨ (w.chatter s.other).quit = true

variable {w w' : Chat} {s : Side}

theorem Inv.did (hw : w.Inv) (h : ChatActs (w.chatter s) r) : (w.did s r).Inv where
  own := forall_side s (by simpa using h.own (hw.own s)) (by simpa using hw.own s.other)
  inFlight := by
    refine forall_side s (by simpa using hw.inFlight s) ?_
    simp only [did_inbox_other, other_other, did_chatter_self]
    have hold : ∀ p ∈ w.inbox s.other, r.1.Carries p := fun p hp => by
      have hc := hw.inFlight s.other p hp
      rw [other_other] at hc
      exact hc.mono h.sent h.quit
    exact forall_arrived hold h.carries
  shown := by
    refine forall_side s (by simpa [h.shown] using hw.shown s) ?_
    have hold := hw.shown s.other
    simp only [did_chatter_other, other_other, did_chatter_self] at hold ⊢
    exact fun line hm => h.sent (hold hm)
  left := by
    refine forall_side s ?_ ?_
    · simp only [did_chatter_self, did_chatter_other]
      intro hr
      rcases h.left hr with hc | hq
      · exact (hw.left s hc).imp_left h.quit
      · exact .inl hq
    · have hold := hw.left s.other
      simp only [did_chatter_other, other_other, did_chatter_self] at hold ⊢
      exact fun hp => (hold hp).imp_right h.quit

theorem Inv.took (hw : w.Inv) (h : ChatTakes (w.chatter s) (w.addr s.other) q c)
    (hq : ∀ p ∈ q, (w.chatter s.other).Carries p) : (w.setChatter s c).Inv where
  own := forall_side s (by simpa using h.own (hw.own s)) (by simpa using hw.own s.other)
  inFlight := by
    refine forall_side s (by simpa using hw.inFlight s) ?_
    have hold := hw.inFlight s.other
    simp only [other_other, setChatter_self, setChatter_inbox] at hold ⊢
    exact fun p hp => (hold p hp).mono (by rw [h.keeps.1]; exact List.Subset.refl _) (by rw [h.keeps.2]; exact id)
  shown := by
    have hs := hw.shown s
    refine forall_side s ?_ (by simpa [h.keeps.1] using hw.shown s.other)
    simp only [setChatter_self, setChatter_other]
    cases h with
    | shows p hchat hfin hdata =>
      have hline := (hq p rfl).line hdata
      rw [((hw.own s.other).lines _ hline).1]
      exact List.append_subset.mpr ⟨hs, by simpa using hline⟩
    | _ => exact hs
  left := by
    have hs := hw.left s
    refine forall_side s ?_ (by simpa [h.keeps.2] using hw.left s.other)
    simp only [setChatter_self, setChatter_other]
    cases h with
    | told p hchat hfin => exact fun _ => .inr ((hq p rfl).fin hfin).1
    | waits q phase hchat => exact fun _ => hs hchat
    | _ => exact hs

theorem Inv.network (hw : w.Inv) {ps : List Packet} (h : ∀ p ∈ ps, p ∈ w.inbox s) : (w.setInbox s ps).Inv where
  own := hw.own
  inFlight := forall_side s (fun p hp => hw.inFlight s p (h p (by simpa using hp)))
    (by simpa using hw.inFlight s.other)
  shown := hw.shown
  left := hw.left

theorem Inv.moves (hw : w.Inv) {l : ChatLabel} (h : w.Moves l w') : w'.Inv := by
  cases h with
  | acts s h => exact hw.did h
  | times s h =>
    rw [(hw.own s).peer] at h
    exact hw.took h (by simp)
  | takes s hp h =>
    refine (hw.network fun p => Channel.mem_of_mem_take).took h fun p hm => ?_
    obtain rfl := Option.some.inj hm
    exact hw.inFlight s _ (List.mem_of_getElem? hp)
  | stays => exact hw
  | loses s i => exact hw.network fun p => Channel.mem_of_mem_take
  | copies s i => exact hw.network fun p => Channel.mem_copy.mp

theorem Inv.run (hw : w.Inv) (ls : List ChatLabel) : (w.run ls).Inv :=
  run_inv (fun w l h => h.moves (w.step_moves l)) hw ls

section
variable (addr : Side → Sockaddr) (seq : Side → UInt32) (stdin : Side → List UInt8) {old : Side → List Packet}

theorem inv_start (hold : ∀ s, ∀ p ∈ old s, p.data = [] ∧ p.has shamFin = false) : (start addr seq stdin old).Inv where
  own s := ⟨rfl, by simp [start], by simp [start]⟩
  inFlight s p hp :=
    ⟨fun hne => absurd (hold s p hp).1 hne, fun hfin => absurd (hfin.symm.trans (hold s p hp).2) (by decide)⟩
  shown s := by simp [start]
  left s h := absurd rfl h

/-- **A chat shows what was typed**: over any network, each line shown is one that the
other side read and sent, whole, and never one that begins with `/quit`; and a side
leaves only after one of the two has read `/quit`. -/
theorem shows_what_was_sent (hold : ∀ s, ∀ p ∈ old s, p.data = [] ∧ p.has shamFin = false) (ls : List ChatLabel)
    (s : Side) :
    let w := (start addr seq stdin old).run ls
    (∀ line ∈ (w.chatter s).shown, line ∈ (w.chatter s.other).sent ∧ ¬ quitWord <+: line) ∧
      ((w.chatter s).phase ≠ .chatting → (w.chatter s).quit = true ∨ (w.chatter s.other).quit = true) := by
  intro w
  have hw : w.Inv := (inv_start addr seq stdin hold).run ls
  refine ⟨fun line hm => ?_, hw.left s⟩
  have hsent := hw.shown s hm
  exact ⟨hsent, ((hw.own s.other).lines line hsent).2⟩

end

/-- `hi` and `/quit`, typed at the client. -/
def greeting : Side → List UInt8
  | .client => [104, 105, 10, 47, 113, 117, 105, 116, 10]
  | .server => []

/-- The server's SYN-ACK, which the handshake received twice. -/
def lateSynAck : Side → List Packet
  | .client => [control { flags := shamSyn ||| shamAck }]
  | .server => []

theorem shows_what_was_sent_twice :
    let w := (start (fun _ => {}) (fun _ => 0) greeting lateSynAck).run
      [.act .client, .act .client, .copy .server 0, .deliver .server 0, .deliver .server 1, .deliver .server 0]
    (w.chatter .server).shown = [[104, 105, 10], [104, 105, 10]] ∧
      ((w.chatter .server).phase ≠ .chatting →
        (w.chatter .server).quit = true ∨ (w.chatter .client).quit = true) :=
  ⟨by decide +kernel, (shows_what_was_sent (fun _ => {}) (fun _ => 0) greeting
    (forall_side .client (by decide) (by decide)) _ .server).2⟩

/-! ## A network that keeps the order -/

end Chat

/-- The network takes what is first in flight, and loses and copies nothing. -/
def ChatLabel.Orderly : ChatLabel → Prop
  | .act _ | .timeout _ => True
  | .deliver _ i => i = 0
  | .lose _ _ | .copy _ _ => False

instance : DecidablePred ChatLabel.Orderly := fun l =>
  match l with
  | .act _ | .timeout _ => .isTrue trivial
  | .deliver _ i => inferInstanceAs (Decidable (i = 0))
  | .lose _ _ | .copy _ _ => .isFalse id

/-- The lines among the packets. -/
def messages (ps : List Packet) : List (List UInt8) := (ps.map (·.data)).filter (· ≠ [])

theorem messages_append (ps qs : List Packet) : messages (ps ++ qs) = messages ps ++ messages qs := by
  simp [messages]

theorem messages_cons_line {p : Packet} (h : p.data ≠ []) (ps : List Packet) :
    messages (p :: ps) = p.data :: messages ps := by
  simp [messages, h]

theorem messages_cons_silent {p : Packet} (h : p.data = []) (ps : List Packet) : messages (p :: ps) = messages ps := by
  simp [messages, h]

theorem messages_of_silent {ps : List Packet} (h : ∀ p ∈ ps, p.data = []) : messages ps = [] := by
  simpa [messages] using h

/-- The lines sent that can be shown. An empty one is sent without effect. -/
def Chatter.told (c : Chatter) : List (List UInt8) := c.sent.filter (· ≠ [])

/-- What a side sends is what it says, in order. -/
theorem ChatActs.told (h : ChatActs c r) : r.1.told = c.told ++ messages (r.2.map (·.pkt)) := by
  cases h with
  | quiet => simp [messages]
  | talks => simp [Chatter.told, messages, sendPacket, chatPacket]
  | quits p phase hchat hquit hp hdata => simp [Chatter.told, messages, sendPacket, hdata]
  | ends p hchat hleft hp hdata => simp [Chatter.told, messages, sendPacket, hdata]

/-- Who has left the chat sends no more lines, and no second FIN. -/
theorem ChatActs.silent (h : ChatActs c r) (hc : c.phase ≠ .chatting) :
    ∀ o ∈ r.2, o.pkt.data = [] ∧ o.pkt.has shamFin = false := by
  cases h with
  | quiet => simp
  | talks seq hchat => exact absurd hchat hc
  | quits p phase hchat => exact absurd hchat hc
  | ends p hchat hleft hp hdata =>
    simp only [List.mem_singleton, forall_eq, sendPacket, Packet.has, hp]
    exact ⟨hdata, by decide⟩

theorem ChatActs.length_le (h : ChatActs c r) : r.2.length ≤ 1 := by cases h <;> simp

theorem ChatActs.chatting (h : ChatActs c r) (hr : r.1.phase = .chatting) : c.phase = .chatting := by
  by_contra hc
  cases h with
  | ends => exact absurd hr (by simp)
  | quits p phase hchat => exact hc hchat
  | talks seq hchat => exact hc hchat
  | quiet => exact hc hr

namespace Chat
variable {w w' : Chat} {s : Side}

/-- What is in flight to a side is what it has not been shown, and nothing is said after a FIN. -/
structure InOrder (w : Chat) : Prop where
  fifo : ∀ s, (w.chatter s).phase = .chatting →
    (w.chatter s).shown ++ messages (w.inbox s) = (w.chatter s.other).told
  cut : ∀ s, (w.chatter s).shown <+: (w.chatter s.other).told
  whole : ∀ s, (w.chatter s).phase ≠ .chatting → (w.chatter s).quit = false →
    (w.chatter s).shown = (w.chatter s.other).told
  last : ∀ s, (w.inbox s).Pairwise fun p q => p.has shamFin = true → q.data = []

theorem arriving_sent (hw : w.Inv) (h : ChatActs (w.chatter s) r) :
    arriving (w.addr s.other) r.2 = r.2.map (·.pkt) := by
  have hpeer := (hw.own s).peer
  cases h <;> simp [arriving, sendPacket, hpeer]

theorem InOrder.did (ho : w.InOrder) (hw : w.Inv) (h : ChatActs (w.chatter s) r) : (w.did s r).InOrder where
  fifo := by
    refine forall_side s ?_ ?_
    · simp only [did_chatter_self, did_chatter_other, did_inbox_self, h.shown]
      exact fun hr => ho.fifo s (h.chatting hr)
    · have hold := ho.fifo s.other
      simp only [did_chatter_other, other_other, did_chatter_self, did_inbox_other] at hold ⊢
      intro hp
      rw [messages_append, ← List.append_assoc, hold hp, arriving_sent hw h, h.told]
  cut := by
    refine forall_side s ?_ ?_
    · simpa [h.shown] using ho.cut s
    · have hold := ho.cut s.other
      simp only [did_chatter_other, other_other, did_chatter_self] at hold ⊢
      rw [h.told]
      exact hold.trans (List.prefix_append _ _)
  whole := by
    refine forall_side s ?_ ?_
    · simp only [did_chatter_self, did_chatter_other, h.shown]
      intro hr hquit
      rcases h.left hr with hc | hq
      · exact ho.whole s hc (by simpa using mt h.quit (by simp [hquit]))
      · exact absurd (hquit.symm.trans hq) (by decide)
    · have hold := ho.whole s.other
      have hleft := hw.left s.other
      simp only [did_chatter_other, other_other, did_chatter_self] at hold hleft ⊢
      intro hp hquit
      have hq := (hleft hp).resolve_left (by simp [hquit])
      have hnone : messages (r.2.map (·.pkt)) = [] :=
        messages_of_silent (List.forall_mem_map.mpr fun o ho => (h.silent ((hw.own s).quits hq) o ho).1)
      rw [h.told, hnone, List.append_nil]
      exact hold hp hquit
  last := by
    refine forall_side s ?_ ?_
    · simpa using ho.last s
    · simp only [did_inbox_other, arriving_sent hw h]
      refine List.pairwise_append.mpr ⟨ho.last s.other, ?_, fun p hp q hq hfin => ?_⟩
      · rcases Nat.le_one_iff_eq_zero_or_eq_one.mp h.length_le with h0 | h1
        · simp [List.length_eq_zero_iff.mp h0]
        · obtain ⟨o, hr⟩ := List.length_eq_one_iff.mp h1
          simp [hr]
      · have hc := hw.inFlight s.other p hp
        rw [other_other] at hc
        obtain ⟨o, hm, rfl⟩ := List.mem_map.mp hq
        exact (h.silent ((hw.own s).quits (hc.fin hfin).1) o hm).1

/-- The four facts about `s`, where the other side's are untouched. -/
theorem InOrder.of_side (ho : w.InOrder) {ps : List Packet} (hps : ps.Sublist (w.inbox s)) {c : Chatter}
    (hsent : c.sent = (w.chatter s).sent)
    (hfifo : c.phase = .chatting → c.shown ++ messages ps = (w.chatter s.other).told)
    (hcut : c.shown <+: (w.chatter s.other).told)
    (hwhole : c.phase ≠ .chatting → c.quit = false → c.shown = (w.chatter s.other).told) :
    ((w.setInbox s ps).setChatter s c).InOrder := by
  have htold : c.told = (w.chatter s).told := by rw [Chatter.told, Chatter.told, hsent]
  exact {
    fifo := forall_side s (by simpa using hfifo) (by simpa [htold] using ho.fifo s.other)
    cut := forall_side s (by simpa using hcut) (by simpa [htold] using ho.cut s.other)
    whole := forall_side s (by simpa using hwhole) (by simpa [htold] using ho.whole s.other)
    last := forall_side s (by simpa using (ho.last s).sublist hps) (by simpa using ho.last s.other) }

theorem InOrder.took (ho : w.InOrder) (hw : w.Inv) {rest : List Packet} (hin : w.inbox s = p :: rest)
    (h : ChatTakes (w.chatter s) addr (some p) c) : ((w.setInbox s rest).setChatter s c).InOrder := by
  have hrest : rest.Sublist (w.inbox s) := by simp [hin]
  have hcarry := hw.inFlight s p (by simp [hin])
  have hfifo := ho.fifo s
  rw [hin] at hfifo
  cases h with
  | quiet _ hp =>
    refine ho.of_side hrest rfl (fun hchat => ?_) (ho.cut s) (ho.whole s)
    rw [← hfifo hchat, messages_cons_silent (hp hchat p rfl).2]
  | told _ hchat hfin =>
    -- Nothing was said after the FIN, so nothing is missed by leaving.
    have hlast := ho.last s
    rw [hin, List.pairwise_cons] at hlast
    have hall : (w.chatter s).shown = (w.chatter s.other).told := by
      rw [← hfifo hchat, messages_cons_silent (hcarry.fin hfin).2,
        messages_of_silent fun q hq => hlast.1 q hq hfin, List.append_nil]
    exact ho.of_side hrest rfl (fun hc => absurd hc (by simp)) (ho.cut s) fun _ _ => hall
  | shows _ hchat hfin hdata =>
    have hline := ((hw.own s.other).lines _ (hcarry.line hdata)).1
    have hnext : ((w.chatter s).shown ++ [Shell.cstring p.data]) ++ messages rest = (w.chatter s.other).told := by
      rw [← hfifo hchat, messages_cons_line hdata, hline, List.append_assoc, List.singleton_append]
    exact ho.of_side hrest rfl (fun _ => hnext) ⟨messages rest, hnext⟩ fun hc => absurd hchat hc
  | waits _ phase hchat hleft hphase =>
    exact ho.of_side hrest rfl (fun hc => absurd hc hphase) (ho.cut s) fun _ => ho.whole s hchat

theorem InOrder.timed (ho : w.InOrder) (h : ChatTakes (w.chatter s) addr none c) : (w.setChatter s c).InOrder := by
  have hsame : w.setChatter s c = (w.setInbox s (w.inbox s)).setChatter s c := by simp [setInbox, setChatter]
  rw [hsame]
  have hrefl := List.Sublist.refl (w.inbox s)
  cases h with
  | quiet => exact ho.of_side hrefl rfl (ho.fifo s) (ho.cut s) (ho.whole s)
  | waits _ phase hchat hleft hphase =>
    exact ho.of_side hrefl rfl (fun hc => absurd hc hphase) (ho.cut s) fun _ => ho.whole s hchat

theorem InOrder.moves (ho : w.InOrder) (hw : w.Inv) {l : ChatLabel} (hl : l.Orderly) (h : w.Moves l w') :
    w'.InOrder := by
  cases h with
  | acts s h => exact ho.did hw h
  | times s h => exact ho.timed h
  | @takes s i p c hp h =>
    obtain rfl : i = 0 := hl
    obtain ⟨rest, hin⟩ : ∃ rest, w.inbox s = p :: rest :=
      ⟨_, (List.cons_head?_tail (by simpa [List.head?_eq_getElem?] using hp)).symm⟩
    have htake : Channel.take (w.inbox s) 0 = rest := by simp [Channel.take, hin]
    rw [htake]
    exact ho.took hw hin h
  | stays => exact ho
  | loses => exact hl.elim
  | copies => exact hl.elim

theorem InOrder.run (ho : w.InOrder) (hw : w.Inv) {ls : List ChatLabel} (hls : ∀ l ∈ ls, l.Orderly) :
    (w.run ls).InOrder := by
  induction ls generalizing w with
  | nil => exact ho
  | cons l ls ih =>
    obtain ⟨hl, hrest⟩ := List.forall_mem_cons.mp hls
    exact ih (ho.moves hw hl (w.step_moves l)) (hw.moves (w.step_moves l)) hrest

/-! ## What was typed -/

section
variable (addr : Side → Sockaddr) (seq : Side → UInt32) {stdin : Side → List UInt8} {old : Side → List Packet}

end

/-! ## The end of a chat -/

/-- The server is chatting or gone, and what is in flight to the client that acknowledges
something was so before. -/
structure Unanswered (old : List Packet) (w : Chat) : Prop where
  side : ∀ s, (w.chatter s).side = s
  server : (w.chatter .server).phase = .chatting ∨ (w.chatter .server).phase = .left
  acks : ∀ p ∈ w.inbox .client, p.has shamAck = true → p ∈ old

theorem Unanswered.did {old : List Packet} (hu : w.Unanswered old) (h : ChatActs (w.chatter s) r) :
    (w.did s r).Unanswered old := by
  have hside : r.1.side = s := by rw [← hu.side s]; cases h <;> rfl
  have hsides := forall_side (P := fun t => ((w.did s r).chatter t).side = t) s (by simpa using hside)
    (by simpa using hu.side s.other)
  cases s with
  | client => exact ⟨hsides, by simpa [did, Side.other] using hu.server, by simpa [did, Side.other] using hu.acks⟩
  | server =>
    have hself : ((w.did .server r).chatter .server) = r.1 := did_chatter_self ..
    have hbox : (w.did .server r).inbox .client = w.inbox .client ++ arriving (w.addr .client) r.2 :=
      did_inbox_other w .server r
    refine ⟨hsides, ?_, ?_⟩
    · rw [hself]
      cases h with
      | quiet => exact hu.server
      | talks => exact hu.server
      | quits p phase hchat hquit hp hdata hphase hleft => exact .inr (hleft (hu.side .server))
      | ends => exact .inr rfl
    · rw [hbox]
      refine forall_arrived hu.acks fun o ho hack => ?_
      cases h with
      | quiet => simp at ho
      | talks =>
        obtain rfl := List.mem_singleton.mp ho
        exact absurd (show (0 &&& shamAck != 0) = true from hack) (by decide)
      | quits p phase hchat hquit hp =>
        obtain rfl := List.mem_singleton.mp ho
        simp only [sendPacket, Packet.has, hp] at hack
        exact absurd hack (by decide)
      | ends p hchat hleft => exact absurd hu.server (by simp [hchat, hleft])

theorem Unanswered.took {old : List Packet} (hu : w.Unanswered old) (h : ChatTakes (w.chatter s) addr q c) :
    (w.setChatter s c).Unanswered old := by
  have hside : c.side = s := by rw [← hu.side s]; cases h <;> rfl
  refine ⟨forall_side s (by simpa using hside) (by simpa using hu.side s.other), ?_, hu.acks⟩
  cases s with
  | client => simpa [setChatter] using hu.server
  | server =>
    rw [setChatter_self]
    cases h with
    | told => exact .inr rfl
    | waits q phase hchat hleft => exact absurd hu.server (by simp [hchat, hleft])
    | _ => exact hu.server

theorem Unanswered.network {old : List Packet} (hu : w.Unanswered old) {ps : List Packet}
    (hps : ∀ p ∈ ps, p ∈ w.inbox s) : (w.setInbox s ps).Unanswered old := by
  refine ⟨hu.side, hu.server, ?_⟩
  cases s with
  | client => exact fun p hp => hu.acks p (hps p (by simpa using hp))
  | server => simpa [setInbox] using hu.acks

theorem Unanswered.moves {old : List Packet} (hu : w.Unanswered old) {l : ChatLabel} (h : w.Moves l w') :
    w'.Unanswered old := by
  cases h with
  | acts s h => exact hu.did h
  | times s h => exact hu.took h
  | takes s hp h => exact (hu.network fun p => Channel.mem_of_mem_take).took h
  | stays => exact hu
  | loses s i => exact hu.network fun p => Channel.mem_of_mem_take
  | copies s i => exact hu.network fun p => Channel.mem_copy.mp

/-- **The client's FIN is never acknowledged**: the server answers a FIN by leaving, so in
every run whatever acknowledges anything on its way to the client, was on its way when
the chat began. -/
theorem fin_unanswered (addr : Side → Sockaddr) (seq : Side → UInt32) (stdin : Side → List UInt8)
    (old : Side → List Packet) (ls : List ChatLabel) :
    ∀ p ∈ ((start addr seq stdin old).run ls).inbox .client, p.has shamAck = true → p ∈ old .client :=
  have hstart : (start addr seq stdin old).Unanswered (old .client) := ⟨fun _ => rfl, .inl rfl, fun _ hp _ => hp⟩
  (run_inv (I := Unanswered (old .client)) (fun w l h => h.moves (w.step_moves l)) hstart ls).acks

theorem fin_unanswered_late :
    let w := (start (fun _ => {}) (fun _ => 0) greeting lateSynAck).run
      [.act .client, .act .client, .deliver .server 0, .deliver .server 0]
    (w.chatter .client).quit = true ∧ (w.chatter .server).phase = .left ∧
      control { flags := shamSyn ||| shamAck } ∈ lateSynAck .client :=
  ⟨by decide +kernel, by decide +kernel, fin_unanswered (fun _ => {}) (fun _ => 0) greeting lateSynAck
    [.act .client, .act .client, .deliver .server 0, .deliver .server 0] _ (by decide +kernel) (by decide)⟩

/-- `s` has read `/quit`, and nothing on its way tells the other. -/
structure Stranded (s : Side) (w : Chat) : Prop where
  inv : w.Inv
  quit : (w.chatter s).quit = true
  silent : ∀ p ∈ w.inbox s.other, p.has shamFin = false
  chats : (w.chatter s.other).quit = false → (w.chatter s.other).phase = .chatting

theorem Stranded.did (hs : w.Stranded s) (t : Side) (h : ChatActs (w.chatter t) r) : (w.did t r).Stranded s := by
  have hinv := hs.inv.did h
  rcases eq_or_other s t with rfl | rfl
  · have hnone := h.silent ((hs.inv.own t).quits hs.quit)
    exact {
      inv := hinv
      quit := by simpa using h.quit hs.quit
      silent := by
        simp only [did_inbox_other]
        exact forall_arrived hs.silent fun o ho => (hnone o ho).2
      chats := by simpa using hs.chats }
  · have hself : (w.did s.other r).chatter s = w.chatter s := by simpa using did_chatter_other w s.other r
    refine ⟨hinv, by rw [hself]; exact hs.quit, by simpa using hs.silent, ?_⟩
    rw [did_chatter_self]
    intro hquit
    by_contra hr
    rcases h.left hr with hc | hq
    · exact hc (hs.chats (by simpa using mt h.quit (by simp [hquit])))
    · exact absurd (hquit.symm.trans hq) (by decide)

theorem Stranded.took (hs : w.Stranded s) (t : Side) (h : ChatTakes (w.chatter t) (w.addr t.other) q c)
    (hq : ∀ p ∈ q, (w.chatter t.other).Carries p) (hfin : t = s.other → ∀ p ∈ q, p.has shamFin = false) :
    (w.setChatter t c).Stranded s := by
  have hinv := hs.inv.took h hq
  rcases eq_or_other s t with rfl | rfl
  · exact ⟨hinv, by simpa [h.keeps.2] using hs.quit, hs.silent, by simpa using hs.chats⟩
  · have hself : (w.setChatter s.other c).chatter s = w.chatter s := by simpa using setChatter_other w s.other c
    refine ⟨hinv, by rw [hself]; exact hs.quit, hs.silent, ?_⟩
    rw [setChatter_self]
    intro hquit
    have hchats := hs.chats (h.keeps.2.symm.trans hquit)
    cases h with
    | told p hchat hp => exact absurd ((hfin rfl p rfl).symm.trans hp) (by decide)
    | waits q phase hchat => exact absurd hchats hchat
    | _ => exact hchats

theorem Stranded.network (hs : w.Stranded s) (t : Side) {ps : List Packet} (h : ∀ p ∈ ps, p ∈ w.inbox t) :
    (w.setInbox t ps).Stranded s := by
  refine ⟨hs.inv.network h, hs.quit, ?_, hs.chats⟩
  rcases eq_or_other s t with rfl | rfl
  · simpa using hs.silent
  · exact fun p hp => hs.silent p (h p (by simpa using hp))

theorem Stranded.moves (hs : w.Stranded s) {l : ChatLabel} (h : w.Moves l w') : w'.Stranded s := by
  cases h with
  | acts t h => exact hs.did t h
  | times t h =>
    rw [(hs.inv.own t).peer] at h
    exact hs.took t h (by simp) (by simp)
  | @takes t i p c hp h =>
    have hmem := List.mem_of_getElem? hp
    refine (hs.network t fun p => Channel.mem_of_mem_take).took t h ?_ ?_
    · intro p' hm
      obtain rfl := Option.some.inj hm
      exact hs.inv.inFlight t _ hmem
    · intro ht p' hm
      subst ht
      obtain rfl := Option.some.inj hm
      exact hs.silent _ hmem
  | stays => exact hs
  | loses t i => exact hs.network t fun p => Channel.mem_of_mem_take
  | copies t i => exact hs.network t fun p => Channel.mem_copy.mp

/-- **A lost FIN is not sent again**: once a side has read `/quit` and no FIN is on its way
to the other, that one goes on chatting in every run, until it reads `/quit` itself. -/
theorem lost_fin_strands (addr : Side → Sockaddr) (seq : Side → UInt32) (stdin : Side → List UInt8)
    {old : Side → List Packet} (hold : ∀ s, ∀ p ∈ old s, p.data = [] ∧ p.has shamFin = false) (ls : List ChatLabel)
    (s : Side) (hquit : (((start addr seq stdin old).run ls).chatter s).quit = true)
    (hlost : ∀ p ∈ ((start addr seq stdin old).run ls).inbox s.other, p.has shamFin = false)
    (hchat : (((start addr seq stdin old).run ls).chatter s.other).phase = .chatting) (ls' : List ChatLabel) :
    let c := (((start addr seq stdin old).run ls).run ls').chatter s.other
    c.quit = false → c.phase = .chatting :=
  have hw := (inv_start addr seq stdin hold).run ls
  (run_inv (I := Stranded s) (fun w l h => h.moves (w.step_moves l)) ⟨hw, hquit, hlost, fun _ => hchat⟩ ls').chats

theorem lost_fin_strands_server :
    let w := (start (fun _ => {}) (fun _ => 0) greeting lateSynAck).run [.act .client, .act .client, .lose .server 1]
    let w' := w.run [.deliver .server 0, .timeout .client, .timeout .client, .act .client, .deliver .server 0]
    let c := w'.chatter .server
    c.quit = false → c.phase = .chatting :=
  lost_fin_strands (fun _ => {}) (fun _ => 0) greeting (forall_side .client (by decide) (by decide))
    [.act .client, .act .client, .lose .server 1] .client (by decide +kernel) (by decide +kernel) (by decide +kernel) _

end Chat

end OsNetworks.Sham
