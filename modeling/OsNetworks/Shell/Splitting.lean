/-
How `execute_full_command` and `execute_pipeline` cut up the text of a
derivation: into its groups and its stages, without the blanks around a group.

Both loops go over a buffer `pre ++ text`, where `pre` holds what was cut off
already: NULs end the strings in it that the arrays point at, whatever comes
after. So each loop is followed over one group or stage, by induction on those
left.
-/
import OsNetworks.Shell.Grammar
import OsNetworks.Shell.Executor

namespace OsNetworks.Shell

/-! ## Blanks around groups -/

def Blank.empty : Blank := ⟨[], by simp⟩

def Atomic.dropBefore (a : Atomic) : Atomic := { a with before := .empty }

def Atomic.dropAfter (a : Atomic) : Atomic := { a with after := .empty }

def CmdGroup.dropBefore (g : CmdGroup) : CmdGroup := { g with first := g.first.dropBefore }

/-- The group without the blank after its last stage. -/
def CmdGroup.dropAfter (g : CmdGroup) : CmdGroup :=
  match g.rest.getLast? with
  | none => { g with first := g.first.dropAfter }
  | some a => { g with rest := g.rest.dropLast ++ [a.dropAfter] }

def CmdGroup.after (g : CmdGroup) : Blank :=
  match g.rest.getLast? with
  | none => g.first.after
  | some a => a.after

/-- The line with its groups as they are run: only the first keeps the blank before it. -/
def ShellCmd.trimmed (d : ShellCmd) : ShellCmd :=
  { d with first := d.first.dropAfter, rest := d.rest.map fun sg => (sg.1, sg.2.dropBefore.dropAfter) }

theorem Atomic.text_before (a : Atomic) : a.text = a.before.text ++ a.dropBefore.text := by
  simp [Atomic.text, Atomic.dropBefore, Blank.empty]

theorem Atomic.text_after (a : Atomic) : a.text = a.dropAfter.text ++ a.after.text := by
  simp [Atomic.text, Atomic.dropAfter, Blank.empty]

theorem CmdGroup.text_before (g : CmdGroup) : g.text = g.first.before.text ++ g.dropBefore.text := by
  simp only [CmdGroup.text, CmdGroup.dropBefore, ← List.append_assoc]
  rw [← Atomic.text_before]

theorem CmdGroup.text_after (g : CmdGroup) : g.text = g.dropAfter.text ++ g.after.text := by
  obtain ⟨first, rest⟩ := g
  rcases List.eq_nil_or_concat rest with rfl | ⟨as, a, rfl⟩
  · simp [CmdGroup.text, CmdGroup.dropAfter, CmdGroup.after, ← Atomic.text_after]
  · simp [CmdGroup.text, CmdGroup.dropAfter, CmdGroup.after, ← Atomic.text_after]

theorem CmdGroup.dropAfter_ends (g : CmdGroup) : ∃ (t : Text) (n : Name), g.dropAfter.text = t ++ n.text := by
  have hend : ∀ a : Atomic, ∃ (t : Text) (n : Name), a.dropAfter.text = t ++ n.text := by
    intro a
    obtain ⟨t, n, hn⟩ := a.core_ends
    refine ⟨a.before.text ++ t, n, ?_⟩
    have : a.dropAfter.text = a.before.text ++ a.core := by
      simp [Atomic.text_eq_core, Atomic.dropAfter, Atomic.core, Blank.empty]
    rw [this, hn, List.append_assoc]
  obtain ⟨first, rest⟩ := g
  rcases List.eq_nil_or_concat rest with rfl | ⟨as, a, rfl⟩
  · obtain ⟨t, n, hn⟩ := hend first
    exact ⟨t, n, by simp [CmdGroup.text, CmdGroup.dropAfter, hn]⟩
  · obtain ⟨t, n, hn⟩ := hend a
    exact ⟨first.text ++ (as.flatMap (fun a => bar :: a.text) ++ bar :: t), n, by
      simp [CmdGroup.text, CmdGroup.dropAfter, hn]⟩

section
variable {α : Type} {f : Atomic → α}

/-- What the blanks around a stage do not change, trimming the group does not. -/
theorem CmdGroup.stages_dropAfter (h : ∀ a, f a.dropAfter = f a) (g : CmdGroup) :
    g.dropAfter.stages.map f = g.stages.map f := by
  obtain ⟨first, rest⟩ := g
  rcases List.eq_nil_or_concat rest with rfl | ⟨as, a, rfl⟩
  · simp [CmdGroup.stages, CmdGroup.dropAfter, h]
  · simp [CmdGroup.stages, CmdGroup.dropAfter, h]

theorem CmdGroup.stages_dropBefore (h : ∀ a, f a.dropBefore = f a) (g : CmdGroup) :
    g.dropBefore.stages.map f = g.stages.map f := by
  simp [CmdGroup.stages, CmdGroup.dropBefore, h]

end

/-! ## Reading and writing a buffer -/

section
variable {x : Text}

theorem byteAt_length (a : Text) (c : UInt8) (x : Text) : byteAt (a ++ c :: x) a.length = c := by
  simp [byteAt]

theorem byteAt_end (a : Text) : byteAt a a.length = 0 := by
  simp [byteAt]

theorem byteAt_append (a x : Text) : byteAt (a ++ x) a.length = peek x := by
  cases x with
  | nil => simpa using byteAt_end a
  | cons c x => exact byteAt_length a c x

theorem set_length (a : Text) (c d : UInt8) (x : Text) : (a ++ c :: x).set a.length d = a ++ d :: x := by
  simp [List.set_append_right]

/-- A string in a buffer ends at a NUL, or where the copied bytes end. -/
theorem stringAt_append {t : Text} (a : Text) (h : 0 ∉ t) (hx : x = [] ∨ peek x = 0) :
    stringAt (a ++ (t ++ x)) a.length = t := by
  unfold stringAt
  rw [List.drop_left]
  refine takeWhile_run (fun c hc => ?_) ?_
  · simp only [decide_eq_true_eq]
    exact fun h0 => h (h0 ▸ hc)
  · simpa using hx

/-- Blanks are overwritten with NULs, from the end on. -/
theorem trimEnd_run {start : Nat} {body : Text} (hs : start ≤ body.length) (ws x : Text)
    (hws : ∀ c ∈ ws, isspace c = true) :
    trimEnd (body ++ (ws ++ x)) start (body ++ ws).length =
      trimEnd (body ++ (List.replicate ws.length 0 ++ x)) start body.length := by
  generalize hk : ws.length = k
  induction k generalizing ws x with
  | zero =>
    obtain rfl := List.eq_nil_of_length_eq_zero hk
    simp
  | succ k ih =>
    obtain ⟨ws, d, rfl⟩ : ∃ ws' d, ws = ws' ++ [d] := by
      rcases List.eq_nil_or_concat ws with rfl | h
      · cases hk
      · simpa [List.concat_eq_append] using h
    have hbuf : body ++ (ws ++ [d] ++ x) = (body ++ ws) ++ d :: x := by simp
    have hlen : (body ++ (ws ++ [d])).length = (body ++ ws).length + 1 := by simp [Nat.add_assoc]
    have hle : start ≤ (body ++ ws).length := by
      rw [List.length_append]
      omega
    rw [hlen, trimEnd, hbuf, byteAt_length, if_pos ⟨hle, hws d (by simp)⟩, set_length, List.append_assoc,
      ih ws (0 :: x) (fun c hc => hws c (by simp [hc])) (by simpa using hk)]
    simp [List.replicate_succ']

theorem trimEnd_spaces {start : Nat} {t : Text} {n : Name} (pre ws x : Text) (hs : start ≤ pre.length)
    (hws : ∀ c ∈ ws, isspace c = true) :
    trimEnd (pre ++ (t ++ n.text) ++ (ws ++ x)) start (pre ++ (t ++ n.text) ++ ws).length =
      pre ++ (t ++ n.text) ++ (List.replicate ws.length 0 ++ x) := by
  -- the last character before the blanks is one of a name
  obtain ⟨body, c, hbody, hc⟩ : ∃ body c, pre ++ (t ++ n.text) = body ++ [c] ∧ isNameChar c = true :=
    ⟨pre ++ (t ++ n.text.dropLast), n.text.getLast n.ne, by
      simp [List.dropLast_concat_getLast], n.chars _ (List.getLast_mem n.ne)⟩
  have hle : start ≤ (pre ++ (t ++ n.text)).length := by
    rw [List.length_append]
    omega
  rw [trimEnd_run hle ws x hws, hbody, List.length_append, List.length_singleton, trimEnd, List.append_assoc,
    List.cons_append, byteAt_length, not_space_of_nameChar hc]
  simp

theorem skipSpaces_append {ws : Text} (a x : Text) (hws : ∀ c ∈ ws, isspace c = true)
    (hx : isspace (peek x) = false) :
    skipSpaces (a ++ (ws ++ x)) a.length = (a ++ ws).length := by
  unfold skipSpaces
  rw [List.drop_left, takeWhile_run hws (.inr hx), List.length_append]

end

/-! ## The stages of a group -/

section
variable {pre t rest : Text} {n : Nat}

theorem StageScan.loop_bar {s : StageScan} (h : byteAt s.buffer s.ptr = bar) :
    StageScan.loop (n + 1) s =
      ((store maxPipes s.commands s.start).map fun commands =>
        { buffer := s.buffer.set s.ptr 0, start := s.ptr + 1, ptr := s.ptr + 1, commands }).bind
          (StageScan.loop n) := by
  rw [StageScan.loop, h, if_neg (by decide), StageScan.step, if_pos h]

theorem StageScan.loop_text (pre : Text) {s : StageScan} (hb : s.buffer = pre ++ (t ++ rest))
    (hp : s.ptr = pre.length)
    (ht : ∀ c ∈ t, endsAtomic c = false) :
    StageScan.loop (t.length + n) s = StageScan.loop n { s with ptr := (pre ++ t).length } := by
  induction t generalizing s pre with
  | nil => simp [← hp]
  | cons c t ih =>
    have hc := ht c (by simp)
    simp only [endsAtomic, Bool.or_eq_false_iff, decide_eq_false_iff_not] at hc
    have hbyte : byteAt s.buffer s.ptr = c := by
      rw [hb, hp]
      exact byteAt_length pre c _
    have hnext := ih (pre ++ [c]) (s := { s with ptr := s.ptr + 1 }) (by simp [hb]) (by simp [hp])
      (fun c hc => ht c (by simp [hc]))
    have hlen : (c :: t).length + n = t.length + n + 1 := by
      rw [List.length_cons]
      omega
    rw [hlen, StageScan.loop, hbyte, if_neg hc.1.1.1, StageScan.step, hbyte, if_neg hc.1.1.2]
    simpa using hnext

theorem Atomic.text_noNul (a : Atomic) : 0 ∉ a.text := fun h0 => absurd (a.not_ends h0) (by decide)

/-- The scan of a stage and of the bar after it. -/
theorem StageScan.loop_stage (pre : Text) (a : Atomic) {y : Text} {s : StageScan}
    (hb : s.buffer = pre ++ (a.text ++ bar :: y)) (hp : s.ptr = pre.length) :
    StageScan.loop (a.text ++ bar :: y).length s =
      ((store maxPipes s.commands s.start).map fun commands =>
        { buffer := pre ++ a.text ++ [0] ++ y, start := (pre ++ a.text ++ [0]).length
          ptr := (pre ++ a.text ++ [0]).length, commands }).bind (StageScan.loop y.length) := by
  have hbuf : s.buffer = (pre ++ a.text) ++ bar :: y := by rw [hb, List.append_assoc]
  have hbyte : byteAt s.buffer (pre ++ a.text).length = bar := by
    rw [hbuf]
    exact byteAt_length _ _ _
  have hset : s.buffer.set (pre ++ a.text).length 0 = pre ++ a.text ++ [0] ++ y := by
    rw [hbuf, set_length]
    simp
  have hend : (pre ++ a.text ++ [0]).length = (pre ++ a.text).length + 1 := List.length_append
  rw [List.length_append, StageScan.loop_text pre hb hp (fun c hc => a.not_ends hc), List.length_cons,
    StageScan.loop_bar hbyte, hset, hend]

theorem StageScan.map_cutOff (a : Atomic) {commands : List Nat} {done : List Text}
    (hdone : ∀ x, commands.map (stringAt (pre ++ x)) = done) (x : Text) :
    (commands ++ [pre.length]).map (stringAt (pre ++ a.text ++ [0] ++ x)) = done ++ [a.text] := by
  have h1 := hdone (a.text ++ 0 :: x)
  have h2 := stringAt_append (x := 0 :: x) pre a.text_noNul (.inr rfl)
  simp only [List.append_assoc, List.cons_append, List.nil_append, List.map_append, List.map_cons, List.map_nil]
  rw [h1, h2]

/-- The last stage ends with the group. -/
theorem StageScan.finish_stage (pre : Text) (a : Atomic) {s : StageScan} {done : List Text}
    (hb : s.buffer = pre ++ a.text) (hs : s.start = pre.length)
    (hdone : ∀ x, s.commands.map (stringAt (pre ++ x)) = done) :
    s.finish = if s.commands.length < maxPipes then some (done ++ [a.text]) else none := by
  have hlast := stringAt_append (x := []) pre a.text_noNul (.inl rfl)
  rw [List.append_nil] at hlast
  unfold StageScan.finish store
  split
  · rw [Option.map_some, List.map_append, List.map_cons, List.map_nil, hb, hs, hlast, hdone]
  · rfl

/-- The stages from `a` on, with those cut off before them. -/
theorem StageScan.loop_stages (pre : Text) (done : List Text) (a : Atomic) (as : List Atomic) {s : StageScan}
    (hb : s.buffer = pre ++ (a.text ++ as.flatMap fun a => bar :: a.text)) (hp : s.ptr = pre.length)
    (hs : s.start = pre.length) (hdone : ∀ x, s.commands.map (stringAt (pre ++ x)) = done) :
    (StageScan.loop (a.text ++ as.flatMap fun a => bar :: a.text).length s).bind StageScan.finish =
      if done.length + (as.length + 1) ≤ maxPipes then some (done ++ (a :: as).map Atomic.text) else none := by
  have hlen : done.length = s.commands.length := by rw [← hdone [], List.length_map]
  induction as generalizing a pre s done with
  | nil =>
    have hfin := StageScan.finish_stage pre a (s := { s with ptr := (pre ++ a.text).length })
      (by simpa using hb) hs hdone
    rw [List.length_append, StageScan.loop_text pre hb hp (fun c hc => a.not_ends hc), List.flatMap_nil,
      List.length_nil, StageScan.loop, Option.bind_some, hfin, hlen]
    rfl
  | cons b as ih =>
    rw [List.flatMap_cons, List.cons_append] at hb ⊢
    rw [StageScan.loop_stage pre a hb hp, store]
    by_cases hlt : s.commands.length < maxPipes
    · rw [if_pos hlt, Option.map_some, Option.bind_some,
        ih (pre ++ a.text ++ [0]) (done ++ [a.text]) b rfl rfl rfl (hs ▸ StageScan.map_cutOff a hdone)
          (by simp [hlen])]
      simp only [List.length_append, List.length_cons, List.length_nil, List.append_assoc, List.cons_append,
        List.nil_append, List.map_cons]
      rw [show done.length + (0 + 1) + (as.length + 1) = done.length + (as.length + 1 + 1) by omega]
    · rw [if_neg hlt, if_neg (by rw [List.length_cons]; omega)]
      rfl

/-- A group is cut into its stages. -/
theorem splitStages_text (g : CmdGroup) (h : g.text.length < maxInputLen) :
    splitStages g.text = if g.stages.length ≤ maxPipes then some (g.stages.map Atomic.text) else none := by
  have hcopy : copyInput g.text = g.text := List.take_of_length_le (by omega)
  have hl := StageScan.loop_stages [] [] g.first g.rest
    (s := { buffer := g.text, start := 0, ptr := 0, commands := [] }) rfl rfl rfl (fun _ => rfl)
  unfold splitStages
  rw [hcopy]
  exact hl.trans (by simp [CmdGroup.stages])

end

/-! ## The groups of a line -/

section
variable {pre t rest : Text} {n : Nat}

theorem GroupScan.loop_text (pre : Text) {s : GroupScan} (hb : s.buffer = pre ++ (t ++ rest))
    (hp : s.ptr = pre.length)
    (ht : ∀ c ∈ t, endsGroup c = false) :
    GroupScan.loop (t.length + n) s = GroupScan.loop n { s with ptr := (pre ++ t).length } := by
  induction t generalizing s pre with
  | nil => simp [← hp]
  | cons c t ih =>
    have hc := ht c (by simp)
    simp only [endsGroup, Bool.or_eq_false_iff, decide_eq_false_iff_not] at hc
    have hbyte : byteAt s.buffer s.ptr = c := by
      rw [hb, hp]
      exact byteAt_length pre c _
    have hnext := ih (pre ++ [c]) (s := { s with ptr := s.ptr + 1 }) (by simp [hb]) (by simp [hp])
      (fun c hc => ht c (by simp [hc]))
    have hlen : (c :: t).length + n = t.length + n + 1 := by
      rw [List.length_cons]
      omega
    rw [hlen, GroupScan.loop, hbyte, if_neg hc.1.1, GroupScan.step, hbyte, if_neg (by simp [hc.1.2, hc.2])]
    simpa using hnext

theorem GroupScan.loop_separator {s : GroupScan} {sep : Separator} (h : byteAt s.buffer s.ptr = sep.char) :
    GroupScan.loop (n + 1) s =
      ((s.push (trimEnd (s.buffer.set s.ptr 0) s.start s.ptr) (sep = .amp)).map fun groups =>
        { buffer := trimEnd (s.buffer.set s.ptr 0) s.start s.ptr
          start := skipSpaces (trimEnd (s.buffer.set s.ptr 0) s.start s.ptr) (s.ptr + 1)
          ptr := s.ptr + 1, groups }).bind (GroupScan.loop n) := by
  rw [GroupScan.loop, h, GroupScan.step, h]
  cases sep <;> rfl

variable {k : CmdGroup}

theorem trimEnd_group (k : CmdGroup) (pre x : Text) :
    trimEnd (pre ++ (k.text ++ x)) pre.length (pre ++ k.text).length =
      pre ++ (k.dropAfter.text ++ (List.replicate k.after.text.length 0 ++ x)) := by
  obtain ⟨t, n, hn⟩ := k.dropAfter_ends
  have h := trimEnd_spaces (t := t) (n := n) pre k.after.text x (Nat.le_refl _) k.after.spaces
  rw [k.text_after, hn]
  simpa [List.append_assoc] using h

/-- A group is not empty without its blanks. -/
theorem dropAfter_ne (k : CmdGroup) : k.dropAfter.text ≠ [] := by
  obtain ⟨t, n, hn⟩ := k.dropAfter_ends
  rw [hn]
  exact List.append_ne_nil_of_right_ne_nil t n.ne

theorem dropAfter_noNul (k : CmdGroup) : 0 ∉ k.dropAfter.text := by
  intro h0
  have := k.not_ends (c := 0) (by rw [k.text_after]; simp [h0])
  cases this

theorem peek_dropAfter_ne (k : CmdGroup) : peek k.dropAfter.text ≠ 0 :=
  fun h0 => dropAfter_noNul k (h0 ▸ peek_mem (dropAfter_ne k))

theorem start_lt (k : CmdGroup) (pre : Text) : pre.length < (pre ++ k.text).length := by
  have h1 := List.length_pos_iff.mpr (dropAfter_ne k)
  have h2 := congrArg List.length k.text_after
  simp only [List.length_append] at h2 ⊢
  omega

theorem GroupScan.push_group {s : GroupScan} (hs : s.start = pre.length) (hp : s.ptr = (pre ++ k.text).length)
    (x : Text) (background : Bool) :
    s.push (pre ++ (k.dropAfter.text ++ x)) background = store maxGroups s.groups (s.start, background) := by
  refine if_pos ⟨by rw [hs, hp]; exact start_lt k pre, ?_⟩
  rw [hs, byteAt_append, peek_append (dropAfter_ne k)]
  exact peek_dropAfter_ne k

/-- What the buffer holds up to the end of a group that was cut off. -/
def cutOff (pre : Text) (k : CmdGroup) : Text :=
  pre ++ (k.dropAfter.text ++ (List.replicate k.after.text.length 0 ++ [0]))

theorem length_cutOff (pre : Text) (k : CmdGroup) : (cutOff pre k).length = (pre ++ k.text).length + 1 := by
  have := congrArg List.length k.text_after
  simp only [cutOff, List.length_append, List.length_replicate, List.length_singleton] at this ⊢
  omega

/-- A group is cut off at the operator after it. -/
theorem GroupScan.loop_cut (pre : Text) (k : CmdGroup) (sep : Separator) (y : Text) {s : GroupScan}
    (hb : s.buffer = pre ++ (k.text ++ sep.char :: y)) (hs : s.start = pre.length)
    (hp : s.ptr = (pre ++ k.text).length) :
    GroupScan.loop (n + 1) s =
      ((store maxGroups s.groups (s.start, sep = .amp)).map fun groups =>
        { buffer := cutOff pre k ++ y, start := skipSpaces (cutOff pre k ++ y) (cutOff pre k).length
          ptr := (cutOff pre k).length, groups }).bind (GroupScan.loop n) := by
  have hbyte : byteAt s.buffer s.ptr = sep.char := by
    rw [hb, hp, ← List.append_assoc]
    exact byteAt_length _ _ _
  have htrim : trimEnd (s.buffer.set s.ptr 0) s.start s.ptr = cutOff pre k ++ y := by
    rw [hb, hp, hs, ← List.append_assoc, set_length, List.append_assoc, trimEnd_group]
    simp [cutOff]
  have hpush : s.push (cutOff pre k ++ y) (sep = .amp) = store maxGroups s.groups (s.start, sep = .amp) := by
    have h := GroupScan.push_group hs hp (List.replicate k.after.text.length 0 ++ 0 :: y) (sep = .amp)
    rw [← h]
    simp [cutOff]
  rw [GroupScan.loop_separator hbyte, htrim, hpush, length_cutOff, hp]

/-- The array then points at the group, whatever follows it. -/
theorem stringAt_cutOff (pre : Text) (k : CmdGroup) (x : Text) :
    stringAt (cutOff pre k ++ x) pre.length = k.dropAfter.text := by
  have h := stringAt_append (x := List.replicate k.after.text.length 0 ++ 0 :: x) pre (dropAfter_noNul k)
    (.inr (by cases k.after.text <;> rfl))
  rw [← h]
  simp [cutOff]

/-- The groups as they are run, from `k` on. -/
def runFrom (k : CmdGroup) (rest : List (Separator × CmdGroup)) (trailing : Option Blank) : List (Text × Bool) :=
  (flagged k.dropAfter (rest.map fun sg => (sg.1, sg.2.dropBefore.dropAfter)) trailing).map
    fun gb => (gb.1.text, gb.2)

/-- The scan reaches the end of a group. -/
theorem GroupScan.loop_lead {s : GroupScan} {lead : Blank} {y : Text}
    (hb : s.buffer = pre ++ (lead.text ++ (k.text ++ y)))
    (hp : s.ptr = pre.length) :
    GroupScan.loop (lead.text ++ (k.text ++ y)).length s =
      GroupScan.loop y.length { s with ptr := (pre ++ lead.text ++ k.text).length } := by
  rw [List.length_append, List.length_append, GroupScan.loop_text pre hb hp fun c hc =>
    not_endsGroup_of_not_endsAtomic (lead.not_ends hc)]
  have hb' : s.buffer = (pre ++ lead.text) ++ (k.text ++ y) := by rw [hb, ← List.append_assoc]
  exact GroupScan.loop_text (pre ++ lead.text) (s := { s with ptr := (pre ++ lead.text).length }) hb' rfl
    fun c hc => k.not_ends hc

/-- The scan of a group and of the operator after it. -/
theorem GroupScan.loop_group {s : GroupScan} {lead : Blank} {sep : Separator} {y : Text}
    (hb : s.buffer = pre ++ (lead.text ++ (k.text ++ sep.char :: y))) (hp : s.ptr = pre.length)
    (hs : s.start = (pre ++ lead.text).length) :
    GroupScan.loop (lead.text ++ (k.text ++ sep.char :: y)).length s =
      ((store maxGroups s.groups ((pre ++ lead.text).length, sep = .amp)).map fun groups =>
        { buffer := cutOff (pre ++ lead.text) k ++ y
          start := skipSpaces (cutOff (pre ++ lead.text) k ++ y) (cutOff (pre ++ lead.text) k).length
          ptr := (cutOff (pre ++ lead.text) k).length, groups }).bind (GroupScan.loop y.length) := by
  rw [GroupScan.loop_lead hb hp, List.length_cons,
    GroupScan.loop_cut (pre ++ lead.text) k sep y
      (s := { s with ptr := (pre ++ lead.text ++ k.text).length }) (by simp [hb]) hs rfl, hs]

theorem map_cutOff (lead : Text) (k : CmdGroup) {groups : List (Nat × Bool)} {done : List (Text × Bool)}
    (hdone : ∀ x, groups.map (fun g => (stringAt (pre ++ x) g.1, g.2)) = done) (flag : Bool) (x : Text) :
    (groups ++ [((pre ++ lead).length, flag)]).map (fun g => (stringAt (cutOff (pre ++ lead) k ++ x) g.1, g.2)) =
      done ++ [(k.dropAfter.text, flag)] := by
  have h := hdone (lead ++ (k.dropAfter.text ++ (List.replicate k.after.text.length 0 ++ 0 :: x)))
  rw [List.map_append, List.map_cons, List.map_nil, stringAt_cutOff, ← h]
  simp [cutOff]

/-- The last group ends with the line. -/
theorem GroupScan.finish_group (pre lead : Text) (k : CmdGroup) {s : GroupScan} {done : List (Text × Bool)}
    (hb : s.buffer = pre ++ lead ++ (k.text ++ [])) (hs : s.start = (pre ++ lead).length)
    (hp : s.ptr = (pre ++ lead ++ k.text).length)
    (hdone : ∀ x, s.groups.map (fun g => (stringAt (pre ++ x) g.1, g.2)) = done) :
    s.finish = if s.groups.length < maxGroups then some (done ++ [(k.dropAfter.text, false)]) else none := by
  have htrim := trimEnd_group k (pre ++ lead) []
  rw [← hb, ← hs, ← hp] at htrim
  unfold GroupScan.finish
  simp only [htrim]
  rw [if_pos (by rw [hs, hp]; exact start_lt k _), GroupScan.push_group hs hp, store]
  split
  · have h1 := hdone (lead ++ (k.dropAfter.text ++ (List.replicate k.after.text.length 0 ++ [])))
    have h2 := stringAt_append (x := List.replicate k.after.text.length 0 ++ []) (pre ++ lead) (dropAfter_noNul k)
      (by cases k.after.text <;> simp [List.replicate_succ])
    rw [Option.map_some, List.map_append, List.map_cons, List.map_nil, hs, h2, ← h1]
    simp
  · rfl

theorem peek_dropBefore (g : CmdGroup) (r : Text) : isNameChar (peek (g.dropBefore.text ++ r)) = true := by
  have h : g.dropBefore.text ++ r = g.first.name.text ++ (g.first.parts.flatMap Part.text ++ (g.first.after.text ++
      ((g.rest.flatMap fun a => bar :: a.text) ++ r))) := by
    simp [CmdGroup.text, CmdGroup.dropBefore, Atomic.text, Atomic.dropBefore, Blank.empty]
  rw [h, g.first.name.peek_append]
  exact g.first.name.peek_nameChar

/-- The last group is one in the background: only blanks follow the operator after it. -/
theorem GroupScan.loop_trailing {pre : Text} (lead : Blank) (k : CmdGroup) (b : Blank) {s : GroupScan}
    {done : List (Text × Bool)} (hb : s.buffer = pre ++ (lead.text ++ (k.text ++ Separator.amp.char :: b.text)))
    (hp : s.ptr = pre.length) (hs : s.start = (pre ++ lead.text).length)
    (hdone : ∀ x, s.groups.map (fun g => (stringAt (pre ++ x) g.1, g.2)) = done) :
    (GroupScan.loop (lead.text ++ (k.text ++ Separator.amp.char :: b.text)).length s).bind GroupScan.finish =
      if s.groups.length < maxGroups then some (done ++ [(k.dropAfter.text, true)]) else none := by
  have hskip := skipSpaces_append (cutOff (pre ++ lead.text) k) [] b.spaces rfl
  have hread := map_cutOff lead.text k hdone true (b.text ++ [])
  rw [GroupScan.loop_group hb hp hs, store]
  split
  · rw [Option.map_some, Option.bind_some, ← List.append_nil b.text, hskip, List.length_append,
      GroupScan.loop_text (cutOff (pre ++ lead.text) k) (t := b.text) rfl rfl fun c hc =>
        not_endsGroup_of_not_endsAtomic (b.not_ends hc)]
    simp only [List.length_nil, GroupScan.loop, Option.bind_some, GroupScan.finish, GroupScan.push, Nat.lt_irrefl,
      false_and, if_false, Option.map_some]
    exact congrArg some hread
  · rfl

/-- The groups from `k` on, after a blank that `start` has passed and `ptr` has not. -/
theorem GroupScan.loop_groups (pre : Text) (lead : Blank) (done : List (Text × Bool)) (k : CmdGroup)
    (rest : List (Separator × CmdGroup)) (trailing : Option Blank) {s : GroupScan}
    (hb : s.buffer = pre ++ (lead.text ++ (k.text ++ tailText rest trailing))) (hp : s.ptr = pre.length)
    (hs : s.start = (pre ++ lead.text).length)
    (hdone : ∀ x, s.groups.map (fun g => (stringAt (pre ++ x) g.1, g.2)) = done) :
    (GroupScan.loop (lead.text ++ (k.text ++ tailText rest trailing)).length s).bind GroupScan.finish =
      if done.length + (rest.length + 1) ≤ maxGroups then some (done ++ runFrom k rest trailing) else none := by
  induction rest generalizing k pre s lead done with
  | nil =>
    have hlen : done.length = s.groups.length := by rw [← hdone [], List.length_map]
    cases trailing with
    | none =>
      have hnil : tailText [] none = [] := rfl
      rw [hnil] at hb ⊢
      have hfin := GroupScan.finish_group pre lead.text k
        (s := { s with ptr := (pre ++ lead.text ++ k.text).length }) (by simpa using hb) hs rfl hdone
      rw [GroupScan.loop_lead hb hp, List.length_nil, GroupScan.loop, Option.bind_some, hfin, hlen]
      rfl
    | some b =>
      have htail : tailText [] (some b) = Separator.amp.char :: b.text := by
        simp [tailText, trailingText, Separator.char]
      rw [htail] at hb ⊢
      rw [GroupScan.loop_trailing lead k b hb hp hs hdone, hlen]
      rfl
  | cons sg rest ih =>
    have hlen : done.length = s.groups.length := by rw [← hdone [], List.length_map]
    obtain ⟨sep, g⟩ := sg
    have htail : tailText ((sep, g) :: rest) trailing =
        sep.char :: (g.first.before.text ++ (g.dropBefore.text ++ tailText rest trailing)) := by
      simp [tailText, g.text_before]
    have hskip := skipSpaces_append (cutOff (pre ++ lead.text) k) (g.dropBefore.text ++ tailText rest trailing)
      g.first.before.spaces (not_space_of_nameChar (peek_dropBefore g _))
    rw [htail] at hb ⊢
    rw [GroupScan.loop_group hb hp hs, store]
    by_cases hlt : s.groups.length < maxGroups
    · rw [if_pos hlt, Option.map_some, Option.bind_some, hskip,
        ih (cutOff (pre ++ lead.text) k) g.first.before (done ++ [(k.dropAfter.text, decide (sep = .amp))])
          g.dropBefore rfl rfl rfl (map_cutOff lead.text k hdone _)]
      simp only [List.length_append, List.length_cons, List.length_nil]
      rw [show done.length + (0 + 1) + (rest.length + 1) = done.length + (rest.length + 1 + 1) by omega]
      simp [runFrom, flagged]
    · rw [if_neg hlt, if_neg (by rw [List.length_cons]; omega)]
      rfl

end

theorem runFrom_trimmed (d : ShellCmd) :
    runFrom d.first d.rest d.trailing = d.trimmed.groups.map fun gb => (gb.1.text, gb.2) := rfl

theorem length_flagged (g : CmdGroup) (rest : List (Separator × CmdGroup)) (trailing : Option Blank) :
    (flagged g rest trailing).length = rest.length + 1 := by
  induction rest generalizing g with
  | nil => rfl
  | cons sg rest ih => simp [flagged, ih]

/-- A line is cut into its groups. -/
theorem splitGroups_text (d : ShellCmd) (h : d.text.length < maxInputLen) :
    splitGroups d.text =
      if d.groups.length ≤ maxGroups then some (d.trimmed.groups.map fun gb => (gb.1.text, gb.2)) else none := by
  have hcopy : copyInput d.text = d.text := List.take_of_length_le (by omega)
  have hl := GroupScan.loop_groups [] .empty [] d.first d.rest d.trailing
    (s := { buffer := d.text, start := 0, ptr := 0, groups := [] }) rfl rfl rfl (fun _ => rfl)
  rw [List.length_nil, Nat.zero_add, List.nil_append, runFrom_trimmed,
    ← length_flagged d.first d.rest d.trailing] at hl
  unfold splitGroups
  rw [hcopy]
  exact hl

end OsNetworks.Shell
