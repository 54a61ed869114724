/-
When the execution of a line ends. An entry of the log may itself run `log
execute`, so executing a line can come back to an entry that is still being
executed. Only `log purge` changes the log meanwhile, and it leaves nothing to
execute.

External programs are assumed to end. Past an overrun of one of the executor's
arrays nothing is said, and the execution counts as ended.
-/
import Mathlib.Data.Set.Finite.List
import OsNetworks.Lib.Descent
import OsNetworks.Shell.Execution
import OsNetworks.Shell.History

namespace OsNetworks.Shell
open Relation OsNetworks.Descent

/-! ## Execution -/

/-- The groups that the loops of all active calls of `execute_full_command` have still to run,
the innermost call first. -/
structure Execution where
  todo : List (Text × Bool)
  log : Log

/-- The arguments of `log`, if a group is this command and the shell runs it. -/
def PipelineRun.logArgs (run : PipelineRun) : Option (List Text) :=
  match run.action with
  | .single cmd => if cmd.runsInShell && cmd.args.head? = some logWord then some cmd.args.tail else none
  | _ => none

/-- A call of `execute_pipeline`; for `log execute` up to the loop over the entry's groups. -/
def Execution.step (e : Execution) : Option Execution :=
  match e.todo with
  | [] => none
  | g :: rest =>
    (executePipeline g.1 g.2).bind fun run =>
      match run.logArgs with
      | none => some { e with todo := rest }
      | some args =>
        let r := cmdLog e.log args
        match r.2 with
        | .executed entry => (splitGroups entry.bytes).map fun groups => { todo := groups ++ rest, log := r.1 }
        | _ => some { todo := rest, log := r.1 }

/-- `process_input` -/
def processInput (log : Log) (line : Line) : Option Execution :=
  if parseInput line.bytes then (splitGroups line.bytes).map fun groups => { todo := groups, log } else none

/-! ## What a group does to the execution -/

inductive Effect where
  /-- the next group follows -/
  | plain
  /-- the log is purged, or an array is overrun -/
  | clears
  /-- an entry is executed first -/
  | refers (entry : Line)
  deriving DecidableEq

def effect (log : Log) (g : Text × Bool) : Effect :=
  match executePipeline g.1 g.2 with
  | none => .clears
  | some run =>
    match run.logArgs with
    | none => .plain
    | some args =>
      match (cmdLog log args).2 with
      | .executed entry => .refers entry
      | .purged => .clears
      | _ => .plain

/-- Executing the line purges the log or overruns an array, itself or through the entries it executes. -/
inductive Clears (log : Log) : Line → Prop
  | overrun {line : Line} : splitGroups line.bytes = none → Clears log line
  | here {line : Line} {groups : List (Text × Bool)} {g : Text × Bool} :
    splitGroups line.bytes = some groups → g ∈ groups → effect log g = .clears → Clears log line
  | there {line entry : Line} {groups : List (Text × Bool)} {g : Text × Bool} :
    splitGroups line.bytes = some groups → g ∈ groups → effect log g = .refers entry → Clears log entry →
      Clears log line

/-- The same of one group. -/
def ClearsAt (log : Log) (g : Text × Bool) : Prop :=
  effect log g = .clears ∨ ∃ entry, effect log g = .refers entry ∧ Clears log entry

/-- The line executes the entry, and no group before that clears. -/
def Refers (log : Log) (line entry : Line) : Prop :=
  ∃ before g after, splitGroups line.bytes = some (before ++ g :: after) ∧ (∀ b ∈ before, ¬ ClearsAt log b) ∧
    effect log g = .refers entry

/-- Nothing is left to execute from the log. -/
structure Log.Cleared (log : Log) : Prop where
  loaded : log.loaded = true
  count : log.ring.count = 0

section
variable {log : Log} {g : Text × Bool} {rest : List (Text × Bool)} {line entry : Line}

/-- An entry that is executed is one of the slots. -/
theorem executed_entry {args : List Text} (h : (cmdLog log args).2 = .executed entry) :
    args ≠ [purgeWord] ∧ 0 < log.load.ring.count ∧ entry ∈ log.load.ring.slots.toList := by
  have hexecute : ∀ index, log.load.execute index = .executed entry →
      0 < log.load.ring.count ∧ entry ∈ log.load.ring.slots.toList := by
    intro index hi
    unfold Log.execute at hi
    split at hi
    · cases hi
    next hrange =>
      refine ⟨by omega, ?_⟩
      simp only at hi
      split at hi
      · rw [← Answer.executed.inj hi]
        exact Array.getElem_mem_toList _
      · cases hi
  unfold cmdLog at h
  simp only at h
  split at h
  · cases h
  next word =>
    split at h <;> cases h
  next word index =>
    split at h
    · exact ⟨by simp, hexecute _ h⟩
    · cases h
  · cases h

theorem loaded_logAddCommand (log : Log) (line : Line) : (logAddCommand log line).loaded = true := by
  unfold logAddCommand
  simp only
  split
  · exact log.load_loaded
  · split
    · exact log.load_loaded
    · exact log.load_loaded

theorem purged_iff {args : List Text} : (cmdLog log args).2 = .purged ↔ args = [purgeWord] := by
  constructor
  · intro h
    unfold cmdLog at h
    simp only at h
    split at h
    · cases h
    next word =>
      split at h
      next hw => rw [hw]
      · cases h
    next word index =>
      split at h
      · unfold Log.execute at h
        split at h
        · cases h
        · simp only at h
          split at h <;> cases h
      · cases h
    · cases h
  · intro h
    simp [h, cmdLog]

theorem cleared_purge (log : Log) : (cmdLog log [purgeWord]).1.Cleared := by
  rw [cmdLog_fst, if_pos rfl]
  exact ⟨log.load_loaded, rfl⟩

theorem Log.Cleared.cmdLog (h : log.Cleared) (args : List Text) :
    (cmdLog log args).1.Cleared ∧ ∀ entry, (cmdLog log args).2 ≠ .executed entry := by
  have hload : log.load = log := Log.load_of_loaded h.loaded
  constructor
  · by_cases hp : args = [purgeWord]
    · rw [hp]
      exact cleared_purge log
    · rw [cmdLog_fst, if_neg hp, hload]
      exact h
  · intro entry he
    have hpos := (executed_entry he).2.1
    rw [hload, h.count] at hpos
    exact absurd hpos (Nat.lt_irrefl 0)

/-- What a step does, by the effect of the next group. -/
theorem step_effect (hl : log.loaded = true) (g : Text × Bool) (rest : List (Text × Bool)) :
    Execution.step { todo := g :: rest, log } =
      match effect log g with
      | .plain => some { todo := rest, log }
      | .refers entry => (splitGroups entry.bytes).map fun groups => { todo := groups ++ rest, log }
      | .clears => (executePipeline g.1 g.2).map fun _ => { todo := rest, log := (cmdLog log [purgeWord]).1 } := by
  simp only [Execution.step, effect]
  cases executePipeline g.1 g.2 with
  | none => rfl
  | some run =>
    simp only [Option.bind_some, Option.map_some]
    cases run.logArgs with
    | none => rfl
    | some args =>
      simp only
      by_cases hp : args = [purgeWord]
      · rw [hp, purged_iff.mpr rfl]
      · have hlog : (cmdLog log args).1 = log := by rw [cmdLog_fst, if_neg hp, Log.load_of_loaded hl]
        rw [hlog]
        cases hans : (cmdLog log args).2 with
        | purged => exact absurd (purged_iff.mp hans) hp
        | executed entry => rfl
        | printed lines => rfl
        | invalidIndex => rfl
        | invalidEntry entry => rfl
        | invalidSyntax => rfl

theorem effect_refers (h : effect log g = .refers entry) : ∃ args, (cmdLog log args).2 = .executed entry := by
  unfold effect at h
  split at h
  · cases h
  · split at h
    · cases h
    next args _ =>
      refine ⟨args, ?_⟩
      split at h
      next he => rw [he, Effect.refers.inj h]
      · cases h
      · cases h

theorem steps_one {e e' : Execution} (h : e.step = some e') : steps Execution.step 1 e = some e' := by
  rw [steps, h]
  rfl

/-- The groups of a line are run one by one once nothing can be executed from the log. -/
theorem Log.Cleared.halts (h : log.Cleared) (todo : List (Text × Bool)) : Halts Execution.step { todo, log } := by
  induction todo generalizing log with
  | nil => exact ⟨1, rfl⟩
  | cons g rest ih =>
    have hstep := step_effect h.loaded g rest
    cases he : effect log g with
    | plain =>
      rw [he] at hstep
      exact .of_steps (steps_one hstep) (ih h)
    | refers entry =>
      obtain ⟨args, hargs⟩ := effect_refers he
      exact absurd hargs ((h.cmdLog args).2 entry)
    | clears =>
      rw [he] at hstep
      cases hrun : executePipeline g.1 g.2 with
      | none =>
        rw [hrun] at hstep
        exact ⟨1, by rw [steps, hstep]; rfl⟩
      | some run =>
        rw [hrun] at hstep
        exact .of_steps (steps_one hstep) (ih (cleared_purge log))

theorem clears_iff {groups : List (Text × Bool)} (hg : splitGroups line.bytes = some groups) :
    Clears log line ↔ ∃ g ∈ groups, ClearsAt log g := by
  constructor
  · intro h
    cases h with
    | overrun hn =>
      rw [hg] at hn
      cases hn
    | here hg' hmem he =>
      rw [hg] at hg'
      obtain rfl := Option.some.inj hg'
      exact ⟨_, hmem, .inl he⟩
    | there hg' hmem he hc =>
      rw [hg] at hg'
      obtain rfl := Option.some.inj hg'
      exact ⟨_, hmem, .inr ⟨_, he, hc⟩⟩
  · intro ⟨g, hmem, hc⟩
    rcases hc with he | ⟨entry, he, hc⟩
    · exact .here hg hmem he
    · exact .there hg hmem he hc

/-! ## Descents end, so executions do -/

/-- An entry is executed to its end, and what comes after it follows unless it clears. -/
def Runs (log : Log) (line : Line) : Prop :=
  ∀ groups, splitGroups line.bytes = some groups → ∀ rest,
    (Clears log line → Halts Execution.step { todo := groups ++ rest, log }) ∧
      (¬ Clears log line → ∃ n, steps Execution.step n { todo := groups ++ rest, log } = some { todo := rest, log })

section
variable (hl : log.loaded = true)
include hl

theorem run_group (h : ∀ entry, effect log g = .refers entry → Runs log entry) (rest : List (Text × Bool)) :
    (ClearsAt log g → Halts Execution.step { todo := g :: rest, log }) ∧
      (¬ ClearsAt log g → ∃ n, steps Execution.step n { todo := g :: rest, log } = some { todo := rest, log }) := by
  have hstep := step_effect hl g rest
  cases he : effect log g with
  | plain =>
    rw [he] at hstep
    refine ⟨fun hc => ?_, fun _ => ⟨1, steps_one hstep⟩⟩
    rcases hc with hc | ⟨entry, hc, -⟩ <;> rw [he] at hc <;> cases hc
  | clears =>
    rw [he] at hstep
    refine ⟨fun _ => ?_, fun hc => absurd (.inl he) hc⟩
    cases hrun : executePipeline g.1 g.2 with
    | none =>
      rw [hrun] at hstep
      exact ⟨1, by rw [steps, hstep]; rfl⟩
    | some run =>
      rw [hrun] at hstep
      exact .of_steps (steps_one hstep) ((cleared_purge log).halts rest)
  | refers entry =>
    simp only [he] at hstep
    have hiff : ClearsAt log g ↔ Clears log entry := by
      constructor
      · intro hc
        rcases hc with hc | ⟨e, hc, hclears⟩
        · rw [he] at hc
          cases hc
        · rw [he] at hc
          exact Effect.refers.inj hc ▸ hclears
      · exact fun hc => .inr ⟨entry, he, hc⟩
    rw [hiff]
    cases hg : splitGroups entry.bytes with
    | none =>
      rw [hg] at hstep
      exact ⟨fun _ => ⟨1, by rw [steps, hstep]; rfl⟩, fun hc => absurd (.overrun hg) hc⟩
    | some groups =>
      rw [hg] at hstep
      obtain ⟨hhalts, hreach⟩ := h entry he groups hg rest
      refine ⟨fun hc => .of_steps (steps_one hstep) (hhalts hc), fun hc => ?_⟩
      obtain ⟨n, hn⟩ := hreach hc
      exact ⟨1 + n, by rw [steps_add, steps_one hstep, Option.bind_some, hn]⟩

/-- The groups of a line in turn; only references that are reached matter. -/
theorem run_groups {todo : List (Text × Bool)}
    (h : ∀ before g after, todo = before ++ g :: after → (∀ b ∈ before, ¬ ClearsAt log b) →
      ∀ entry, effect log g = .refers entry → Runs log entry) (rest : List (Text × Bool)) :
    ((∃ g ∈ todo, ClearsAt log g) → Halts Execution.step { todo := todo ++ rest, log }) ∧
      ((¬ ∃ g ∈ todo, ClearsAt log g) →
        ∃ n, steps Execution.step n { todo := todo ++ rest, log } = some { todo := rest, log }) := by
  induction todo with
  | nil => exact ⟨fun ⟨_, hmem, _⟩ => absurd hmem List.not_mem_nil, fun _ => ⟨0, rfl⟩⟩
  | cons g todo ih =>
    obtain ⟨hhalts, hreach⟩ := run_group hl (h [] g todo rfl fun _ hb => absurd hb List.not_mem_nil) (todo ++ rest)
    by_cases hg : ClearsAt log g
    · exact ⟨fun _ => hhalts hg, fun hno => absurd ⟨g, List.mem_cons_self, hg⟩ hno⟩
    · obtain ⟨n, hn⟩ := hreach hg
      have hlater := ih fun before g' after htodo hbefore entry he => by
        refine h (g :: before) g' after (by rw [htodo]; rfl) (fun b hb => ?_) entry he
        rcases List.mem_cons.mp hb with rfl | hb
        · exact hg
        · exact hbefore b hb
      have hiff : (∃ g' ∈ g :: todo, ClearsAt log g') ↔ ∃ g' ∈ todo, ClearsAt log g' := by
        simp [hg]
      rw [hiff]
      refine ⟨fun hc => .of_steps hn (hlater.1 hc), fun hc => ?_⟩
      obtain ⟨m, hm⟩ := hlater.2 hc
      exact ⟨n + m, by rw [List.cons_append, steps_add, hn, Option.bind_some, hm]⟩

theorem run_line (h : Acc (Function.swap (Refers log)) line) : Runs log line := by
  induction h with
  | intro line _ ih =>
    intro groups hg rest
    rw [clears_iff hg]
    refine run_groups hl (fun before g after htodo hbefore entry he => ?_) rest
    exact ih entry ⟨before, g, after, htodo ▸ hg, hbefore, he⟩

/-! ## Executions end, so descents do -/

/-- An execution that stops comes past the groups that do not clear. -/
theorem reach_of_halts {n : Nat} {todo : List (Text × Bool)} (h : ∀ g ∈ todo, ¬ ClearsAt log g)
    (hn : steps Execution.step n { todo := todo ++ rest, log } = none) :
    ∃ m, m ≤ n ∧ steps Execution.step m { todo := todo ++ rest, log } = some { todo := rest, log } := by
  induction n generalizing todo with
  | zero => cases hn
  | succ n ih =>
    cases todo with
    | nil => exact ⟨0, Nat.zero_le _, rfl⟩
    | cons g todo =>
      have hg := h g List.mem_cons_self
      have htodo : ∀ g' ∈ todo, ¬ ClearsAt log g' := fun g' hmem => h g' (List.mem_cons_of_mem _ hmem)
      -- the groups that stand before `rest` after the next step
      obtain ⟨todo', htodo', hstep⟩ : ∃ todo' : List (Text × Bool), (∀ g' ∈ todo', ¬ ClearsAt log g') ∧
          Execution.step { todo := g :: (todo ++ rest), log } = some { todo := todo' ++ rest, log } := by
        have hstep := step_effect hl g (todo ++ rest)
        cases he : effect log g with
        | plain =>
          rw [he] at hstep
          exact ⟨todo, htodo, hstep⟩
        | clears => exact absurd (.inl he) hg
        | refers entry =>
          simp only [he] at hstep
          have hclears : ¬ Clears log entry := fun hc => hg (.inr ⟨entry, he, hc⟩)
          cases hgroups : splitGroups entry.bytes with
          | none => exact absurd (.overrun hgroups) hclears
          | some groups =>
            rw [hgroups] at hstep
            refine ⟨groups ++ todo, fun g' hmem => ?_, by rw [hstep, List.append_assoc]; rfl⟩
            rcases List.mem_append.mp hmem with hmem | hmem
            · exact fun hc => hclears ((clears_iff hgroups).mpr ⟨g', hmem, hc⟩)
            · exact htodo g' hmem
      rw [List.cons_append, steps, hstep, Option.bind_some] at hn
      obtain ⟨m, hm, hreach⟩ := ih htodo' hn
      refine ⟨m + 1, Nat.succ_le_succ hm, ?_⟩
      rw [List.cons_append, steps, hstep, Option.bind_some, hreach]

theorem acc_of_halts (n : Nat) {line : Line} {groups : List (Text × Bool)} (hg : splitGroups line.bytes = some groups)
    (rest : List (Text × Bool)) (hn : steps Execution.step n { todo := groups ++ rest, log } = none) :
    Acc (Function.swap (Refers log)) line := by
  induction n using Nat.strongRecOn generalizing line groups rest with
  | _ n ih =>
    refine ⟨line, fun entry hrefers => ?_⟩
    obtain ⟨before, g, after, hg', hbefore, he⟩ := hrefers
    rw [hg] at hg'
    obtain rfl := Option.some.inj hg'
    rw [List.append_assoc] at hn
    obtain ⟨m, hm, hreach⟩ := reach_of_halts hl hbefore hn
    obtain ⟨k, rfl⟩ : ∃ k, n = m + k := ⟨n - m, by omega⟩
    rw [steps_add, hreach, Option.bind_some] at hn
    cases k with
    | zero => cases hn
    | succ k =>
      have hstep := step_effect hl g (after ++ rest)
      simp only [he] at hstep
      cases hentry : splitGroups entry.bytes with
      | none =>
        -- nothing is executed from an entry that overruns
        refine ⟨entry, fun next hnext => ?_⟩
        obtain ⟨_, _, _, hsome, -⟩ := hnext
        rw [hentry] at hsome
        cases hsome
      | some groups' =>
        rw [hentry] at hstep
        rw [List.cons_append, steps, hstep, Option.map_some, Option.bind_some] at hn
        exact ih k (by omega) hentry (after ++ rest) hn

end

theorem refers_mem (hl : log.loaded = true) (h : Refers log line entry) : entry ∈ log.ring.slots.toList := by
  obtain ⟨_, _, _, -, -, he⟩ := h
  obtain ⟨args, hargs⟩ := effect_refers he
  have hmem := (executed_entry hargs).2.2
  rwa [Log.load_of_loaded hl] at hmem

/-- The entries that a line leads to are among those of the log. -/
theorem finite_reached (hl : log.loaded = true) (line : Line) :
    {entry | ReflTransGen (Refers log) line entry}.Finite := by
  refine (List.finite_toSet (line :: log.ring.slots.toList)).subset fun entry hentry => ?_
  rcases ReflTransGen.cases_tail hentry with rfl | ⟨_, -, hlast⟩
  · exact List.mem_cons_self
  · exact List.mem_cons_of_mem _ (refers_mem hl hlast)

theorem halts_iff (hl : log.loaded = true) {groups : List (Text × Bool)} (hg : splitGroups line.bytes = some groups) :
    Halts Execution.step { todo := groups, log } ↔
      ∀ entry, ReflTransGen (Refers log) line entry → ¬ TransGen (Refers log) entry entry := by
  rw [← acc_iff_no_cycle (finite_reached hl line)]
  constructor
  · intro ⟨n, hn⟩
    exact acc_of_halts hl n hg [] (by rwa [List.append_nil])
  · intro hacc
    obtain ⟨hhalts, hreach⟩ := run_line hl hacc groups hg []
    rw [List.append_nil] at hhalts hreach
    by_cases hc : Clears log line
    · exact hhalts hc
    · obtain ⟨n, hn⟩ := hreach hc
      exact .of_steps hn ⟨1, rfl⟩

end

/-- **When the execution of a line ends.** For every log and every line that `parse_input`
accepts, once the line has been added to the log: its execution ends if and only if no entry that it
leads to, the line itself included, leads back to itself, by one or more uses of `log execute`
that are reached. -/
theorem execution_ends_iff (log : Log) (line : Line) (h : parseInput line.bytes = true) :
    (∀ e, processInput (logAddCommand log line) line = some e → Halts Execution.step e) ↔
      ∀ entry, ReflTransGen (Refers (logAddCommand log line)) line entry →
        ¬ TransGen (Refers (logAddCommand log line)) entry entry := by
  have hl := loaded_logAddCommand log line
  unfold processInput
  rw [if_pos h]
  cases hg : splitGroups line.bytes with
  | none =>
    -- an overrun: nothing is run
    have hno : ∀ entry, ¬ Refers (logAddCommand log line) line entry := fun entry ⟨_, _, _, hsome, _⟩ => by
      rw [hg] at hsome
      cases hsome
    refine ⟨fun _ entry hentry hcycle => ?_, fun _ e he => by cases he⟩
    rcases ReflTransGen.cases_head hentry with rfl | ⟨_, hfirst, -⟩
    · obtain ⟨_, hfirst, -⟩ := TransGen.head'_iff.mp hcycle
      exact hno _ hfirst
    · exact hno _ hfirst
  | some groups =>
    rw [← halts_iff hl hg, Option.map_some]
    exact ⟨fun hall => hall _ rfl, fun hh e he => Option.some.inj he ▸ hh⟩

theorem execution_ends_iff_letter :
    (∀ e, processInput (logAddCommand (.boot none) letterLine) letterLine = some e → Halts Execution.step e) ↔
      ∀ entry, ReflTransGen (Refers (logAddCommand (.boot none) letterLine)) letterLine entry →
        ¬ TransGen (Refers (logAddCommand (.boot none) letterLine)) entry entry :=
  execution_ends_iff (.boot none) letterLine (parseInput_complete ⟨⟨repeated 0, []⟩, [], none⟩)

/-- `log execute 1` -/
def executeNewest : Atomic where
  before := .empty
  name := ⟨logWord, List.cons_ne_nil _ _, List.all_eq_true.mp (by decide)⟩
  parts := [.name space ⟨executeWord, List.cons_ne_nil _ _, List.all_eq_true.mp (by decide)⟩,
    .name space (letter 49 (by decide))]
  after := .empty

/-- `a;log execute 1` -/
def selfReference : ShellCmd := ⟨⟨repeated 0, []⟩, [(.semi, ⟨executeNewest, []⟩)], none⟩

def selfLine : Line := ⟨selfReference.string, by decide⟩

/-- Given to a shell without a log, the line executes itself for ever. -/
theorem selfLine_never_ends :
    parseInput selfLine.bytes = true ∧
      ∃ e, processInput (logAddCommand (.boot none) selfLine) selfLine = some e ∧ ¬ Halts Execution.step e := by
  have hparse : parseInput selfLine.bytes = true := parseInput_complete selfReference
  let log := logAddCommand (.boot none) selfLine
  have hl : log.loaded = true := loaded_logAddCommand _ _
  -- the newest entry is the line itself
  have hnewest : log.load.execute 1 = .executed selfLine := by
    have hholds : log.Holds _ := ((boot_holds none).next (.add selfLine)).2
    have hhistory : (LogFile.history none).next (.add selfLine) = [selfLine] := by decide +kernel
    rw [hhistory] at hholds
    rw [(hholds.execute 1).2 selfLine (by decide) rfl, if_pos hparse]
  have hgroups : splitGroups selfLine.bytes = some [((repeated 0).text, false), (executeNewest.text, false)] :=
    (splitGroups_text selfReference (by decide)).trans (if_pos (by decide))
  have hplain : effect log ((repeated 0).text, false) = .plain := by
    have hrun : executePipeline (repeated 0).text false = _ :=
      (executePipeline_text ⟨repeated 0, []⟩ false (by decide)).trans (if_pos (by decide))
    rw [effect, hrun]
    rfl
  have hrefers : effect log (executeNewest.text, false) = .refers selfLine := by
    have hrun : executePipeline executeNewest.text false = _ :=
      (executePipeline_text ⟨executeNewest, []⟩ false (by decide)).trans (if_pos (by decide))
    have hargs : (CmdGroup.run ⟨executeNewest, []⟩ false).logArgs = some [executeWord, [49]] := by decide
    have hanswer : (cmdLog log [executeWord, [49]]).2 = .executed selfLine :=
      (cmdLog_execute log [49]).trans hnewest
    rw [effect, hrun]
    simp only [hargs, hanswer]
  have hbefore : ¬ ClearsAt log ((repeated 0).text, false) := by
    intro hc
    rcases hc with hc | ⟨_, hc, -⟩ <;> rw [hplain] at hc <;> cases hc
  have hcycle : Refers log selfLine selfLine := ⟨[_], _, [], hgroups, by simpa using hbefore, hrefers⟩
  have hstart : processInput log selfLine =
      some { todo := [((repeated 0).text, false), (executeNewest.text, false)], log } := by
    rw [processInput, if_pos hparse, hgroups, Option.map_some]
  refine ⟨hparse, _, hstart, fun hhalts => ?_⟩
  exact (halts_iff hl hgroups).mp hhalts selfLine .refl (.single hcycle)

end OsNetworks.Shell
