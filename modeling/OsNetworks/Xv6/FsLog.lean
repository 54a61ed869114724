/-
The log of the file system. Any number of processes run system calls that
change blocks; the last one to end commits what all of them wrote, and after a
crash what was committed is read back from the log. A write of a block reaches
the disk whole or not at all, and the machine may stop between any two of them.

A block is the 256 `int`s that it holds. The cache is what `bread` returns: a
buffer that is not pinned may be recycled at any time, and is then read from the
disk again.
-/
import Mathlib.Logic.Function.Basic
import OsNetworks.Lib.Journal
import OsNetworks.Lib.Threads

namespace OsNetworks.Xv6.FsLog
open OsNetworks.Journal OsNetworks.Runs OsNetworks.Threads

/-- `MAXOPBLOCKS` -/
def maxOpBlocks : Nat := 10

/-- `LOGBLOCKS` -/
def logBlocks : Nat := maxOpBlocks * 3

abbrev Block := Fin 256 → UInt32

/-- `read_head`: the block numbers in the header block. -/
def readHead (b : Block) : List UInt32 := (List.range (b 0).toNat).map fun i => b (Fin.ofNat 256 (i + 1))

/-- `write_head`: what the header block becomes. -/
def writeHead (blocks : List UInt32) (b : Block) : Block := fun i =>
  if i = 0 then UInt32.ofNat blocks.length else blocks.getD (i.val - 1) (b i)

/-- The block is not one of the log's. -/
def Outside (start a : Nat) : Prop := a < start ∨ start + logBlocks < a

/-- A block that a system call may write. -/
structure FileBlock (start : Nat) where
  blockno : UInt32
  outside : Outside start blockno.toNat

/-- Where a process is in `commit`. -/
inductive Commit where
  | start
  | writeLog (tail : Nat)
  | writeHead
  | installTrans (tail : Nat)
  /-- `log.lh.n = 0` and the second `write_head` -/
  | erase
  /-- back in `end_op` -/
  | done
  deriving DecidableEq

inductive Place where
  | outside
  /-- in `sleep`, called by `begin_op` -/
  | asleep
  /-- about to look at the log again -/
  | woken
  /-- after `begin_op`, with the blocks written since -/
  | inOp (wrote : List UInt32)
  | committing (c : Commit)
  deriving DecidableEq

/-- Where the machine is in `recover_from_log`. -/
inductive Recovery where
  | readHead
  | installTrans (tail : Nat)
  | erase
  deriving DecidableEq

structure System (κ : Type) where
  disk : Nat → Block
  cache : Nat → Block
  /-- by how much `bpin` has raised the `refcnt` of the buffer -/
  pins : Nat → Nat := fun _ => 0
  lh : List UInt32 := []
  outstanding : Nat := 0
  committing : Bool := false
  place : κ → Place := fun _ => .outside
  /-- none after the recovery -/
  recovery : Option Recovery := some .readHead
  panicked : Bool := false

inductive Action (start : Nat) where
  | beginOp
  /-- the data of a buffer are changed, and `log_write` is called -/
  | write (b : FileBlock start) (data : Block)
  | endOp
  /-- the next statement of `commit` -/
  | commit

inductive Event (start : Nat) (κ : Type) where
  | act (p : κ) (a : Action start)
  /-- the buffer is recycled -/
  | evict (a : Nat)
  | crash
  /-- the next statement of `recover_from_log` -/
  | recover

/-- `wakeup(&log)` -/
def Place.wakeup : Place → Place
  | .asleep => .woken
  | place => place

namespace System
variable {κ : Type}

/-- The machine starts, with nothing in its memory. -/
def boot (disk : Nat → Block) : System κ := { disk, cache := disk }

def bwrite (s : System κ) (a : Nat) (b : Block) : System κ :=
  { s with cache := Function.update s.cache a b, disk := Function.update s.disk a b }

/-- One round of `install_trans`, up to `bunpin`. -/
def installBlock (start : Nat) (s : System κ) (tail : Nat) (dst : UInt32) : System κ :=
  s.bwrite dst.toNat (s.cache (start + tail + 1))

/-- `log.lh.n = 0; write_head()` -/
def eraseHead (start : Nat) (s : System κ) : System κ :=
  { s with lh := [] }.bwrite start (writeHead [] (s.cache start))

/-- `recover_from_log` -/
def recoverFromLog (start : Nat) (s : System κ) : Recovery → System κ
  | .readHead => { s with lh := readHead (s.cache start), recovery := some (.installTrans 0) }
  | .installTrans tail =>
    match s.lh[tail]? with
    | some dst => { s.installBlock start tail dst with recovery := some (.installTrans (tail + 1)) }
    | none => { s with recovery := some .erase }
  | .erase => { s.eraseHead start with recovery := none }

section
variable [DecidableEq κ]

def goto (s : System κ) (p : κ) (place : Place) : System κ := { s with place := Function.update s.place p place }

def wakeup (s : System κ) : System κ := { s with place := fun p => (s.place p).wakeup }

/-- `begin_op`, from its start or after `sleep` -/
def beginOp (s : System κ) (p : κ) : System κ :=
  if s.committing then s.goto p .asleep
  else if s.lh.length + (s.outstanding + 1) * maxOpBlocks > logBlocks then s.goto p .asleep
  else { s.goto p (.inOp []) with outstanding := s.outstanding + 1 }

/-- `log_write` -/
def logWrite (s : System κ) (blockno : UInt32) : System κ :=
  if s.lh.length ≥ logBlocks then { s with panicked := true }
  else if s.outstanding < 1 then { s with panicked := true }
  else if blockno ∈ s.lh then s
  else { s with
    lh := s.lh ++ [blockno]
    pins := Function.update s.pins blockno.toNat (s.pins blockno.toNat + 1) }

/-- `end_op`, up to `commit` -/
def endOp (s : System κ) (p : κ) : System κ :=
  let s := { s with outstanding := s.outstanding - 1 }
  if s.committing then { s with panicked := true }
  else if s.outstanding = 0 then { s.goto p (.committing .start) with committing := true }
  else (s.goto p .outside).wakeup

/-- `commit` and the end of `end_op` -/
def commit (start : Nat) (s : System κ) (p : κ) : Commit → System κ
  | .start => s.goto p (.committing (if s.lh.length > 0 then .writeLog 0 else .done))
  | .writeLog tail =>
    match s.lh[tail]? with
    | some src => (s.bwrite (start + tail + 1) (s.cache src.toNat)).goto p (.committing (.writeLog (tail + 1)))
    | none => s.goto p (.committing .writeHead)
  | .writeHead => (s.bwrite start (FsLog.writeHead s.lh (s.cache start))).goto p (.committing (.installTrans 0))
  | .installTrans tail =>
    match s.lh[tail]? with
    | some dst =>
      { (s.installBlock start tail dst).goto p (.committing (.installTrans (tail + 1))) with
        pins := Function.update s.pins dst.toNat (s.pins dst.toNat - 1) }
    | none => s.goto p (.committing .erase)
  | .erase => (s.eraseHead start).goto p (.committing .done)
  | .done => ({ s with committing := false }.goto p .outside).wakeup

def act {start : Nat} (s : System κ) (p : κ) : Action start → System κ
  | .beginOp =>
    match s.place p with
    | .outside | .woken => s.beginOp p
    | _ => s
  | .write b data =>
    match s.place p with
    | .inOp wrote =>
      { s.goto p (.inOp (wrote.insert b.blockno)) with
        cache := Function.update s.cache b.blockno.toNat data }.logWrite b.blockno
    | _ => s
  | .endOp =>
    match s.place p with
    | .inOp _ => s.endOp p
    | _ => s
  | .commit =>
    match s.place p with
    | .committing c => s.commit start p c
    | _ => s

/-- After a panic only a restart helps. -/
def step {start : Nat} (s : System κ) : Event start κ → System κ
  | .crash => boot s.disk
  | .recover =>
    match s.recovery with
    | some r => if s.panicked then s else s.recoverFromLog start r
    | none => s
  | .evict a => if s.pins a = 0 ∧ s.panicked = false then { s with cache := Function.update s.cache a (s.disk a) } else s
  | .act p a => if s.panicked ∨ s.recovery.isSome then s else s.act p a

end

end System

end OsNetworks.Xv6.FsLog
