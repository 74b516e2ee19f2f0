import Xv6Mmap.State
import Xv6Mmap.Lib.Wp

/-!
# The redo log

`kernel/log.c` over a disk and the buffer cache. A disk write is atomic and may be the one at which
the power fails: `power` is the number of writes still to succeed. The buffer of a block stays in the
cache while its reference count is positive; what happens to the others is left open, a step of the
system below may drop any of them.
-/

namespace Xv6Mmap

open Sequential (forUp)

def maxopblocks : Nat := 10

def logsize : Nat := maxopblocks * 3

/-- A disk block, as its 32-bit words. -/
abbrev Block := Nat → Nat

structure LogHeader where
  n : Nat
  block : Nat → Nat

structure Log where
  start : Nat
  size : Nat
  outstanding : Nat
  committing : Bool
  lh : LogHeader

inductive LogPanic where
  | tooBigTransaction | outsideOfTrans | logCommitting
  deriving DecidableEq, Repr

inductive Halt where
  | panic (e : LogPanic)
  | powerCut

/-- A call of `log_write`: the operation it was made for, the block and what its buffer held. -/
structure LogWrite where
  op : Nat
  blockno : Nat
  data : Block

/-- Disk, buffer cache and log. `pending` and `committed` only observe: the `log_write`s made since
the log was last emptied, and those of every transaction whose header reached the disk. -/
structure LogState where
  disk : Nat → Block
  power : Option Nat
  buf : Nat → Option Block
  refcnt : Nat → Nat
  log : Log
  pending : List LogWrite
  committed : List (List LogWrite)

abbrev L := EStateM Halt LogState

/-! ### The buffer cache -/

def LogState.cached (s : LogState) (b : Nat) : Block := (s.buf b).getD (s.disk b)

def bread (b : Nat) : L Block := fun s =>
  .ok (s.cached b)
    { s with buf := upd s.buf b (some (s.cached b)), refcnt := upd s.refcnt b (s.refcnt b + 1) }

def fill (b : Nat) (data : Block) : L Unit := fun s =>
  .ok () { s with buf := upd s.buf b (some data) }

def bwrite (b : Nat) : L Unit := fun s =>
  if s.power = some 0 then .error .powerCut s
  else .ok () { s with disk := upd s.disk b (s.cached b), power := s.power.map (· - 1) }

def brelse (b : Nat) : L Unit := fun s =>
  .ok () { s with refcnt := upd s.refcnt b (s.refcnt b - 1) }

def bpin (b : Nat) : L Unit := fun s =>
  .ok () { s with refcnt := upd s.refcnt b (s.refcnt b + 1) }

def bunpin (b : Nat) : L Unit := fun s =>
  .ok () { s with refcnt := upd s.refcnt b (s.refcnt b - 1) }

/-! ### `kernel/log.c` -/

def modifyLog (f : Log → Log) : L Unit := fun s => .ok () { s with log := f s.log }

def installTrans (recovering : Bool) : L Unit := do
  let s ← get
  forUp 1 (fun tail => do
    let s ← get
    let lbuf ← bread (s.log.start + tail + 1)
    let _ ← bread (s.log.lh.block tail)
    fill (s.log.lh.block tail) lbuf
    bwrite (s.log.lh.block tail)
    if recovering then pure () else bunpin (s.log.lh.block tail)
    brelse (s.log.start + tail + 1)
    brelse (s.log.lh.block tail)) s.log.lh.n 0

/-- The header a block holds: `n` in its first word, then the block numbers. -/
def readHead : L Unit := do
  let s ← get
  let buf ← bread s.log.start
  modifyLog fun log => { log with lh :=
    { n := buf 0, block := fun i => if i < buf 0 then buf (i + 1) else log.lh.block i } }
  brelse s.log.start

def LogHeader.words (lh : LogHeader) (hb : Block) : Block := fun i =>
  if i = 0 then lh.n else if i - 1 < lh.n then lh.block (i - 1) else hb i

/-- Write in-memory log header to disk. This is the true point at which the current transaction
commits. -/
def writeHead : L Unit := do
  let s ← get
  let hb ← bread s.log.start
  fill s.log.start (s.log.lh.words hb)
  bwrite s.log.start
  if 0 < s.log.lh.n then
    modify fun s => { s with committed := s.committed ++ [s.pending], pending := [] }
  brelse s.log.start

def recoverFromLog : L Unit := do
  readHead
  installTrans true
  modifyLog fun log => { log with lh := { log.lh with n := 0 } }
  writeHead

/-- One pass of the loop of `begin_op`; the caller sleeps and tries again when it is false. -/
def beginOp : L Bool := do
  let s ← get
  if s.log.committing then pure false
  else if logsize < s.log.lh.n + (s.log.outstanding + 1) * maxopblocks then pure false
  else do
    modifyLog fun log => { log with outstanding := log.outstanding + 1 }
    pure true

/-- `end_op` up to the release of the lock; whether the caller is to commit. -/
def endOp : L Bool := do
  modifyLog fun log => { log with outstanding := log.outstanding - 1 }
  let s ← get
  if s.log.committing then throw (.panic .logCommitting)
  else if s.log.outstanding = 0 then do
    modifyLog fun log => { log with committing := true }
    pure true
  else pure false

def writeLog : L Unit := do
  let s ← get
  forUp 1 (fun tail => do
    let s ← get
    let _ ← bread (s.log.start + tail + 1)
    let src ← bread (s.log.lh.block tail)
    fill (s.log.start + tail + 1) src
    bwrite (s.log.start + tail + 1)
    brelse (s.log.lh.block tail)
    brelse (s.log.start + tail + 1)) s.log.lh.n 0

def commit : L Unit := do
  let s ← get
  if 0 < s.log.lh.n then do
    writeLog
    writeHead
    installTrans false
    modifyLog fun log => { log with lh := { log.lh with n := 0 } }
    writeHead

def endCommit : L Unit := modifyLog fun log => { log with committing := false }

def LogHeader.slot (lh : LogHeader) (b : Nat) : Nat :=
  ((List.range lh.n).find? fun i => lh.block i = b).getD lh.n

def logWrite (op b : Nat) : L Unit := do
  let s ← get
  if logsize ≤ s.log.lh.n ∨ s.log.size - 1 ≤ s.log.lh.n then throw (.panic .tooBigTransaction)
  else if s.log.outstanding < 1 then throw (.panic .outsideOfTrans)
  else do
    let i := s.log.lh.slot b
    modifyLog fun log => { log with lh := { log.lh with block := upd log.lh.block i b } }
    if i = s.log.lh.n then do
      bpin b
      modifyLog fun log => { log with lh := { log.lh with n := log.lh.n + 1 } }
    modify fun s => { s with pending := s.pending ++ [⟨op, b, s.cached b⟩] }

/-! ### Processes that run file-system operations -/

/-- Where a process stands: outside of any operation, between `begin_op` and `end_op` of operation
`op`, or in `end_op` before and after the call of `commit`. -/
inductive LogPc where
  | outside
  | inOp (op : Nat)
  | committing
  | committed
  deriving DecidableEq, Repr

/-- The disk, the memory of the kernel when it is up, and the processes. `holder` is the sleep lock
of a buffer, `unlogged` lists the blocks a process has changed and not yet logged; `history` is every
`log_write` ever made. -/
structure LogSystem where
  state : LogState
  up : Bool
  pc : Nat → LogPc
  holder : Nat → Option Nat
  unlogged : Nat → List Nat
  nextOp : Nat
  history : List LogWrite

/-- The buffer cache and the log as the machine starts; the disk is what it was. -/
def LogState.reboot (s : LogState) : LogState :=
  { s with
    power := none, buf := fun _ => none, refcnt := fun _ => 0, pending := []
    log := { s.log with outstanding := 0, committing := false, lh := ⟨0, fun _ => 0⟩ } }

def LogSystem.crash (s : LogSystem) (t : LogState) : LogSystem :=
  { s with
    state := t.reboot, up := false, pc := fun _ => .outside, holder := fun _ => none
    unlogged := fun _ => [] }

inductive LogEvent where
  | beginOp (p : Nat)
  | bread (p b : Nat)
  | modify (p b : Nat) (data : Block)
  | logWrite (p b : Nat)
  | brelse (p b : Nat)
  | endOp (p : Nat)
  | commit (p : Nat) (power : Option Nat)
  | endCommit (p : Nat)
  | recycle (b : Nat)
  | crash
  | recover (power : Option Nat)

def Log.IsHome (log : Log) (b : Nat) : Prop := b < log.start ∨ log.start + log.size ≤ b

instance (log : Log) (b : Nat) : Decidable (log.IsHome b) :=
  inferInstanceAs (Decidable (_ ∨ _))

def LogSystem.after {α : Type} (s : LogSystem) (x : L α) (t : LogState)
    (k : α → LogState → LogSystem) : Except LogPanic LogSystem :=
  match x t with
  | .ok a t' => .ok (k a t')
  | .error .powerCut t' => .ok (s.crash t')
  | .error (.panic e) _ => .error e

/-- One step, if it can be taken. Only a process inside an operation changes a buffer, a home block
whose lock it holds, and it releases the lock and ends the operation only when it has logged the
change. A process waiting for a lock or for room in the log takes no step. -/
def LogSystem.step (s : LogSystem) : LogEvent → Option (Except LogPanic LogSystem)
  | .beginOp p =>
      if s.up ∧ s.pc p = .outside then
        some (s.after Xv6Mmap.beginOp s.state fun admitted t =>
          if admitted then
            { s with state := t, pc := upd s.pc p (.inOp s.nextOp), nextOp := s.nextOp + 1 }
          else { s with state := t })
      else none
  | .bread p b =>
      if s.up ∧ s.holder b = none then
        some (s.after (Xv6Mmap.bread b) s.state fun _ t =>
          { s with state := t, holder := upd s.holder b (some p) })
      else none
  | .modify p b data =>
      match s.pc p with
      | .inOp _ =>
          if s.up ∧ s.holder b = some p ∧ s.state.log.IsHome b then
            some (s.after (fill b data) s.state fun _ t =>
              { s with state := t, unlogged := upd s.unlogged p (b :: s.unlogged p) })
          else none
      | _ => none
  | .logWrite p b =>
      match s.pc p with
      | .inOp op =>
          if s.up ∧ s.holder b = some p ∧ s.state.log.IsHome b then
            some (s.after (Xv6Mmap.logWrite op b) s.state fun _ t =>
              { s with
                state := t
                unlogged := upd s.unlogged p ((s.unlogged p).filter fun c => c ≠ b)
                history := s.history ++ [⟨op, b, s.state.cached b⟩] })
          else none
      | _ => none
  | .brelse p b =>
      if s.up ∧ s.holder b = some p ∧ b ∉ s.unlogged p then
        some (s.after (Xv6Mmap.brelse b) s.state fun _ t =>
          { s with state := t, holder := upd s.holder b none })
      else none
  | .endOp p =>
      match s.pc p with
      | .inOp _ =>
          if s.up ∧ s.unlogged p = [] then
            some (s.after Xv6Mmap.endOp s.state fun doCommit t =>
              { s with
                state := t, pc := upd s.pc p (if doCommit then .committing else .outside) })
          else none
      | _ => none
  | .commit p power =>
      if s.up ∧ s.pc p = .committing then
        some (s.after Xv6Mmap.commit { s.state with power := power } fun _ t =>
          { s with state := { t with power := none }, pc := upd s.pc p .committed })
      else none
  | .endCommit p =>
      if s.up ∧ s.pc p = .committed then
        some (s.after Xv6Mmap.endCommit s.state fun _ t =>
          { s with state := t, pc := upd s.pc p .outside })
      else none
  | .recycle b =>
      if s.up ∧ s.state.refcnt b = 0 then
        some (.ok { s with state := { s.state with buf := upd s.state.buf b none } })
      else none
  | .crash => some (.ok (s.crash s.state))
  | .recover power =>
      if s.up then none
      else
        some (s.after recoverFromLog { s.state with power := power } fun _ t =>
          { s with state := { t with power := none }, up := true })

def LogSystem.run (s : LogSystem) : List LogEvent → Option LogSystem
  | [] => some s
  | e :: es =>
      match s.step e with
      | some (.ok t) => t.run es
      | _ => none

def LogSystem.off (logstart nlog : Nat) (disk : Nat → Block) : LogSystem where
  state :=
    { disk := disk, power := none, buf := fun _ => none, refcnt := fun _ => 0
      log := ⟨logstart, nlog, 0, false, ⟨0, fun _ => 0⟩⟩, pending := [], committed := [] }
  up := false
  pc := fun _ => .outside
  holder := fun _ => none
  unlogged := fun _ => []
  nextOp := 0
  history := []

end Xv6Mmap
