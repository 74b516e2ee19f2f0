import Xv6Mmap.State

/-!
# The virtio disk driver

`virtio_disk_rw` and `virtio_disk_intr` of `kernel/virtio_disk.c`, the processes that call them, and a
device that takes requests from the ring `avail` and puts those it has completed on the ring `used`, in
any order. The device works beside the driver. Nothing that it writes is read in `virtio_disk_rw`, so
what a process does there while it holds `vdisk_lock` is one step; each round of the loop of
`virtio_disk_intr` is a step of its own, and the lock is held between them.
-/

namespace Xv6Mmap.Virtio

def num : Nat := 8

/-- What a descriptor points to: a command header, the data of a buffer, or a status byte. -/
inductive Addr where
  | null
  | ops (i : Nat)
  | data (b : Nat)
  | status (i : Nat)
  deriving DecidableEq, Repr

/-- `struct virtq_desc`. The flags `VRING_DESC_F_NEXT` and `VRING_DESC_F_WRITE` are two fields. -/
structure Desc where
  addr : Addr
  len : Nat
  hasNext : Bool
  write : Bool
  next : Nat
  deriving DecidableEq, Repr

def Desc.zero : Desc := { addr := .null, len := 0, hasNext := false, write := false, next := 0 }

structure Op where
  out : Bool
  reserved : Nat
  sector : UInt32
  deriving DecidableEq, Repr

structure Info where
  b : Option Nat
  status : UInt8
  deriving DecidableEq, Repr

structure Ring16 where
  idx : UInt16
  ring : Nat → Nat

structure Buf where
  disk : Bool
  blockno : UInt32

inductive Activity where
  | idle
  | allocating (b : Nat) (write : Bool)
  /-- In the loop that waits for `b->disk`; `head` is `idx[0]`. -/
  | waiting (b head : Nat)
  deriving DecidableEq, Repr

inductive Chan where
  | free
  | buf (b : Nat)
  deriving DecidableEq, Repr

def Activity.chan : Activity → Option Chan
  | .idle => none
  | .allocating _ _ => some .free
  | .waiting b _ => some (.buf b)

inductive Stage where
  | published
  | fetched
  | completed
  | processed
  deriving DecidableEq, Repr

/-- A request that was published and not yet reclaimed. -/
structure Request where
  id : Nat
  caller : Nat
  buf : Nat
  chain : List Nat
  stage : Stage
  deriving DecidableEq, Repr

inductive Halt where
  | freeDesc1
  | freeDesc2
  | intrStatus
  | nullBuf
  /-- The loop of `free_chain` does not end. -/
  | loops
  deriving DecidableEq, Repr

/-- `struct disk`, the buffers, the processes, the handler and the device. `request`, by the head of the
chain, `births`, `completed`, `processed` and `returned` only observe. -/
structure World where
  desc : Nat → Desc
  avail : Ring16
  used : Ring16
  free : Nat → Bool
  usedIdx : UInt16
  info : Nat → Info
  ops : Nat → Op
  buf : Nat → Buf
  proc : Nat → Activity
  asleep : Nat → Bool
  handler : Bool
  /-- How far the device has read `avail`, and what it is working on. -/
  seen : UInt16
  pending : List Nat
  halt : Option Halt
  request : Nat → Option Request
  births : Nat
  completed : List Nat
  processed : List Nat
  returned : List Nat

def World.start (blockno : Nat → UInt32) : World where
  desc := fun _ => .zero
  avail := { idx := 0, ring := fun _ => 0 }
  used := { idx := 0, ring := fun _ => 0 }
  free := fun i => decide (i < num)
  usedIdx := 0
  info := fun _ => { b := none, status := 0 }
  ops := fun _ => { out := false, reserved := 0, sector := 0 }
  buf := fun b => { disk := false, blockno := blockno b }
  proc := fun _ => .idle
  asleep := fun _ => false
  handler := false
  seen := 0
  pending := []
  halt := none
  request := fun _ => none
  births := 0
  completed := []
  processed := []
  returned := []

abbrev V := EStateM Halt World

def wakeup (chan : Chan) (w : World) : World :=
  { w with asleep := fun q => if (w.proc q).chan = some chan then false else w.asleep q }

def allocDesc : V (Option Nat) := do
  let w ← get
  match (List.range num).find? fun i => w.free i with
  | some i =>
    set { w with free := upd w.free i false }
    pure (some i)
  | none => pure none

def freeDesc (i : Nat) : V Unit := do
  let w ← get
  if num ≤ i then throw .freeDesc1
  else if w.free i then throw .freeDesc2
  else set (wakeup .free { w with desc := upd w.desc i .zero, free := upd w.free i true })

/-- `fuel` bounds the rounds of the loop. -/
def freeChain : Nat → Nat → V Unit
  | 0, _ => throw .loops
  | fuel + 1, i => do
    let w ← get
    freeDesc i
    if (w.desc i).hasNext then freeChain fuel (w.desc i).next

def alloc3From : Nat → List Nat → V (Option (List Nat))
  | 0, idx => pure (some idx)
  | left + 1, idx => do
    match ← allocDesc with
    | some i => alloc3From left (idx ++ [i])
    | none =>
      idx.forM freeDesc
      pure none

def alloc3Desc : V (Option (List Nat)) := alloc3From 3 []

/-- `virtio_disk_rw` from where it has the descriptors up to where it waits. -/
def World.publish (w : World) (p b : Nat) (write : Bool) (i0 i1 i2 : Nat) : World :=
  { w with
    ops := upd w.ops i0 { out := write, reserved := 0, sector := (w.buf b).blockno * 2 }
    desc := upd (upd (upd w.desc
      i0 { addr := .ops i0, len := 16, hasNext := true, write := false, next := i1 })
      i1 { addr := .data b, len := 1024, hasNext := true, write := !write, next := i2 })
      i2 { addr := .status i0, len := 1, hasNext := false, write := true, next := 0 }
    info := upd w.info i0 { b := some b, status := 0xff }
    buf := upd w.buf b { w.buf b with disk := true }
    avail := { idx := w.avail.idx + 1, ring := upd w.avail.ring (w.avail.idx % 8).toNat i0 }
    proc := upd w.proc p (.waiting b i0)
    request := upd w.request i0
      (some { id := w.births, caller := p, buf := b, chain := [i0, i1, i2], stage := .published })
    births := w.births + 1 }

/-- A process in `virtio_disk_rw` runs with `vdisk_lock` until it sleeps or returns. A request that was
just published is not complete, so the loop that waits for it sleeps. -/
def rw (p : Nat) : V Unit := do
  let w ← get
  match w.proc p with
  | .idle => pure ()
  | .allocating b write =>
    match ← alloc3Desc with
    | some [i0, i1, i2] =>
      modify fun w => { w.publish p b write i0 i1 i2 with asleep := upd w.asleep p true }
    | _ => modify fun w => { w with asleep := upd w.asleep p true }
  | .waiting b head =>
    if (w.buf b).disk then
      set { w with asleep := upd w.asleep p true }
    else
      set { w with
        info := upd w.info head { w.info head with b := none }
        request := upd w.request head none }
      freeChain (num + 1) head
      modify fun w' =>
        { w' with
          proc := upd w'.proc p .idle
          returned := w'.returned ++ ((w.request head).map Request.id).toList }

def World.setStage (w : World) (head : Nat) (stage : Stage) : World :=
  { w with request := upd w.request head ((w.request head).map fun r => { r with stage := stage }) }

/-- A round of the loop of `virtio_disk_intr`, or its end. -/
def intrRound : V Unit := do
  let w ← get
  if w.usedIdx = w.used.idx then
    set { w with handler := false }
  else
    let id := w.used.ring (w.usedIdx % 8).toNat
    if (w.info id).status ≠ 0 then throw .intrStatus
    else
      match (w.info id).b with
      | none => throw .nullBuf
      | some b =>
        let w' := wakeup (.buf b) { w with buf := upd w.buf b { w.buf b with disk := false } }
        set { w'.setStage id .processed with
          usedIdx := w.usedIdx + 1
          processed := w.processed ++ ((w.request id).map Request.id).toList }

def World.fetch (w : World) : World :=
  if w.seen = w.avail.idx then w
  else
    let head := w.avail.ring (w.seen % 8).toNat
    { w.setStage head .fetched with seen := w.seen + 1, pending := w.pending ++ [head] }

/-- The device follows the chain to its third descriptor, puts a status of 0 where that one points, and
the head of the chain on `used`. -/
def World.complete (w : World) (head : Nat) : World :=
  if head ∈ w.pending then
    let third := w.desc (w.desc (w.desc head).next).next
    let info :=
      match third.addr with
      | .status i => upd w.info i { w.info i with status := 0 }
      | _ => w.info
    { w.setStage head .completed with
      info := info
      used := { idx := w.used.idx + 1, ring := upd w.used.ring (w.used.idx % 8).toNat head }
      pending := w.pending.erase head
      completed := w.completed ++ ((w.request head).map Request.id).toList }
  else w

inductive Event where
  | call (p b : Nat) (write : Bool)
  | run (p : Nat)
  | kill (p : Nat)
  | intr
  | intrRound
  | fetch
  | complete (head : Nat)

def World.after (w : World) (x : V Unit) : World :=
  match x w with
  | .ok _ w' => w'
  | .error e w' => { w' with halt := some e }

def step (w : World) (e : Event) : World :=
  if w.halt ≠ none then w
  else
    match e with
    | .call p b write =>
      if w.proc p = .idle then
        { w with proc := upd w.proc p (.allocating b write), asleep := upd w.asleep p false }
      else w
    | .run p => if w.asleep p = true ∨ w.handler = true then w else w.after (rw p)
    | .kill p => { w with asleep := upd w.asleep p false }
    | .intr => { w with handler := true }
    | .intrRound => if w.handler then w.after intrRound else w
    | .fetch => w.fetch
    | .complete head => w.complete head

end Xv6Mmap.Virtio
