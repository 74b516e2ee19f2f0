import Xv6Mmap.State

/-!
# Reading and writing a pipe

`pipewrite` and `piperead` of `kernel/pipe.c`, by any number of processes on one pipe. What a
process does while it holds `pi->lock` is one step: it ends when the process goes to sleep, which
gives up the lock, or returns.
-/

namespace Xv6Mmap.Pipes

def pipesize : UInt32 := 512

structure Pipe where
  data : Nat → UInt8
  nread : UInt32
  nwrite : UInt32
  readopen : Bool
  writeopen : Bool

def Pipe.put (pi : Pipe) (ch : UInt8) : Pipe :=
  { pi with data := upd pi.data (pi.nwrite % pipesize).toNat ch, nwrite := pi.nwrite + 1 }

/-- The next byte, and the pipe after `pi->nread++`. -/
def Pipe.head (pi : Pipe) : UInt8 := pi.data (pi.nread % pipesize).toNat

def Pipe.advance (pi : Pipe) : Pipe := { pi with nread := pi.nread + 1 }

inductive Pause where
  | sleep
  | ret (r : Int)

/-- What comes of it when a process holds the lock: the pipe, the loop's counter and how it ends.
`moved` are the bytes that were moved, and only observes. -/
structure Segment where
  pipe : Pipe
  i : Nat
  moved : List UInt8
  pause : Pause

def Segment.cons (ch : UInt8) (seg : Segment) : Segment := { seg with moved := ch :: seg.moved }

/-- The loop of `pipewrite` at byte `i`, with `left` bytes to go. `src` is what `copyin` gets. -/
def writeLoop (src : Nat → Option UInt8) (killed : Bool) : Nat → Pipe → Nat → Segment
  | 0, pi, i => { pipe := pi, i := i, moved := [], pause := .ret i }
  | left + 1, pi, i =>
    if !pi.readopen || killed then
      { pipe := pi, i := i, moved := [], pause := .ret (-1) }
    else if pi.nwrite = pi.nread + pipesize then
      { pipe := pi, i := i, moved := [], pause := .sleep }
    else
      match src i with
      | none => { pipe := pi, i := i, moved := [], pause := .ret i }
      | some ch => (writeLoop src killed left (pi.put ch) (i + 1)).cons ch

/-- The copying loop of `piperead` at byte `i`. `dst` says where `copyout` succeeds; a byte that
cannot be copied is taken out all the same. -/
def readLoop (dst : Nat → Bool) : Nat → Pipe → Nat → Segment
  | 0, pi, i => { pipe := pi, i := i, moved := [], pause := .ret i }
  | left + 1, pi, i =>
    if pi.nread = pi.nwrite then
      { pipe := pi, i := i, moved := [], pause := .ret i }
    else if dst i then
      (readLoop dst left pi.advance (i + 1)).cons pi.head
    else
      { pipe := pi.advance, i := i, moved := [], pause := .ret i }

def readSegment (dst : Nat → Bool) (killed : Bool) (n : Int) (pi : Pipe) : Segment :=
  if pi.nread = pi.nwrite ∧ pi.writeopen = true then
    { pipe := pi, i := 0, moved := [], pause := if killed then .ret (-1) else .sleep }
  else
    readLoop dst n.toNat pi 0

/-- Where a process stands. `moved` are the bytes of the call so far, and only observes. -/
inductive Activity where
  | idle
  | writing (src : Nat → Option UInt8) (n : Int) (i : Nat) (moved : List UInt8) (asleep : Bool)
  | reading (dst : Nat → Bool) (n : Int) (asleep : Bool)

/-- A call that has returned. A call of `pipewrite` had `src` to write. -/
structure Return where
  caller : Nat
  src : Option (Nat → Option UInt8)
  moved : List UInt8
  ret : Int

/-- The pipe and the processes. `accepted` and `delivered` are the bytes that came in and went out,
and with `returns` only observe. -/
structure World where
  pipe : Pipe
  proc : Nat → Activity
  killed : Nat → Bool
  accepted : List UInt8
  delivered : List UInt8
  returns : List Return

/-- The pipe that `pipealloc` makes. -/
def World.start (data : Nat → UInt8) : World :=
  { pipe := { data := data, nread := 0, nwrite := 0, readopen := true, writeopen := true }
    proc := fun _ => .idle
    killed := fun _ => false
    accepted := []
    delivered := []
    returns := [] }

def wakeReader : Activity → Activity
  | .reading dst n _ => .reading dst n false
  | activity => activity

def wakeWriter : Activity → Activity
  | .writing src n i moved _ => .writing src n i moved false
  | activity => activity

def World.write (w : World) (p : Nat) (src : Nat → Option UInt8) (n : Int) (i : Nat)
    (moved : List UInt8) : World :=
  let seg := writeLoop src (w.killed p) (n - i).toNat w.pipe i
  let w := { w with pipe := seg.pipe, accepted := w.accepted ++ seg.moved }
  match seg.pause with
  | .sleep =>
    { w with
      proc := upd (fun q => wakeReader (w.proc q)) p
        (.writing src n seg.i (moved ++ seg.moved) true) }
  | .ret r =>
    let proc := if r = -1 then w.proc else fun q => wakeReader (w.proc q)
    { w with
      proc := upd proc p .idle
      returns := w.returns ++ [{ caller := p, src := some src, moved := moved ++ seg.moved, ret := r }] }

def World.read (w : World) (p : Nat) (dst : Nat → Bool) (n : Int) : World :=
  let seg := readSegment dst (w.killed p) n w.pipe
  let w := { w with pipe := seg.pipe, delivered := w.delivered ++ seg.moved }
  match seg.pause with
  | .sleep => { w with proc := upd w.proc p (.reading dst n true) }
  | .ret r =>
    let proc := if r = -1 then w.proc else fun q => wakeWriter (w.proc q)
    { w with
      proc := upd proc p .idle
      returns := w.returns ++ [{ caller := p, src := none, moved := seg.moved, ret := r }] }

inductive Event where
  | callWrite (p : Nat) (src : Nat → Option UInt8) (n : Int)
  | callRead (p : Nat) (dst : Nat → Bool) (n : Int)
  | run (p : Nat)
  | kill (p : Nat)
  | close (writable : Bool)

/-- What cannot happen leaves the world as it is. When both ends are closed the pipe is freed, and
no call on it is left. -/
def step (w : World) : Event → World
  | .callWrite p src n =>
    match w.proc p with
    | .idle => { w with proc := upd w.proc p (.writing src n 0 [] false) }
    | _ => w
  | .callRead p dst n =>
    match w.proc p with
    | .idle => { w with proc := upd w.proc p (.reading dst n false) }
    | _ => w
  | .run p =>
    if !w.pipe.readopen && !w.pipe.writeopen then w
    else
      match w.proc p with
      | .writing src n i moved false => w.write p src n i moved
      | .reading dst n false => w.read p dst n
      | _ => w
  | .kill p =>
    { w with
      killed := upd w.killed p true
      proc := upd w.proc p (wakeReader (wakeWriter (w.proc p))) }
  | .close true =>
    { w with
      pipe := { w.pipe with writeopen := false }
      proc := fun q => wakeReader (w.proc q) }
  | .close false =>
    { w with
      pipe := { w.pipe with readopen := false }
      proc := fun q => wakeWriter (w.proc q) }

def run (w : World) (events : List Event) : World := events.foldl step w

end Xv6Mmap.Pipes
