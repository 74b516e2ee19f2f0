import Xv6Mmap.Lib.Links

/-!
# The buffer cache

`kernel/bio.c` and the sleep locks of its buffers, used by any number of processes. What a process does
while it holds one of the spin locks, `bcache.lock` or that of a sleep lock, is one step.
-/

namespace Xv6Mmap.Bio

open Function

def nbuf : Nat := 30

/-- `struct buf`, with its sleep lock, and without the pointers of the list. -/
structure Buf where
  valid : Bool
  dev : UInt32
  blockno : UInt32
  locked : Bool
  pid : Nat
  refcnt : UInt32
  data : Nat → UInt8

def Buf.zero : Buf :=
  { valid := false, dev := 0, blockno := 0, locked := false, pid := 0, refcnt := 0, data := fun _ => 0 }

structure Cache where
  links : Links (Fin nbuf)
  buf : Fin nbuf → Buf

def Cache.modify (c : Cache) (b : Fin nbuf) (f : Buf → Buf) : Cache :=
  { c with buf := update c.buf b (f (c.buf b)) }

def initsleeplock (buf : Buf) : Buf := { buf with locked := false, pid := 0 }

def binit (c : Cache) : Cache :=
  let links := { next := update c.links.next none none, prev := update c.links.prev none none }
  (List.finRange nbuf).foldl
    (fun c b => { c.modify b initsleeplock with links := c.links.pushFront b })
    { c with links := links }

/-- What `bget` comes to while it holds `bcache.lock`. -/
inductive Found where
  | cached (b : Fin nbuf)
  | recycled (b : Fin nbuf)
  | noBuffers
  /-- One of the two loops does not come back to the head of the list. -/
  | loops

def bgetScan (c : Cache) (dev blockno : UInt32) : Found :=
  match Links.walk c.links.next (fun b => (c.buf b).dev = dev ∧ (c.buf b).blockno = blockno)
      (nbuf + 1) (c.links.next none) with
  | none => .loops
  | some (some b) => .cached b
  | some none =>
    match Links.walk c.links.prev (fun b => (c.buf b).refcnt = 0) (nbuf + 1) (c.links.prev none) with
    | none => .loops
    | some (some b) => .recycled b
    | some none => .noBuffers

def Buf.recycle (dev blockno : UInt32) (buf : Buf) : Buf :=
  { buf with dev := dev, blockno := blockno, valid := false, refcnt := 1 }

def Buf.incr (buf : Buf) : Buf := { buf with refcnt := buf.refcnt + 1 }

def Buf.decr (buf : Buf) : Buf := { buf with refcnt := buf.refcnt - 1 }

/-- The second half of `brelse`. -/
def Cache.drop (c : Cache) (b : Fin nbuf) : Cache :=
  let c := c.modify b Buf.decr
  if (c.buf b).refcnt = 0 then { c with links := (c.links.unlink b).pushFront b } else c

/-- Where a process stands in a call. -/
inductive Activity where
  | idle
  | acquiring (b : Fin nbuf) (asleep : Bool)
  /-- In `bread`, with the sleep lock, before it looks at `b->valid`. -/
  | checking (b : Fin nbuf)
  | filling (b : Fin nbuf)
  /-- After it, before `b->valid = 1`. -/
  | filled (b : Fin nbuf)
  /-- In `brelse`, before `releasesleep`. -/
  | releasing (b : Fin nbuf)
  /-- In `brelse`, before it takes `bcache.lock`. -/
  | dropping (b : Fin nbuf)
  deriving DecidableEq, Repr

inductive Halt where
  | noBuffers
  | brelse
  | loops
  deriving DecidableEq, Repr

/-- The cache and the processes. `held p` are the buffers that `bread` has returned to `p` and that `p`
has not released, and `pins b` are the calls of `bpin` without a `bunpin`. -/
structure World where
  cache : Cache
  act : Nat → Activity
  held : Nat → List (Fin nbuf)
  pins : Fin nbuf → Nat
  halt : Option Halt

/-- After `binit`, in memory that was all zero. The pointers could be anything. -/
def World.start (links : Links (Fin nbuf)) : World :=
  { cache := binit { links := links, buf := fun _ => .zero }
    act := fun _ => .idle
    held := fun _ => []
    pins := fun _ => 0
    halt := none }

def World.bget (w : World) (p : Nat) (dev blockno : UInt32) : World :=
  match bgetScan w.cache dev blockno with
  | .cached b =>
    { w with cache := w.cache.modify b Buf.incr, act := update w.act p (.acquiring b false) }
  | .recycled b =>
    { w with
      cache := w.cache.modify b (Buf.recycle dev blockno)
      act := update w.act p (.acquiring b false) }
  | .noBuffers => { w with halt := some .noBuffers }
  | .loops => { w with halt := some .loops }

/-- One round of the loop of `acquiresleep`. -/
def World.acquiresleep (w : World) (p : Nat) (b : Fin nbuf) : World :=
  if (w.cache.buf b).locked then
    { w with act := update w.act p (.acquiring b true) }
  else
    { w with
      cache := w.cache.modify b fun buf => { buf with locked := true, pid := p }
      act := update w.act p (.checking b) }

def World.ret (w : World) (p : Nat) (b : Fin nbuf) : World :=
  { w with act := update w.act p .idle, held := update w.held p (b :: w.held p) }

def wake (b : Fin nbuf) : Activity → Activity
  | .acquiring b' asleep => .acquiring b' (if b' = b then false else asleep)
  | activity => activity

def World.releasesleep (w : World) (p : Nat) (b : Fin nbuf) : World :=
  { w with
    cache := w.cache.modify b fun buf => { buf with locked := false, pid := 0 }
    act := update (fun q => wake b (w.act q)) p (.dropping b) }

inductive Event where
  | bread (p : Nat) (dev blockno : UInt32)
  | run (p : Nat)
  /-- The disk has read the block that `p` waits for. -/
  | disk (p : Nat) (data : Nat → UInt8)
  | kill (p : Nat)
  | write (p : Nat) (b : Fin nbuf) (data : Nat → UInt8)
  | brelse (p : Nat) (b : Fin nbuf)
  | bpin (p : Nat) (b : Fin nbuf)
  | bunpin (p : Nat) (b : Fin nbuf)

def Event.proc : Event → Nat
  | .bread p _ _ | .run p | .disk p _ | .kill p | .write p _ _ | .brelse p _ | .bpin p _
  | .bunpin p _ => p

def World.run (w : World) (p : Nat) : World :=
  match w.act p with
  | .acquiring b false => w.acquiresleep p b
  | .checking b =>
    if (w.cache.buf b).valid then w.ret p b else { w with act := update w.act p (.filling b) }
  | .filled b => { w with cache := w.cache.modify b fun buf => { buf with valid := true } }.ret p b
  | .releasing b => w.releasesleep p b
  | .dropping b => { w with cache := w.cache.drop b, act := update w.act p .idle }
  | _ => w

def World.call (w : World) : Event → World
  | .bread p dev blockno => w.bget p dev blockno
  | .write p b data =>
    if b ∈ w.held p then
      { w with cache := w.cache.modify b fun buf => { buf with data := data } }
    else w
  | .brelse p b =>
    if (w.cache.buf b).locked ∧ (w.cache.buf b).pid = p then
      { w with act := update w.act p (.releasing b), held := update w.held p ((w.held p).erase b) }
    else
      { w with halt := some .brelse }
  | .bpin _ b =>
    { w with cache := w.cache.modify b Buf.incr, pins := update w.pins b (w.pins b + 1) }
  | .bunpin _ b =>
    { w with cache := w.cache.modify b Buf.decr, pins := update w.pins b (w.pins b - 1) }
  | _ => w

/-- What cannot happen leaves the world as it is. -/
def step (w : World) (e : Event) : World :=
  if w.halt ≠ none then w
  else
    match e with
    | .run p => w.run p
    | .disk p data =>
      match w.act p with
      | .filling b =>
        { w with
          cache := w.cache.modify b fun buf => { buf with data := data }
          act := update w.act p (.filled b) }
      | _ => w
    | .kill p =>
      match w.act p with
      | .acquiring b _ => { w with act := update w.act p (.acquiring b false) }
      | _ => w
    | e => if w.act e.proc = .idle then w.call e else w

end Xv6Mmap.Bio
