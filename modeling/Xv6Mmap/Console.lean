import Xv6Mmap.State

/-!
# The console's input

`consoleintr` and `consoleread` of `kernel/console.c`. Three counters run freely over a ring of 128
bytes: readers take bytes at `r`, whole lines end at `w`, and the line being typed ends at `e`. What a
reader does while it holds `cons.lock` is one step: it ends when the reader goes to sleep, which gives
up the lock, or returns.
-/

namespace Xv6Mmap.Console

def inputBufSize : UInt32 := 128

def ctrl (x : Char) : UInt8 := x.toNat.toUInt8 - 0x40

def newline : UInt8 := 10

def carriageReturn : UInt8 := 13

def deleteKey : UInt8 := 0x7f

structure Cons where
  buf : Nat → UInt8
  r : UInt32
  w : UInt32
  e : UInt32

/-! ### Typing -/

/-- The loop that erases the line being typed. It stops at `w` at the latest. -/
def killLine : Nat → Cons → Cons
  | 0, cons => cons
  | n + 1, cons =>
    if cons.e ≠ cons.w ∧ cons.buf ((cons.e - 1) % inputBufSize).toNat ≠ newline then
      killLine n { cons with e := cons.e - 1 }
    else
      cons

/-- `c` is stored for `consoleread`. Readers are woken when a whole line, or the end of the file, has
arrived. -/
def store (cons : Cons) (c : UInt8) : Cons × Bool :=
  let cons := { cons with buf := upd cons.buf (cons.e % inputBufSize).toNat c, e := cons.e + 1 }
  if c = newline ∨ c = ctrl 'D' ∨ cons.e - cons.r = inputBufSize then
    ({ cons with w := cons.e }, true)
  else
    (cons, false)

/-- The input after an interrupt for `c`, and whether readers are woken. The process list, the memory
counters and the echo go to the output. -/
def consoleintr (cons : Cons) (c : UInt8) : Cons × Bool :=
  if c = ctrl 'P' then
    (cons, false)
  else if c = ctrl 'U' then
    (killLine (cons.e - cons.w).toNat cons, false)
  else if c = ctrl 'H' ∨ c = deleteKey then
    if cons.e ≠ cons.w then ({ cons with e := cons.e - 1 }, false) else (cons, false)
  else if c = ctrl 'F' then
    (cons, false)
  else if c ≠ 0 ∧ cons.e - cons.r < inputBufSize then
    store cons (if c = carriageReturn then newline else c)
  else
    (cons, false)

/-! ### Reading -/

inductive Pause where
  | sleep
  | ret (r : Int)

/-- What comes of it when a reader holds the lock: the input, the bytes it still wants and how it
ends. `moved` are the bytes that were copied to it and `taken` those that have left the ring; both only
observe. -/
structure Segment where
  cons : Cons
  n : Nat
  moved : List UInt8
  taken : Nat
  pause : Pause

def Segment.copied (c : UInt8) (seg : Segment) : Segment :=
  { seg with moved := c :: seg.moved, taken := seg.taken + 1 }

/-- The loop of `consoleread` that still wants `n` of `target` bytes. `dst` says where `either_copyout`
succeeds; a byte that cannot be copied is taken out all the same. -/
def readLoop (dst : Nat → Bool) (killed : Bool) (target : Nat) : Nat → Cons → Segment
  | 0, cons => { cons := cons, n := 0, moved := [], taken := 0, pause := .ret target }
  | n + 1, cons =>
    if cons.r = cons.w then
      { cons := cons
        n := n + 1
        moved := []
        taken := 0
        pause := if killed then .ret (-1) else .sleep }
    else
      let c := cons.buf (cons.r % inputBufSize).toNat
      let next := { cons with r := cons.r + 1 }
      if c = ctrl 'D' then
        -- a reader that has bytes already leaves the mark for the next one
        if n + 1 < target then
          { cons := { next with r := next.r - 1 }
            n := n + 1
            moved := []
            taken := 0
            pause := .ret (target - (n + 1)) }
        else
          { cons := next, n := n + 1, moved := [], taken := 1, pause := .ret (target - (n + 1)) }
      else if !dst (target - (n + 1)) then
        { cons := next, n := n + 1, moved := [], taken := 1, pause := .ret (target - (n + 1)) }
      else if c = newline then
        { cons := next, n := n, moved := [c], taken := 1, pause := .ret (target - n) }
      else
        (readLoop dst killed target n next).copied c

/-! ### Runs -/

/-- Where a process stands. `moved` are the bytes of the call so far, and only observes. -/
inductive Activity where
  | idle
  | reading (dst : Nat → Bool) (target n : Nat) (moved : List UInt8) (asleep : Bool)

inductive Item where
  | key (c : UInt8)
  | take
  deriving DecidableEq

/-- A call that has returned. `taken` is the number of bytes that had left the ring by then. -/
structure Return where
  caller : Nat
  target : Nat
  moved : List UInt8
  ret : Int
  taken : Nat

/-- The input and the processes. `history`, `delivered` and `returns` only observe. -/
structure World where
  cons : Cons
  proc : Nat → Activity
  killed : Nat → Bool
  history : List Item
  delivered : List UInt8
  returns : List Return

def World.start (buf : Nat → UInt8) : World :=
  { cons := { buf := buf, r := 0, w := 0, e := 0 }
    proc := fun _ => .idle
    killed := fun _ => false
    history := []
    delivered := []
    returns := [] }

def wakeReader : Activity → Activity
  | .reading dst target n moved _ => .reading dst target n moved false
  | activity => activity

def World.read (w : World) (p : Nat) (dst : Nat → Bool) (target n : Nat) (moved : List UInt8) :
    World :=
  let seg := readLoop dst (w.killed p) target n w.cons
  let history := w.history ++ List.replicate seg.taken .take
  let w := { w with cons := seg.cons, history := history, delivered := w.delivered ++ seg.moved }
  match seg.pause with
  | .sleep => { w with proc := upd w.proc p (.reading dst target seg.n (moved ++ seg.moved) true) }
  | .ret r =>
    { w with
      proc := upd w.proc p .idle
      returns := w.returns ++
        [{ caller := p
           target := target
           moved := moved ++ seg.moved
           ret := r
           taken := history.count .take }] }

inductive Event where
  | key (c : UInt8)
  | callRead (p : Nat) (dst : Nat → Bool) (n : Int)
  | run (p : Nat)
  | kill (p : Nat)

def step (w : World) : Event → World
  | .key c =>
    let (cons, woken) := consoleintr w.cons c
    { w with
      cons := cons
      proc := if woken then fun q => wakeReader (w.proc q) else w.proc
      history := w.history ++ [.key c] }
  | .callRead p dst n =>
    match w.proc p with
    | .idle => { w with proc := upd w.proc p (.reading dst n.toNat n.toNat [] false) }
    | _ => w
  | .run p =>
    match w.proc p with
    | .reading dst target n moved false => w.read p dst target n moved
    | _ => w
  | .kill p => { w with killed := upd w.killed p true, proc := upd w.proc p (wakeReader (w.proc p)) }

def run (w : World) (events : List Event) : World := events.foldl step w

end Xv6Mmap.Console
