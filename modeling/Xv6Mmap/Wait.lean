import Xv6Mmap.State

/-!
# Exit and wait

`exit`, `wait`, `fork`'s linking of a child, `sleep`, `wakeup`, `kill` and the scheduler of
`kernel/proc.c`, as steps of any number of processes. What runs between taking and releasing one lock
is one step, except where another lock is released on the way: `exit` and `sleep` take the process's
own lock, then release `wait_lock`, then give up the processor, each in a step of its own.
-/

namespace Xv6Mmap

inductive Chan where
  | none
  | proc (p : Nat)
  | other (k : Nat)
  deriving DecidableEq, Repr

inductive WaitPc where
  /-- The slot holds no process, or one that `allocproc` has handed out and nobody runs yet. -/
  | absent
  | user
  /-- In `fork`, before it takes `wait_lock` to set the child's parent. -/
  | forkLink (np : Nat)
  /-- In `fork`, before it makes the child runnable. -/
  | forkReady (np : Nat)
  | exitEnter (status : Int)
  | exitReparent (i : Nat) (status : Int)
  | exitWakeInit (i j : Nat) (status : Int)
  /-- In the `wakeup(p->parent)` of `exit`, at slot `j`. -/
  | exitWakeParent (j : Nat) (chan : Chan) (status : Int)
  /-- Before `exit` takes the process's own lock. -/
  | exitZombie (status : Int)
  /-- A zombie that still holds `wait_lock`. -/
  | exitRelease
  | exitSched
  | dead
  /-- In `wait`, before it takes `wait_lock`; `addr` says whether the status is asked for. -/
  | waitEnter (addr : Bool)
  | waitScan (i : Nat) (havekids addr : Bool)
  | waitKilled (addr : Bool)
  /-- In `sleep`, before it takes the process's own lock. -/
  | waitSleep (addr : Bool)
  | waitLocked (addr : Bool)
  /-- In `sleep`, `wait_lock` released. -/
  | waitChan (addr : Bool)
  /-- In `sleep`, SLEEPING and about to give up the processor. -/
  | waitAsleep (addr : Bool)
  | waitSwitched (addr : Bool)
  | waitReturn
  deriving DecidableEq, Repr

structure Exit where
  birth : Nat
  pid : Nat
  status : Int
  deriving DecidableEq, Repr

/-- A zombie that a `wait` freed: the caller, the child's slot, the pid the call returns, whether
the caller asked for the status and what was stored for it. -/
structure Reap where
  caller : Nat
  child : Nat
  birth : Nat
  pid : Nat
  addr : Bool
  status : Option Int
  deriving DecidableEq, Repr

/-- The process table as scheduling sees it. `locked` is `p->lock` held from one step to the next.
`birth` numbers the processes ever allocated; it and the two lists only observe. -/
structure Sched where
  state : Nat → ProcState
  chan : Nat → Chan
  killed : Nat → Bool
  xstate : Nat → Int
  pid : Nat → Nat
  parent : Nat → Option Nat
  locked : Nat → Bool
  pc : Nat → WaitPc
  birth : Nat → Nat
  waitLock : Option Nat
  nextpid : Nat
  nextBirth : Nat
  exits : List Exit
  reaps : List Reap

/-- What `p` does next, or what happens to it. `kill q`, `setKilled q` and `wakeOther q` are the
rounds for slot `q` of a `kill`, a `setkilled` and a `wakeup` on another channel, whoever runs
them. -/
inductive SchedAct where
  | schedule (p : Nat)
  | yield (p : Nat)
  | sleepOther (p k : Nat)
  | wakeOther (q : Nat)
  | kill (q : Nat)
  | setKilled (q : Nat)
  | fork (p np : Nat) (ok : Bool)
  | exit (p : Nat) (status : Int)
  | wait (p : Nat) (addr : Bool)
  | next (p : Nat) (copied : Bool)
  deriving DecidableEq, Repr

variable (nproc initproc : Nat)

def Sched.freeproc (s : Sched) (c : Nat) : Sched :=
  { s with
    state := upd s.state c .unused, chan := upd s.chan c .none, killed := upd s.killed c false
    xstate := upd s.xstate c 0, pid := upd s.pid c 0, parent := upd s.parent c none
    pc := upd s.pc c .absent }

def Sched.wakeOne (s : Sched) (chan : Chan) (j : Nat) : Sched :=
  if s.state j = .sleeping ∧ s.chan j = chan then { s with state := upd s.state j .runnable } else s

def Sched.goto (s : Sched) (p : Nat) (pc : WaitPc) : Sched := { s with pc := upd s.pc p pc }

/-- `p` goes on from where it stands. `copied` says whether the `copyout` of `wait` succeeds. -/
def Sched.next (s : Sched) (p : Nat) (copied : Bool) : Option Sched :=
  match s.pc p with
  | .forkLink np =>
      if s.waitLock = none then
        some { s with parent := upd s.parent np (some p), pc := upd s.pc p (.forkReady np) }
      else none
  | .forkReady np =>
      if s.locked np = false then
        some { s with
          state := upd s.state np .runnable, pc := upd (upd s.pc np .user) p .user }
      else none
  | .exitEnter status =>
      if s.waitLock = none then
        some { s with waitLock := some p, pc := upd s.pc p (.exitReparent 0 status) }
      else none
  | .exitReparent i status =>
      if nproc ≤ i then
        let chan := match s.parent p with
          | some q => .proc q
          | none => .none
        some (s.goto p (.exitWakeParent 0 chan status))
      else if s.parent i = some p then
        some { s with
          parent := upd s.parent i (some initproc), pc := upd s.pc p (.exitWakeInit i 0 status) }
      else some (s.goto p (.exitReparent (i + 1) status))
  | .exitWakeInit i j status =>
      if nproc ≤ j then some (s.goto p (.exitReparent (i + 1) status))
      else if j = p then some (s.goto p (.exitWakeInit i (j + 1) status))
      else if s.locked j = false then
        some ((s.wakeOne (.proc initproc) j).goto p (.exitWakeInit i (j + 1) status))
      else none
  | .exitWakeParent j chan status =>
      if nproc ≤ j then some (s.goto p (.exitZombie status))
      else if j = p then some (s.goto p (.exitWakeParent (j + 1) chan status))
      else if s.locked j = false then
        some ((s.wakeOne chan j).goto p (.exitWakeParent (j + 1) chan status))
      else none
  | .exitZombie status =>
      if s.locked p = false then
        some { s with
          xstate := upd s.xstate p status, state := upd s.state p .zombie
          locked := upd s.locked p true, pc := upd s.pc p .exitRelease
          exits := s.exits ++ [⟨s.birth p, s.pid p, status⟩] }
      else none
  | .exitRelease => some { s with waitLock := none, pc := upd s.pc p .exitSched }
  | .exitSched => some { s with locked := upd s.locked p false, pc := upd s.pc p .dead }
  | .waitEnter addr =>
      if s.waitLock = none then
        some { s with waitLock := some p, pc := upd s.pc p (.waitScan 0 false addr) }
      else none
  | .waitScan i havekids addr =>
      if nproc ≤ i then
        some (s.goto p (if havekids then .waitKilled addr else .waitReturn))
      else if s.parent i = some p then
        if s.locked i = false then
          if s.state i = .zombie then
            if addr ∧ ¬ copied then some (s.goto p .waitReturn)
            else
              some { (s.freeproc i).goto p .waitReturn with
                reaps := s.reaps ++
                  [⟨p, i, s.birth i, s.pid i, addr, if addr then some (s.xstate i) else none⟩] }
          else some (s.goto p (.waitScan (i + 1) true addr))
        else none
      else some (s.goto p (.waitScan (i + 1) havekids addr))
  | .waitKilled addr =>
      if s.locked p = false then
        some (s.goto p (if s.killed p then .waitReturn else .waitSleep addr))
      else none
  | .waitSleep addr =>
      if s.locked p = false then
        some { s with locked := upd s.locked p true, pc := upd s.pc p (.waitLocked addr) }
      else none
  | .waitLocked addr => some { s with waitLock := none, pc := upd s.pc p (.waitChan addr) }
  | .waitChan addr =>
      some { s with
        chan := upd s.chan p (.proc p), state := upd s.state p .sleeping
        pc := upd s.pc p (.waitAsleep addr) }
  | .waitAsleep addr =>
      some { s with locked := upd s.locked p false, pc := upd s.pc p (.waitSwitched addr) }
  | .waitReturn => some { s with waitLock := none, pc := upd s.pc p .user }
  | .absent => none
  | .user => none
  | .dead => none
  | .waitSwitched _ => none

/-- Whether the process runs its own code: it is RUNNING, or it has changed its state and has yet to
give up the processor. -/
def Sched.onCpu (s : Sched) (p : Nat) : Bool := s.state p = .running || s.locked p

/-- Where a process that gave up the processor in `sleep` goes on: it takes `wait_lock` again. -/
def WaitPc.resume : WaitPc → WaitPc
  | .waitSwitched addr => .waitEnter addr
  | pc => pc

/-- Whether a process at this place holds no lock, so that a timer interrupt can take the processor
from it. -/
def WaitPc.free : WaitPc → Bool
  | .user | .forkLink _ | .forkReady _ | .exitEnter _ | .waitEnter _ => true
  | _ => false

def Sched.step (s : Sched) : SchedAct → Option Sched
  | .schedule p =>
      if p < nproc ∧ s.state p = .runnable ∧ s.locked p = false then
        some { s with
          state := upd s.state p .running, chan := upd s.chan p .none
          pc := upd s.pc p (s.pc p).resume }
      else none
  | .yield p =>
      if s.state p = .running ∧ s.locked p = false ∧ (s.pc p).free = true then
        some { s with state := upd s.state p .runnable }
      else none
  | .sleepOther p k =>
      if s.state p = .running ∧ s.locked p = false ∧ s.pc p = .user then
        some { s with state := upd s.state p .sleeping, chan := upd s.chan p (.other k) }
      else none
  | .wakeOther q =>
      match s.chan q with
      | .other k => if s.locked q = false then some (s.wakeOne (.other k) q) else none
      | _ => none
  | .kill q =>
      if q < nproc ∧ s.locked q = false then
        some { s with
          killed := upd s.killed q true
          state := if s.state q = .sleeping then upd s.state q .runnable else s.state }
      else none
  | .setKilled q =>
      if q < nproc ∧ s.locked q = false then some { s with killed := upd s.killed q true } else none
  | .fork p np ok =>
      if s.state p = .running ∧ s.pc p = .user ∧ np < nproc ∧ s.state np = .unused ∧
          s.locked np = false then
        let t := { s with
          pid := upd s.pid np s.nextpid, birth := upd s.birth np s.nextBirth
          state := upd s.state np .used, nextpid := s.nextpid + 1, nextBirth := s.nextBirth + 1 }
        if ok then some (t.goto p (.forkLink np)) else some (t.freeproc np)
      else none
  | .exit p status =>
      if s.state p = .running ∧ s.pc p = .user ∧ p ≠ initproc then
        some (s.goto p (.exitEnter status))
      else none
  | .wait p addr =>
      if s.state p = .running ∧ s.pc p = .user then some (s.goto p (.waitEnter addr)) else none
  | .next p copied => if s.onCpu p then s.next nproc initproc p copied else none

def Sched.run (s : Sched) : List SchedAct → Option Sched
  | [] => some s
  | a :: as =>
      match s.step nproc initproc a with
      | some t => t.run as
      | none => none

def Sched.boot : Sched where
  state := upd (fun _ => .unused) initproc .runnable
  chan := fun _ => .none
  killed := fun _ => false
  xstate := fun _ => 0
  pid := upd (fun _ => 0) initproc 1
  parent := fun _ => none
  locked := fun _ => false
  pc := upd (fun _ => .absent) initproc .user
  birth := fun _ => 0
  waitLock := none
  nextpid := 2
  nextBirth := 1
  exits := []
  reaps := []

end Xv6Mmap
