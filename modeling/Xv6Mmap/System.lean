import Xv6Mmap.Sysproc
import Xv6Mmap.Exec

/-!
# Runs of the system

What the hardware does with a user page table, and the events a run is made of: system calls and
single attempts of user loads and stores, by any process, in any order.
-/

namespace Xv6Mmap

/-! ### Sv39 -/

structure Leaf where
  pte : Nat
  pa : Nat
  deriving DecidableEq, Repr

/-- The hardware walk below a table at `level`. An entry that is writable and not readable is
reserved; the address in a leaf above level 0 must be aligned to what the leaf covers. -/
def sv39From (m : Mem) (va : Nat) : Nat → Nat → Option Leaf
  | level, table =>
    let pte := m.word (table + 8 * px level va)
    let width := 2 ^ (12 + 9 * level)
    if !isValid pte || (pte &&& pteR == 0 && pte &&& pteW != 0) then none
    else if pte &&& (pteR ||| pteX) ≠ 0 then
      if pte2pa pte % width = 0 then some ⟨pte, pte2pa pte + va % width⟩ else none
    else
      match level with
      | 0 => none
      | level + 1 => sv39From m va level (pte2pa pte)

/-- The leaf that translates `va`. The bits of accessed and dirty pages are not modelled: no code
of the kernel reads or writes them. -/
def sv39 (m : Mem) (pagetable va : Nat) : Option Leaf :=
  if maxva ≤ va then none else sv39From m va 2 pagetable

def Leaf.userCanLoad (leaf : Leaf) : Bool := leaf.pte &&& pteU != 0 && leaf.pte &&& pteR != 0

def Leaf.userCanStore (leaf : Leaf) : Bool := leaf.pte &&& pteU != 0 && leaf.pte &&& pteW != 0

/-! ### User accesses -/

def tryLoad (p va : Nat) : K (Option Nat) := do
  let s ← get
  match (sv39 s.mem (s.proc p).pagetable va).filter Leaf.userCanLoad with
  | some leaf => pure (some (s.mem.byte leaf.pa))
  | none =>
    pagefault p 13 va
    pure none

def tryStore (p va x : Nat) : K Bool := do
  let s ← get
  match (sv39 s.mem (s.proc p).pagetable va).filter Leaf.userCanStore with
  | some leaf =>
    set { s with mem := s.mem.setBytes leaf.pa [x] }
    pure true
  | none =>
    pagefault p 15 va
    pure false

/-! ### Events -/

inductive Op where
  | mmap (addr : Nat) (length prot flags : Int)
  | munmap (addr : Nat)
  | load (va : Nat)
  | store (va x : Nat)
  | fork
  | exit (status : Int)
  | wait (addr : Nat)
  | exec (file : Option (List Nat)) (argv : List (List Nat))

/-- A killed process does nothing but exit. -/
def canRun (s : Kernel) (p : Nat) (op : Op) : Bool :=
  decide (p < nproc) && decide ((s.proc p).state = .runnable) &&
    (!(s.proc p).killed || op matches .exit _)

def step (p : Nat) (op : Op) : K Unit := do
  let s ← get
  if canRun s p op then
    match op with
    | .mmap addr length prot flags => let _ ← sysMmap p addr length prot flags
    | .munmap addr => let _ ← sysMunmap p addr
    | .load va => let _ ← tryLoad p va
    | .store va x => let _ ← tryStore p va x
    | .fork => let _ ← fork p
    | .exit status => exit p status
    | .wait addr => let _ ← wait p addr
    | .exec file argv => let _ ← exec p file argv

def run : List (Nat × Op) → K Unit
  | [] => pure ()
  | (p, op) :: events => do
    step p op
    run events

/-! ### Boot -/

def Proc.empty : Proc :=
  { state := .unused
    killed := false
    xstate := 0
    pid := 0
    mmapList := fun _ => 0
    parent := none
    sz := 0
    pagetable := 0
    trapframe := 0 }

def powerOn (endAddr : Nat) (m : Mem) : Kernel :=
  { mem := m
    kmem := Kmem.bss endAddr
    proc := fun _ => Proc.empty
    nextpid := 1
    initproc := 0
    pagefaults := 0
    failedAllocs := 0 }

/-- The pages that the kernel takes for its own page table, its stacks and the disk driver, and
never gives back. -/
def kallocs : Nat → K Unit
  | 0 => pure ()
  | n + 1 => do
    let _ ← kalloc
    kallocs n

/-- `main`, as far as memory is concerned; `n` is the number of pages the kernel takes for itself. -/
def boot (n : Nat) : K Unit := do
  kinit
  kallocs n
  userinit

end Xv6Mmap
