import Xv6Mmap.Layout

/-!
# The state of the kernel

Physical memory is a family of 4 KiB pages of 512 words; page tables, trapframes and user data all
live there, so a walk that takes a data page for a page table reads the user's own words. Every
kernel function is a transition on one state which either returns or stops the machine in a
`panic`; system calls and fault handling run one at a time.
-/

namespace Xv6Mmap

/-- Why the machine stopped: the messages of `panic`, a trap taken inside the kernel, a lock that is
never released, and an access outside the bounds of one of the allocator's arrays. -/
inductive Panic where
  | kfree | doubleKfree | kfreeHuge | incrPaRef | kerneltrap | outOfBounds
  | acquire | release | deadlock
  | walk | mappagesSize | mappagesRemap
  | uvmunmapNotAligned | uvmunmapWalk | uvmunmapNotMapped | uvmunmapNotLeaf
  | uvmunmapHugeNotAligned | uvmunmapHugeNotLeaf | munmapNotLeaf | freewalkLeaf
  | uvmcopyPte | uvmcopyNotPresent | uvmclear | uvmfirst | loadseg
  | forkNotLeaf | forkMapped | initExiting
  deriving DecidableEq, Repr

/-- The arrays and counters of `kernel/kalloc.c`. `endAddr` is the linker symbol `end`. -/
structure Kmem where
  endAddr : Nat
  hugepagelist : Nat → Int
  pagelist : Nat → Nat
  paReferenced : Nat → Nat
  hugePaReferenced : Nat → Nat
  freemem : Int
  used4k : Int
  used2m : Int

inductive ProcState where
  | unused | used | sleeping | runnable | running | zombie
  deriving DecidableEq, Repr

/-- `struct proc`, without the fields of the scheduler and of the file system. `parent` is a slot of
the process table; `pagetable` and `trapframe` are physical addresses, zero when absent. -/
structure Proc where
  state : ProcState
  killed : Bool
  xstate : Int
  pid : Nat
  mmapList : Nat → Nat
  parent : Option Nat
  sz : Nat
  pagetable : Nat
  trapframe : Nat

/-- Page number, word of the page, value. -/
abbrev Mem := Nat → Nat → Nat

/-- The whole machine. The last field only observes: it counts the calls of `kalloc` and `kalloc_huge`
that have returned 0. -/
structure Kernel where
  mem : Mem
  kmem : Kmem
  proc : Nat → Proc
  nextpid : Nat
  initproc : Nat
  pagefaults : Nat
  failedAllocs : Nat

abbrev K := EStateM Panic Kernel

/-! ### Updates -/

def upd {α : Type} (f : Nat → α) (i : Nat) (x : α) : Nat → α := fun j => if j = i then x else f j

@[simp]
theorem upd_self {α : Type} (f : Nat → α) (i : Nat) (x : α) : upd f i x i = x := by
  simp [upd]

theorem upd_of_ne {α : Type} (f : Nat → α) {i j : Nat} (x : α) (hne : j ≠ i) :
    upd f i x j = f j := by
  simp [upd, hne]

theorem upd_eq_self {α : Type} (f : Nat → α) (i : Nat) {x : α} (hx : f i = x) : upd f i x = f := by
  funext j
  by_cases hj : j = i
  · rw [hj, upd_self, hx]
  · rw [upd_of_ne f x hj]

theorem upd_upd {α : Type} (f : Nat → α) (i : Nat) (x y : α) : upd (upd f i x) i y = upd f i y := by
  funext j
  by_cases hj : j = i
  · rw [hj, upd_self, upd_self]
  · rw [upd_of_ne _ _ hj, upd_of_ne _ _ hj, upd_of_ne _ _ hj]

def Mem.word (m : Mem) (a : Nat) : Nat := m (a / 4096) (a % 4096 / 8)

def Mem.setWord (m : Mem) (a w : Nat) : Mem :=
  upd m (a / 4096) (upd (m (a / 4096)) (a % 4096 / 8) w)

def Mem.byte (m : Mem) (a : Nat) : Nat := m.word a / 256 ^ (a % 8) % 256

def wordOfBytes : List Nat → Nat
  | [] => 0
  | x :: xs => x % 256 + 256 * wordOfBytes xs

/-- The bytes of `xs` are written from physical address `a` up: a word of the result is put together
from the bytes that fall on it and its old bytes elsewhere. -/
def Mem.setBytes (m : Mem) (a : Nat) (xs : List Nat) : Mem := fun p i =>
  if p * 4096 + i * 8 < a + xs.length ∧ a < p * 4096 + i * 8 + 8 then
    wordOfBytes ((List.range 8).map fun k =>
      let b := p * 4096 + i * 8 + k
      if a ≤ b ∧ b < a + xs.length then xs.getD (b - a) 0 else m.byte b)
  else m p i

def Mem.zeroPages (m : Mem) (p n : Nat) : Mem := fun q =>
  if p ≤ q ∧ q < p + n then fun _ => 0 else m q

def Mem.copyPages (m : Mem) (dst src n : Nat) : Mem := fun q =>
  if dst ≤ q ∧ q < dst + n then m (src + (q - dst)) else m q

/-! ### Access through the kernel's direct map -/

/-- The kernel page table maps RAM from `KERNBASE` to `PHYSTOP`; what lies outside traps. -/
def inRam (a : Nat) : Bool := decide (kernbase ≤ a) && decide (a < phystop)

def loadWord (a : Nat) : K Nat := fun s =>
  if inRam a then .ok (s.mem.word a) s else .error .kerneltrap s

def storeWord (a w : Nat) : K Unit := fun s =>
  if inRam a then .ok () { s with mem := s.mem.setWord a w } else .error .kerneltrap s

def zeroPages (pa n : Nat) : K Unit := fun s =>
  if inRam pa then .ok () { s with mem := s.mem.zeroPages (pa / 4096) n }
  else .error .kerneltrap s

/-- `memmove(dst, src, n * PGSIZE)` between whole pages that do not overlap. -/
def copyPages (dst src n : Nat) : K Unit := fun s =>
  if inRam dst && inRam src then
    .ok () { s with mem := s.mem.copyPages (dst / 4096) (src / 4096) n }
  else .error .kerneltrap s

def getProc (p : Nat) : K Proc := fun s => .ok (s.proc p) s

def modifyProc (p : Nat) (f : Proc → Proc) : K Unit := fun s =>
  .ok () { s with proc := upd s.proc p (f (s.proc p)) }

def modifyKmem (f : Kmem → Kmem) : K Unit := fun s => .ok () { s with kmem := f s.kmem }

def panic {α : Type} (e : Panic) : K α := fun s => .error e s

section Running

variable {α β : Type}

theorem run_getProc_bind (p : Nat) (f : Proc → K α) (s : Kernel) :
    (getProc p >>= f) s = f (s.proc p) s := rfl

theorem run_modifyProc_bind (p : Nat) (g : Proc → Proc) (f : Unit → K α) (s : Kernel) :
    (modifyProc p g >>= f) s = f () { s with proc := upd s.proc p (g (s.proc p)) } := rfl

theorem run_modifyKmem_bind (g : Kmem → Kmem) (f : Unit → K α) (s : Kernel) :
    (modifyKmem g >>= f) s = f () { s with kmem := g s.kmem } := rfl

theorem run_panic_bind (e : Panic) (f : β → K α) (s : Kernel) : (panic e >>= f) s = .error e s := rfl

theorem run_loadWord_bind {a : Nat} (hram : inRam a = true) (f : Nat → K α) (s : Kernel) :
    (loadWord a >>= f) s = f (s.mem.word a) s := by
  show EStateM.bind (loadWord a) f s = _
  simp only [EStateM.bind, loadWord, if_pos hram]

theorem run_storeWord {a : Nat} (hram : inRam a = true) (w : Nat) (s : Kernel) :
    storeWord a w s = .ok () { s with mem := s.mem.setWord a w } := by
  simp only [storeWord, if_pos hram]

theorem run_zeroPages {pa : Nat} (hram : inRam pa = true) (n : Nat) (s : Kernel) :
    zeroPages pa n s = .ok () { s with mem := s.mem.zeroPages (pa / 4096) n } := by
  simp only [zeroPages, if_pos hram]

theorem run_zeroPages_bind {pa : Nat} (hram : inRam pa = true) (n : Nat) (f : Unit → K α)
    (s : Kernel) :
    (zeroPages pa n >>= f) s = f () { s with mem := s.mem.zeroPages (pa / 4096) n } := by
  show EStateM.bind (zeroPages pa n) f s = _
  simp only [EStateM.bind, run_zeroPages hram]

end Running

end Xv6Mmap
