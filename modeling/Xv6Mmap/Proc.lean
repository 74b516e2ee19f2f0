import Xv6Mmap.Vm

/-!
# Processes

The part of `kernel/proc.c` that creates, copies and frees processes and their page tables. A
process is a slot of the process table; the running process, `myproc()`, is an argument.
-/

namespace Xv6Mmap

open Sequential (forUp)

/-- The physical page of the trampoline code, in the kernel's text. -/
def trampolinePa : Nat := 0x80008000

/-! ### Base pages and huge pages

`fork`, `pagefault` and the unmapping code have one branch for each size of page; the two branches
call different functions of the same shape. -/

inductive PageKind where
  | base | huge
  deriving DecidableEq, Repr

namespace PageKind

def size : PageKind → Nat
  | base => pgsize
  | huge => hugepgsize

def walk : PageKind → Nat → Nat → Bool → K Nat
  | base => Xv6Mmap.walk
  | huge => walkHuge

def alloc : PageKind → K Nat
  | base => kalloc
  | huge => kallocHuge

def free : PageKind → Nat → K Unit
  | base => kfree
  | huge => kfreeHuge

def incrRef : PageKind → Nat → K Unit
  | base => incrPaRef
  | huge => incrHugePaRef

def span : PageKind → Nat
  | base => 1
  | huge => 512

end PageKind

def kindOf (flags : Nat) : PageKind := if flags &&& hugeMask ≠ 0 then .huge else .base

/-! ### Page tables of processes -/

def procPagetable (p : Nat) : K Nat := do
  let pagetable ← uvmcreate
  if pagetable = 0 then
    pure 0
  else
    let r ← mappages pagetable trampoline pgsize trampolinePa (pteR ||| pteX)
    if r < 0 then
      uvmfree pagetable 0
      pure 0
    else
      let proc ← getProc p
      let r ← mappages pagetable trapframe pgsize proc.trapframe (pteR ||| pteW)
      if r < 0 then
        uvmunmap pagetable trampoline 1 false
        uvmfree pagetable 0
        pure 0
      else
        pure pagetable

/-- The body of the loops of `sys_munmap` and `proc_freepagetable` over the pages of a base
region: a page that was never touched is skipped. -/
def munmapPage (pagetable a : Nat) : K Unit := do
  let slot ← walk pagetable a false
  if slot ≠ 0 then
    let pte ← loadWord slot
    if isValid pte then
      if pteFlags pte = pteV then panic .munmapNotLeaf
      kfree (pte2pa pte)
      storeWord slot 0

def munmapPages (pagetable addr length : Nat) : K Unit :=
  forUp pgsize (munmapPage pagetable) (pageCount pgsize length) addr

def clearRegion (proc : Proc) (i : Nat) : Proc :=
  { proc with
    mmapList := upd (upd (upd proc.mmapList i 0) (i + 1) 0) (i + 2) 0 }

/-- The loop of `proc_freepagetable` over the recorded regions of `p`, whose pages are looked for in
`pagetable`. -/
def freeRegion (pagetable p i : Nat) : K Unit := do
  let proc ← getProc p
  let addr := proc.mmapList i
  let length := proc.mmapList (i + 1)
  if addr ≠ 0 then
    if proc.mmapList (i + 2) &&& hugeMask ≠ 0 then
      uvmunmapHuge pagetable addr (length / hugepgsize) true
    else
      munmapPages pagetable addr length
    modifyProc p fun proc => clearRegion proc i

def procFreepagetable (pagetable sz p : Nat) : K Unit := do
  uvmunmap pagetable trampoline 1 false
  uvmunmap pagetable trapframe 1 false
  forUp 3 (freeRegion pagetable p) 4 0
  uvmfree pagetable sz

/-! ### Slots of the process table -/

def freeproc (p : Nat) : K Unit := do
  let proc ← getProc p
  if proc.trapframe ≠ 0 then kfree proc.trapframe
  modifyProc p fun proc => { proc with trapframe := 0 }
  if proc.pagetable ≠ 0 then procFreepagetable proc.pagetable proc.sz p
  modifyProc p fun proc =>
    { proc with
      pagetable := 0
      sz := 0
      pid := 0
      parent := none
      killed := false
      xstate := 0
      state := .unused }

def allocpid : K Nat := fun s => .ok s.nextpid { s with nextpid := s.nextpid + 1 }

/-- The new slot, or nothing when the table is full or memory has run out. -/
def allocproc : K (Option Nat) := do
  let s ← get
  match (List.range nproc).find? fun p => (s.proc p).state = .unused with
  | none => pure none
  | some p =>
    let pid ← allocpid
    modifyProc p fun proc => { proc with pid := pid, state := .used }
    let frame ← kalloc
    modifyProc p fun proc => { proc with trapframe := frame }
    if frame = 0 then
      freeproc p
      pure none
    else
      let pagetable ← procPagetable p
      modifyProc p fun proc => { proc with pagetable := pagetable }
      if pagetable = 0 then
        freeproc p
        pure none
      else
        pure (some p)

/-! ### `fork` -/

def createPteFlag (mFlags : Nat) (isSharedNotMapped isCowPrivate : Bool) : Nat :=
  let flags := 1
  let flags := if mFlags &&& protMask = protRead then flags + 2 else flags + 6
  let flags := flags + 16
  let flags := if mFlags &&& flagMask = mapPrivate then flags + 256 else flags
  let flags := if isSharedNotMapped then flags - 1 + 512 else flags
  if isCowPrivate then
    let flags := flags + 512
    if mFlags &&& protMask = protWrite then flags - 4 else flags
  else flags

def copyFlags (p np i : Nat) : K Unit := do
  let parent ← getProc p
  modifyProc np fun child => { child with mmapList := upd child.mmapList (i + 2) (parent.mmapList (i + 2)) }

def forkCopyEntry (kind : PageKind) (newtable oldSlot a : Nat) : K Unit := do
  let newSlot ← kind.walk newtable a true
  let pte ← loadWord oldSlot
  storeWord newSlot pte

/-- A page of a `MAP_SHARED` region. A page that nobody has touched yet gets a placeholder in both
tables: not valid, with bit 9 set. -/
def forkSharedPage (kind : PageKind) (p np i flags a : Nat) : K Unit := do
  let parent ← getProc p
  let child ← getProc np
  let found ← kind.walk parent.pagetable a false
  let slot ← if found = 0 then kind.walk parent.pagetable a true else pure found
  let pte ← loadWord slot
  if !isValid pte then
    storeWord slot (createPteFlag flags true false)
    forkCopyEntry kind child.pagetable slot a
    copyFlags p np i
  else
    if pteFlags pte = pteV then panic .forkNotLeaf
    let oldSlot ← kind.walk parent.pagetable a false
    if oldSlot = 0 then panic .forkMapped
    forkCopyEntry kind child.pagetable oldSlot a
    copyFlags p np i
    let pte ← loadWord oldSlot
    kind.incrRef (pte2pa pte)

/-- A page of a `MAP_PRIVATE` region. A page that is present is shared as it is when read-only, and
else marked copy-on-write on both sides. -/
def forkPrivatePage (kind : PageKind) (p np i flags a : Nat) : K Unit := do
  let parent ← getProc p
  let child ← getProc np
  let slot ← kind.walk parent.pagetable a false
  if slot = 0 then
    copyFlags p np i
  else
    let pte ← loadWord slot
    if !isValid pte then
      copyFlags p np i
    else
      if pteFlags pte = pteV then panic .forkNotLeaf
      if flags &&& protMask ≠ protRead then
        storeWord slot ((pte - (pte &&& 0x3FF)) ||| createPteFlag flags false true)
      let oldSlot ← kind.walk parent.pagetable a false
      if oldSlot = 0 then panic .forkMapped
      forkCopyEntry kind child.pagetable oldSlot a
      copyFlags p np i
      let pte ← loadWord oldSlot
      kind.incrRef (pte2pa pte)

def forkRegion (p np i : Nat) : K Unit := do
  let parent ← getProc p
  let addr := parent.mmapList i
  let length := parent.mmapList (i + 1)
  let flags := parent.mmapList (i + 2)
  if addr ≠ 0 then
    modifyProc np fun child =>
      { child with
        mmapList := upd (upd child.mmapList i addr) (i + 1) length }
    let kind := kindOf flags
    if flags &&& flagMask = mapShared then
      forUp kind.size (forkSharedPage kind p np i flags) (pageCount kind.size length) addr
    else if flags &&& flagMask = mapPrivate then
      forUp kind.size (forkPrivatePage kind p np i flags) (pageCount kind.size length) addr

def trapframeWords : Nat := 36

def copyTrapframe (dst src : Nat) : K Unit := fun s =>
  if inRam dst && inRam src then
    .ok () { s with mem := upd s.mem (dst / 4096) fun i =>
      if i < trapframeWords then s.mem (src / 4096) i else s.mem (dst / 4096) i }
  else .error .kerneltrap s

def tfEpc : Nat := 24

def tfSp : Nat := 48

def tfA0 : Nat := 112

def tfA1 : Nat := 120

def fork (p : Nat) : K Int := do
  match ← allocproc with
  | none => pure (-1)
  | some np =>
    let parent ← getProc p
    let child ← getProc np
    let r ← uvmcopy parent.pagetable child.pagetable parent.sz
    if r < 0 then
      freeproc np
      pure (-1)
    else
      modifyProc np fun child => { child with sz := parent.sz }
      forUp 3 (forkRegion p np) 4 0
      copyTrapframe child.trapframe parent.trapframe
      storeWord (child.trapframe + tfA0) 0
      modifyProc np fun child => { child with parent := some p }
      modifyProc np fun child => { child with state := .runnable }
      pure child.pid

/-! ### `exit` and `wait` -/

def reparent (p : Nat) : K Unit := do
  let s ← get
  forUp 1 (fun pp => modifyProc pp fun proc =>
    if proc.parent = some p then { proc with parent := some s.initproc } else proc) nproc 0

def exit (p : Nat) (status : Int) : K Unit := do
  let s ← get
  if p = s.initproc then panic .initExiting
  reparent p
  modifyProc p fun proc => { proc with xstate := status, state := .zombie }

def intBytes (n : Int) : List Nat :=
  let u := (n % 0x100000000).toNat
  [u % 256, u / 256 % 256, u / 65536 % 256, u / 16777216 % 256]

/-- `none` when the caller goes to sleep, to look again when it is woken. -/
def wait (p addr : Nat) : K (Option Int) := do
  let s ← get
  match (List.range nproc).find? fun pp =>
      (s.proc pp).parent = some p ∧ (s.proc pp).state = .zombie with
  | some pp =>
    let r ← if addr ≠ 0 then copyout (s.proc p).pagetable addr (intBytes (s.proc pp).xstate)
      else pure 0
    if r < 0 then
      pure (some (-1))
    else
      freeproc pp
      pure (some (s.proc pp).pid)
  | none =>
    if ((List.range nproc).all fun pp => (s.proc pp).parent ≠ some p) || (s.proc p).killed then
      pure (some (-1))
    else
      pure none

/-! ### The first process -/

def initcode : List Nat :=
  [0x17, 0x05, 0x00, 0x00, 0x13, 0x05, 0x45, 0x02,
    0x97, 0x05, 0x00, 0x00, 0x93, 0x85, 0x35, 0x02,
    0x93, 0x08, 0x70, 0x00, 0x73, 0x00, 0x00, 0x00,
    0x93, 0x08, 0x20, 0x00, 0x73, 0x00, 0x00, 0x00,
    0xef, 0xf0, 0x9f, 0xff, 0x2f, 0x69, 0x6e, 0x69,
    0x74, 0x00, 0x00, 0x24, 0x00, 0x00, 0x00, 0x00,
    0x00, 0x00, 0x00, 0x00]

def uvmfirst (pagetable : Nat) (src : List Nat) : K Unit := do
  if pgsize ≤ src.length then panic .uvmfirst
  let mem ← kalloc
  zeroPages mem 1
  let _ ← mappages pagetable 0 pgsize mem (pteW ||| pteR ||| pteX ||| pteU)
  storeBytes mem src

/-- `allocproc` is not checked here; without a page table the first use of it traps. -/
def userinit : K Unit := do
  match ← allocproc with
  | none => panic .kerneltrap
  | some p =>
    modify fun s => { s with initproc := p }
    let proc ← getProc p
    uvmfirst proc.pagetable initcode
    modifyProc p fun proc => { proc with sz := pgsize }
    storeWord (proc.trapframe + tfEpc) 0
    storeWord (proc.trapframe + tfSp) pgsize
    modifyProc p fun proc => { proc with state := .runnable }

end Xv6Mmap
