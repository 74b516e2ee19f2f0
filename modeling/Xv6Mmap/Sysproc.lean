import Xv6Mmap.Proc

/-!
# `mmap`, `munmap` and page faults

`sys_mmap` and `sys_munmap` of `kernel/sysproc.c`, and `pagefault` of `kernel/proc.c`. Pages are
allocated when they are first touched. A process records at most four regions, each as three words
of `mmap_list`: address, length, and `prot | flags`.
-/

namespace Xv6Mmap

open Sequential (forUp)

/-! ### Recording regions -/

def emptySlot (proc : Proc) : Option Nat := [0, 3, 6, 9].find? fun i => proc.mmapList i = 0

/-- `sys_mmap` refuses a region that meets a recorded one at its start or its end. -/
def overlaps (proc : Proc) (addr length : Nat) : Bool :=
  [0, 3, 6, 9].any fun i =>
    let va := proc.mmapList i
    let s := proc.mmapList (i + 1)
    (decide (va ≤ addr) && decide (addr < va + s)) ||
      (decide (addr ≤ va) && decide (va < addr + length))

def mmapArgsOk (addr : Nat) (length prot flags : Int) : Bool :=
  decide (phystop ≤ addr) && decide (addr ≤ maxva - 0x10000000) && decide (addr % pgsize = 0) &&
    decide (0 < length) && decide (length ≤ 32 * hugepgsize) &&
    (decide (prot = protRead) || decide (prot = protWrite)) &&
    (decide (flags = mapPrivate) || decide (flags = mapShared) ||
      decide (flags = mapPrivate + mapHugepage) || decide (flags = mapShared + mapHugepage))

def mmapLength (length flags : Int) : Nat :=
  if flags > mapShared then hugepgroundup length.toNat else pgroundup length.toNat

def sysMmap (p addr : Nat) (length prot flags : Int) : K Nat := do
  if !mmapArgsOk addr length prot flags then
    pure 0
  else
    let length := mmapLength length flags
    let proc ← getProc p
    if overlaps proc addr length then
      pure 0
    else
      match emptySlot proc with
      -- the region is not recorded, and the call succeeds all the same
      | none => pure addr
      | some i =>
        modifyProc p fun proc =>
          { proc with
            mmapList := upd (upd (upd proc.mmapList i addr) (i + 1) length) (i + 2)
              (prot.toNat ||| flags.toNat) }
        pure addr

def sysMunmap (p addr : Nat) : K Int := do
  if addr % 4096 ≠ 0 ∨ addr < phystop ∨ maxva - 0x10000000 < addr then
    pure (-1)
  else
    let proc ← getProc p
    match [0, 3, 6, 9].find? fun i => addr = proc.mmapList i with
    | none => pure (-1)
    | some i =>
      let length := proc.mmapList (i + 1)
      if hugeMask &&& proc.mmapList (i + 2) ≠ 0 then
        uvmunmapHuge proc.pagetable addr (length / (4096 * 512)) true
      else
        munmapPages proc.pagetable addr length
      modifyProc p fun proc => clearRegion proc i
      pure 0

/-! ### Page faults -/

def findRegion (proc : Proc) (va : Nat) : Option Nat :=
  [0, 3, 6, 9].find? fun i => proc.mmapList i ≠ 0 ∧ proc.mmapList i ≤ va ∧
    va < proc.mmapList i + proc.mmapList (i + 1)

def faultPerm (b : Nat) : Nat :=
  let perm := 1
  let perm := if b &&& protMask = protRead then perm + 2 else perm + 6
  let perm := perm + 16
  if b &&& flagMask = mapPrivate then perm + 256 else perm

/-- Bit 9 without bit 8, and readable: with the valid bit off, a shared page nobody has touched. -/
def isPlaceholder (pte : Nat) : Bool :=
  pte &&& pteCow == 0x200 && pte &&& pteR != 0

/-- Bits 8 and 9, and readable: a private page that is copied on the first write. -/
def isCow (pte : Nat) : Bool := pte &&& pteCow == 0x300 && pte &&& pteR != 0

def setkilled (p : Nat) : K Unit := modifyProc p fun proc => { proc with killed := true }

/-- One round of the loop that maps a shared page, now allocated at `pa`, in every other process
that holds a placeholder for it. -/
def connect (kind : PageKind) (p addr leafSlot pa np : Nat) : K Unit := do
  let self ← getProc p
  let proc ← getProc np
  if proc.pagetable ≠ 0 ∧ proc.pid ≠ self.pid then
    let slot ← kind.walk proc.pagetable addr false
    if slot ≠ 0 then
      let pte ← loadWord slot
      if isPlaceholder pte && !isValid pte then
        let leaf ← loadWord leafSlot
        storeWord slot leaf
        kind.incrRef pa

/-- The branch of `pagefault` for one kind of page; `addr` is the start of the page and `b` the
third word of its region. -/
def faultPage (kind : PageKind) (p scause addr b : Nat) : K Unit := do
  let proc ← getProc p
  let slot ← kind.walk proc.pagetable addr true
  let pte ← loadWord slot
  if isValid pte then
    if scause = 15 ∧ pte &&& pteW = 0 then
      if isCow pte then
        let newPage ← kind.alloc
        copyPages newPage (pte2pa pte) kind.span
        kind.free (pte2pa pte)
        storeWord slot (pa2pte newPage ||| createPteFlag b false false)
      else
        setkilled p
  else
    if isPlaceholder pte then
      let pa ← kind.alloc
      storeWord slot (pa2pte pa ||| faultPerm b)
      forUp 1 (connect kind p addr slot pa) nproc 0
    else
      let pa ← kind.alloc
      storeWord slot (pa2pte pa ||| faultPerm b)

def pagefault (p scause stval : Nat) : K Unit := do
  modify fun s => { s with pagefaults := s.pagefaults + 1 }
  let proc ← getProc p
  match findRegion proc stval with
  | none => setkilled p
  | some i =>
    let b := proc.mmapList (i + 2)
    let kind := kindOf b
    let addr := stval / kind.size * kind.size
    faultPage kind p scause addr b

end Xv6Mmap
