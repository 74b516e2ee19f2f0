import Xv6Mmap.State

/-!
# The physical page allocator

`kernel/kalloc.c`. One array has an entry for each 2 MiB block: `-1` when the block is handed out
whole, and otherwise the number of its base pages in use; another has an entry for each base page:
`0` in use and `1` free. Two more arrays count references.
-/

namespace Xv6Mmap

/-- The conversion of a `uint64` to `int`. -/
def toInt (n : Nat) : Int :=
  let low : Int := (n % 0x100000000 : Nat)
  if low < 0x80000000 then low else low - 0x100000000

def getPageI (pa : Nat) : Int := toInt (uint64 (pa + 0x10000000000000000 - pageStart) / pgsize)

def getHugepageI (pa : Nat) : Int :=
  toInt (uint64 (pa + 0x10000000000000000 - pageStart) / hugepgsize)

def pageindexToPa (i : Nat) : Nat := pageStart + pgsize * i

/-- An index into an array of `size` entries. The model stops where it leaves the array; `KallocRaw` goes
on. -/
def checkIndex (i : Int) (size : Nat) : K Nat :=
  if 0 ≤ i ∧ i < size then pure i.toNat else panic .outOfBounds

/-- A `char` and a `short` hold 8 and 16 bits; `char` is unsigned on RISC-V. -/
def char (n : Nat) : Nat := n % 256

def incrHugePaRef (pa : Nat) : K Unit := do
  let s ← get
  if pa % hugepgsize ≠ 0 ∨ pa < s.kmem.endAddr ∨ phystop ≤ pa then panic .incrPaRef
  let i ← checkIndex (getHugepageI pa) nblocks
  modifyKmem fun k =>
    { k with hugePaReferenced := upd k.hugePaReferenced i (char (k.hugePaReferenced i + 1)) }

def incrPaRef (pa : Nat) : K Unit := do
  let s ← get
  if pa % pgsize ≠ 0 ∨ pa < s.kmem.endAddr ∨ phystop ≤ pa then panic .incrPaRef
  let i ← checkIndex (getPageI pa) npages
  modifyKmem fun k => { k with paReferenced := upd k.paReferenced i (char (k.paReferenced i + 1)) }

def kfree (pa : Nat) : K Unit := do
  let s ← get
  if pa % pgsize ≠ 0 ∨ pa < s.kmem.endAddr ∨ phystop ≤ pa then panic .kfree
  let i ← checkIndex (getPageI pa) npages
  let b ← checkIndex (getHugepageI pa) nblocks
  if s.kmem.pagelist i ≠ 0 then panic .doubleKfree
  if 0 < s.kmem.paReferenced i then
    modifyKmem fun k => { k with paReferenced := upd k.paReferenced i (k.paReferenced i - 1) }
  let s ← get
  if s.kmem.paReferenced i = 0 then
    zeroPages pa 1
    modifyKmem fun k =>
      { k with
        pagelist := upd k.pagelist i 1
        hugepagelist := upd k.hugepagelist b (k.hugepagelist b - 1)
        freemem := k.freemem + 1
        used4k := k.used4k - 1 }

/-- The first block that is partly used, and failing that the first one that is empty. -/
def kallocBlock (k : Kmem) : Option Nat :=
  match (List.range nblocks).find? fun i => 0 < k.hugepagelist i ∧ k.hugepagelist i < 512 with
  | some i => some i
  | none => (List.range nblocks).find? fun i => k.hugepagelist i = 0

def kallocPage (k : Kmem) (b : Nat) : Nat :=
  match (List.range 512).find? fun j => k.pagelist (b * 512 + j) ≠ 0 with
  | some j => b * 512 + j
  | none => b * 512 + 512

def kalloc : K Nat := do
  let s ← get
  match kallocBlock s.kmem with
  | none =>
    modify fun s => { s with failedAllocs := s.failedAllocs + 1 }
    pure 0
  | some b =>
    let i ← checkIndex (kallocPage s.kmem b) npages
    let pa := pageindexToPa i
    modifyKmem fun k => { k with paReferenced := upd k.paReferenced i (char (k.paReferenced i + 1)) }
    let s ← get
    if s.kmem.paReferenced i = 1 then
      zeroPages pa 1
      modifyKmem fun k =>
        { k with
          pagelist := upd k.pagelist i 0
          hugepagelist := upd k.hugepagelist b (k.hugepagelist b + 1)
          freemem := k.freemem - 1
          used4k := k.used4k + 1 }
    pure pa

def kallocHuge : K Nat := do
  let s ← get
  match (List.range nblocks).find? fun i => s.kmem.hugepagelist i = 0 with
  | none =>
    modify fun s => { s with failedAllocs := s.failedAllocs + 1 }
    pure 0
  | some i =>
    let pa := pageStart + hugepgsize * i
    modifyKmem fun k =>
      { k with
        hugepagelist := upd k.hugepagelist i (-1)
        hugePaReferenced := upd k.hugePaReferenced i (char (k.hugePaReferenced i + 1)) }
    zeroPages pa 512
    modifyKmem fun k => { k with freemem := k.freemem - 512, used2m := k.used2m + 1 }
    pure pa

def kfreeHuge (pa : Nat) : K Unit := do
  let s ← get
  if pa % hugepgsize ≠ 0 ∨ pa < s.kmem.endAddr ∨ phystop ≤ pa then panic .kfreeHuge
  let i ← checkIndex (getHugepageI pa) nblocks
  if s.kmem.hugepagelist i ≠ -1 then panic .kfreeHuge
  if 0 < s.kmem.hugePaReferenced i then
    modifyKmem fun k =>
      { k with hugePaReferenced := upd k.hugePaReferenced i (k.hugePaReferenced i - 1) }
  let s ← get
  if s.kmem.hugePaReferenced i = 0 then
    zeroPages pa 512
    modifyKmem fun k =>
      { k with
        hugepagelist := upd k.hugepagelist i 0
        freemem := k.freemem + 512
        used2m := k.used2m - 1 }

def Kmem.bss (endAddr : Nat) : Kmem :=
  { endAddr := endAddr
    hugepagelist := fun _ => 0
    pagelist := fun _ => 0
    paReferenced := fun _ => 0
    hugePaReferenced := fun _ => 0
    freemem := 0
    used4k := 0
    used2m := 0 }

/-- `freerange(end, PHYSTOP)`: the `n` pages from `pa` up are freed one by one. -/
def freerangeFrom : Nat → Nat → K Unit
  | 0, _ => pure ()
  | n + 1, pa => do
    kfree pa
    freerangeFrom n (pa + pgsize)

def freerange (paStart paEnd : Nat) : K Unit := do
  modifyKmem fun k => { k with hugepagelist := fun i => if i < nblocks then 512 else k.hugepagelist i }
  let p := hugepgroundup paStart
  freerangeFrom ((paEnd - p) / pgsize) p

def kinit : K Unit := do
  let s ← get
  freerange s.kmem.endAddr phystop
  modifyKmem fun k => { k with used4k := 0, freemem := k.freemem + 512 }

end Xv6Mmap
