import Xv6Mmap.Kalloc
import Xv6Mmap.Lib.Bytes
import Xv6Mmap.Lib.Wp

/-!
# The allocator as it is compiled

`kernel/kalloc.c` once more, with `kmem` as the bytes that `kernel/kernel.asm` addresses. The lock and
the four arrays lie one after the other in one `struct`, so that an index outside of its array reaches
another member; only an access that leaves the `struct` stops this model. Calls run one at a time.
-/

namespace Xv6Mmap.Raw

open Bytes (splice ofNat)
open Sequential

def lockedAt : Int := 0

def nameAt : Int := 8

def cpuAt : Int := 16

/-- Where entry `i` of an array lies that starts at `start` and has entries of `width` bytes. -/
def place (start width : Nat) (i : Int) : Int := start + width * i

def hugepagelistAt : Int → Int := place 24 2

def pagelistAt : Int → Int := place 150 1

def paReferencedAt : Int → Int := place 32406 1

def hugePaReferencedAt : Int → Int := place 64662 1

def kmemSize : Nat := 64728

/-- The bytes of `kmem`, the counters beside it, and the memory from `end` up, which `memset` clears.
`mycpu` is the address that the function of this name returns. -/
structure Memory where
  endAddr : Nat
  mycpu : Nat
  kmem : Nat → UInt8
  freemem : Int
  used4k : Int
  used2m : Int
  mem : Mem

abbrev M := EStateM Panic Memory

/-! ### Access -/

def load (o : Int) (n : Nat) : M Nat := fun s =>
  if 0 ≤ o ∧ o + n ≤ kmemSize then .ok (Bytes.get s.kmem o.toNat n) s else .error .outOfBounds s

def store (o : Int) (n v : Nat) : M Unit := fun s =>
  if 0 ≤ o ∧ o + n ≤ kmemSize then .ok () { s with kmem := splice s.kmem (ofNat v) o.toNat n }
  else .error .outOfBounds s

def toShort (n : Nat) : Int := if n < 0x8000 then n else n - 0x10000

def ofShort (i : Int) : Nat := (i % 0x10000).toNat

def incrChar (o : Int) : M Unit := do
  let n ← load o 1
  store o 1 (n + 1)

def decrChar (o : Int) : M Unit := do
  let n ← load o 1
  store o 1 (n + 255)

def addShort (o d : Int) : M Unit := do
  let n ← load o 2
  store o 2 (ofShort (toShort n + d))

def zeroPages (pa n : Nat) : M Unit := fun s =>
  if inRam pa then .ok () { s with mem := s.mem.zeroPages (pa / 4096) n } else .error .kerneltrap s

def Memory.entry (s : Memory) (start width count i : Nat) : Nat :=
  if i < count then Bytes.get s.kmem (start + width * i) width else 0

def Memory.arrays (s : Memory) : Kmem :=
  { endAddr := s.endAddr
    hugepagelist := fun i => toShort (s.entry 24 2 nblocks i)
    pagelist := s.entry 150 1 npages
    paReferenced := s.entry 32406 1 npages
    hugePaReferenced := s.entry 64662 1 nblocks
    freemem := s.freemem
    used4k := s.used4k
    used2m := s.used2m }

/-! ### The lock -/

def initlock (name : Nat) : M Unit := do
  store nameAt 8 name
  store lockedAt 4 0
  store cpuAt 8 0

def holding : M Bool := do
  let locked ← load lockedAt 4
  let cpu ← load cpuAt 8
  let s ← get
  pure (locked ≠ 0 ∧ cpu = s.mycpu)

def acquire : M Unit := do
  if ← holding then throw .acquire
  -- nobody else runs who could release the lock
  if (← load lockedAt 4) ≠ 0 then throw .deadlock
  store lockedAt 4 1
  let s ← get
  store cpuAt 8 s.mycpu

def release : M Unit := do
  if !(← holding) then throw .release
  store cpuAt 8 0
  store lockedAt 4 0

/-! ### `kalloc.c` -/

def incrHugePaRef (pa : Nat) : M Unit := do
  let s ← get
  if pa % hugepgsize ≠ 0 ∨ pa < s.endAddr ∨ phystop ≤ pa then throw .incrPaRef
  acquire
  incrChar (hugePaReferencedAt (getHugepageI pa))
  release

def incrPaRef (pa : Nat) : M Unit := do
  let s ← get
  if pa % pgsize ≠ 0 ∨ pa < s.endAddr ∨ phystop ≤ pa then throw .incrPaRef
  acquire
  incrChar (paReferencedAt (getPageI pa))
  release

def kfree (pa : Nat) : M Unit := do
  let s ← get
  if pa % pgsize ≠ 0 ∨ pa < s.endAddr ∨ phystop ≤ pa then throw .kfree
  let pageI := getPageI pa
  let hugePageI := getHugepageI pa
  acquire
  if (← load (pagelistAt pageI) 1) ≠ 0 then
    release
    throw .doubleKfree
  if 0 < (← load (paReferencedAt pageI) 1) then decrChar (paReferencedAt pageI)
  if (← load (paReferencedAt pageI) 1) = 0 then
    zeroPages pa 1
    store (pagelistAt pageI) 1 1
    addShort (hugepagelistAt hugePageI) (-1)
    modify fun s => { s with freemem := s.freemem + 1, used4k := s.used4k - 1 }
  release

/-- The searches read the arrays at indices within them. -/
def kalloc : M Nat := do
  acquire
  let s ← get
  match kallocBlock s.arrays with
  | none =>
    release
    pure 0
  | some hugePageI =>
    let pageI := kallocPage s.arrays hugePageI
    incrChar (paReferencedAt pageI)
    if (← load (paReferencedAt pageI) 1) = 1 then
      zeroPages (pageindexToPa pageI) 1
      store (pagelistAt pageI) 1 0
      addShort (hugepagelistAt hugePageI) 1
      modify fun s => { s with freemem := s.freemem - 1, used4k := s.used4k + 1 }
    release
    pure (pageindexToPa pageI)

def kallocHuge : M Nat := do
  acquire
  let s ← get
  match (List.range nblocks).find? fun i => s.arrays.hugepagelist i = 0 with
  | none =>
    release
    pure 0
  | some i =>
    store (hugepagelistAt i) 2 (ofShort (-1))
    incrChar (hugePaReferencedAt i)
    let pa := pageStart + hugepgsize * i
    zeroPages pa 512
    modify fun s => { s with freemem := s.freemem - 512, used2m := s.used2m + 1 }
    release
    pure pa

def kfreeHuge (pa : Nat) : M Unit := do
  let s ← get
  if pa % hugepgsize ≠ 0 ∨ pa < s.endAddr ∨ phystop ≤ pa then throw .kfreeHuge
  acquire
  let hugepageI := getHugepageI pa
  if toShort (← load (hugepagelistAt hugepageI) 2) ≠ -1 then throw .kfreeHuge
  if 0 < (← load (hugePaReferencedAt hugepageI) 1) then decrChar (hugePaReferencedAt hugepageI)
  if (← load (hugePaReferencedAt hugepageI) 1) = 0 then
    zeroPages pa 512
    store (hugepagelistAt hugepageI) 2 0
    modify fun s => { s with freemem := s.freemem + 512, used2m := s.used2m - 1 }
  release

def freerangeFrom : Nat → Nat → M Unit
  | 0, _ => pure ()
  | n + 1, pa => do
    kfree pa
    freerangeFrom n (pa + pgsize)

def freerange (paStart paEnd : Nat) : M Unit := do
  acquire
  forUp 1 (fun i => store (hugepagelistAt i) 2 512) nblocks 0
  release
  let p := hugepgroundup paStart
  freerangeFrom ((paEnd - p) / pgsize) p

/-- `name` is the address of the string "kmem". -/
def kinit (name : Nat) : M Unit := do
  initlock name
  acquire
  release
  let s ← get
  freerange s.endAddr phystop
  modify fun s => { s with used4k := 0, freemem := s.freemem + 512 }

def powerOn (endAddr mycpu : Nat) (m : Mem) : Memory :=
  { endAddr := endAddr
    mycpu := mycpu
    kmem := fun _ => 0
    freemem := 0
    used4k := 0
    used2m := 0
    mem := m }

end Xv6Mmap.Raw
