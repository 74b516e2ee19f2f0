import Xv6Mmap.Kalloc
import Xv6Mmap.Lib.Wp

/-!
# User page tables

The part of `kernel/vm.c` that works on user page tables. A page table is the physical address of
its root page; a pointer to an entry is the physical address of the entry, zero for none.
-/

namespace Xv6Mmap

open Sequential (forUp)

def isValid (pte : Nat) : Bool := pte &&& pteV != 0

/-- None of the bits that make a valid entry a leaf. -/
def isTable (pte : Nat) : Bool := isValid pte && pte &&& (pteR ||| pteW ||| pteX) == 0

/-- The iterations of `for(a = addr; a < addr + length; a += step)`. -/
def pageCount (step length : Nat) : Nat := (length + step - 1) / step

/-! ### Walking -/

/-- One round of the loop of `walk` and `walk_huge`: the table below `pagetable` on the way to `va`,
which is created when it is missing and `alloc` is set. -/
def walkLevel (pagetable level va : Nat) (alloc : Bool) : K (Option Nat) := do
  let slot := pagetable + 8 * px level va
  let pte ← loadWord slot
  if isValid pte then
    pure (some (pte2pa pte))
  else if alloc then
    let page ← kalloc
    if page = 0 then
      pure none
    else
      zeroPages page 1
      storeWord slot (pa2pte page ||| pteV)
      pure (some page)
  else
    pure none

def walk (pagetable va : Nat) (alloc : Bool) : K Nat := do
  if maxva ≤ va then panic .walk
  match ← walkLevel pagetable 2 va alloc with
  | none => pure 0
  | some middle =>
    match ← walkLevel middle 1 va alloc with
    | none => pure 0
    | some low => pure (low + 8 * px 0 va)

def walkHuge (pagetable va : Nat) (alloc : Bool) : K Nat := do
  if maxva ≤ va then panic .walk
  match ← walkLevel pagetable 2 va alloc with
  | none => pure 0
  | some middle =>
    let slot := middle + 8 * px 1 va
    let pte ← loadWord slot
    -- a valid non-leaf: the table below is freed and the entry loses its valid bit
    if isTable pte then
      kfree (pte2pa pte)
      let pte ← loadWord slot
      storeWord slot (pte - 1)
    pure slot

def walkaddr (pagetable va : Nat) : K Nat := do
  if maxva ≤ va then
    pure 0
  else
    let slot ← walk pagetable va false
    if slot = 0 then
      pure 0
    else
      let pte ← loadWord slot
      if isValid pte ∧ pte &&& pteU ≠ 0 then pure (pte2pa pte) else pure 0

/-! ### Mapping and unmapping -/

def mapPage (pagetable a pa perm : Nat) : K Int := do
  let slot ← walk pagetable a true
  if slot = 0 then
    pure (-1)
  else
    let pte ← loadWord slot
    if isValid pte then panic .mappagesRemap
    storeWord slot (pa2pte pa ||| perm ||| pteV)
    pure 0

def mappagesFrom (pagetable perm : Nat) : Nat → Nat → Nat → K Int
  | 0, a, pa => mapPage pagetable a pa perm
  | n + 1, a, pa => do
    let r ← mapPage pagetable a pa perm
    if r < 0 then
      pure (-1)
    else
      mappagesFrom pagetable perm n (a + pgsize) (uint64 (pa + pgsize))

def mappages (pagetable va size pa perm : Nat) : K Int := do
  if size = 0 then panic .mappagesSize
  let a := pgrounddown va
  let last := pgrounddown (va + size - 1)
  mappagesFrom pagetable perm ((last - a) / pgsize) a pa

def unmapPage (pagetable : Nat) (doFree : Bool) (a : Nat) : K Unit := do
  let slot ← walk pagetable a false
  if slot = 0 then panic .uvmunmapWalk
  let pte ← loadWord slot
  if !isValid pte then panic .uvmunmapNotMapped
  if pteFlags pte = pteV then panic .uvmunmapNotLeaf
  if doFree then kfree (pte2pa pte)
  storeWord slot 0

def uvmunmap (pagetable va n : Nat) (doFree : Bool) : K Unit := do
  if va % pgsize ≠ 0 then panic .uvmunmapNotAligned
  forUp pgsize (unmapPage pagetable doFree) n va

/-- The body of the loop of `uvmunmap_huge`: entries that are missing or not valid are skipped. -/
def unmapHugePage (pagetable : Nat) (doFree : Bool) (a : Nat) : K Unit := do
  let slot ← walkHuge pagetable a false
  if slot ≠ 0 then
    let pte ← loadWord slot
    if isValid pte then
      if pteFlags pte = pteV then panic .uvmunmapHugeNotLeaf
      if doFree then kfreeHuge (pte2pa pte)
      storeWord slot 0

def uvmunmapHuge (pagetable va n : Nat) (doFree : Bool) : K Unit := do
  if va % hugepgsize ≠ 0 then panic .uvmunmapHugeNotAligned
  forUp hugepgsize (unmapHugePage pagetable doFree) n va

/-! ### User memory -/

def uvmcreate : K Nat := do
  let pagetable ← kalloc
  if pagetable ≠ 0 then zeroPages pagetable 1
  pure pagetable

def uvmdealloc (pagetable oldsz newsz : Nat) : K Nat := do
  if oldsz ≤ newsz then
    pure oldsz
  else
    if pgroundup newsz < pgroundup oldsz then
      uvmunmap pagetable (pgroundup newsz) ((pgroundup oldsz - pgroundup newsz) / pgsize) true
    pure newsz

/-- The loop of `uvmalloc`, `n` pages from `a` up; `oldsz` is the rounded old size. -/
def uvmallocFrom (pagetable oldsz newsz perm : Nat) : Nat → Nat → K Nat
  | 0, _ => pure newsz
  | n + 1, a => do
    let mem ← kalloc
    if mem = 0 then
      let _ ← uvmdealloc pagetable a oldsz
      pure 0
    else
      zeroPages mem 1
      let r ← mappages pagetable a pgsize mem (pteR ||| pteU ||| perm)
      if r ≠ 0 then
        kfree mem
        let _ ← uvmdealloc pagetable a oldsz
        pure 0
      else
        uvmallocFrom pagetable oldsz newsz perm n (a + pgsize)

def uvmalloc (pagetable oldsz newsz xperm : Nat) : K Nat := do
  if newsz < oldsz then
    pure oldsz
  else
    let oldsz := pgroundup oldsz
    uvmallocFrom pagetable oldsz newsz xperm (pageCount pgsize (newsz - oldsz)) oldsz

/-- The recursion is as deep as the tree, three levels; the kernel stack ends it on anything else. -/
def freewalk : Nat → Nat → K Unit
  | 0, _ => panic .kerneltrap
  | depth + 1, pagetable => do
    forUp 8 (fun slot => do
      let pte ← loadWord slot
      if isTable pte then
        freewalk depth (pte2pa pte)
        storeWord slot 0
      else if isValid pte then
        panic .freewalkLeaf) 512 pagetable
    kfree pagetable

def stackDepth : Nat := 64

def uvmfree (pagetable sz : Nat) : K Unit := do
  if 0 < sz then uvmunmap pagetable 0 (pgroundup sz / pgsize) true
  freewalk stackDepth pagetable

def uvmcopyFrom (old new : Nat) : Nat → Nat → K Int
  | 0, _ => pure 0
  | n + 1, i => do
    let slot ← walk old i false
    if slot = 0 then panic .uvmcopyPte
    let pte ← loadWord slot
    if !isValid pte then panic .uvmcopyNotPresent
    let mem ← kalloc
    if mem = 0 then
      uvmunmap new 0 (i / pgsize) true
      pure (-1)
    else
      copyPages mem (pte2pa pte) 1
      let r ← mappages new i pgsize mem (pteFlags pte)
      if r ≠ 0 then
        kfree mem
        uvmunmap new 0 (i / pgsize) true
        pure (-1)
      else
        uvmcopyFrom old new n (i + pgsize)

def uvmcopy (old new sz : Nat) : K Int := uvmcopyFrom old new (pageCount pgsize sz) 0

def uvmclear (pagetable va : Nat) : K Unit := do
  let slot ← walk pagetable va false
  if slot = 0 then panic .uvmclear
  let pte ← loadWord slot
  storeWord slot (pte - (pte &&& pteU))

/-! ### Copying between kernel and user -/

def storeBytes (a : Nat) (xs : List Nat) : K Unit := fun s =>
  if inRam a then .ok () { s with mem := s.mem.setBytes a xs } else .error .kerneltrap s

/-- Every round copies at least one byte, so `src.length` rounds are enough. -/
def copyoutFrom (pagetable : Nat) : Nat → Nat → List Nat → K Int
  | _, _, [] => pure 0
  | 0, _, _ :: _ => pure (-1)
  | rounds + 1, dstva, x :: src => do
    let va0 := pgrounddown dstva
    let pa0 ← walkaddr pagetable va0
    if pa0 = 0 then
      pure (-1)
    else
      let n := min (pgsize - (dstva - va0)) (x :: src).length
      storeBytes (pa0 + (dstva - va0)) ((x :: src).take n)
      copyoutFrom pagetable rounds (uint64 (va0 + pgsize)) ((x :: src).drop n)

def copyout (pagetable dstva : Nat) (src : List Nat) : K Int :=
  copyoutFrom pagetable src.length dstva src

end Xv6Mmap
