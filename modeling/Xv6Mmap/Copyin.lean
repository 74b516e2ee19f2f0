import Xv6Mmap.Vm

/-!
# Copying strings from user memory

`copyinstr` of `kernel/vm.c`. The buffer of the kernel is the list of the bytes that were stored in
it; each comes with the user address it was read from, which only observes.
-/

namespace Xv6Mmap

def loadByte (a : Nat) : K Nat := fun s =>
  if inRam a then .ok (s.mem.byte a) s else .error .kerneltrap s

/-- The inner loop of `copyinstr`: `n` bytes from physical address `p`, which is user address `va`, or
up to a NUL. Says whether there was one. -/
def copyinstrPage : Nat → Nat → Nat → K (Bool × List (Nat × Nat))
  | 0, _, _ => pure (false, [])
  | n + 1, p, va => do
    let c ← loadByte p
    if c = 0 then
      pure (true, [(va, 0)])
    else
      let (gotNull, rest) ← copyinstrPage n (p + 1) (va + 1)
      pure (gotNull, (va, c) :: rest)

/-- Every round without a NUL copies at least one byte, so `max` rounds are enough. -/
def copyinstrFrom (pagetable : Nat) : Nat → Nat → Nat → K (Int × List (Nat × Nat))
  | _, _, 0 => pure (-1, [])
  | 0, _, _ + 1 => pure (-1, [])
  | rounds + 1, srcva, max + 1 => do
    let va0 := pgrounddown srcva
    let pa0 ← walkaddr pagetable va0
    if pa0 = 0 then
      pure (-1, [])
    else
      let n := min (pgsize - (srcva - va0)) (max + 1)
      let (gotNull, copied) ← copyinstrPage n (pa0 + (srcva - va0)) srcva
      if gotNull then
        pure (0, copied)
      else
        let (r, rest) ← copyinstrFrom pagetable rounds (uint64 (va0 + pgsize)) (max + 1 - n)
        pure (r, copied ++ rest)

def copyinstr (pagetable srcva max : Nat) : K (Int × List (Nat × Nat)) :=
  copyinstrFrom pagetable max srcva max

end Xv6Mmap
