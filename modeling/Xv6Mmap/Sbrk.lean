import Xv6Mmap.Vm

/-!
# Growing and shrinking a process

`growproc` of `kernel/proc.c` and `sys_sbrk` of `kernel/sysproc.c`.
-/

namespace Xv6Mmap

/-- `sz + n` for a `uint64` and an `int`. -/
def addInt (sz : Nat) (n : Int) : Nat := ((sz + n) % 0x10000000000000000).toNat

def growproc (p : Nat) (n : Int) : K Int := do
  let proc ← getProc p
  let sz := proc.sz
  if 0 < n then
    let sz ← uvmalloc proc.pagetable sz (addInt sz n) pteW
    if sz = 0 then
      pure (-1)
    else
      modifyProc p fun q => { q with sz := sz }
      pure 0
  else if n < 0 then
    let sz ← uvmdealloc proc.pagetable sz (addInt sz n)
    modifyProc p fun q => { q with sz := sz }
    pure 0
  else
    modifyProc p fun q => { q with sz := sz }
    pure 0

def minusOne : Nat := 0xffffffffffffffff

/-- `n` is the `int` that `argint` reads. -/
def sysSbrk (p : Nat) (n : Int) : K Nat := do
  let addr := (← getProc p).sz
  if (← growproc p n) < 0 then
    pure minusOne
  else
    pure addr

end Xv6Mmap
