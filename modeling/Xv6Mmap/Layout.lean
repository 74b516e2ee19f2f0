import Mathlib.Data.Nat.Bitwise

/-!
# Addresses and page-table entries

The constants and macros of `kernel/riscv.h`, `kernel/memlayout.h`, `kernel/param.h` and
`kernel/types.h` that the memory code uses. A `uint64` is a natural number; the macros whose
arithmetic can leave 64 bits reduce it modulo `2 ^ 64`.
-/

namespace Xv6Mmap

/-! ### Sizes and address ranges -/

def pgsize : Nat := 4096

def hugepgsize : Nat := 2097152

def kernbase : Nat := 0x80000000

def phystop : Nat := 0x88000000

def maxva : Nat := 0x4000000000

def trampoline : Nat := maxva - pgsize

def trapframe : Nat := trampoline - pgsize

def nproc : Nat := 64

def maxarg : Nat := 32

/-- `kinit` sets `page_start` once, to `HUGEPGROUNDUP(end)`; the arrays of the allocator have room
for the `63` blocks from there to `PHYSTOP`. -/
def pageStart : Nat := 0x80200000

def npages : Nat := 32256

def nblocks : Nat := 63

def uint64 (n : Nat) : Nat := n % 0x10000000000000000

def pgroundup (sz : Nat) : Nat := uint64 (sz + pgsize - 1) / pgsize * pgsize

def pgrounddown (a : Nat) : Nat := a / pgsize * pgsize

def hugepgroundup (sz : Nat) : Nat := uint64 (sz + hugepgsize - 1) / hugepgsize * hugepgsize

/-! ### Page-table entries -/

def pteV : Nat := 1

def pteR : Nat := 2

def pteW : Nat := 4

def pteX : Nat := 8

def pteU : Nat := 16

/-- The two software bits: bit 8 marks a private page, bit 9 a page to be copied or connected. -/
def pteCow : Nat := 0x300

def pa2pte (pa : Nat) : Nat := uint64 ((pa >>> 12) <<< 10)

def pte2pa (pte : Nat) : Nat := uint64 ((pte >>> 10) <<< 12)

def pteFlags (pte : Nat) : Nat := pte &&& 0x3FF

def px (level va : Nat) : Nat := (va >>> (12 + 9 * level)) &&& 0x1FF

/-! ### Arguments of `mmap` -/

def protRead : Nat := 0x0001

def protWrite : Nat := 0x0002

def mapPrivate : Nat := 0x0010

def mapShared : Nat := 0x0020

def mapHugepage : Nat := 0x0100

def flagMask : Nat := 0xF0

def protMask : Nat := 0x0F

def hugeMask : Nat := 0x100

end Xv6Mmap
