import Xv6Mmap.Proof.Kalloc
import Xv6Mmap.Proof.Words

/-!
# Physical pages and page tables

The pages the allocator manages, by number, and the entries of a page table as they stand in memory.
-/

namespace Xv6Mmap

def IsPage (q : Nat) : Prop := 0x80200 ≤ q ∧ q < 0x88000

@[irreducible]
def pageIndex (q : Nat) : Nat := q - 0x80200

section Addresses

variable {q : Nat}

theorem IsPage.eq_add (hq : IsPage q) : q = 0x80200 + pageIndex q := by
  unfold IsPage pageIndex at *
  omega

theorem IsPage.index_lt (hq : IsPage q) : pageIndex q < npages := by
  unfold npages IsPage pageIndex at *
  omega

theorem IsPage.block_lt (hq : IsPage q) : pageIndex q / 512 < nblocks := by
  unfold nblocks IsPage pageIndex at *
  omega

theorem pageindexToPa_page (i : Nat) : pageindexToPa i = (0x80200 + i) * 4096 := by
  simp only [pageindexToPa, pageStart, pgsize]
  omega

theorem IsPage.addr (hq : IsPage q) : pageindexToPa (pageIndex q) = q * 4096 := by
  rw [pageindexToPa_page, ← hq.eq_add]

theorem zeroPages_one (m : Mem) (q : Nat) : m.zeroPages q 1 = upd m q fun _ => 0 := by
  funext x
  unfold Mem.zeroPages upd
  by_cases hx : x = q
  · rw [if_pos (by omega), if_pos hx]
  · rw [if_neg (by omega), if_neg hx]

theorem isPage_of_index {i : Nat} (hi : i < npages) : IsPage (0x80200 + i) := by
  unfold npages at hi
  unfold IsPage
  omega

theorem pageIndex_add (i : Nat) : pageIndex (0x80200 + i) = i := by
  unfold pageIndex
  omega

theorem Owned.index_ne {x : Nat} (hx : IsPage x) (hq : IsPage q) (hne : x ≠ q) :
    pageIndex x ≠ pageIndex q := by
  unfold IsPage pageIndex at *
  omega

end Addresses

def level1 (m : Mem) (r b : Nat) : Nat :=
  if b / 512 < 512 ∧ isValid (m r (b / 512)) then m (m r (b / 512) / 1024) (b % 512) else 0

def level0 (m : Mem) (r n : Nat) : Nat :=
  if isTable (level1 m r (n / 512)) then m (level1 m r (n / 512) / 1024) (n % 512) else 0

end Xv6Mmap
