import Xv6Mmap.Proof.Space

/-!
# Writing user memory

`copyout` to one page of user memory puts the bytes where the page table says, and nowhere else.
-/

namespace Xv6Mmap

open Sequential
open Radix (Shape)

section Bytes

theorem byte_wordOfBytes (xs : List Nat) (k : Nat) :
    wordOfBytes xs / 256 ^ k % 256 = xs.getD k 0 % 256 := by
  induction xs generalizing k with
  | nil => rw [wordOfBytes, Nat.zero_div, List.getD_nil]
  | cons x xs ih =>
      cases k with
      | zero =>
          rw [wordOfBytes, Nat.pow_zero, Nat.div_one, List.getD_cons_zero]
          omega
      | succ k =>
          rw [wordOfBytes, Nat.pow_succ', ← Nat.div_div_eq_div_mul, List.getD_cons_succ, ← ih k]
          congr 2
          omega

variable (m : Mem) {a b q o : Nat} {xs : List Nat}

theorem byte_lt (b : Nat) : m.byte b < 256 := Nat.mod_lt _ (by decide)

theorem byte_setBytes (a b : Nat) (xs : List Nat) : (m.setBytes a xs).byte b =
    if a ≤ b ∧ b < a + xs.length then xs.getD (b - a) 0 % 256 else m.byte b := by
  have hword : b / 4096 * 4096 + b % 4096 / 8 * 8 + b % 8 = b := by omega
  have hk : b % 8 < 8 := Nat.mod_lt _ (by decide)
  rw [Mem.byte, Mem.word, Mem.setBytes]
  by_cases hin : a ≤ b ∧ b < a + xs.length
  · rw [if_pos (by omega), byte_wordOfBytes, if_pos hin, List.getD_eq_getElem?_getD,
      List.getElem?_map, List.getElem?_range hk]
    dsimp only [Option.map_some, Option.getD_some]
    rw [hword, if_pos hin]
  · rw [if_neg hin]
    split
    · rw [byte_wordOfBytes, List.getD_eq_getElem?_getD, List.getElem?_map, List.getElem?_range hk]
      dsimp only [Option.map_some, Option.getD_some]
      rw [hword, if_neg hin, Nat.mod_eq_of_lt (byte_lt m b)]
    · rfl

theorem setBytes_of_ne (ho : o + xs.length ≤ 4096) {x j : Nat} (hx : x ≠ q) (hj : j < 512) :
    m.setBytes (q * 4096 + o) xs x j = m x j := by
  rw [Mem.setBytes, if_neg]
  omega

end Bytes

/-- Page `n` of user addresses is a user page in frame `q`. -/
structure UserPage (s : Kernel) (r : Nat) (T : Shape) (n q : Nat) : Prop where
  table : Table s r T
  limit : n * 4096 < maxva
  valid : isValid (pteOf s.mem T n) = true
  user : pteOf s.mem T n &&& pteU ≠ 0
  frame : frameOf s.mem T n = q
  ram : RamPage q
  apart : q ∉ T.pages

section Copyout

variable {s t : Kernel} {r n q o : Nat} {T : Shape} {xs : List Nat}

theorem UserPage.write (hpage : UserPage s r T n q) (hproc : t.kmem = s.kmem)
    (hmem : ∀ x, x ≠ q → ∀ j < 512, t.mem x j = s.mem x j) : UserPage t r T n q := by
  have hsame : ∀ x ∈ T.pages, ∀ j < 512, t.mem x j = s.mem x j := fun x hx =>
    hmem x fun h => hpage.apart (h ▸ hx)
  have hpte : ∀ i, pteOf t.mem T i = pteOf s.mem T i :=
    Radix.entry_frame_words (F := pteFormat) hsame
  refine ⟨⟨?_, hpage.table.tree.frame_words hsame, hpage.table.root, ?_⟩, hpage.limit, ?_, ?_, ?_,
    hpage.ram, hpage.apart⟩
  · rw [hproc]
    exact hpage.table.inv
  · rw [hproc]
    exact hpage.table.used
  · rw [hpte]
    exact hpage.valid
  · rw [hpte]
    exact hpage.user
  · rw [frameOf, hpte]
    exact hpage.frame

theorem offset_lt_maxva (hn : n * 4096 < maxva) (ho : o < 4096) : n * 4096 + o < maxva := by
  have hlt : n < 0x4000000 := Nat.lt_of_mul_lt_mul_right (show n * 4096 < 0x4000000 * 4096 from hn)
  calc n * 4096 + o < n * 4096 + 4096 := Nat.add_lt_add_left ho _
    _ = (n + 1) * 4096 := (Nat.succ_mul n 4096).symm
    _ ≤ 0x4000000 * 4096 := Nat.mul_le_mul_right _ hlt

theorem RamPage.addr_ne_zero (hq : RamPage q) : q * 4096 ≠ 0 := by
  have hlow := hq.1
  omega

theorem UserPage.pte2pa_eq (hpage : UserPage s r T n q) :
    pte2pa (pteOf s.mem T n) = q * 4096 := by
  have hq := hpage.ram
  rw [← hpage.frame] at hq ⊢
  exact hq.pte2pa

theorem UserPage.walkaddr_eq (hpage : UserPage s r T n q) :
    walkaddr (r * 4096) (n * 4096) s = .ok (q * 4096) s := by
  obtain ⟨x, -, hram, hslot, hword, hwalk⟩ := hpage.table.walk_valid hpage.limit hpage.valid
  have hj : n % 512 < 512 := Nat.mod_lt _ (by decide)
  unfold walkaddr
  rw [if_neg (Nat.not_le.mpr hpage.limit), run_bind_ok hwalk, if_neg hslot,
    run_loadWord_bind (hram.inRam_slot hj), word_slot _ hj, hword,
    if_pos ⟨hpage.valid, hpage.user⟩, hpage.pte2pa_eq]
  rfl

theorem UserPage.copyout_eq (hpage : UserPage s r T n q) (hxs : xs ≠ [])
    (ho : o + xs.length ≤ 4096) : copyout (r * 4096) (n * 4096 + o) xs s =
      .ok 0 { s with mem := s.mem.setBytes (q * 4096 + o) xs } := by
  cases xs with
  | nil => exact absurd rfl hxs
  | cons x src =>
  have hlen : (x :: src).length = src.length + 1 := List.length_cons
  have ho' : o < 4096 := by omega
  have hround : pgrounddown (n * 4096 + o) = n * 4096 := by
    simp only [pgrounddown, pgsize]
    omega
  have hoff : n * 4096 + o - n * 4096 = o := by omega
  have hne := hpage.ram.addr_ne_zero
  have hmin : min (pgsize - o) (x :: src).length = (x :: src).length := by
    rw [pgsize]
    omega
  have hstore : storeBytes (q * 4096 + o) (x :: src) s =
      .ok () { s with mem := s.mem.setBytes (q * 4096 + o) (x :: src) } := by
    rw [storeBytes, if_pos (hpage.ram.inRam_byte ho')]
  unfold copyout
  rw [hlen, copyoutFrom]
  dsimp only
  rw [hround, run_bind_ok hpage.walkaddr_eq, if_neg hne, hoff, hmin, List.take_length,
    List.drop_length, run_bind_ok hstore]
  cases src.length <;> rfl

end Copyout

end Xv6Mmap
