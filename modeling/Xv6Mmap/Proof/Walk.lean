import Xv6Mmap.Proof.Trees

/-!
# Looking up user addresses

What `walk` finds in a page table when it does not create anything, and what `walkaddr` makes of it,
for page tables whose leaves are all at the bottom.
-/

namespace Xv6Mmap

open Sequential

def RamPage (q : Nat) : Prop := 0x80000 ≤ q ∧ q < 0x88000

theorem RamPage.inRam_slot {q j : Nat} (hq : RamPage q) (hj : j < 512) :
    inRam (q * 4096 + 8 * j) = true :=
  Xv6Mmap.inRam_slot hq.1 hq.2 hj

theorem RamPage.inRam_byte {q j : Nat} (hq : RamPage q) (hj : j < 4096) :
    inRam (q * 4096 + j) = true := by
  obtain ⟨hlow, hhigh⟩ := hq
  rw [inRam, Bool.and_eq_true, decide_eq_true_eq, decide_eq_true_eq]
  simp only [kernbase, phystop]
  omega

/-- A page table in RAM without huge leaves, whose user leaves refer to RAM or, when there was no
memory to be had, to address 0. -/
structure NoHuge (m : Mem) (r : Nat) : Prop where
  root : RamPage r
  mid : ∀ g < 512, isValid (m r g) → isTable (m r g) ∧ RamPage (m r g / 1024)
  low : ∀ b, isValid (level1 m r b) → isTable (level1 m r b) ∧ RamPage (level1 m r b / 1024)
  leaf : ∀ n, isValid (level0 m r n) → level0 m r n &&& pteU ≠ 0 →
    pte2pa (level0 m r n) = 0 ∨ RamPage (level0 m r n / 1024)

/-- The address of the page that a user address lies on, zero when there is none. -/
def userFrame (m : Mem) (r va : Nat) : Nat :=
  if va < maxva ∧ isValid (level0 m r (va / 4096)) ∧ level0 m r (va / 4096) &&& pteU ≠ 0 then
    pte2pa (level0 m r (va / 4096))
  else 0

section Walk

variable {m : Mem} {r : Nat} {s : Kernel} {va : Nat}

theorem walkLevel_read {q level : Nat} (hq : RamPage q) (hpx : px level va < 512) (s : Kernel) :
    walkLevel (q * 4096) level va false s =
      .ok (if isValid (s.mem q (px level va)) then some (pte2pa (s.mem q (px level va))) else none)
        s := by
  unfold walkLevel
  rw [run_loadWord_bind (hq.inRam_slot hpx), word_slot _ hpx]
  split <;> rfl

theorem px_lt (level va : Nat) : px level va < 512 := by
  rw [px, show (0x1FF : Nat) = 2 ^ 9 - 1 from rfl, Nat.and_two_pow_sub_one_eq_mod]
  exact Nat.mod_lt _ (by decide)

theorem RamPage.pte2pa {w : Nat} (hw : RamPage (w / 1024)) : pte2pa w = w / 1024 * 4096 :=
  pte2pa_eq rfl (by have := hw.2; omega)

theorem level1_eq (m : Mem) (r : Nat) (hva : va < maxva) : level1 m r (va / 4096 / 512) =
    if isValid (m r (px 2 va)) then m (m r (px 2 va) / 1024) (px 1 va) else 0 := by
  have hpx := px_lt 2 va
  rw [level1, px_one, ← px_two hva]
  by_cases hvalid : isValid (m r (px 2 va)) = true
  · rw [if_pos ⟨hpx, hvalid⟩, if_pos hvalid]
  · rw [if_neg fun h => hvalid h.2, if_neg hvalid]

/-- The entry of `va` is found when there is a table for it; only the tables on the way matter. -/
theorem walk_path (hroot : RamPage r)
    (hmiddle : isValid (s.mem r (px 2 va)) = true → RamPage (s.mem r (px 2 va) / 1024))
    (hbottom : isValid (level1 s.mem r (va / 4096 / 512)) = true →
      RamPage (level1 s.mem r (va / 4096 / 512) / 1024)) (hva : va < maxva) :
    walk (r * 4096) va false s =
      .ok (if isValid (level1 s.mem r (va / 4096 / 512)) then
        level1 s.mem r (va / 4096 / 512) / 1024 * 4096 + 8 * px 0 va else 0) s := by
  unfold walk
  rw [if_neg (Nat.not_le.mpr hva)]
  show (walkLevel (r * 4096) 2 va false >>= _) s = _
  rw [level1_eq _ _ hva] at hbottom
  rw [run_bind_ok (walkLevel_read hroot (px_lt 2 va) s), level1_eq _ _ hva]
  by_cases hmid : isValid (s.mem r (px 2 va)) = true
  swap
  · rw [if_neg hmid, if_neg hmid, isValid_zero]
    rfl
  have hq := hmiddle hmid
  rw [if_pos hmid] at hbottom
  rw [if_pos hmid, if_pos hmid, hq.pte2pa]
  show (walkLevel (s.mem r (px 2 va) / 1024 * 4096) 1 va false >>= _) s = _
  rw [run_bind_ok (walkLevel_read hq (px_lt 1 va) s)]
  by_cases hlow : isValid (s.mem (s.mem r (px 2 va) / 1024) (px 1 va)) = true
  swap
  · rw [if_neg hlow, if_neg hlow]
    rfl
  rw [if_pos hlow, if_pos hlow, (hbottom hlow).pte2pa]
  rfl

theorem walk_read (hpt : NoHuge s.mem r) (hva : va < maxva) :
    walk (r * 4096) va false s =
      .ok (if isValid (level1 s.mem r (va / 4096 / 512)) then
        level1 s.mem r (va / 4096 / 512) / 1024 * 4096 + 8 * px 0 va else 0) s :=
  walk_path hpt.root (fun h => (hpt.mid _ (px_lt 2 va) h).2) (fun h => (hpt.low _ h).2) hva

theorem walkaddr_read (hpt : NoHuge s.mem r) (va : Nat) :
    walkaddr (r * 4096) va s = .ok (userFrame s.mem r va) s := by
  unfold walkaddr userFrame
  by_cases hva : va < maxva
  swap
  · rw [if_pos (Nat.not_lt.mp hva), if_neg fun h => hva h.1]
    rfl
  rw [if_neg (Nat.not_le.mpr hva), run_bind_ok (walk_read hpt hva)]
  by_cases hlow : isValid (level1 s.mem r (va / 4096 / 512)) = true
  swap
  · have hzero : level0 s.mem r (va / 4096) = 0 := by
      rw [level0, isTable_of_invalid (by simpa using hlow)]
      rfl
    rw [if_neg hlow, if_pos rfl, hzero, isValid_zero, if_neg fun h => Bool.false_ne_true h.2.1]
    rfl
  obtain ⟨htable, ht⟩ := hpt.low _ hlow
  have hpx := px_lt 0 va
  have hentry : level0 s.mem r (va / 4096) =
      s.mem (level1 s.mem r (va / 4096 / 512) / 1024) (px 0 va) := by
    rw [level0, if_pos htable, px_zero]
  have hne : level1 s.mem r (va / 4096 / 512) / 1024 * 4096 + 8 * px 0 va ≠ 0 := by
    have hlow := ht.1
    omega
  rw [if_pos hlow, if_neg hne, run_loadWord_bind (ht.inRam_slot hpx), word_slot _ hpx, ← hentry]
  by_cases huser : isValid (level0 s.mem r (va / 4096)) ∧ level0 s.mem r (va / 4096) &&& pteU ≠ 0
  · rw [if_pos huser, if_pos ⟨hva, huser⟩]
    rfl
  · rw [if_neg huser, if_neg fun h => huser h.2]
    rfl

end Walk

end Xv6Mmap
