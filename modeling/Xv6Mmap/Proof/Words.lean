import Xv6Mmap.Sysproc

/-!
# Words of page tables

An entry is a page number and ten bits of flags, `page * 1024 + flags`. Every test the kernel makes
on an entry depends on the flags alone.
-/

namespace Xv6Mmap

theorem and_low (w : Nat) {c : Nat} (hc : c < 1024) : w &&& c = w % 1024 &&& c := by
  have hmod : c % 1024 = c := Nat.mod_eq_of_lt hc
  calc w &&& c = w &&& (c &&& 1023) := by rw [show (1023 : Nat) = 2 ^ 10 - 1 from rfl,
        Nat.and_two_pow_sub_one_eq_mod, hmod]
    _ = w &&& 1023 &&& c := by rw [Nat.and_comm c, Nat.and_assoc]
    _ = w % 1024 &&& c := by rw [show (1023 : Nat) = 2 ^ 10 - 1 from rfl,
        Nat.and_two_pow_sub_one_eq_mod]

theorem page_lor (t : Nat) {f : Nat} (hf : f < 1024) : t * 1024 ||| f = t * 1024 + f := by
  have hshift := Nat.two_pow_add_eq_or_of_lt (i := 10) hf t
  rw [Nat.mul_comm t]
  exact hshift.symm

theorem pa2pte_page {t : Nat} (ht : t < 0x100000) : pa2pte (t * 4096) = t * 1024 := by
  simp only [pa2pte, uint64, Nat.shiftRight_eq_div_pow, Nat.shiftLeft_eq]
  omega

theorem pa2pte_lor {t f : Nat} (ht : t < 0x100000) (hf : f < 1024) :
    pa2pte (t * 4096) ||| f = t * 1024 + f := by
  rw [pa2pte_page ht, page_lor t hf]

theorem pte2pa_eq {w t : Nat} (hw : w / 1024 = t) (ht : t < 0x100000) : pte2pa w = t * 4096 := by
  simp only [pte2pa, uint64, Nat.shiftRight_eq_div_pow, Nat.shiftLeft_eq]
  omega

theorem pteFlags_eq (w : Nat) : pteFlags w = w % 1024 :=
  Nat.and_two_pow_sub_one_eq_mod w 10

/-! ### Tests on flags -/

theorem isValid_mod (w : Nat) : isValid w = isValid (w % 1024) := by
  simp only [isValid, pteV, and_low w (show 1 < 1024 by decide)]

theorem isValid_iff (w : Nat) : isValid w = true ↔ w % 2 = 1 := by
  have hone : w &&& 1 = w % 2 := Nat.and_two_pow_sub_one_eq_mod w 1
  simp only [isValid, pteV, hone, bne_iff_ne, ne_eq]
  omega

theorem isValid_zero : isValid 0 = false := rfl

theorem isTable_mod (w : Nat) : isTable w = isTable (w % 1024) := by
  rw [isTable, isTable, isValid_mod]
  simp only [pteR, pteW, pteX]
  rw [and_low w (show 2 ||| 4 ||| 8 < 1024 by decide)]

/-- An entry that points to a page-table page: the valid bit and nothing else. -/
theorem table_mod (t : Nat) : (t * 1024 + 1) % 1024 = 1 := by omega

theorem isValid_table (t : Nat) : isValid (t * 1024 + 1) = true := by
  rw [isValid_mod, table_mod]
  rfl

theorem isTable_table (t : Nat) : isTable (t * 1024 + 1) = true := by
  rw [isTable_mod, table_mod]
  rfl

def isLeaf (w : Nat) : Bool := isValid w && !isTable w

theorem isLeaf_mod (w : Nat) : isLeaf w = isLeaf (w % 1024) := by
  rw [isLeaf, isLeaf, isValid_mod, isTable_mod]

theorem isTable_of_invalid {w : Nat} (hw : isValid w = false) : isTable w = false := by
  rw [isTable, hw, Bool.false_and]

theorem isValid_of_isLeaf {w : Nat} (hw : isLeaf w = true) : isValid w = true :=
  (Bool.and_eq_true_iff.mp hw).1

theorem isValid_of_isTable {w : Nat} (hw : isTable w = true) : isValid w = true :=
  (Bool.and_eq_true_iff.mp hw).1

/-! ### Indices of a walk -/

theorem px_two {va : Nat} (hva : va < maxva) : px 2 va = va / 4096 / 512 / 512 := by
  have hmask : px 2 va = va / 2 ^ 30 % 512 := by
    rw [px, Nat.shiftRight_eq_div_pow]
    exact Nat.and_two_pow_sub_one_eq_mod _ 9
  unfold maxva at hva
  omega

theorem px_one (va : Nat) : px 1 va = va / 4096 / 512 % 512 := by
  have hmask : px 1 va = va / 2 ^ 21 % 512 := by
    rw [px, Nat.shiftRight_eq_div_pow]
    exact Nat.and_two_pow_sub_one_eq_mod _ 9
  omega

theorem px_zero (va : Nat) : px 0 va = va / 4096 % 512 := by
  rw [px, Nat.shiftRight_eq_div_pow]
  exact Nat.and_two_pow_sub_one_eq_mod _ 9

/-! ### Words of memory -/

section Slots

variable {t j : Nat}

theorem slot_div (hj : j < 512) : (t * 4096 + 8 * j) / 4096 = t := by omega

theorem slot_mod (hj : j < 512) : (t * 4096 + 8 * j) % 4096 / 8 = j := by omega

theorem word_slot (m : Mem) (hj : j < 512) : m.word (t * 4096 + 8 * j) = m t j := by
  rw [Mem.word, slot_div hj, slot_mod hj]

theorem setWord_slot (m : Mem) (w : Nat) (hj : j < 512) :
    m.setWord (t * 4096 + 8 * j) w = upd m t (upd (m t) j w) := by
  rw [Mem.setWord, slot_div hj, slot_mod hj]

theorem inRam_slot (hlow : 0x80000 ≤ t) (hhigh : t < 0x88000) (hj : j < 512) :
    inRam (t * 4096 + 8 * j) = true := by
  rw [inRam, Bool.and_eq_true, decide_eq_true_eq, decide_eq_true_eq]
  simp only [kernbase, phystop]
  omega

theorem inRam_page (hlow : 0x80000 ≤ t) (hhigh : t < 0x88000) : inRam (t * 4096) = true := by
  have hslot := inRam_slot (j := 0) hlow hhigh (by decide)
  rwa [Nat.mul_zero, Nat.add_zero] at hslot

end Slots

end Xv6Mmap
