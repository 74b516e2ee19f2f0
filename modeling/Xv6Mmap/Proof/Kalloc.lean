import Xv6Mmap.Lib.Count
import Xv6Mmap.Lib.Wp
import Xv6Mmap.Proc

/-!
# The allocator and its invariant

What each function of `kernel/kalloc.c` does to the four arrays and the three counters, as one
equation, and the invariant that ties the arrays together.
-/

namespace Xv6Mmap

open Sequential

/-! ### Indices -/

theorem toInt_of_lt {n : Nat} (hn : n < 0x80000000) : toInt n = n := by
  have hmod : n % 0x100000000 = n := Nat.mod_eq_of_lt (by omega)
  unfold toInt
  rw [hmod]
  exact if_pos (by omega)

theorem toInt_neg {n : Nat} (hn : 0x80000000 ≤ n % 0x100000000) : toInt n < 0 := by
  have hlow : n % 0x100000000 < 0x100000000 := Nat.mod_lt _ (by decide)
  unfold toInt
  generalize n % 0x100000000 = low at hn hlow
  rw [if_neg (by omega)]
  omega

theorem getPageI_pageindexToPa {i : Nat} (hi : i < npages) : getPageI (pageindexToPa i) = i := by
  unfold npages at hi
  have hindex : uint64 (pageindexToPa i + 0x10000000000000000 - pageStart) / pgsize = i := by
    simp only [uint64, pageindexToPa, pageStart, pgsize]
    omega
  rw [getPageI, hindex, toInt_of_lt (by omega)]

theorem getHugepageI_pageindexToPa {i : Nat} (hi : i < npages) :
    getHugepageI (pageindexToPa i) = (i / 512 : Nat) := by
  unfold npages at hi
  have hindex :
      uint64 (pageindexToPa i + 0x10000000000000000 - pageStart) / hugepgsize = i / 512 := by
    simp only [uint64, pageindexToPa, pageStart, pgsize, hugepgsize]
    omega
  rw [getHugepageI, hindex, toInt_of_lt (by omega)]

def blockAddr (b : Nat) : Nat := pageStart + hugepgsize * b

theorem blockAddr_eq (b : Nat) : blockAddr b = pageindexToPa (b * 512) := by
  simp only [blockAddr, pageindexToPa, hugepgsize, pgsize]
  omega

theorem getHugepageI_blockAddr {b : Nat} (hb : b < nblocks) : getHugepageI (blockAddr b) = b := by
  unfold nblocks at hb
  rw [blockAddr_eq, getHugepageI_pageindexToPa (by unfold npages; omega),
    Nat.mul_div_cancel b (by decide)]

theorem checkIndex_ok {i n : Nat} (hi : i < n) : checkIndex (i : Int) n = pure i := by
  have hbounds : 0 ≤ (i : Int) ∧ (i : Int) < n := by omega
  rw [checkIndex, if_pos hbounds, Int.toNat_natCast]

theorem inRam_pageindexToPa {i : Nat} (hi : i < npages) : inRam (pageindexToPa i) = true := by
  unfold npages at hi
  rw [inRam, Bool.and_eq_true, decide_eq_true_eq, decide_eq_true_eq]
  simp only [pageindexToPa, pageStart, pgsize, phystop, kernbase]
  omega

theorem pageindexToPa_managed {i : Nat} (hi : i < npages) {e : Nat} (he : e ≤ pageStart) :
    ¬ (pageindexToPa i % pgsize ≠ 0 ∨ pageindexToPa i < e ∨ phystop ≤ pageindexToPa i) := by
  unfold npages at hi
  simp only [pageindexToPa, pageStart, pgsize, phystop] at he ⊢
  omega

theorem blockAddr_managed {b : Nat} (hb : b < nblocks) {e : Nat} (he : e ≤ pageStart) :
    ¬ (blockAddr b % hugepgsize ≠ 0 ∨ blockAddr b < e ∨ phystop ≤ blockAddr b) := by
  unfold nblocks at hb
  simp only [blockAddr, pageStart, hugepgsize, phystop] at he ⊢
  omega

/-! ### What the functions do -/

namespace Kmem

def takePage (k : Kmem) (i : Nat) : Kmem :=
  { k with
    paReferenced := upd k.paReferenced i 1
    pagelist := upd k.pagelist i 0
    hugepagelist := upd k.hugepagelist (i / 512) (k.hugepagelist (i / 512) + 1)
    freemem := k.freemem - 1
    used4k := k.used4k + 1 }

def releasePage (k : Kmem) (i : Nat) : Kmem :=
  { k with
    paReferenced := upd k.paReferenced i 0
    pagelist := upd k.pagelist i 1
    hugepagelist := upd k.hugepagelist (i / 512) (k.hugepagelist (i / 512) - 1)
    freemem := k.freemem + 1
    used4k := k.used4k - 1 }

def setPageRef (k : Kmem) (i n : Nat) : Kmem := { k with paReferenced := upd k.paReferenced i n }

def takeBlock (k : Kmem) (b : Nat) : Kmem :=
  { k with
    hugePaReferenced := upd k.hugePaReferenced b 1
    hugepagelist := upd k.hugepagelist b (-1)
    freemem := k.freemem - 512
    used2m := k.used2m + 1 }

def releaseBlock (k : Kmem) (b : Nat) : Kmem :=
  { k with
    hugePaReferenced := upd k.hugePaReferenced b 0
    hugepagelist := upd k.hugepagelist b 0
    freemem := k.freemem + 512
    used2m := k.used2m - 1 }

def setBlockRef (k : Kmem) (b n : Nat) : Kmem :=
  { k with hugePaReferenced := upd k.hugePaReferenced b n }

end Kmem

theorem kfree_eq {i : Nat} {s : Kernel} (hi : i < npages) (hend : s.kmem.endAddr ≤ pageStart) :
    kfree (pageindexToPa i) s =
      if s.kmem.pagelist i ≠ 0 then .error .doubleKfree s
      else if s.kmem.paReferenced i ≤ 1 then
        .ok () { s with
          mem := s.mem.zeroPages (pageindexToPa i / 4096) 1
          kmem := s.kmem.releasePage i }
      else .ok () { s with kmem := s.kmem.setPageRef i (s.kmem.paReferenced i - 1) } := by
  have hblock : i / 512 < nblocks := by
    unfold npages at hi
    unfold nblocks
    omega
  unfold kfree
  simp only [run_get_bind, if_neg (pageindexToPa_managed hi hend), getPageI_pageindexToPa hi,
    getHugepageI_pageindexToPa hi, checkIndex_ok hi, checkIndex_ok hblock, run_pure_bind, run_ite,
    run_panic_bind]
  split
  · rfl
  by_cases href : 0 < s.kmem.paReferenced i
  · rw [if_pos href, run_modifyKmem_bind, run_get_bind]
    by_cases hone : s.kmem.paReferenced i ≤ 1
    · have hzero : s.kmem.paReferenced i - 1 = 0 := by omega
      simp only [upd_self, hzero, if_pos hone, if_true, Kmem.releasePage,
        run_zeroPages_bind (inRam_pageindexToPa hi)]
      rfl
    · have hpos : s.kmem.paReferenced i - 1 ≠ 0 := by omega
      simp only [upd_self, if_neg hpos, if_neg hone, Kmem.setPageRef, run_pure]
  · have hzero : s.kmem.paReferenced i = 0 := by omega
    simp only [hzero, lt_irrefl, if_false, if_true, Nat.zero_le,
      Kmem.releasePage, run_zeroPages_bind (inRam_pageindexToPa hi), upd_eq_self _ _ hzero]
    rfl

theorem kfreeHuge_eq {b : Nat} {s : Kernel} (hb : b < nblocks) (hend : s.kmem.endAddr ≤ pageStart) :
    kfreeHuge (blockAddr b) s =
      if s.kmem.hugepagelist b ≠ -1 then .error .kfreeHuge s
      else if s.kmem.hugePaReferenced b ≤ 1 then
        .ok () { s with
          mem := s.mem.zeroPages (blockAddr b / 4096) 512
          kmem := s.kmem.releaseBlock b }
      else .ok () { s with kmem := s.kmem.setBlockRef b (s.kmem.hugePaReferenced b - 1) } := by
  have hram : inRam (blockAddr b) = true := by
    rw [blockAddr_eq]
    apply inRam_pageindexToPa
    unfold nblocks at hb
    unfold npages
    omega
  unfold kfreeHuge
  simp only [run_get_bind, if_neg (blockAddr_managed hb hend), getHugepageI_blockAddr hb,
    checkIndex_ok hb, run_pure_bind, run_ite, run_panic_bind]
  split
  · rfl
  by_cases href : 0 < s.kmem.hugePaReferenced b
  · rw [if_pos href, run_modifyKmem_bind, run_get_bind]
    by_cases hone : s.kmem.hugePaReferenced b ≤ 1
    · have hzero : s.kmem.hugePaReferenced b - 1 = 0 := by omega
      simp only [upd_self, hzero, if_pos hone, if_true, Kmem.releaseBlock, run_zeroPages_bind hram]
      rfl
    · have hpos : s.kmem.hugePaReferenced b - 1 ≠ 0 := by omega
      simp only [upd_self, if_neg hpos, if_neg hone, Kmem.setBlockRef, run_pure]
  · have hzero : s.kmem.hugePaReferenced b = 0 := by omega
    simp only [hzero, lt_irrefl, if_false, if_true, Nat.zero_le,
      Kmem.releaseBlock, run_zeroPages_bind hram, upd_eq_self _ _ hzero]
    rfl

theorem incrPaRef_eq {i : Nat} {s : Kernel} (hi : i < npages) (hend : s.kmem.endAddr ≤ pageStart) :
    incrPaRef (pageindexToPa i) s =
      .ok () { s with kmem := s.kmem.setPageRef i (char (s.kmem.paReferenced i + 1)) } := by
  unfold incrPaRef
  simp only [run_get_bind, if_neg (pageindexToPa_managed hi hend), getPageI_pageindexToPa hi,
    checkIndex_ok hi, run_pure_bind, Kmem.setPageRef]
  rfl

theorem incrHugePaRef_eq {b : Nat} {s : Kernel} (hb : b < nblocks)
    (hend : s.kmem.endAddr ≤ pageStart) :
    incrHugePaRef (blockAddr b) s =
      .ok () { s with kmem := s.kmem.setBlockRef b (char (s.kmem.hugePaReferenced b + 1)) } := by
  unfold incrHugePaRef
  simp only [run_get_bind, if_neg (blockAddr_managed hb hend), getHugepageI_blockAddr hb,
    checkIndex_ok hb, run_pure_bind, Kmem.setBlockRef]
  rfl

/-! ### The invariant -/

namespace Kmem

def usedIn (k : Kmem) (b : Nat) : Nat :=
  ((Finset.range 512).filter fun j => k.pagelist (b * 512 + j) = 0).card

def usedPages (k : Kmem) : Nat := ((Finset.range npages).filter fun i => k.pagelist i = 0).card

def usedBlocks (k : Kmem) : Nat :=
  ((Finset.range nblocks).filter fun b => k.hugepagelist b = -1).card

/-- The representation invariant of the allocator. -/
structure Inv (k : Kmem) : Prop where
  block : ∀ b < nblocks,
    (k.hugepagelist b = -1 ∧ 0 < k.hugePaReferenced b ∧ ∀ j < 512, k.pagelist (b * 512 + j) = 1) ∨
    (k.hugepagelist b = k.usedIn b ∧ k.hugePaReferenced b = 0)
  page : ∀ i < npages, k.pagelist i = 0 ↔ 0 < k.paReferenced i
  bit : ∀ i < npages, k.pagelist i = 0 ∨ k.pagelist i = 1
  used4k : k.used4k = k.usedPages
  used2m : k.used2m = k.usedBlocks
  freemem : k.freemem + k.used4k + 512 * k.used2m = 32768
  endAddr : k.endAddr ≤ pageStart

section Counting

variable {k : Kmem} {i b : Nat}

theorem index_split (i : Nat) : i / 512 * 512 + i % 512 = i := Nat.div_add_mod' i 512

theorem usedIn_upd_of_ne (f : Nat → Nat) (x : Nat) (hne : b ≠ i / 512) :
    usedIn { k with pagelist := upd f i x } b = usedIn { k with pagelist := f } b := by
  apply Finset.card_filter_congr
  intro j hj
  rw [Finset.mem_range] at hj
  have hother : b * 512 + j ≠ i := by omega
  simp only [upd_of_ne f x hother]

theorem usedIn_take (hfree : k.pagelist i ≠ 0) :
    usedIn { k with pagelist := upd k.pagelist i 0 } (i / 512) = k.usedIn (i / 512) + 1 := by
  apply Finset.card_filter_gain (a := i % 512)
  · exact Finset.mem_range.mpr (Nat.mod_lt i (by decide))
  · intro j _ hj
    have hother : i / 512 * 512 + j ≠ i := by omega
    simp only [upd_of_ne k.pagelist 0 hother]
  · rwa [index_split]
  · simp only [index_split, upd_self]

theorem usedIn_release (hused : k.pagelist i = 0) :
    usedIn { k with pagelist := upd k.pagelist i 1 } (i / 512) + 1 = k.usedIn (i / 512) := by
  apply Finset.card_filter_loss (a := i % 512)
  · exact Finset.mem_range.mpr (Nat.mod_lt i (by decide))
  · intro j _ hj
    have hother : i / 512 * 512 + j ≠ i := by omega
    simp only [upd_of_ne k.pagelist 1 hother]
  · rwa [index_split]
  · simp only [index_split, upd_self]
    decide

theorem usedPages_take (hi : i < npages) (hfree : k.pagelist i ≠ 0) :
    usedPages { k with pagelist := upd k.pagelist i 0 } = k.usedPages + 1 := by
  apply Finset.card_filter_gain (a := i) (Finset.mem_range.mpr hi)
  · intro j _ hj
    simp only [upd_of_ne k.pagelist 0 hj]
  · exact hfree
  · exact upd_self ..

theorem usedPages_release (hi : i < npages) (hused : k.pagelist i = 0) :
    usedPages { k with pagelist := upd k.pagelist i 1 } + 1 = k.usedPages := by
  apply Finset.card_filter_loss (a := i) (Finset.mem_range.mpr hi)
  · intro j _ hj
    simp only [upd_of_ne k.pagelist 1 hj]
  · exact hused
  · simp only [upd_self]
    decide

theorem usedBlocks_upd (x : Int) (hbefore : k.hugepagelist b ≠ -1) (hafter : x ≠ -1) :
    usedBlocks { k with hugepagelist := upd k.hugepagelist b x } = k.usedBlocks := by
  apply Finset.card_filter_congr
  intro c _
  by_cases hc : c = b
  · simp only [hc, upd_self, hbefore, hafter]
  · simp only [upd_of_ne k.hugepagelist x hc]

theorem usedBlocks_take (hb : b < nblocks) (hfree : k.hugepagelist b ≠ -1) :
    usedBlocks { k with hugepagelist := upd k.hugepagelist b (-1) } = k.usedBlocks + 1 := by
  apply Finset.card_filter_gain (a := b) (Finset.mem_range.mpr hb)
  · intro c _ hc
    simp only [upd_of_ne k.hugepagelist (-1) hc]
  · exact hfree
  · exact upd_self ..

theorem usedBlocks_release (hb : b < nblocks) (hused : k.hugepagelist b = -1) :
    usedBlocks { k with hugepagelist := upd k.hugepagelist b 0 } + 1 = k.usedBlocks := by
  apply Finset.card_filter_loss (a := b) (Finset.mem_range.mpr hb)
  · intro c _ hc
    simp only [upd_of_ne k.hugepagelist 0 hc]
  · exact hused
  · simp only [upd_self]
    decide

end Counting

namespace Inv

variable {k : Kmem} {i b : Nat}

theorem block_lt (hi : i < npages) : i / 512 < nblocks := by
  unfold npages at hi
  unfold nblocks
  omega

theorem split_of_used (hinv : k.Inv) (hi : i < npages) (hused : k.pagelist i = 0) :
    k.hugepagelist (i / 512) = k.usedIn (i / 512) ∧ k.hugePaReferenced (i / 512) = 0 := by
  rcases hinv.block (i / 512) (block_lt hi) with ⟨_, _, hpages⟩ | hsplit
  · have hone := hpages (i % 512) (Nat.mod_lt i (by decide))
    rw [index_split, hused] at hone
    cases hone
  · exact hsplit

theorem split_of_ne (hinv : k.Inv) (hb : b < nblocks) (hne : k.hugepagelist b ≠ -1) :
    k.hugepagelist b = k.usedIn b ∧ k.hugePaReferenced b = 0 :=
  (hinv.block b hb).resolve_left fun hwhole => hne hwhole.1

theorem block_of_ne {k' : Kmem} {x : Nat} (hinv : k.Inv) (hb : b < nblocks) (hbi : b ≠ i / 512)
    (hlist : k'.hugepagelist b = k.hugepagelist b) (href : k'.hugePaReferenced = k.hugePaReferenced)
    (hpages : k'.pagelist = upd k.pagelist i x) :
    (k'.hugepagelist b = -1 ∧ 0 < k'.hugePaReferenced b ∧ ∀ j < 512, k'.pagelist (b * 512 + j) = 1) ∨
      (k'.hugepagelist b = k'.usedIn b ∧ k'.hugePaReferenced b = 0) := by
  have hcount : k'.usedIn b = k.usedIn b := by
    rw [usedIn, hpages]
    exact usedIn_upd_of_ne k.pagelist x hbi
  rw [hlist, href, hcount, hpages]
  rcases hinv.block b hb with ⟨hwhole, href, hfree⟩ | hcase
  · refine Or.inl ⟨hwhole, href, fun j hj => ?_⟩
    have hother : b * 512 + j ≠ i := by omega
    exact (upd_of_ne _ _ hother).trans (hfree j hj)
  · exact Or.inr hcase

theorem takePage (hinv : k.Inv) (hi : i < npages) (hfree : k.pagelist i ≠ 0)
    (hsplit : k.hugepagelist (i / 512) ≠ -1) : (k.takePage i).Inv where
  block := by
    intro b hb
    by_cases hbi : b = i / 512
    · subst hbi
      right
      have hcount := hinv.split_of_ne hb hsplit
      refine ⟨?_, hcount.2⟩
      calc (k.takePage i).hugepagelist (i / 512) = k.hugepagelist (i / 512) + 1 := upd_self ..
        _ = ((k.usedIn (i / 512) + 1 : Nat) : Int) := by rw [hcount.1]; rfl
        _ = ((k.takePage i).usedIn (i / 512) : Int) := congrArg _ (usedIn_take hfree).symm
    · exact hinv.block_of_ne hb hbi (upd_of_ne _ _ hbi) rfl rfl
  page := by
    intro j hj
    by_cases hji : j = i
    · simp [Kmem.takePage, hji]
    · simpa only [Kmem.takePage, upd_of_ne _ _ hji] using hinv.page j hj
  bit := by
    intro j hj
    by_cases hji : j = i
    · simp [Kmem.takePage, hji]
    · simpa only [Kmem.takePage, upd_of_ne _ _ hji] using hinv.bit j hj
  used4k := by
    have hcount : (k.takePage i).usedPages = k.usedPages + 1 := usedPages_take hi hfree
    have hbefore := hinv.used4k
    have hafter : (k.takePage i).used4k = k.used4k + 1 := rfl
    omega
  used2m := by
    have hcount := hinv.split_of_ne (block_lt hi) hsplit
    have hblocks : (k.takePage i).usedBlocks = k.usedBlocks := by
      refine usedBlocks_upd _ hsplit ?_
      omega
    rw [hblocks]
    exact hinv.used2m
  freemem := by
    have hbefore := hinv.freemem
    simp only [Kmem.takePage]
    omega
  endAddr := hinv.endAddr

theorem releasePage (hinv : k.Inv) (hi : i < npages) (hused : k.pagelist i = 0) :
    (k.releasePage i).Inv where
  block := by
    intro b hb
    by_cases hbi : b = i / 512
    · subst hbi
      right
      have hcount := hinv.split_of_used hi hused
      have hrelease : (k.releasePage i).usedIn (i / 512) + 1 = k.usedIn (i / 512) :=
        usedIn_release hused
      refine ⟨?_, hcount.2⟩
      have hlist : (k.releasePage i).hugepagelist (i / 512) = k.hugepagelist (i / 512) - 1 :=
        upd_self ..
      omega
    · exact hinv.block_of_ne hb hbi (upd_of_ne _ _ hbi) rfl rfl
  page := by
    intro j hj
    by_cases hji : j = i
    · simp [Kmem.releasePage, hji]
    · simpa only [Kmem.releasePage, upd_of_ne _ _ hji] using hinv.page j hj
  bit := by
    intro j hj
    by_cases hji : j = i
    · simp [Kmem.releasePage, hji]
    · simpa only [Kmem.releasePage, upd_of_ne _ _ hji] using hinv.bit j hj
  used4k := by
    have hcount : (k.releasePage i).usedPages + 1 = k.usedPages := usedPages_release hi hused
    have hbefore := hinv.used4k
    have hafter : (k.releasePage i).used4k = k.used4k - 1 := rfl
    omega
  used2m := by
    have hcount := hinv.split_of_used hi hused
    have hrelease : (k.releasePage i).usedIn (i / 512) + 1 = k.usedIn (i / 512) :=
      usedIn_release hused
    have hblocks : (k.releasePage i).usedBlocks = k.usedBlocks := by
      refine usedBlocks_upd _ ?_ ?_ <;> omega
    rw [hblocks]
    exact hinv.used2m
  freemem := by
    have hbefore := hinv.freemem
    simp only [Kmem.releasePage]
    omega
  endAddr := hinv.endAddr

theorem setPageRef (hinv : k.Inv) {n : Nat} (hused : k.pagelist i = 0) (hn : 0 < n) :
    (k.setPageRef i n).Inv :=
  { hinv with
    page := by
      intro j hj
      by_cases hji : j = i
      · simp [Kmem.setPageRef, hji, hused, hn]
      · simpa only [Kmem.setPageRef, upd_of_ne _ _ hji] using hinv.page j hj }

theorem pages_free_of_zero (hinv : k.Inv) (hb : b < nblocks) (hzero : k.hugepagelist b = 0) :
    ∀ j < 512, k.pagelist (b * 512 + j) = 1 := by
  intro j hj
  have hsplit := hinv.split_of_ne hb (by omega)
  have hnone : k.usedIn b = 0 := by omega
  have hj' : k.pagelist (b * 512 + j) ≠ 0 :=
    Finset.filter_eq_empty_iff.mp (Finset.card_eq_zero.mp hnone) (Finset.mem_range.mpr hj)
  have hindex : b * 512 + j < npages := by
    unfold nblocks at hb
    unfold npages
    omega
  exact (hinv.bit _ hindex).resolve_left hj'

theorem usedIn_eq_zero (hpages : ∀ j < 512, k.pagelist (b * 512 + j) = 1) : k.usedIn b = 0 := by
  apply Finset.card_eq_zero.mpr
  apply Finset.filter_eq_empty_iff.mpr
  intro j hj
  rw [hpages j (Finset.mem_range.mp hj)]
  decide

theorem takeBlock (hinv : k.Inv) (hb : b < nblocks) (hzero : k.hugepagelist b = 0) :
    (k.takeBlock b).Inv :=
  { hinv with
    block := by
      intro c hc
      by_cases hcb : c = b
      · subst hcb
        refine Or.inl ⟨upd_self .., ?_, hinv.pages_free_of_zero hb hzero⟩
        simp [Kmem.takeBlock]
      · have hlist : (k.takeBlock b).hugepagelist c = k.hugepagelist c := upd_of_ne _ _ hcb
        have href : (k.takeBlock b).hugePaReferenced c = k.hugePaReferenced c := upd_of_ne _ _ hcb
        rw [hlist, href]
        exact hinv.block c hc
    used2m := by
      have hcount : (k.takeBlock b).usedBlocks = k.usedBlocks + 1 :=
        usedBlocks_take hb (by omega)
      have hbefore := hinv.used2m
      have hafter : (k.takeBlock b).used2m = k.used2m + 1 := rfl
      omega
    freemem := by
      have hbefore := hinv.freemem
      simp only [Kmem.takeBlock]
      omega }

theorem pages_free_of_whole (hinv : k.Inv) (hb : b < nblocks) (hwhole : k.hugepagelist b = -1) :
    0 < k.hugePaReferenced b ∧ ∀ j < 512, k.pagelist (b * 512 + j) = 1 := by
  rcases hinv.block b hb with hcase | hcase
  · exact hcase.2
  · omega

theorem releaseBlock (hinv : k.Inv) (hb : b < nblocks) (hwhole : k.hugepagelist b = -1) :
    (k.releaseBlock b).Inv :=
  { hinv with
    block := by
      intro c hc
      by_cases hcb : c = b
      · subst hcb
        have hnone : (k.releaseBlock c).usedIn c = 0 :=
          usedIn_eq_zero (hinv.pages_free_of_whole hb hwhole).2
        refine Or.inr ⟨?_, upd_self ..⟩
        rw [hnone]
        exact upd_self ..
      · have hlist : (k.releaseBlock b).hugepagelist c = k.hugepagelist c := upd_of_ne _ _ hcb
        have href : (k.releaseBlock b).hugePaReferenced c = k.hugePaReferenced c := upd_of_ne _ _ hcb
        rw [hlist, href]
        exact hinv.block c hc
    used2m := by
      have hcount : (k.releaseBlock b).usedBlocks + 1 = k.usedBlocks :=
        usedBlocks_release hb hwhole
      have hbefore := hinv.used2m
      have hafter : (k.releaseBlock b).used2m = k.used2m - 1 := rfl
      omega
    freemem := by
      have hbefore := hinv.freemem
      simp only [Kmem.releaseBlock]
      omega }

theorem setBlockRef (hinv : k.Inv) {n : Nat} (hwhole : k.hugepagelist b = -1) (hn : 0 < n) :
    (k.setBlockRef b n).Inv :=
  { hinv with
    block := by
      intro c hc
      by_cases hcb : c = b
      · subst hcb
        refine Or.inl ⟨hwhole, ?_, (hinv.pages_free_of_whole hc hwhole).2⟩
        simpa only [Kmem.setBlockRef, upd_self] using hn
      · have href : (k.setBlockRef b n).hugePaReferenced c = k.hugePaReferenced c :=
          upd_of_ne _ _ hcb
        rw [href]
        exact hinv.block c hc }

end Inv

end Kmem

/-! ### Taking pages -/

section Taking

variable {k : Kmem} {s : Kernel} {b : Nat}

theorem kallocBlock_some (hinv : k.Inv) (hblock : kallocBlock k = some b) :
    b < nblocks ∧ k.hugepagelist b ≠ -1 ∧ k.usedIn b < 512 := by
  have hbound : b < nblocks ∧ 0 ≤ k.hugepagelist b ∧ k.hugepagelist b < 512 := by
    unfold kallocBlock at hblock
    split at hblock
    · next c hfind =>
      cases hblock
      obtain ⟨hb, hpartly⟩ := List.find?_range_some hfind
      exact ⟨hb, hpartly.1.le, hpartly.2⟩
    · obtain ⟨hb, hempty⟩ := List.find?_range_some hblock
      exact ⟨hb, by omega, by omega⟩
  obtain ⟨hb, hlow, hhigh⟩ := hbound
  have hsplit := hinv.split_of_ne hb (by omega)
  exact ⟨hb, by omega, by omega⟩

theorem kallocPage_free (hinv : k.Inv) (hblock : kallocBlock k = some b) :
    kallocPage k b / 512 = b ∧ kallocPage k b < npages ∧ k.pagelist (kallocPage k b) = 1 := by
  obtain ⟨hb, _, hroom⟩ := kallocBlock_some hinv hblock
  have hindex : ∀ j < 512, b * 512 + j < npages := by
    intro j hj
    unfold nblocks at hb
    unfold npages
    omega
  unfold kallocPage
  split
  · next j hfind =>
    obtain ⟨hj, hne⟩ := List.find?_range_some hfind
    exact ⟨by omega, hindex j hj, (hinv.bit _ (hindex j hj)).resolve_left hne⟩
  · next hfind =>
    -- a search that fails would make every page of the block used
    exfalso
    have hall : (Finset.range 512).filter (fun j => k.pagelist (b * 512 + j) = 0) =
        Finset.range 512 := by
      apply Finset.filter_true_of_mem
      intro j hj
      exact not_not.mp (List.find?_range_none hfind j (Finset.mem_range.mp hj))
    have hfull : k.usedIn b = 512 := by
      rw [Kmem.usedIn, hall, Finset.card_range]
    omega

theorem kalloc_eq_of_none (hblock : kallocBlock s.kmem = none) :
    kalloc s = .ok 0 { s with failedAllocs := s.failedAllocs + 1 } := by
  unfold kalloc
  rw [run_get_bind, hblock]
  rfl

theorem kalloc_eq_of_some (hinv : s.kmem.Inv) (hblock : kallocBlock s.kmem = some b) :
    kalloc s = .ok (pageindexToPa (kallocPage s.kmem b))
      { s with
        mem := s.mem.zeroPages (pageindexToPa (kallocPage s.kmem b) / 4096) 1
        kmem := s.kmem.takePage (kallocPage s.kmem b) } := by
  obtain ⟨hdiv, hi, hfree⟩ := kallocPage_free hinv hblock
  have hzero : s.kmem.paReferenced (kallocPage s.kmem b) = 0 := by
    have hiff := hinv.page _ hi
    omega
  unfold kalloc
  rw [run_get_bind, hblock]
  simp only [checkIndex_ok hi, run_pure_bind, run_modifyKmem_bind, run_get_bind, upd_self, hzero,
    char, run_zeroPages_bind (inRam_pageindexToPa hi), Nat.zero_add, Nat.reduceMod, if_true,
    run_pure, Kmem.takePage, hdiv]

/-- `kalloc` fails, or hands out a page that was free. -/
theorem kalloc_cases (hinv : s.kmem.Inv) :
    kalloc s = .ok 0 { s with failedAllocs := s.failedAllocs + 1 } ∨
    ∃ i < npages, s.kmem.pagelist i = 1 ∧ s.kmem.hugepagelist (i / 512) ≠ -1 ∧
      kalloc s = .ok (pageindexToPa i)
        { s with
          mem := s.mem.zeroPages (pageindexToPa i / 4096) 1
          kmem := s.kmem.takePage i } := by
  cases hblock : kallocBlock s.kmem with
  | none => exact Or.inl (kalloc_eq_of_none hblock)
  | some b =>
      right
      obtain ⟨hdiv, hi, hfree⟩ := kallocPage_free hinv hblock
      refine ⟨_, hi, hfree, ?_, kalloc_eq_of_some hinv hblock⟩
      rw [hdiv]
      exact (kallocBlock_some hinv hblock).2.1

theorem kallocHuge_cases (hinv : s.kmem.Inv) :
    ((∀ b < nblocks, s.kmem.hugepagelist b ≠ 0) ∧
      kallocHuge s = .ok 0 { s with failedAllocs := s.failedAllocs + 1 }) ∨
    ∃ b < nblocks, s.kmem.hugepagelist b = 0 ∧
      kallocHuge s = .ok (blockAddr b)
        { s with
          mem := s.mem.zeroPages (blockAddr b / 4096) 512
          kmem := s.kmem.takeBlock b } := by
  cases hfind : (List.range nblocks).find? fun i => s.kmem.hugepagelist i = 0 with
  | none =>
      refine .inl ⟨fun b hb => List.find?_range_none hfind b hb, ?_⟩
      unfold kallocHuge
      rw [run_get_bind, hfind]
      rfl
  | some b =>
      right
      obtain ⟨hb, hempty⟩ := List.find?_range_some hfind
      have hzero : s.kmem.hugePaReferenced b = 0 := (hinv.split_of_ne hb (by omega)).2
      have hram : inRam (pageStart + hugepgsize * b) = true := by
        rw [← blockAddr, blockAddr_eq]
        apply inRam_pageindexToPa
        unfold nblocks at hb
        unfold npages
        omega
      refine ⟨b, hb, hempty, ?_⟩
      unfold kallocHuge
      rw [run_get_bind, hfind]
      simp only [run_modifyKmem_bind, run_zeroPages_bind hram, hzero, char, Nat.zero_add,
        Nat.reduceMod, run_pure, Kmem.takeBlock, blockAddr]

end Taking

/-! ### `kinit` -/

def Kmem.freed (endAddr n : Nat) : Kmem :=
  { Kmem.bss endAddr with
    hugepagelist := fun b => if b < nblocks then 512 - ((min n (b * 512 + 512) - b * 512 : Nat) : Int) else 0
    pagelist := fun i => if i < n then 1 else 0
    freemem := n
    used4k := -n }

theorem Kmem.freed_releasePage {endAddr n : Nat} (hn : n < npages) :
    (Kmem.freed endAddr n).releasePage n = Kmem.freed endAddr (n + 1) := by
  unfold npages at hn
  simp only [Kmem.freed, Kmem.releasePage, Kmem.bss, Kmem.mk.injEq, true_and]
  refine ⟨?_, ?_, ?_, by omega, by omega, trivial⟩
  · funext b
    unfold nblocks
    by_cases hb : b = n / 512
    · subst hb
      rw [upd_self, if_pos (by omega), if_pos (by omega)]
      omega
    · rw [upd_of_ne _ _ hb]
      split <;> omega
  · funext i
    by_cases hi : i = n
    · rw [hi, upd_self, if_pos (by omega)]
    · rw [upd_of_ne _ _ hi]
      split <;> split <;> omega
  · exact upd_eq_self _ _ rfl

def Kmem.initial (endAddr : Nat) : Kmem :=
  { Kmem.bss endAddr with
    pagelist := fun i => if i < npages then 1 else 0
    freemem := 32768 }

theorem Mem.zeroPages_succ (m : Mem) (p n : Nat) :
    (m.zeroPages p n).zeroPages (p + n) 1 = m.zeroPages p (n + 1) := by
  funext q
  unfold Mem.zeroPages
  split <;> split <;> first | rfl | (split <;> first | rfl | omega) | omega

theorem freerangeFrom_eq {endAddr : Nat} (hend : endAddr ≤ pageStart) (s : Kernel) (m : Mem)
    (rounds n : Nat) (hn : n + rounds ≤ npages) :
    freerangeFrom rounds (pageindexToPa n)
        { s with mem := m.zeroPages 0x80200 n, kmem := Kmem.freed endAddr n } =
      .ok () { s with
        mem := m.zeroPages 0x80200 (n + rounds)
        kmem := Kmem.freed endAddr (n + rounds) } := by
  induction rounds generalizing n with
  | zero => rfl
  | succ rounds ih =>
      have hlt : n < npages := by omega
      have hfree := kfree_eq (s := { s with
        mem := m.zeroPages 0x80200 n
        kmem := Kmem.freed endAddr n }) hlt hend
      have hused : ¬ (Kmem.freed endAddr n).pagelist n ≠ 0 := by
        simp [Kmem.freed]
      have href : (Kmem.freed endAddr n).paReferenced n ≤ 1 := Nat.zero_le 1
      have hpage : pageindexToPa n / 4096 = 0x80200 + n := by
        simp only [pageindexToPa, pageStart, pgsize]
        omega
      have hnext : pageindexToPa n + pgsize = pageindexToPa (n + 1) := by
        simp only [pageindexToPa, pgsize]
        omega
      rw [if_neg hused, if_pos href] at hfree
      simp only [hpage, Mem.zeroPages_succ, Kmem.freed_releasePage hlt] at hfree
      unfold freerangeFrom
      rw [run_bind_ok hfree, hnext, ih (n + 1) (by omega), Nat.add_right_comm n 1 rounds,
        Nat.add_assoc n rounds 1]

/-- A value of the symbol `end` for which the managed area starts at `page_start`. -/
def IsEnd (endAddr : Nat) : Prop := uint64 endAddr = endAddr ∧ hugepgroundup endAddr = pageStart

theorem IsEnd.le {endAddr : Nat} (hend : IsEnd endAddr) : endAddr ≤ pageStart := by
  obtain ⟨hword, hround⟩ := hend
  simp only [hugepgroundup, uint64, hugepgsize, pageStart] at hword hround ⊢
  omega

theorem Kmem.freed_npages (endAddr : Nat) :
    { Kmem.freed endAddr npages with used4k := 0, freemem := (npages : Int) + 512 } =
      Kmem.initial endAddr := by
  simp only [Kmem.freed, Kmem.initial, Kmem.bss, Kmem.mk.injEq, true_and, and_true, npages]
  refine ⟨?_, by decide⟩
  funext b
  split
  · next hb =>
    unfold nblocks at hb
    omega
  · rfl

theorem kinit_eq {s : Kernel} {endAddr : Nat} (hend : IsEnd endAddr)
    (hbss : s.kmem = Kmem.bss endAddr) :
    kinit s = .ok () { s with
      mem := s.mem.zeroPages 0x80200 npages
      kmem := Kmem.initial endAddr } := by
  have hzero : s.mem.zeroPages 0x80200 0 = s.mem := by
    funext q
    exact if_neg (by omega)
  have hfreed : { Kmem.bss endAddr with
      hugepagelist := fun b => if b < nblocks then 512 else 0 } = Kmem.freed endAddr 0 := by
    simp [Kmem.freed, Kmem.bss]
  have hrounds : (phystop - pageStart) / pgsize = npages := by decide
  have hstart : pageStart = pageindexToPa 0 := by decide
  have hloop := freerangeFrom_eq hend.le s s.mem npages 0 (le_refl _)
  have hrange : freerange endAddr phystop s = .ok () { s with
      mem := s.mem.zeroPages 0x80200 npages
      kmem := Kmem.freed endAddr npages } := by
    unfold freerange
    rw [run_modifyKmem_bind, hbss, hend.2, hrounds, hstart]
    simp only [Kmem.bss] at hfreed ⊢
    rw [hfreed]
    simpa only [hzero, Nat.zero_add] using hloop
  unfold kinit
  rw [run_get_bind, hbss, show (Kmem.bss endAddr).endAddr = endAddr from rfl, run_bind_ok hrange]
  simp only [modifyKmem]
  exact congrArg (fun k => EStateM.Result.ok () { s with
    mem := s.mem.zeroPages 0x80200 npages
    kmem := k }) (Kmem.freed_npages endAddr)

theorem Kmem.initial_inv {endAddr : Nat} (hend : endAddr ≤ pageStart) : (Kmem.initial endAddr).Inv where
  block := by
    intro b hb
    have hnone : (Kmem.initial endAddr).usedIn b = 0 := by
      apply Inv.usedIn_eq_zero
      intro j hj
      refine if_pos ?_
      unfold nblocks at hb
      unfold npages
      omega
    rw [hnone]
    exact Or.inr ⟨rfl, rfl⟩
  page := by
    intro i hi
    simp [Kmem.initial, Kmem.bss, hi]
  bit := by
    intro i hi
    exact Or.inr (if_pos hi)
  used4k := by
    have hnone : (Kmem.initial endAddr).usedPages = 0 := by
      apply Finset.card_eq_zero.mpr
      apply Finset.filter_eq_empty_iff.mpr
      intro i hi
      simp [Kmem.initial, Finset.mem_range.mp hi]
    rw [hnone]
    rfl
  used2m := by
    have hnone : (Kmem.initial endAddr).usedBlocks = 0 := by
      apply Finset.card_eq_zero.mpr
      apply Finset.filter_eq_empty_iff.mpr
      intro b _
      simp [Kmem.initial, Kmem.bss]
    rw [hnone]
    rfl
  freemem := rfl
  endAddr := hend

end Xv6Mmap
