import Xv6Mmap.Proof.Capacity
import Xv6Mmap.Proof.Walk

/-!
# Pages on loan

A function that allocates and frees base pages is described by the set of pages it has taken from
the allocator when it returns. Loans add up, and what is given back is subtracted.
-/

namespace Xv6Mmap

open Sequential

def Kmem.Free (k : Kmem) (q : Nat) : Prop :=
  IsPage q ∧ k.pagelist (pageIndex q) ≠ 0 ∧ k.hugepagelist (pageIndex q / 512) ≠ -1

def Kmem.Sole (k : Kmem) (q : Nat) : Prop :=
  IsPage q ∧ k.pagelist (pageIndex q) = 0 ∧ k.paReferenced (pageIndex q) = 1

theorem Kmem.Free.mem_freePages {k : Kmem} {q : Nat} (hfree : k.Free q) :
    pageIndex q ∈ k.freePages :=
  Kmem.mem_freePages.mpr ⟨hfree.1.index_lt, hfree.2⟩

/-- One more allocation has failed, and no page is left. -/
structure OutOfMemory (s t : Kernel) : Prop where
  counted : t.failedAllocs = s.failedAllocs + 1
  none : ∀ q, ¬ t.kmem.Free q

theorem OutOfMemory.of_eq {s t u : Kernel} (hout : OutOfMemory t u)
    (hcount : t.failedAllocs = s.failedAllocs) : OutOfMemory s u :=
  ⟨by rw [hout.counted, hcount], hout.none⟩

/-- What separates `k'` from `k` is that the pages of `N`, which were free, are in use. -/
structure Lent (k k' : Kmem) (N : Set Nat) : Prop where
  inv : k.Inv
  inv' : k'.Inv
  free : ∀ q ∈ N, k.Free q
  sole : ∀ q ∈ N, k'.Sole q
  other : ∀ q, q ∉ N → (k'.Free q ↔ k.Free q) ∧ (k'.Sole q ↔ k.Sole q)

section Lent

variable {k k' k'' : Kmem} {N M : Set Nat} {q : Nat}

theorem Kmem.Sole.not_free (hsole : k.Sole q) : ¬ k.Free q := fun hfree => hfree.2.1 hsole.2.1

theorem IsPage.ramPage (hq : IsPage q) : RamPage q := ⟨by have := hq.1; omega, hq.2⟩

theorem IsPage.addr_ne_zero (hq : IsPage q) : q * 4096 ≠ 0 := by
  have hlow := hq.1
  omega

namespace Lent

theorem refl (hinv : k.Inv) : Lent k k ∅ where
  inv := hinv
  inv' := hinv
  free := fun _ h => h.elim
  sole := fun _ h => h.elim
  other := fun _ _ => ⟨Iff.rfl, Iff.rfl⟩

theorem not_free (hlent : Lent k k' N) (hq : ¬ k.Free q) : ¬ k'.Free q := by
  by_cases hN : q ∈ N
  · exact (hlent.sole q hN).not_free
  · exact fun h => hq ((hlent.other q hN).1.mp h)

theorem sole_of_sole (hlent : Lent k k' N) (hq : k.Sole q) : k'.Sole q := by
  have hN : q ∉ N := fun h => hq.not_free (hlent.free q h)
  exact (hlent.other q hN).2.mpr hq

theorem not_mem (hlent : Lent k k' N) (hq : ¬ k.Free q) : q ∉ N := fun h => hq (hlent.free q h)

theorem trans (hlent : Lent k k' N) (hlent' : Lent k' k'' M) : Lent k k'' (N ∪ M) where
  inv := hlent.inv
  inv' := hlent'.inv'
  free := by
    rintro q (hN | hM)
    · exact hlent.free q hN
    · have hfree := hlent'.free q hM
      have hN : q ∉ N := fun h => (hlent.sole q h).not_free hfree
      exact (hlent.other q hN).1.mp hfree
  sole := by
    rintro q (hN | hM)
    · exact hlent'.sole_of_sole (hlent.sole q hN)
    · exact hlent'.sole q hM
  other := by
    intro q hq
    have hold := hlent.other q fun h => hq (Or.inl h)
    have hnew := hlent'.other q fun h => hq (Or.inr h)
    exact ⟨hnew.1.trans hold.1, hnew.2.trans hold.2⟩

theorem give_back (hlent : Lent k k' N) (hback : Lent k'' k' M) (hsub : M ⊆ N) :
    Lent k k'' (N \ M) where
  inv := hlent.inv
  inv' := hback.inv
  free := fun q hq => hlent.free q hq.1
  sole := fun q hq => (hback.other q hq.2).2.mp (hlent.sole q hq.1)
  other := by
    intro q hq
    by_cases hM : q ∈ M
    · have hfree := hlent.free q (hsub hM)
      have hfree'' := hback.free q hM
      exact ⟨iff_of_true hfree'' hfree, iff_of_false (fun h => h.not_free hfree'')
        fun h => h.not_free hfree⟩
    · have hN : q ∉ N := fun h => hq ⟨h, hM⟩
      exact ⟨(hback.other q hM).1.symm.trans (hlent.other q hN).1,
        (hback.other q hM).2.symm.trans (hlent.other q hN).2⟩

end Lent

theorem Lent.congr (hlent : Lent k k' N) (h : N = M) : Lent k k' M := h ▸ hlent

end Lent

/-! ### The two operations -/

section Operations

variable {k k' : Kmem} {q : Nat} {s : Kernel}

theorem Kmem.Sole.block_ne (hinv : k.Inv) (hsole : k.Sole q) :
    k.hugepagelist (pageIndex q / 512) ≠ -1 := by
  have hsplit := hinv.split_of_used hsole.1.index_lt hsole.2.1
  omega

theorem Lent.single (hinv : k.Inv) (hinv' : k'.Inv) (hfree : k.Free q) (hsole : k'.Sole q)
    (hlist : ∀ i, i ≠ pageIndex q → k'.pagelist i = k.pagelist i)
    (href : ∀ i, i ≠ pageIndex q → k'.paReferenced i = k.paReferenced i)
    (hblock : ∀ b, b ≠ pageIndex q / 512 → k'.hugepagelist b = k.hugepagelist b) :
    Lent k k' {q} where
  inv := hinv
  inv' := hinv'
  free := by
    rintro _ rfl
    exact hfree
  sole := by
    rintro _ rfl
    exact hsole
  other := by
    intro x hx
    by_cases hpage : IsPage x
    swap
    · exact ⟨iff_of_false (fun h => hpage h.1) fun h => hpage h.1,
        iff_of_false (fun h => hpage h.1) fun h => hpage h.1⟩
    have hne := Owned.index_ne hpage hfree.1 hx
    have hwhole : k'.hugepagelist (pageIndex x / 512) = -1 ↔
        k.hugepagelist (pageIndex x / 512) = -1 := by
      by_cases hsame : pageIndex x / 512 = pageIndex q / 512
      · rw [hsame]
        exact iff_of_false (hsole.block_ne hinv') hfree.2.2
      · rw [hblock _ hsame]
    unfold Kmem.Free Kmem.Sole
    rw [hlist _ hne, href _ hne, ne_eq (Kmem.hugepagelist _ _), hwhole]
    exact ⟨Iff.rfl, Iff.rfl⟩

/-- `kalloc` fails for want of a free page and changes nothing, or takes one page and clears it. -/
theorem kalloc_lent (hinv : s.kmem.Inv) {E : Panic → Kernel → Prop} :
    Wp kalloc (fun pa t => t.proc = s.proc ∧
      ((pa = 0 ∧ OutOfMemory s t ∧ t.mem = s.mem ∧ t.kmem = s.kmem) ∨
        ∃ q, pa = q * 4096 ∧ t.failedAllocs = s.failedAllocs ∧ Lent s.kmem t.kmem {q} ∧
          t.mem = upd s.mem q fun _ => 0)) E s := by
  rcases kalloc_of_freePages hinv with ⟨hempty, hrun⟩ | ⟨i, hmem, hrun⟩
  · refine .of_ok hrun ⟨rfl, Or.inl ⟨rfl, ⟨rfl, fun q hq => ?_⟩, rfl, rfl⟩⟩
    exact Finset.notMem_empty _ (hempty ▸ hq.mem_freePages)
  obtain ⟨hi, hbit, hblock⟩ := Kmem.mem_freePages.mp hmem
  have hpage := isPage_of_index hi
  have hindex := pageIndex_add i
  have hdiv : (0x80200 + i) * 4096 / 4096 = 0x80200 + i := Nat.mul_div_cancel _ (by decide)
  have hfree : s.kmem.Free (0x80200 + i) := by
    refine ⟨hpage, ?_, ?_⟩ <;> rw [hindex]
    · exact hbit
    · exact hblock
  refine .of_ok hrun ⟨rfl, Or.inr ⟨0x80200 + i, pageindexToPa_page i, rfl, ?_, ?_⟩⟩
  · refine .single hinv (hinv.takePage hi hbit hblock) hfree ⟨hpage, ?_, ?_⟩ ?_ ?_ ?_ <;>
      rw [hindex]
    · exact upd_self ..
    · exact upd_self ..
    · exact fun j hj => upd_of_ne _ _ hj
    · exact fun j hj => upd_of_ne _ _ hj
    · exact fun b hb => upd_of_ne _ _ hb
  · rw [← zeroPages_one]
    simp only [pageindexToPa_page, hdiv]

/-- The last reference to a page is given up: the page is cleared and free. -/
theorem kfree_lent (hinv : s.kmem.Inv) (hsole : s.kmem.Sole q) :
    ∃ t, kfree (q * 4096) s = .ok () t ∧ t.proc = s.proc ∧ t.failedAllocs = s.failedAllocs ∧
      Lent t.kmem s.kmem {q} ∧ t.mem = upd s.mem q fun _ => 0 := by
  obtain ⟨hpage, hused, hone⟩ := hsole
  have hrun := kfree_eq hpage.index_lt hinv.endAddr
  have hdiv : q * 4096 / 4096 = q := Nat.mul_div_cancel _ (by decide)
  rw [if_neg (not_not.mpr hused), if_pos hone.le, hpage.addr, hdiv, zeroPages_one] at hrun
  have hinv' := hinv.releasePage hpage.index_lt hused
  refine ⟨_, hrun, rfl, rfl, ?_, rfl⟩
  refine .single hinv' hinv ⟨hpage, ?_, ?_⟩ ⟨hpage, hused, hone⟩ ?_ ?_ ?_
  · exact ne_of_eq_of_ne (upd_self ..) one_ne_zero
  · have hsplit := hinv.split_of_used hpage.index_lt hused
    intro hwhole
    rcases hinv'.block _ hpage.block_lt with ⟨_, href, _⟩ | ⟨hcount, _⟩
    · rw [show (s.kmem.releasePage (pageIndex q)).hugePaReferenced = s.kmem.hugePaReferenced
        from rfl] at href
      omega
    · have hneg := hcount.symm.trans hwhole
      omega
  · exact fun j hj => (upd_of_ne _ _ hj).symm
  · exact fun j hj => (upd_of_ne _ _ hj).symm
  · exact fun b hb => (upd_of_ne _ _ hb).symm

end Operations

end Xv6Mmap
