import Xv6Mmap.Proof.Sbrk

/-!
# `uvmcopy` copies exactly or not at all

The copy is built page by page behind the last one, as in `uvmalloc`; the pages of the original are in
use and outside the new tree, so that nothing the loop does can reach them.
-/

namespace Xv6Mmap

open Sequential
open Radix (Shape)

/-- Page `i` of user addresses is a base page, which `walk` finds through two tables. -/
structure BasePage (m : Mem) (r i : Nat) : Prop where
  middle : isTable (m r (i / 512 / 512)) = true
  middle_ram : RamPage (m r (i / 512 / 512) / 1024)
  bottom : isTable (level1 m r (i / 512)) = true
  bottom_ram : RamPage (level1 m r (i / 512) / 1024)
  leaf : isLeaf (level0 m r i) = true
  frame : RamPage (level0 m r i / 1024)

/-- The page table with root `r` maps the first `n` pages of user addresses to base pages, and anything
elsewhere. None of its pages is free or part of the other tree. -/
structure Source (s : Kernel) (r n : Nat) (new : Shape) : Prop where
  root : RamPage r
  base : ∀ i < n, BasePage s.mem r i
  used : ∀ q, Holds s.mem r q → ¬ s.kmem.Free q ∧ q ∉ new.pages

abbrev flagsOf (s : Kernel) (r i : Nat) : Nat := level0 s.mem r i % 1024

abbrev contentOf (s : Kernel) (r i : Nat) : Nat → Nat := s.mem (level0 s.mem r i / 1024)

theorem BasePage.congr {m m' : Mem} {r i : Nat} (hbase : BasePage m r i)
    (hsame : ∀ q, IsTablePage m r q → m' q = m q) : BasePage m' r i := by
  obtain ⟨hmid, hmid', hlow, hlow', hleaf, hframe⟩ := hbase
  rw [← hsame r (Or.inl rfl)] at hmid hmid'
  rw [← level1_congr hsame] at hlow hlow'
  rw [← level0_congr hsame] at hleaf hframe
  exact ⟨hmid, hmid', hlow, hlow', hleaf, hframe⟩

theorem BasePage.walk_eq {s : Kernel} {r i : Nat} (hbase : BasePage s.mem r i) (hroot : RamPage r)
    (hi : i * 4096 < maxva) :
    walk (r * 4096) (i * 4096) false s =
      .ok (level1 s.mem r (i / 512) / 1024 * 4096 + 8 * (i % 512)) s := by
  have hdiv : i * 4096 / 4096 = i := Nat.mul_div_cancel _ (by decide)
  have hpx : px 2 (i * 4096) = i / 512 / 512 := by rw [px_two hi, hdiv]
  have hpath := walk_path (s := s) hroot (fun _ => by rw [hpx]; exact hbase.middle_ram)
    (fun _ => by rw [hdiv]; exact hbase.bottom_ram) hi
  rwa [px_zero, hdiv, if_pos (isValid_of_isTable hbase.bottom)] at hpath

theorem BasePage.word_eq {m : Mem} {r i : Nat} (hbase : BasePage m r i) :
    m (level1 m r (i / 512) / 1024) (i % 512) = level0 m r i := by
  rw [level0, if_pos hbase.bottom]

section Copying

variable {s t : Kernel} {old new n a b c : Nat} {T T' : Shape} {N : Set Nat}
  {flags flags' : Nat → Nat} {content content' : Nat → Nat → Nat}

theorem Extended.relabel {u : Kernel} (hext : Extended s T a u T' b N flags content)
    (hflags : ∀ i, a ≤ i → i < b → flags i = flags' i)
    (hcontent : ∀ i, a ≤ i → i < b → content i = content' i) :
    Extended s T a u T' b N flags' content' :=
  { hext with
    flags := fun i hi hi' => (hext.flags i hi hi').trans (hflags i hi hi')
    content := fun i hi hi' => (hext.content i hi hi').trans (hcontent i hi hi') }

theorem Source.mem_eq (hsrc : Source s old n T) (hext : Extended s T a t T' b N flags content) {q : Nat}
    (hq : Holds s.mem old q) : t.mem q = s.mem q :=
  hext.mem q (hsrc.used q hq).2 (hsrc.used q hq).1

theorem Source.keeps (hsrc : Source s old n T) (hext : Extended s T a t T' b N flags content) :
    Source t old n T' := by
  have hsame : ∀ q, IsTablePage s.mem old q → t.mem q = s.mem q := fun q hq =>
    hsrc.mem_eq hext (.table hq)
  refine ⟨hsrc.root, fun i hi => (hsrc.base i hi).congr hsame, fun q hq => ?_⟩
  obtain ⟨hfree, hnew⟩ := hsrc.used q (hq.congr hsame)
  exact ⟨hext.lent.not_free hfree, hext.notMem_pages hnew hfree⟩

theorem pteFlags_lor_valid {w : Nat} (hvalid : isValid w = true) :
    pteFlags w ||| pteV = w % 1024 := by
  rw [isValid_iff] at hvalid
  rw [pteFlags_eq, pteV, Nat.lor_comm]
  refine Nat.eq_of_testBit_eq fun i => ?_
  rw [Nat.testBit_lor]
  cases i with
  | zero =>
      have hbit : (w % 1024).testBit 0 = true := by
        rw [Nat.testBit_zero, decide_eq_true_eq]
        omega
      rw [hbit, Bool.or_true]
  | succ i => rw [Nat.testBit_succ, Nat.zero_testBit, Bool.false_or]

theorem copyPages_one (m : Mem) (q f : Nat) : m.copyPages q f 1 = upd m q (m f) := by
  funext x
  unfold Mem.copyPages upd
  by_cases hx : x = q
  · rw [if_pos (by omega), if_pos hx, hx, Nat.sub_self, Nat.add_zero]
  · rw [if_neg (by omega), if_neg hx]

theorem RamPage.wp_copy {q f : Nat} (hq : RamPage q) (hf : RamPage f) {E : Panic → Kernel → Prop}
    {Q : Unit → Kernel → Prop} (hpost : Q () { s with mem := upd s.mem q (s.mem f) }) :
    Wp (copyPages (q * 4096) (f * 4096) 1) Q E s := by
  have hrun : copyPages (q * 4096) (f * 4096) 1 s =
      .ok () { s with mem := upd s.mem q (s.mem f) } := by
    rw [copyPages, inRam_page hq.1 hq.2, inRam_page hf.1 hf.2, Nat.mul_div_cancel _ (by decide),
      Nat.mul_div_cancel _ (by decide), copyPages_one]
    rfl
  exact .of_ok hrun hpost

theorem uvmcopyFrom_spec (k : Nat) (hsrc : Source s old (b + k) T) (hstart : Space s new T 0)
    (hext : Extended s T 0 t T' b N (flagsOf s old) (contentOf s old)) (hspace : Space t new T' b)
    (hcount : t.failedAllocs = s.failedAllocs) {E : Panic → Kernel → Prop} :
    Wp (uvmcopyFrom (old * 4096) (new * 4096) k (b * 4096)) (fun res u => ∃ T'' M,
      (res = -1 ∧ u.failedAllocs = s.failedAllocs + 1 ∧ Space u new T'' 0 ∧
        Extended s T 0 u T'' 0 M (flagsOf s old) (contentOf s old)) ∨
      (res = 0 ∧ u.failedAllocs = s.failedAllocs ∧ Space u new T'' (b + k) ∧
        Extended s T 0 u T'' (b + k) M (flagsOf s old) (contentOf s old))) E t := by
  induction k generalizing b t T' N with
  | zero => exact .pure ⟨T', N, Or.inr ⟨rfl, hcount, hspace, hext⟩⟩
  | succ k ih =>
      have hb : b < trapframe / 4096 := lt_of_le_of_lt hspace.backed.le npages_lt_trapframe
      have hlevel : level0 t.mem old b = level0 s.mem old b :=
        level0_congr (fun q hq => hsrc.mem_eq hext (.table hq)) b
      have hbase := (hsrc.keeps hext).base b (by omega)
      have hleaf := hbase.leaf
      have hframe := hbase.frame
      rw [hlevel] at hleaf hframe
      have hvalid := isValid_of_isLeaf hleaf
      have hheld : Holds s.mem old (level0 s.mem old b / 1024) := .base b hvalid
      have hram := hbase.bottom_ram
      have hslot : level1 t.mem old (b / 512) / 1024 * 4096 + 8 * (b % 512) ≠ 0 := by
        have hlow := hram.1
        omega
      have hpages : b * 4096 / pgsize = b - 0 := by
        rw [pgsize]
        omega
      unfold uvmcopyFrom
      refine .bind (.of_ok (hbase.walk_eq hsrc.root (page_lt_maxva hb)) ?_)
      rw [if_neg hslot]
      refine hram.wp_load (Nat.mod_lt _ (by decide)) ?_
      rw [hbase.word_eq, hlevel, hvalid]
      refine .bind ((kalloc_lent hspace.table.inv).imp ?_)
      rintro pa t₁ ⟨hproc, ⟨rfl, hout, hmem, hkmem⟩ | ⟨x, rfl, hcount₁, hlent, hmem⟩⟩
      · -- no data page
        rw [if_pos rfl, hpages]
        refine .bind (((hext.congr hproc hmem hkmem).undo (hspace.congr hmem hkmem) hstart
          (Nat.zero_le b)).imp ?_)
        rintro _ u ⟨hspace', hcount', hext'⟩
        exact .pure ⟨T', N, Or.inl ⟨rfl, hcount'.trans (hout.of_eq hcount).counted, hspace', hext'⟩⟩
      have hpage := (hlent.free x rfl).1
      have hne := hpage.addr_ne_zero
      have hxf : level0 s.mem old b / 1024 ≠ x := by
        rintro rfl
        exact hext.lent.not_free (hsrc.used _ hheld).1 (hlent.free _ rfl)
      rw [if_neg hne, hframe.pte2pa]
      refine .bind (hpage.ramPage.wp_copy hframe ?_)
      have hfilled : Filled t { t₁ with mem := upd t₁.mem x (t₁.mem (level0 s.mem old b / 1024)) } x
          (contentOf s old b) := by
        refine ⟨hproc, hcount₁, hlent, ?_⟩
        rw [hmem, upd_upd, upd_of_ne _ _ hxf, hsrc.mem_eq hext hheld]
      have hleafFlags : isLeaf (flagsOf s old b) = true := by
        rw [← isLeaf_mod]
        exact hleaf
      refine .bind ((hspace.mapFrame hfilled hb (pteFlags_lor_valid hvalid)
        (Nat.mod_lt _ (by decide)) hleafFlags).imp ?_)
      rintro res t₂ ⟨T'', M, ⟨rfl, hcount₂, hspace', hext'⟩ | ⟨rfl, hout, hgrown, hpte⟩⟩
      · rw [if_neg (by decide), show b * 4096 + pgsize = (b + 1) * 4096 by simp only [pgsize]; omega]
        rw [show b + (k + 1) = b + 1 + k by omega] at hsrc ⊢
        refine ih hsrc (hext.trans hspace (hext'.relabel ?_ ?_) (Nat.zero_le b) (by omega)) hspace'
          (hcount₂.trans hcount)
        · intro i hi hi'
          rw [show i = b by omega]
        · intro i hi hi'
          rw [show i = b by omega]
      · -- no page for a table
        rw [if_pos (by decide), hpages]
        refine .bind ((hspace.drop hfilled hgrown hpte (flagsOf s old) (contentOf s old)).imp ?_)
        rintro _ u ⟨hspace', hcount', hext'⟩
        refine .bind (((hext.trans hspace hext' (Nat.zero_le b) le_rfl).undo hspace' hstart
          (Nat.zero_le b)).imp ?_)
        rintro _ v ⟨hspace₂, hcount₂, hext₂⟩
        have hfailed := hcount₂.trans (hcount'.trans (hout.of_eq hcount).counted)
        exact .pure ⟨T'', N ∪ M, Or.inl ⟨rfl, hfailed, hspace₂, hext₂⟩⟩

end Copying

/-! ### The outcome -/

/-- The first `n` pages of `old` have been copied, and `new` maps nothing else. -/
structure Copied (s t : Kernel) (old new n : Nat) : Prop where
  flags : ∀ i < n, level0 t.mem new i % 1024 = level0 s.mem old i % 1024
  content : ∀ i < n, t.mem (level0 t.mem new i / 1024) = s.mem (level0 s.mem old i / 1024)
  own : ∀ i < n, ∀ j < n, level0 t.mem new i / 1024 = level0 t.mem new j / 1024 → i = j
  distinct : ∀ i < n, ¬ Holds s.mem old (level0 t.mem new i / 1024)
  rest : ∀ i, n ≤ i → SamePte (level0 t.mem new i) (level0 s.mem new i) ∧
    (i < trapframe / 4096 → isValid (level0 t.mem new i) = false)

/-- `new` maps nothing, and of what was taken from the allocator it has kept only page tables. -/
structure NotCopied (s t : Kernel) (new : Nat) : Prop where
  none : ∀ i < trapframe / 4096, isValid (level0 t.mem new i) = false
  freed : ∀ q, s.kmem.Free q → ¬ t.kmem.Free q → IsTablePage t.mem new q

/-- The base pages and the huge pages of `old`, its tables and the processes are as they were. -/
structure Untouched (s t : Kernel) (old : Nat) : Prop where
  base : ∀ i, level0 t.mem old i = level0 s.mem old i
  huge : ∀ b, level1 t.mem old b = level1 s.mem old b
  pages : ∀ q, Holds s.mem old q → t.mem q = s.mem q ∧ ¬ t.kmem.Free q
  proc : t.proc = s.proc

section Outcome

variable {s t : Kernel} {old new n b : Nat} {T T' : Shape} {N : Set Nat}

theorem Source.untouched {flags : Nat → Nat} {content : Nat → Nat → Nat} (hsrc : Source s old n T)
    (hext : Extended s T 0 t T' b N flags content) : Untouched s t old where
  base := level0_congr fun _ hq => hsrc.mem_eq hext (.table hq)
  huge := level1_congr fun _ hq => hsrc.mem_eq hext (.table hq)
  pages := fun q hq => ⟨hsrc.mem_eq hext hq, hext.lent.not_free (hsrc.used q hq).1⟩
  proc := hext.proc

theorem Source.copied (hsrc : Source s old n T) (hstart : Space s new T 0)
    (hext : Extended s T 0 t T' n N (flagsOf s old) (contentOf s old)) (hspace : Space t new T' n) :
    Copied s t old new n := by
  have hnew := hspace.table.pteOf_eq_level0
  refine ⟨?_, ?_, ?_, ?_, ?_⟩
  · intro i hi
    rw [← hnew]
    exact hext.flags i (Nat.zero_le i) hi
  · intro i hi
    rw [← hnew]
    exact hext.content i (Nat.zero_le i) hi
  · intro i hi j hj
    rw [← hnew, ← hnew]
    exact hspace.backed.inj i j (Nat.zero_le i) hi (Nat.zero_le j) hj
  · intro i hi hheld
    rw [← hnew] at hheld
    exact (hsrc.used _ hheld).1 (hext.lent.free _ (Or.inr ⟨i, Nat.zero_le i, hi, rfl⟩))
  · intro i hi
    rw [← hnew, ← hstart.table.pteOf_eq_level0]
    exact ⟨hext.same i (by omega), hspace.rest i hi⟩

theorem Extended.notCopied {flags : Nat → Nat} {content : Nat → Nat → Nat}
    (hext : Extended s T 0 t T' 0 N flags content) (hspace : Space t new T' 0) :
    NotCopied s t new := by
  refine ⟨fun i hi => ?_, fun q hq hq' => ?_⟩
  · rw [← hspace.table.pteOf_eq_level0]
    exact hspace.rest i (Nat.zero_le i) hi
  · refine hspace.table.isTablePage ?_
    by_contra hT
    have hN : q ∉ N := fun h => hT (hext.pages ▸ Or.inr h)
    refine hq' ((hext.lent.other q ?_).1.mpr hq)
    rw [frames_self, Set.union_empty]
    exact hN

/-- `uvmcopy` copies all pages, or an allocation fails and it copies none. -/
theorem uvmcopy_exact {sz : Nat} (hsrc : Source s old (pageCount pgsize sz) T)
    (hnew : Space s new T 0) : ∃ res t, uvmcopy (old * 4096) (new * 4096) sz s = .ok res t ∧
      ((res = 0 ∧ t.failedAllocs = s.failedAllocs ∧ Copied s t old new (pageCount pgsize sz)) ∨
        (res = -1 ∧ t.failedAllocs = s.failedAllocs + 1 ∧ NotCopied s t new)) ∧
      Untouched s t old := by
  have hloop := uvmcopyFrom_spec (b := 0) (E := fun _ _ => False) (pageCount pgsize sz)
    (by rwa [Nat.zero_add]) hnew (.refl hnew) hnew rfl
  rw [Nat.zero_mul, Nat.zero_add] at hloop
  obtain ⟨res, t, hrun, T', N, ⟨rfl, hcount, hspace, hext⟩ | ⟨rfl, hcount, hspace, hext⟩⟩ :=
    hloop.returns
  · exact ⟨-1, t, hrun, Or.inr ⟨rfl, hcount, hext.notCopied hspace⟩, hsrc.untouched hext⟩
  · exact ⟨0, t, hrun, Or.inl ⟨rfl, hcount, hsrc.copied hnew hext hspace⟩, hsrc.untouched hext⟩

/-- The root at page 0x80201 maps the first page of user addresses to page 0x80204, and the second
2 MiB of them to a huge page, block 1 of the allocator. -/
def forkParentMem : Mem := fun q j =>
  if q = 0x80201 ∧ j = 0 then 0x80202 * 1024 + 1
  else if q = 0x80202 ∧ j = 0 then 0x80203 * 1024 + 1
  else if q = 0x80202 ∧ j = 1 then 0x80400 * 1024 + 0x17
  else if q = 0x80203 ∧ j = 0 then 0x80204 * 1024 + 0x17
  else if q = 0x80204 ∧ j = 0 then 42
  else 0

/-- Pages 0x80200 to 0x80204 and the block from page 0x80400 on are in use. -/
def forkParent : Kernel :=
  { powerOn 0x800344d0 forkParentMem with
    kmem := ((((((Kmem.initial 0x800344d0).takePage 0).takePage 1).takePage 2).takePage 3).takePage
      4).takeBlock 1 }

theorem forkParent_inv : forkParent.kmem.Inv := by
  refine Kmem.Inv.takeBlock (Kmem.Inv.takePage (Kmem.Inv.takePage (Kmem.Inv.takePage
    (Kmem.Inv.takePage (Kmem.Inv.takePage (Kmem.initial_inv (by decide)) ?_ ?_ ?_) ?_ ?_ ?_) ?_ ?_ ?_)
    ?_ ?_ ?_) ?_ ?_ ?_) ?_ ?_ <;>
  decide

theorem forkParent_sole {i : Nat} (hi : i < 5) : forkParent.kmem.Sole (0x80200 + i) := by
  refine ⟨⟨by omega, by omega⟩, ?_, ?_⟩ <;> rw [pageIndex_add] <;>
    rcases show i = 0 ∨ i = 1 ∨ i = 2 ∨ i = 3 ∨ i = 4 by omega with rfl | rfl | rfl | rfl | rfl <;> rfl

theorem forkParent_root (g : Nat) : forkParentMem 0x80201 g = if g = 0 then 0x80202 * 1024 + 1 else 0 := by
  by_cases hg : g = 0
  · rw [hg]
    rfl
  · simp [forkParentMem, hg]

theorem forkParent_level1 (b : Nat) : level1 forkParentMem 0x80201 b =
    if b = 0 then 0x80203 * 1024 + 1 else if b = 1 then 0x80400 * 1024 + 0x17 else 0 := by
  rw [level1, forkParent_root]
  by_cases hroot : b / 512 = 0
  · rw [hroot, if_pos rfl, if_pos ⟨by decide, by decide⟩, show b % 512 = b by omega]
    by_cases hb : b = 0
    · rw [hb]
      rfl
    · by_cases hb' : b = 1
      · rw [hb']
        rfl
      · simp [forkParentMem, hb, hb']
  · rw [if_neg hroot, if_neg fun h => Bool.false_ne_true h.2, if_neg (by omega), if_neg (by omega)]

theorem forkParent_level0 (i : Nat) : level0 forkParentMem 0x80201 i =
    if i = 0 then 0x80204 * 1024 + 0x17 else 0 := by
  rw [level0, forkParent_level1]
  by_cases hlow : i / 512 = 0
  · rw [hlow, if_pos rfl, if_pos (by decide), show i % 512 = i by omega]
    by_cases hi : i = 0
    · rw [hi]
      rfl
    · simp [forkParentMem, hi]
  · rw [if_neg hlow, if_neg (show ¬ i = 0 by omega)]
    by_cases hhuge : i / 512 = 1
    · rw [if_pos hhuge]
      rfl
    · rw [if_neg hhuge]
      rfl

theorem forkParent_holds {q : Nat} (hq : Holds forkParentMem 0x80201 q) :
    (0x80201 ≤ q ∧ q ≤ 0x80204) ∨ (0x80400 ≤ q ∧ q < 0x80600) := by
  cases hq with
  | table htable =>
      rcases htable with rfl | ⟨g, -, hvalid, rfl⟩ | ⟨b, hvalid, rfl⟩
      · exact Or.inl ⟨by decide, by decide⟩
      · rw [forkParent_root] at hvalid ⊢
        split at hvalid
        · next h => simp [h]
        · cases hvalid
      · rw [forkParent_level1] at hvalid ⊢
        split at hvalid
        · next h => simp [h]
        · next h =>
          split at hvalid
          · next h' => simp [h']
          · cases hvalid
  | base i hvalid =>
      rw [forkParent_level0] at hvalid ⊢
      split at hvalid
      · next h => simp [h]
      · cases hvalid
  | huge b j hleaf hj =>
      rw [forkParent_level1] at hleaf ⊢
      split at hleaf
      · cases hleaf
      · next h =>
        split at hleaf
        · next h' =>
          rw [if_neg h, if_pos h']
          omega
        · cases hleaf

theorem forkParent_block_not_free {q : Nat} (hlow : 0x80400 ≤ q) (hhigh : q < 0x80600) :
    ¬ forkParent.kmem.Free q := by
  intro hfree
  have hblock : pageIndex q / 512 = 1 := by
    unfold pageIndex
    omega
  have hwhole := hfree.2.2
  rw [hblock] at hwhole
  exact hwhole rfl

theorem forkParent_source : Source forkParent 0x80201 (pageCount pgsize 100) (rootShape 0x80200) := by
  refine ⟨⟨by decide, by decide⟩, fun i hi => ?_, fun q hq => ?_⟩
  · obtain rfl : i = 0 := by
      have hcount : pageCount pgsize 100 = 1 := rfl
      omega
    exact ⟨rfl, ⟨by decide, by decide⟩, rfl, ⟨by decide, by decide⟩, rfl, ⟨by decide, by decide⟩⟩
  · have hpages := forkParent_holds hq
    refine ⟨?_, ?_⟩
    · rcases hpages with ⟨hlow, hhigh⟩ | ⟨hlow, hhigh⟩
      · have hsole := forkParent_sole (i := q - 0x80200) (by omega)
        rw [show 0x80200 + (q - 0x80200) = q by omega] at hsole
        exact hsole.not_free
      · exact forkParent_block_not_free hlow hhigh
    · rintro ⟨l, i, h⟩
      obtain ⟨-, -, heq⟩ := rootShape_eq_some h
      omega

theorem forkParent_new : Space forkParent 0x80200 (rootShape 0x80200) 0 :=
  .empty forkParent_inv (fun _ _ => rfl) (forkParent_sole (i := 0) (by decide))

/-- The page below 4096 is copied; the huge page is none of the copy's business. -/
theorem uvmcopy_exact_forkParent : ∃ t, uvmcopy (0x80201 * 4096) (0x80200 * 4096) 100 forkParent = .ok 0 t ∧
    Copied forkParent t 0x80201 0x80200 1 ∧ Untouched forkParent t 0x80201 := by
  obtain ⟨res, t, hrun, hres, huntouched⟩ := uvmcopy_exact forkParent_source forkParent_new
  obtain rfl : 0 = res := value_of_run (by decide +kernel) hrun
  rcases hres with ⟨-, -, hcopied⟩ | ⟨hneg, -⟩
  · exact ⟨t, hrun, hcopied, huntouched⟩
  · cases hneg

end Outcome

end Xv6Mmap
