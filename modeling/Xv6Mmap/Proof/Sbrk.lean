import Xv6Mmap.Proof.Space
import Xv6Mmap.Sbrk
import Xv6Mmap.System

/-!
# `growproc` keeps the user pages from 0 to `sz` mapped

In whatever state the allocator is, a call of `growproc` maps exactly the pages below the new size, or
fails and changes nothing that the process can see.
-/

namespace Xv6Mmap

open Sequential
open Radix (Shape)

section Sizes

variable {s t u : Kernel} {r n a b newsz perm f : Nat} {T T' : Shape} {N : Set Nat}

theorem uvmallocFrom_spec (k newsz : Nat) (hstart : Space s r T a)
    (hext : Extended s T a t T' b N (fun _ => f) fun _ _ => 0) (hspace : Space t r T' b)
    (hcount : t.failedAllocs = s.failedAllocs) (hab : a ≤ b)
    (hperm : pteR ||| pteU ||| perm ||| pteV = f) (hf : f < 1024) (hleaf : isLeaf f = true)
    {E : Panic → Kernel → Prop} :
    Wp (uvmallocFrom (r * 4096) (a * 4096) newsz perm k (b * 4096)) (fun res u => ∃ T'' M,
      (res = 0 ∧ u.failedAllocs = s.failedAllocs + 1 ∧ Space u r T'' a ∧
        Extended s T a u T'' a M (fun _ => f) fun _ _ => 0) ∨
      (res = newsz ∧ u.failedAllocs = s.failedAllocs ∧ Space u r T'' (b + k) ∧
        Extended s T a u T'' (b + k) M (fun _ => f) fun _ _ => 0)) E t := by
  induction k generalizing b t T' N with
  | zero => exact .pure ⟨T', N, Or.inr ⟨rfl, hcount, hspace, hext⟩⟩
  | succ k ih =>
      unfold uvmallocFrom
      refine .bind ((kalloc_lent hspace.table.inv).imp ?_)
      rintro pa t₁ ⟨hproc, ⟨rfl, hout, hmem, hkmem⟩ | ⟨q, rfl, hcount₁, hlent, hmem⟩⟩
      · -- no data page: what has been mapped in this call goes back
        rw [if_pos rfl]
        refine .bind (((hext.congr hproc hmem hkmem).uvmdealloc_undo (hspace.congr hmem hkmem) hstart
          hab).imp ?_)
        rintro _ u ⟨hspace', hcount', hext'⟩
        exact .pure ⟨T', N, Or.inl ⟨rfl, hcount'.trans (hout.of_eq hcount).counted, hspace', hext'⟩⟩
      have hpage := (hlent.free q rfl).1
      have hne := hpage.addr_ne_zero
      rw [if_neg hne]
      refine .bind (hpage.ramPage.wp_zero ?_)
      have hfilled : Filled t { t₁ with mem := upd t₁.mem q fun _ => 0 } q fun _ => 0 :=
        ⟨hproc, hcount₁, hlent, by rw [hmem, upd_upd]⟩
      have hb : b < trapframe / 4096 := lt_of_le_of_lt hspace.backed.le npages_lt_trapframe
      refine .bind ((hspace.mapFrame hfilled hb hperm hf hleaf).imp ?_)
      rintro res t₂ ⟨T'', M, ⟨rfl, hcount₂, hspace', hext'⟩ | ⟨rfl, hout, hgrown, hpte⟩⟩
      · rw [if_neg (by decide), show b * 4096 + pgsize = (b + 1) * 4096 by simp only [pgsize]; omega]
        refine (ih (hext.trans hspace hext' hab (by omega)) hspace' (hcount₂.trans hcount)
          (by omega)).imp ?_
        rintro res u ⟨T₃, M', hcase⟩
        refine ⟨T₃, M', ?_⟩
        rwa [show b + (k + 1) = b + 1 + k by omega]
      · -- no page for a table: the data page goes back as well
        rw [if_pos (by decide)]
        refine .bind ((hspace.drop hfilled hgrown hpte (fun _ => f) fun _ _ => 0).imp ?_)
        rintro _ u ⟨hspace', hcount', hext'⟩
        refine .bind (((hext.trans hspace hext' hab le_rfl).uvmdealloc_undo hspace' hstart hab).imp ?_)
        rintro _ v ⟨hspace₂, hcount₂, hext₂⟩
        have hfailed := hcount₂.trans (hcount'.trans (hout.of_eq hcount).counted)
        exact .pure ⟨T'', N ∪ M, Or.inl ⟨rfl, hfailed, hspace₂, hext₂⟩⟩

def pagesFor (sz : Nat) : Nat := pgroundup sz / 4096

theorem pagesFor_eq {sz : Nat} (hsz : sz < 0x8000000000) : pagesFor sz = (sz + 4095) / 4096 := by
  simp only [pagesFor, pgroundup, pgsize, uint64]
  omega

theorem pgroundup_eq (sz : Nat) : pgroundup sz = pagesFor sz * 4096 := by
  simp only [pagesFor, pgroundup, pgsize]
  omega

/-- The new size can be anything; there are pages for no more than the allocator has. -/
theorem uvmalloc_spec {sz : Nat} (hspace : Space s r T (pagesFor sz)) (hsz : sz < 0x8000000000)
    (hle : sz ≤ newsz) (hperm : pteR ||| pteU ||| perm ||| pteV = f) (hf : f < 1024)
    (hleaf : isLeaf f = true) {E : Panic → Kernel → Prop} :
    Wp (uvmalloc (r * 4096) sz newsz perm) (fun res u => ∃ T' N,
      (res = 0 ∧ u.failedAllocs = s.failedAllocs + 1 ∧ Space u r T' (pagesFor sz) ∧
        Extended s T (pagesFor sz) u T' (pagesFor sz) N (fun _ => f) fun _ _ => 0) ∨
      (res = newsz ∧ u.failedAllocs = s.failedAllocs ∧ newsz < 0x8000000000 ∧
        Space u r T' (pagesFor newsz) ∧
        Extended s T (pagesFor sz) u T' (pagesFor newsz) N (fun _ => f) fun _ _ => 0)) E s := by
  unfold uvmalloc
  rw [if_neg (by omega), pgroundup_eq sz]
  refine (uvmallocFrom_spec (E := E) (pageCount pgsize (newsz - pagesFor sz * 4096)) newsz hspace
    (.refl hspace) hspace rfl le_rfl hperm hf hleaf).imp ?_
  rintro res u ⟨T', N, hfailed | ⟨hres, hcounted, hspace', hext⟩⟩
  · exact ⟨T', N, Or.inl hfailed⟩
  have hpages := hspace'.backed.le
  rw [pagesFor_eq hsz, pageCount, pgsize, npages] at hpages
  have hnew : newsz < 0x8000000000 := by omega
  have hcount : pagesFor sz + pageCount pgsize (newsz - pagesFor sz * 4096) = pagesFor newsz := by
    rw [pagesFor_eq hsz, pagesFor_eq hnew, pageCount, pgsize]
    omega
  rw [hcount] at hspace' hext
  exact ⟨T', N, Or.inr ⟨hres, hcounted, hnew, hspace', hext⟩⟩

theorem Space.shrink (hspace : Space s r T b) (hab : a ≤ b) {E : Panic → Kernel → Prop} :
    Wp (uvmunmap (r * 4096) (a * 4096) (b - a) true) (fun _ t => Space t r T a ∧
      Returned s T t (frames s.mem T a b) ∧ ∀ i < a, pteOf t.mem T i = pteOf s.mem T i) E s := by
  have hb : a + (b - a) = b := by omega
  have hlimit : b < trapframe / 4096 := lt_of_le_of_lt hspace.backed.le npages_lt_trapframe
  have hbacked : Backed s T a (a + (b - a)) := hspace.backed.mono (Nat.zero_le a) (by omega)
  refine (hspace.table.uvmunmap_back (b - a) hbacked ?_).imp ?_
  · rw [hb]
    exact (page_lt_maxva hlimit).le
  rw [hb]
  rintro _ t ⟨hback, hpte⟩
  have heq : ∀ i < a, pteOf t.mem T i = pteOf s.mem T i := fun i hi => by
    rw [hpte i, if_neg (by omega)]
  refine ⟨⟨hback.table hspace.table, ⟨?_, ?_, ?_, ?_⟩, ?_⟩, hback, heq⟩
  · intro i hai hi
    rw [heq i hi]
    exact hspace.backed.leaf i hai (by omega)
  · intro i hai hi
    rw [frameOf, heq i hi]
    refine (hback.lent.other _ ?_).2.mp (hspace.backed.sole i hai (by omega))
    rintro ⟨j, haj, hjb, hj⟩
    have hij := hspace.backed.inj j i (Nat.zero_le j) hjb hai (by omega) hj
    omega
  · intro i hai hi
    rw [frameOf, heq i hi]
    exact hspace.backed.apart i hai (by omega)
  · intro i j hai hi haj hj
    rw [frameOf, frameOf, heq i hi, heq j hj]
    exact hspace.backed.inj i j hai (by omega) haj (by omega)
  · intro i hi htrap
    rw [hpte i]
    split
    · exact isValid_zero
    · exact hspace.rest i (by omega) htrap

theorem uvmdealloc_spec {sz : Nat} (hspace : Space s r T (pagesFor sz)) (hsz : sz < 0x8000000000)
    (hlt : newsz < sz) {E : Panic → Kernel → Prop} :
    Wp (uvmdealloc (r * 4096) sz newsz) (fun res t => res = newsz ∧ Space t r T (pagesFor newsz) ∧
      Returned s T t (frames s.mem T (pagesFor newsz) (pagesFor sz)) ∧
      ∀ i < pagesFor newsz, pteOf t.mem T i = pteOf s.mem T i) E s := by
  have hnew : newsz < 0x8000000000 := by omega
  have hle : pagesFor newsz ≤ pagesFor sz := by
    rw [pagesFor_eq hsz, pagesFor_eq hnew]
    omega
  unfold uvmdealloc
  rw [if_neg (by omega), pgroundup_eq sz, pgroundup_eq newsz]
  have hcount : (pagesFor sz * 4096 - pagesFor newsz * 4096) / pgsize =
      pagesFor sz - pagesFor newsz := by
    rw [pgsize]
    omega
  refine .ite (fun _ => ?_) fun hnot => ?_
  · rw [hcount]
    exact .bind ((hspace.shrink hle).imp fun _ t ht => .pure ⟨rfl, ht⟩)
  · have heq : pagesFor newsz = pagesFor sz := by omega
    refine .bind (.pure (.pure ⟨rfl, ?_, ?_, fun _ _ => rfl⟩))
    · rwa [heq]
    · rw [heq, frames_self]
      exact .refl hspace.table

end Sizes

/-! ### The process -/

/-- Process `p` has its pages from address 0 up to its size and nothing else below the trapframe. -/
structure Process (s : Kernel) (p r : Nat) (T : Shape) : Prop where
  root : (s.proc p).pagetable = r * 4096
  size : (s.proc p).sz < maxva
  space : Space s r T (pagesFor (s.proc p).sz)

def byteAt (m : Mem) (r va : Nat) : Nat := m.byte (level0 m r (va / 4096) / 1024 * 4096 + va % 4096)

/-- The size after a change by `n`; a sum below 0 leaves the size as it is. -/
def grownSize (sz : Nat) (n : Int) : Nat := if sz + n < 0 then sz else (sz + n).toNat

/-- What a call of `growproc` that returns `res` may have done to the process with root `r`. It fails
when and only when an allocation does. -/
structure GrowOk (p r : Nat) (n : Int) (s t : Kernel) (res : Int) : Prop where
  result : res = 0 ∨ res = -1
  grown : res = 0 → t.failedAllocs = s.failedAllocs ∧
    t.proc = upd s.proc p { s.proc p with sz := grownSize (s.proc p).sz n }
  mapped : ∀ i < trapframe / 4096,
    isValid (level0 t.mem r i) = true ↔ i < pagesFor (t.proc p).sz
  distinct : ∀ i < pagesFor (t.proc p).sz, ∀ j < pagesFor (t.proc p).sz,
    level0 t.mem r i / 1024 = level0 t.mem r j / 1024 → i = j
  kept : ∀ va < min (s.proc p).sz (t.proc p).sz, byteAt t.mem r va = byteAt s.mem r va
  zero : ∀ i, pagesFor (s.proc p).sz ≤ i → i < pagesFor (t.proc p).sz → ∀ o < 4096,
    byteAt t.mem r (i * 4096 + o) = 0
  failed : res = -1 → t.failedAllocs = s.failedAllocs + 1 ∧ t.proc = s.proc ∧
    (∀ i, SamePte (level0 t.mem r i) (level0 s.mem r i)) ∧
    (∀ va < pagesFor (s.proc p).sz * 4096, byteAt t.mem r va = byteAt s.mem r va) ∧
    ∀ q, s.kmem.Free q → ¬ t.kmem.Free q → IsTablePage t.mem r q

section Process

variable {s t u : Kernel} {p r : Nat} {T T' : Shape} {N : Set Nat} {n : Int}

theorem byte_page (m : Mem) {q o : Nat} (ho : o < 4096) :
    m.byte (q * 4096 + o) = m q (o / 8) / 256 ^ (o % 8) % 256 := by
  have hdiv : (q * 4096 + o) / 4096 = q := by omega
  have hmod : (q * 4096 + o) % 4096 = o := by omega
  have hbyte : (q * 4096 + o) % 8 = o % 8 := by omega
  rw [Mem.byte, Mem.word, hdiv, hmod, hbyte]

theorem byteAt_eq (m : Mem) (r va : Nat) : byteAt m r va =
    m (level0 m r (va / 4096) / 1024) (va % 4096 / 8) / 256 ^ (va % 4096 % 8) % 256 :=
  byte_page m (Nat.mod_lt _ (by decide))

theorem byteAt_congr {m m' : Mem} {va : Nat}
    (hpte : level0 m' r (va / 4096) = level0 m r (va / 4096))
    (hpage : m' (level0 m r (va / 4096) / 1024) = m (level0 m r (va / 4096) / 1024)) :
    byteAt m' r va = byteAt m r va := by
  rw [byteAt_eq, byteAt_eq, hpte, hpage]

theorem lt_pagesFor {sz va : Nat} (hsz : sz < maxva) (hva : va < sz) : va / 4096 < pagesFor sz := by
  rw [maxva] at hsz
  rw [pagesFor_eq (by omega)]
  omega

/-- What is common to all outcomes: pages below both sizes are left alone and new ones are zero. -/
theorem growOk (hs : Process s p r T) (ht : Process t p r T') {res : Int} (hres : res = 0 ∨ res = -1)
    (hgrown : res = 0 → t.failedAllocs = s.failedAllocs ∧
      t.proc = upd s.proc p { s.proc p with sz := grownSize (s.proc p).sz n })
    (hold : ∀ i < pagesFor (s.proc p).sz, i < pagesFor (t.proc p).sz →
      pteOf t.mem T' i = pteOf s.mem T i ∧
        t.mem (frameOf s.mem T i) = s.mem (frameOf s.mem T i))
    (hnew : ∀ i, pagesFor (s.proc p).sz ≤ i → i < pagesFor (t.proc p).sz →
      t.mem (frameOf t.mem T' i) = fun _ => 0)
    (hfailed : res = -1 → t.failedAllocs = s.failedAllocs + 1 ∧ t.proc = s.proc ∧
      (∀ i, SamePte (pteOf t.mem T' i) (pteOf s.mem T i)) ∧
      ∀ q, s.kmem.Free q → ¬ t.kmem.Free q → q ∈ T'.pages) : GrowOk p r n s t res := by
  have hlevel := hs.space.table.pteOf_eq_level0
  have hlevel' := ht.space.table.pteOf_eq_level0
  have hbytes : ∀ va, va / 4096 < pagesFor (s.proc p).sz → va / 4096 < pagesFor (t.proc p).sz →
      byteAt t.mem r va = byteAt s.mem r va := by
    intro va hva hva'
    obtain ⟨hpte, hpage⟩ := hold _ hva hva'
    rw [hlevel, hlevel'] at hpte
    rw [frameOf, hlevel] at hpage
    exact byteAt_congr hpte hpage
  refine ⟨hres, hgrown, ?_, ?_, ?_, ?_, ?_⟩
  · intro i hi
    rw [← hlevel']
    refine ⟨fun hvalid => ?_, fun hlt => isValid_of_isLeaf (ht.space.backed.leaf i (Nat.zero_le i) hlt)⟩
    by_contra hge
    cases (ht.space.rest i (by omega) hi).symm.trans hvalid
  · intro i hi j hj heq
    rw [← hlevel', ← hlevel'] at heq
    exact ht.space.backed.inj i j (Nat.zero_le i) hi (Nat.zero_le j) hj heq
  · intro va hva
    exact hbytes va (lt_pagesFor hs.size (by omega)) (lt_pagesFor ht.size (by omega))
  · intro i hi hi' o ho
    have hdiv : (i * 4096 + o) / 4096 = i := by omega
    rw [byteAt_eq, hdiv, ← hlevel', hnew i hi hi', Nat.zero_div, Nat.zero_mod]
  · intro hres
    obtain ⟨hcount, hproc, hsame, hloan⟩ := hfailed hres
    refine ⟨hcount, hproc, fun i => ?_, fun va hva => hbytes va (by omega) ?_, fun q hq hq' => ?_⟩
    · rw [← hlevel, ← hlevel']
      exact hsame i
    · rw [hproc]
      omega
    · exact ht.space.table.isTablePage (hloan q hq hq')

def setSize (p sz : Nat) (s : Kernel) : Kernel :=
  { s with proc := upd s.proc p { s.proc p with sz := sz } }

theorem setSize_sz (p sz : Nat) (s : Kernel) : ((setSize p sz s).proc p).sz = sz :=
  congrArg Proc.sz (upd_self ..)

theorem setSize_pagetable (p sz : Nat) (s : Kernel) :
    ((setSize p sz s).proc p).pagetable = (s.proc p).pagetable := by
  unfold setSize
  dsimp only
  rw [upd_self]

theorem Space.process {sz : Nat} (hspace : Space u r T' (pagesFor sz)) (hproc : u.proc = s.proc)
    (hs : Process s p r T) (hsz : sz < maxva) : Process (setSize p sz u) p r T' := by
  refine ⟨?_, ?_, ?_⟩
  · rw [setSize_pagetable, hproc]
    exact hs.root
  · rw [setSize_sz]
    exact hsz
  · rw [setSize_sz]
    exact hspace.congr rfl rfl

theorem growOk_same (hs : Process s p r T) (hsize : grownSize (s.proc p).sz n = (s.proc p).sz) :
    Process (setSize p (s.proc p).sz s) p r T ∧ GrowOk p r n s (setSize p (s.proc p).sz s) 0 := by
  have ht := hs.space.process rfl hs hs.size
  refine ⟨ht, growOk hs ht (Or.inl rfl) (fun _ => ⟨rfl, ?_⟩) (fun i _ _ => ⟨rfl, rfl⟩) ?_
    fun h => by cases h⟩
  · rw [hsize]
    rfl
  intro i hi hi'
  rw [setSize_sz] at hi'
  exact absurd hi' (by omega)

theorem Extended.kept {m m' : Nat} {N : Set Nat} {flags : Nat → Nat} {content : Nat → Nat → Nat}
    (hext : Extended s T m u T' m' N flags content) (hspace : Space s r T m) {i : Nat} (hi : i < m) :
    pteOf u.mem T' i = pteOf s.mem T i ∧ u.mem (frameOf s.mem T i) = s.mem (frameOf s.mem T i) := by
  have hleaf := hspace.backed.leaf i (Nat.zero_le i) hi
  exact ⟨(hext.same i (by omega)).2 (isValid_of_isLeaf hleaf), hext.mem _
    (hspace.backed.apart i (Nat.zero_le i) hi) (hspace.backed.sole i (Nat.zero_le i) hi).not_free⟩

theorem grow_spec (hs : Process s p r T) (hn : 0 < n) (hmax : n < 0x80000000) :
    Wp (growproc p n) (fun res t => ∃ T', Process t p r T' ∧ GrowOk p r n s t res)
      (fun _ _ => False) s := by
  have hsize := hs.size
  rw [maxva] at hsize
  obtain ⟨k, rfl⟩ : ∃ k : Nat, n = k := ⟨n.toNat, by omega⟩
  have hadd : addInt (s.proc p).sz k = (s.proc p).sz + k := by
    unfold addInt
    omega
  unfold growproc
  refine .bind (.of_ok rfl ?_)
  dsimp only
  rw [if_pos hn, hadd, hs.root]
  refine .bind ((uvmalloc_spec hs.space (by omega) (by omega) rfl (by decide) (by decide)).imp ?_)
  rintro res u ⟨T', N, ⟨rfl, hcount, hspace, hext⟩ | ⟨rfl, hcount, -, hspace, hext⟩⟩
  · have hu : Process u p r T' := by
      refine ⟨?_, ?_, ?_⟩ <;> rw [hext.proc]
      · exact hs.root
      · exact hs.size
      · exact hspace
    rw [if_pos rfl]
    refine .pure ⟨T', hu, growOk hs hu (Or.inr rfl) (fun h => by cases h) ?_ ?_ ?_⟩
    · exact fun i hi _ => hext.kept hs.space hi
    · intro i hi hi'
      rw [hext.proc] at hi'
      exact absurd hi' (by omega)
    · refine fun _ => ⟨hcount, hext.proc, fun i => hext.same i (by omega), fun q hq hq' => ?_⟩
      by_contra hT
      have hN : q ∉ N := fun h => hT (hext.pages ▸ Or.inr h)
      refine hq' ((hext.lent.other q ?_).1.mpr hq)
      rw [frames_self, Set.union_empty]
      exact hN
  · have hlimit : (s.proc p).sz + k < maxva := by
      have hpages := hspace.backed.le
      rw [pagesFor_eq (by omega), npages] at hpages
      rw [maxva]
      omega
    have hle : pagesFor (s.proc p).sz ≤ pagesFor ((s.proc p).sz + k) := by
      rw [pagesFor_eq (by omega), pagesFor_eq (by omega)]
      omega
    have ht := hspace.process hext.proc hs hlimit
    rw [if_neg (by omega)]
    have hsum : grownSize (s.proc p).sz k = (s.proc p).sz + k := by
      rw [grownSize, if_neg (by omega)]
      omega
    refine .bind (.of_ok rfl (.pure ⟨T', ht, growOk hs ht (Or.inl rfl) (fun _ => ⟨hcount, ?_⟩) ?_ ?_
      fun h => by cases h⟩))
    · rw [hsum, ← hext.proc]
      rfl
    · exact fun i hi _ => hext.kept hs.space hi
    · intro i hi hi'
      rw [setSize_sz] at hi'
      exact hext.content i hi hi'

theorem shrink_spec (hs : Process s p r T) (hn : n < 0) (hmin : -0x80000000 ≤ n) :
    Wp (growproc p n) (fun res t => ∃ T', Process t p r T' ∧ GrowOk p r n s t res)
      (fun _ _ => False) s := by
  have hsize := hs.size
  rw [maxva] at hsize
  unfold growproc
  refine .bind (.of_ok rfl ?_)
  dsimp only
  rw [if_neg (by omega), if_pos hn, hs.root]
  by_cases hwrap : (s.proc p).sz + n < 0
  · -- the new size wraps around and is taken for a larger one
    have hadd : (s.proc p).sz ≤ addInt (s.proc p).sz n := by
      unfold addInt
      omega
    have hrun : uvmdealloc (r * 4096) (s.proc p).sz (addInt (s.proc p).sz n) s =
        .ok (s.proc p).sz s := by
      unfold uvmdealloc
      rw [if_pos hadd]
      rfl
    exact .bind (.of_ok hrun (.bind (.of_ok rfl (.pure ⟨T, growOk_same hs (if_pos hwrap)⟩))))
  · have hlt : addInt (s.proc p).sz n < (s.proc p).sz := by
      unfold addInt
      omega
    refine .bind ((uvmdealloc_spec hs.space (by omega) hlt).imp ?_)
    rintro _ u ⟨rfl, hspace, hback, hpte⟩
    have ht := hspace.process hback.proc hs (by rw [maxva]; omega)
    have hdiff : grownSize (s.proc p).sz n = addInt (s.proc p).sz n := by
      rw [grownSize, if_neg hwrap, addInt]
      omega
    refine .bind (.of_ok rfl (.pure ⟨T, ht, growOk hs ht (Or.inl rfl) (fun _ => ⟨hback.counted, ?_⟩)
      ?_ ?_ fun h => by cases h⟩))
    · rw [hdiff, ← hback.proc]
      rfl
    · intro i hi hi'
      rw [setSize_sz] at hi'
      refine ⟨hpte i hi', hback.mem _ (hs.space.backed.apart i (Nat.zero_le i) hi) ?_⟩
      rintro ⟨j, hj, hj', heq⟩
      have hij := hs.space.backed.inj j i (Nat.zero_le j) hj' (Nat.zero_le i) hi heq
      omega
    · intro i hi hi'
      rw [setSize_sz] at hi'
      have hle : pagesFor (addInt (s.proc p).sz n) ≤ pagesFor (s.proc p).sz := by
        rw [pagesFor_eq (by omega), pagesFor_eq (by omega)]
        omega
      exact absurd hi' (by omega)

theorem growproc_spec (hs : Process s p r T) (hmin : -0x80000000 ≤ n) (hmax : n < 0x80000000) :
    Wp (growproc p n) (fun res t => ∃ T', Process t p r T' ∧ GrowOk p r n s t res)
      (fun _ _ => False) s := by
  rcases lt_trichotomy n 0 with hneg | rfl | hpos
  · exact shrink_spec hs hneg hmin
  · refine .of_ok rfl ⟨T, growOk_same hs ?_⟩
    rw [grownSize, if_neg (by omega)]
    omega
  · exact grow_spec hs hpos hmax

end Process

/-! ### Runs -/

/-- The rest of the system may do what it likes, except with the pages of process `p`. -/
structure Others (p : Nat) (s t : Kernel) : Prop where
  proc : t.proc p = s.proc p
  inv : t.kmem.Inv
  pages : ∀ q, (IsTablePage s.mem ((s.proc p).pagetable / 4096) q ∨
      ∃ i < pagesFor (s.proc p).sz, level0 s.mem ((s.proc p).pagetable / 4096) i / 1024 = q) →
    t.mem q = s.mem q ∧ ¬ t.kmem.Free q ∧ (s.kmem.Sole q → t.kmem.Sole q)

/-- Calls of `growproc` with arguments of type `int`, and steps of the rest of the system. -/
inductive SbrkRun (p : Nat) (s : Kernel) : Kernel → Prop where
  | start : SbrkRun p s s
  | call {t u : Kernel} {n res : Int} : SbrkRun p s t → -0x80000000 ≤ n → n < 0x80000000 →
      growproc p n t = .ok res u → SbrkRun p s u
  | others {t u : Kernel} : SbrkRun p s t → Others p t u → SbrkRun p s u

section Runs

variable {s t : Kernel} {p r : Nat} {T : Shape} {n : Int}

theorem Process.others (hs : Process s p r T) (hothers : Others p s t) : Process t p r T := by
  have hroot : (s.proc p).pagetable / 4096 = r := by
    rw [hs.root]
    exact Nat.mul_div_cancel _ (by decide)
  have hpages := hothers.pages
  rw [hroot] at hpages
  have htable : ∀ q ∈ T.pages, t.mem q = s.mem q ∧ ¬ t.kmem.Free q := fun q hq =>
    have h := hpages q (Or.inl (hs.space.table.isTablePage hq))
    ⟨h.1, h.2.1⟩
  have hsame : ∀ q ∈ T.pages, t.mem q = s.mem q := fun q hq => (htable q hq).1
  have hpte : ∀ i, pteOf t.mem T i = pteOf s.mem T i := Radix.entry_frame hsame
  refine ⟨by rw [hothers.proc, hs.root], by rw [hothers.proc]; exact hs.size, ?_⟩
  rw [hothers.proc]
  refine ⟨⟨hothers.inv, hs.space.table.tree.frame hsame, hs.space.table.root, fun q hq =>
    ⟨(hs.space.table.used q hq).1, (htable q hq).2⟩⟩, ⟨?_, ?_, ?_, ?_⟩, ?_⟩
  · intro i hai hi
    rw [hpte]
    exact hs.space.backed.leaf i hai hi
  · intro i hai hi
    rw [frameOf, hpte]
    refine (hpages _ (Or.inr ⟨i, hi, ?_⟩)).2.2 (hs.space.backed.sole i hai hi)
    rw [← hs.space.table.pteOf_eq_level0]
  · intro i hai hi
    rw [frameOf, hpte]
    exact hs.space.backed.apart i hai hi
  · intro i j hai hi haj hj
    rw [frameOf, frameOf, hpte, hpte]
    exact hs.space.backed.inj i j hai hi haj hj
  · intro i hi htrap
    rw [hpte]
    exact hs.space.rest i hi htrap

theorem SbrkRun.process (hs : Process s p r T) (hrun : SbrkRun p s t) : ∃ T', Process t p r T' := by
  induction hrun with
  | start => exact ⟨T, hs⟩
  | call _ hmin hmax hcall ih =>
      obtain ⟨T', ht⟩ := ih
      obtain ⟨T'', hu, -⟩ := (growproc_spec ht hmin hmax).ok hcall
      exact ⟨T'', hu⟩
  | others _ hothers ih =>
      obtain ⟨T', ht⟩ := ih
      exact ⟨T', ht.others hothers⟩

/-- Whatever has happened before, `growproc` returns, and keeps exactly the pages below the size of
the process mapped. -/
theorem growproc_exact (hs : Process s p r T) (hrun : SbrkRun p s t) (hmin : -0x80000000 ≤ n)
    (hmax : n < 0x80000000) : ∃ res u, growproc p n t = .ok res u ∧ GrowOk p r n t u res := by
  obtain ⟨T', ht⟩ := hrun.process hs
  obtain ⟨res, u, hcall, T'', -, hok⟩ := (growproc_spec ht hmin hmax).returns
  exact ⟨res, u, hcall, hok⟩

def rootShape (r : Nat) : Shape := fun l i => if l = 2 ∧ i = 0 then some r else none

theorem rootShape_eq_some {r l i q : Nat} (h : rootShape r l i = some q) : l = 2 ∧ i = 0 ∧ q = r := by
  by_cases hroot : l = 2 ∧ i = 0
  · rw [rootShape, if_pos hroot] at h
    exact ⟨hroot.1, hroot.2, (Option.some.inj h).symm⟩
  · rw [rootShape, if_neg hroot] at h
    cases h

theorem rootShape_low (r i : Nat) : rootShape r 0 i = none := if_neg fun h => by omega

theorem rootShape_tree {m : Mem} {r : Nat} (hzero : ∀ j < 512, m r j = 0) :
    Radix.Tree pteFormat m (rootShape r) where
  link := by
    intro l i q h j hj
    obtain ⟨hl, rfl, rfl⟩ := rootShape_eq_some h
    rw [hzero j hj]
    exact ⟨(if_neg (fun h => by omega)).symm, pteFormat.inner_empty⟩
  parent := by
    intro l i q h hlt
    obtain ⟨rfl, -, -⟩ := rootShape_eq_some h
    exact absurd hlt (by decide)
  inj := by
    intro l i l' i' q h h'
    obtain ⟨rfl, rfl, -⟩ := rootShape_eq_some h
    obtain ⟨rfl, rfl, -⟩ := rootShape_eq_some h'
    exact ⟨rfl, rfl⟩
  inside := by
    intro l i q h
    obtain ⟨rfl, rfl, -⟩ := rootShape_eq_some h
    exact ⟨le_rfl, rfl⟩

theorem Space.empty {s : Kernel} {r : Nat} (hinv : s.kmem.Inv) (hzero : ∀ j < 512, s.mem r j = 0)
    (hroot : s.kmem.Sole r) : Space s r (rootShape r) 0 := by
  refine ⟨⟨hinv, rootShape_tree hzero, if_pos ⟨rfl, rfl⟩, ?_⟩, ⟨?_, ?_, ?_, ?_⟩, ?_⟩
  · rintro q ⟨l, i, h⟩
    obtain ⟨-, -, rfl⟩ := rootShape_eq_some h
    exact ⟨hroot.1.ramPage, hroot.not_free⟩
  · exact fun i _ hi => absurd hi (Nat.not_lt_zero i)
  · exact fun i _ hi => absurd hi (Nat.not_lt_zero i)
  · exact fun i _ hi => absurd hi (Nat.not_lt_zero i)
  · exact fun i j _ hi => absurd hi (Nat.not_lt_zero i)
  · intro i _ _
    rw [pteOf, Radix.entry_of_none (F := pteFormat) (rootShape_low r _)]
    exact isValid_zero

/-- The first page of the allocator is the page table of every process. -/
def freshProcess : Kernel :=
  { powerOn 0x800344d0 fun _ _ => 0 with
    kmem := (Kmem.initial 0x800344d0).takePage 0
    proc := fun _ => { Proc.empty with pagetable := 0x80200 * 4096 } }

theorem freshProcess_process : Process freshProcess 0 0x80200 (rootShape 0x80200) := by
  have hinv : freshProcess.kmem.Inv :=
    (Kmem.initial_inv (by decide)).takePage (by decide) (by decide) (by decide)
  have hindex : pageIndex 0x80200 = 0 := pageIndex_add 0
  refine ⟨rfl, by decide, Space.empty hinv (fun _ _ => rfl) ⟨⟨by decide, by decide⟩, ?_, ?_⟩⟩
  · rw [hindex]
    rfl
  · rw [hindex]
    rfl

/-- There is memory for the first page, and the size is 100. -/
theorem growproc_exact_page : ∃ u, growproc 0 100 freshProcess = .ok 0 u ∧
    GrowOk 0 0x80200 100 freshProcess u 0 ∧ (u.proc 0).sz = 100 := by
  obtain ⟨res, u, hrun, hok⟩ := growproc_exact freshProcess_process .start
    (show -0x80000000 ≤ (100 : Int) by decide) (by decide)
  obtain rfl : 0 = res := value_of_run (by decide +kernel) hrun
  refine ⟨u, hrun, hok, ?_⟩
  rw [(hok.grown rfl).2]
  decide

end Runs

end Xv6Mmap
