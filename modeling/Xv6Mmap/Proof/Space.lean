import Xv6Mmap.Proof.Table

/-!
# User address spaces

The pages of a process that uses no `mmap` lie one after the other from address 0 on, each in a frame
of its own. `uvmalloc` and `uvmcopy` add pages at the end, one at a time, and take them away again
when memory runs out.
-/

namespace Xv6Mmap

open Sequential
open Radix (Shape)

abbrev frameOf (m : Mem) (T : Shape) (n : Nat) : Nat := pteOf m T n / 1024

def frames (m : Mem) (T : Shape) (a b : Nat) : Set Nat :=
  { q | ∃ i, a ≤ i ∧ i < b ∧ frameOf m T i = q }

/-- The pages from `a` up to `b` are mapped, each to a frame of its own. -/
structure Backed (s : Kernel) (T : Shape) (a b : Nat) : Prop where
  leaf : ∀ i, a ≤ i → i < b → isLeaf (pteOf s.mem T i) = true
  sole : ∀ i, a ≤ i → i < b → s.kmem.Sole (frameOf s.mem T i)
  apart : ∀ i, a ≤ i → i < b → frameOf s.mem T i ∉ T.pages
  inj : ∀ i j, a ≤ i → i < b → a ≤ j → j < b → frameOf s.mem T i = frameOf s.mem T j → i = j

/-- The pages of `N`, which were none of the tree, have been returned to the allocator, and nothing
else has changed but words of the tree. -/
structure Returned (s : Kernel) (T : Shape) (t : Kernel) (N : Set Nat) : Prop where
  proc : t.proc = s.proc
  counted : t.failedAllocs = s.failedAllocs
  lent : Lent t.kmem s.kmem N
  tree : Radix.Tree pteFormat t.mem T
  apart : ∀ q ∈ N, q ∉ T.pages
  mem : ∀ q, q ∉ T.pages → q ∉ N → t.mem q = s.mem q

section Unmapping

variable {s t u : Kernel} {r : Nat} {T : Shape} {N M : Set Nat} {a b : Nat}

theorem Returned.table (hback : Returned s T t N) (htable : Table s r T) : Table t r T where
  inv := hback.lent.inv
  tree := hback.tree
  root := htable.root
  used := by
    intro q hq
    obtain ⟨hram, hfree⟩ := htable.used q hq
    have hN : q ∉ N := fun h => hback.apart q h hq
    exact ⟨hram, fun h => hfree ((hback.lent.other q hN).1.mpr h)⟩

theorem Returned.trans (hback : Returned s T t N) (hback' : Returned t T u M) :
    Returned s T u (M ∪ N) where
  proc := hback'.proc.trans hback.proc
  counted := hback'.counted.trans hback.counted
  lent := hback'.lent.trans hback.lent
  tree := hback'.tree
  apart := fun q hq => hq.elim (hback'.apart q) (hback.apart q)
  mem := fun q hT hq => by
    rw [hback'.mem q hT fun h => hq (Or.inl h), hback.mem q hT fun h => hq (Or.inr h)]

theorem pteFlags_ne_of_isLeaf {w : Nat} (hleaf : isLeaf w = true) : pteFlags w ≠ pteV := by
  intro hflags
  rw [pteFlags_eq] at hflags
  rw [isLeaf_mod, hflags] at hleaf
  exact absurd hleaf (by decide)

theorem Table.unmapPage_back (htable : Table s r T) {n : Nat} (hn : n * 4096 < maxva)
    (hleaf : isLeaf (pteOf s.mem T n) = true) (hsole : s.kmem.Sole (frameOf s.mem T n))
    (hapart : frameOf s.mem T n ∉ T.pages) {E : Panic → Kernel → Prop} :
    Wp (unmapPage (r * 4096) true (n * 4096)) (fun _ t => Returned s T t {frameOf s.mem T n} ∧
      ∀ k, pteOf t.mem T k = if k = n then 0 else pteOf s.mem T k) E s := by
  have hvalid := isValid_of_isLeaf hleaf
  obtain ⟨q, hq, hram, hslot, hword, hwalk⟩ := htable.walk_valid hn hvalid
  have hj : n % 512 < 512 := Nat.mod_lt _ (by decide)
  obtain ⟨u, hfree, hproc, hcount, hlent, hmem⟩ := kfree_lent htable.inv hsole
  have hsame : ∀ x ∈ T.pages, u.mem x = s.mem x := by
    intro x hx
    rw [hmem]
    exact upd_of_ne _ _ fun h => hapart (h ▸ hx)
  have hback : Returned s T u {frameOf s.mem T n} := by
    refine ⟨hproc, hcount, hlent, htable.tree.frame hsame, ?_, fun x _ hx => hmem ▸ upd_of_ne _ _ hx⟩
    rintro _ rfl
    exact hapart
  unfold unmapPage
  refine .bind (.of_ok hwalk ?_)
  rw [if_neg hslot]
  refine hram.wp_load hj ?_
  rw [hword, hvalid, if_neg (pteFlags_ne_of_isLeaf hleaf), hsole.1.ramPage.pte2pa]
  refine .bind (.of_ok hfree (hram.wp_store hj ?_))
  obtain ⟨hset, hpte⟩ := (hback.table htable).setEntry hq 0
    (t := { u with mem := upd u.mem q (upd (u.mem q) (n % 512) 0) }) rfl rfl rfl
  refine ⟨⟨hproc, hcount, hlent, hset.tree, hback.apart, fun x hx hx' => ?_⟩, fun k => ?_⟩
  · rw [hset.mem x hx (Set.notMem_empty x), hback.mem x hx hx']
  · rw [hpte k]
    split
    · rfl
    · exact Radix.entry_frame hsame k

theorem Backed.tail (hbacked : Backed s T a b) (hab : a < b)
    (hback : Returned s T t {frameOf s.mem T a})
    (hpte : ∀ k, pteOf t.mem T k = if k = a then 0 else pteOf s.mem T k) : Backed t T (a + 1) b := by
  have hsame : ∀ i, a + 1 ≤ i → pteOf t.mem T i = pteOf s.mem T i := fun i hi => by
    rw [hpte i, if_neg (by omega)]
  constructor
  · intro i hai hib
    rw [hsame i hai]
    exact hbacked.leaf i (by omega) hib
  · intro i hai hib
    have hne : frameOf s.mem T i ∉ ({frameOf s.mem T a} : Set Nat) := by
      intro h
      have heq := hbacked.inj i a (by omega) hib le_rfl hab h
      omega
    rw [frameOf, hsame i hai]
    exact (hback.lent.other _ hne).2.mp (hbacked.sole i (by omega) hib)
  · intro i hai hib
    rw [frameOf, hsame i hai]
    exact hbacked.apart i (by omega) hib
  · intro i j hai hib haj hjb
    rw [frameOf, frameOf, hsame i hai, hsame j haj]
    exact hbacked.inj i j (by omega) hib (by omega) hjb

theorem frames_cons (m m' : Mem) (hab : a < b)
    (hsame : ∀ i, a + 1 ≤ i → i < b → pteOf m' T i = pteOf m T i) :
    frames m' T (a + 1) b ∪ {frameOf m T a} = frames m T a b := by
  ext q
  constructor
  · rintro (⟨i, hai, hib, rfl⟩ | rfl)
    · exact ⟨i, by omega, hib, by rw [frameOf, frameOf, hsame i hai hib]⟩
    · exact ⟨a, le_rfl, hab, rfl⟩
  · rintro ⟨i, hai, hib, rfl⟩
    rcases hai.eq_or_lt with rfl | hlt
    · exact Or.inr rfl
    · exact Or.inl ⟨i, hlt, hib, by rw [frameOf, frameOf, hsame i hlt hib]⟩

theorem frames_self (m : Mem) (T : Shape) (a : Nat) : frames m T a a = ∅ := by
  ext q
  refine ⟨?_, fun h => h.elim⟩
  rintro ⟨i, hai, hia, -⟩
  omega

theorem Returned.refl (htable : Table s r T) : Returned s T s ∅ :=
  ⟨rfl, rfl, .refl htable.inv, htable.tree, fun _ h => h.elim, fun _ _ _ => rfl⟩

theorem Table.uvmunmap_back (n : Nat) (htable : Table s r T) (hbacked : Backed s T a (a + n))
    (hb : (a + n) * 4096 ≤ maxva) {E : Panic → Kernel → Prop} :
    Wp (uvmunmap (r * 4096) (a * 4096) n true) (fun _ t => Returned s T t (frames s.mem T a (a + n)) ∧
      ∀ k, pteOf t.mem T k = if a ≤ k ∧ k < a + n then 0 else pteOf s.mem T k) E s := by
  unfold uvmunmap
  rw [if_neg (by simp only [pgsize]; omega)]
  induction n generalizing a s with
  | zero =>
      refine .pure ⟨?_, fun k => by rw [if_neg (by omega)]⟩
      rw [Nat.add_zero, frames_self]
      exact .refl htable
  | succ n ih =>
      have hlt : a < a + (n + 1) := by omega
      have hva : a * 4096 < maxva := lt_of_lt_of_le (by omega) hb
      show Wp (unmapPage (r * 4096) true (a * 4096) >>= fun _ =>
        forUp pgsize (unmapPage (r * 4096) true) n (a * 4096 + pgsize)) _ E s
      refine .bind ((htable.unmapPage_back hva (hbacked.leaf a le_rfl hlt)
        (hbacked.sole a le_rfl hlt) (hbacked.apart a le_rfl hlt)).imp ?_)
      rintro _ t ⟨hback, hpte⟩
      have hbacked' := hbacked.tail hlt hback hpte
      rw [show a * 4096 + pgsize = (a + 1) * 4096 by simp only [pgsize]; omega]
      rw [show a + (n + 1) = a + 1 + n by omega] at hbacked' hb ⊢
      refine (ih (hback.table htable) hbacked' hb).imp ?_
      rintro _ u ⟨hback', hpte'⟩
      refine ⟨?_, fun k => ?_⟩
      · rw [← frames_cons s.mem t.mem (by omega) fun i hi _ => by rw [hpte i, if_neg (by omega)]]
        exact hback.trans hback'
      · rw [hpte' k, hpte k]
        split_ifs <;> first | rfl | omega

end Unmapping

/-! ### Pages at the end -/

/-- The same translation: the two words are equal, or neither is valid. -/
def SamePte (w w' : Nat) : Prop := isValid w = isValid w' ∧ (isValid w' = true → w = w')

theorem SamePte.refl (w : Nat) : SamePte w w := ⟨rfl, fun _ => rfl⟩

theorem SamePte.trans {w w' w'' : Nat} (h : SamePte w w') (h' : SamePte w' w'') : SamePte w w'' :=
  ⟨h.1.trans h'.1, fun hv => (h.2 (h'.1.trans hv)).trans (h'.2 hv)⟩

theorem SamePte.of_invalid {w w' : Nat} (h : isValid w = false) (h' : isValid w' = false) :
    SamePte w w' :=
  ⟨h.trans h'.symm, fun hv => by cases h'.symm.trans hv⟩

/-- The first `n` pages of user addresses are mapped and no others below the trapframe. -/
structure Space (s : Kernel) (r : Nat) (T : Shape) (n : Nat) : Prop where
  table : Table s r T
  backed : Backed s T 0 n
  rest : ∀ i, n ≤ i → i < trapframe / 4096 → isValid (pteOf s.mem T i) = false

/-- The pages from `n` up to `n'` have been mapped to new frames, with the flags and the contents
given. Everything else is as it was, except that the tree may have got the pages of `N`. -/
structure Extended (s : Kernel) (T : Shape) (n : Nat) (t : Kernel) (T' : Shape) (n' : Nat)
    (N : Set Nat) (flags : Nat → Nat) (content : Nat → Nat → Nat) : Prop where
  proc : t.proc = s.proc
  lent : Lent s.kmem t.kmem (N ∪ frames t.mem T' n n')
  pages : T'.pages = T.pages ∪ N
  mem : ∀ q, q ∉ T.pages → ¬ s.kmem.Free q → t.mem q = s.mem q
  same : ∀ i, ¬ (n ≤ i ∧ i < n') → SamePte (pteOf t.mem T' i) (pteOf s.mem T i)
  flags : ∀ i, n ≤ i → i < n' → pteOf t.mem T' i % 1024 = flags i
  content : ∀ i, n ≤ i → i < n' → t.mem (frameOf t.mem T' i) = content i

section Space

variable {s s₁ t u : Kernel} {r n a b c q perm : Nat} {T T' T'' : Shape} {N M : Set Nat}
  {flags : Nat → Nat} {content : Nat → Nat → Nat}

theorem Backed.le (hbacked : Backed s T 0 n) : n ≤ npages := by
  rw [← Finset.card_range n, ← Finset.card_range npages]
  refine Finset.card_le_card_of_injOn (fun i => pageIndex (frameOf s.mem T i)) ?_ ?_
  · intro i hi
    have hlt := Finset.mem_range.mp hi
    exact Finset.mem_coe.mpr (Finset.mem_range.mpr (hbacked.sole i (Nat.zero_le i) hlt).1.index_lt)
  · intro i hi j hj heq
    have hi := Finset.mem_range.mp (Finset.mem_coe.mp hi)
    have hj := Finset.mem_range.mp (Finset.mem_coe.mp hj)
    refine hbacked.inj i j (Nat.zero_le i) hi (Nat.zero_le j) hj ?_
    by_contra hne
    exact Owned.index_ne (hbacked.sole i (Nat.zero_le i) hi).1 (hbacked.sole j (Nat.zero_le j) hj).1
      hne heq

theorem npages_lt_trapframe : npages < trapframe / 4096 := by decide

theorem page_lt_maxva (hn : n < trapframe / 4096) : n * 4096 < maxva := by
  have htrap : trapframe / 4096 = 0x3FFFFFE := by decide
  rw [htrap] at hn
  rw [maxva]
  omega

theorem Space.transfer (hspace : Space s r T n) (htable : Table t r T')
    (hsole : ∀ q, s.kmem.Sole q → q ∉ T.pages → t.kmem.Sole q ∧ q ∉ T'.pages)
    (hsame : ∀ i, SamePte (pteOf t.mem T' i) (pteOf s.mem T i)) : Space t r T' n := by
  have heq : ∀ i < n, pteOf t.mem T' i = pteOf s.mem T i := fun i hi =>
    (hsame i).2 (isValid_of_isLeaf (hspace.backed.leaf i (Nat.zero_le i) hi))
  refine ⟨htable, ⟨?_, ?_, ?_, ?_⟩, ?_⟩
  · intro i hai hi
    rw [heq i hi]
    exact hspace.backed.leaf i hai hi
  · intro i hai hi
    rw [frameOf, heq i hi]
    exact (hsole _ (hspace.backed.sole i hai hi) (hspace.backed.apart i hai hi)).1
  · intro i hai hi
    rw [frameOf, heq i hi]
    exact (hsole _ (hspace.backed.sole i hai hi) (hspace.backed.apart i hai hi)).2
  · intro i j hai hi haj hj
    rw [frameOf, frameOf, heq i hi, heq j hj]
    exact hspace.backed.inj i j hai hi haj hj
  · intro i hi htrap
    rw [(hsame i).1]
    exact hspace.rest i hi htrap

theorem mappages_one (pagetable n pa perm : Nat) :
    mappages pagetable (n * 4096) pgsize pa perm = mapPage pagetable (n * 4096) pa perm := by
  have hlast : pgrounddown (n * 4096 + pgsize - 1) = n * 4096 := by
    simp only [pgrounddown, pgsize]
    omega
  have hfirst : pgrounddown (n * 4096) = n * 4096 := by
    simp only [pgrounddown, pgsize]
    omega
  unfold mappages
  rw [if_neg (by decide)]
  simp only [hlast, hfirst, Nat.sub_self, Nat.zero_div]
  rfl

theorem frames_one (m : Mem) (T : Shape) (n : Nat) : frames m T n (n + 1) = {frameOf m T n} := by
  ext x
  constructor
  · rintro ⟨i, hi, hi', rfl⟩
    obtain rfl : i = n := by omega
    rfl
  · rintro rfl
    exact ⟨n, le_rfl, Nat.lt_succ_self n, rfl⟩

structure Filled (s s₁ : Kernel) (q : Nat) (x : Nat → Nat) : Prop where
  proc : s₁.proc = s.proc
  counted : s₁.failedAllocs = s.failedAllocs
  lent : Lent s.kmem s₁.kmem {q}
  mem : s₁.mem = upd s.mem q x

section Filled

variable {x : Nat → Nat}

theorem Filled.notMem (hfilled : Filled s s₁ q x) (htable : Table s r T) : q ∉ T.pages := fun h =>
  (htable.used q h).2 (hfilled.lent.free q rfl)

theorem Filled.same (hfilled : Filled s s₁ q x) (htable : Table s r T) :
    ∀ y ∈ T.pages, s₁.mem y = s.mem y := by
  intro y hy
  rw [hfilled.mem]
  exact upd_of_ne _ _ fun h => hfilled.notMem htable (h ▸ hy)

theorem Filled.table (hfilled : Filled s s₁ q x) (htable : Table s r T) : Table s₁ r T where
  inv := hfilled.lent.inv'
  tree := htable.tree.frame (hfilled.same htable)
  root := htable.root
  used := fun y hy => ⟨(htable.used y hy).1, hfilled.lent.not_free (htable.used y hy).2⟩

theorem Filled.pteOf_eq (hfilled : Filled s s₁ q x) (htable : Table s r T) (i : Nat) :
    pteOf s₁.mem T i = pteOf s.mem T i :=
  Radix.entry_frame (hfilled.same htable) i

theorem Filled.grown (hfilled : Filled s s₁ q x) (htable : Table s r T)
    (hgrown : Grown s₁ T t T' N) : q ∉ T'.pages ∧ q ∉ N ∧ t.kmem.Sole q ∧ t.mem q = x := by
  have hsole := hfilled.lent.sole q rfl
  have hN := hgrown.lent.not_mem hsole.not_free
  have hT := hfilled.notMem htable
  refine ⟨?_, hN, hgrown.lent.sole_of_sole hsole, ?_⟩
  · rw [hgrown.pages]
    exact fun h => h.elim hT hN
  · rw [hgrown.mem q hT hN, hfilled.mem, upd_self]

/-- What was in use before is as it was, apart from the tree. -/
theorem Filled.mem_of_used (hfilled : Filled s s₁ q x) (hgrown : Grown s₁ T t T' N) {y : Nat}
    (hT : y ∉ T.pages) (hused : ¬ s.kmem.Free y) : t.mem y = s.mem y := by
  have hne : y ≠ q := fun h => hused (h ▸ hfilled.lent.free q rfl)
  rw [hgrown.mem y hT (hgrown.lent.not_mem (hfilled.lent.not_free hused)), hfilled.mem,
    upd_of_ne _ _ hne]

theorem Filled.keeps (hfilled : Filled s s₁ q x) (hgrown : Grown s₁ T t T' N) {y : Nat}
    (hsole : s.kmem.Sole y) (hT : y ∉ T.pages) : t.kmem.Sole y ∧ y ∉ T'.pages := by
  have hsole₁ := hfilled.lent.sole_of_sole hsole
  refine ⟨hgrown.lent.sole_of_sole hsole₁, ?_⟩
  rw [hgrown.pages]
  exact fun h => h.elim hT (hgrown.lent.not_mem hsole₁.not_free)

theorem Space.extend (hspace : Space s r T n) (hfilled : Filled s s₁ q x)
    (hgrown : Grown s₁ T t T' N) {f : Nat} (hf : f < 1024) (hleaf : isLeaf f = true)
    (hpte : ∀ i, pteOf t.mem T' i = if i = n then q * 1024 + f else pteOf s₁.mem T i) :
    Space t r T' (n + 1) ∧ Extended s T n t T' (n + 1) N (fun _ => f) fun _ => x := by
  obtain ⟨hT', hN, hsole, hx⟩ := hfilled.grown hspace.table hgrown
  have hlast : pteOf t.mem T' n = q * 1024 + f := by rw [hpte n, if_pos rfl]
  have hframe : frameOf t.mem T' n = q := by rw [frameOf, hlast]; omega
  have hother : ∀ i, i ≠ n → pteOf t.mem T' i = pteOf s.mem T i := fun i hi => by
    rw [hpte i, if_neg hi, hfilled.pteOf_eq hspace.table]
  have hold : ∀ i < n, frameOf t.mem T' i = frameOf s.mem T i := fun i hi => by
    rw [frameOf, hother i (by omega)]
  have hne : ∀ i < n, frameOf s.mem T i ≠ q := fun i hi h =>
    (hspace.backed.sole i (Nat.zero_le i) hi).not_free (h ▸ hfilled.lent.free q rfl)
  constructor
  · refine ⟨hgrown.table (hfilled.table hspace.table), ⟨?_, ?_, ?_, ?_⟩, ?_⟩
    · intro i hai hi
      rcases Nat.lt_succ_iff_lt_or_eq.mp hi with hlt | rfl
      · rw [hother i (by omega)]
        exact hspace.backed.leaf i hai hlt
      · rw [hlast, isLeaf_mod, show (q * 1024 + f) % 1024 = f by omega]
        exact hleaf
    · intro i hai hi
      rcases Nat.lt_succ_iff_lt_or_eq.mp hi with hlt | rfl
      · rw [hold i hlt]
        exact (hfilled.keeps hgrown (hspace.backed.sole i hai hlt) (hspace.backed.apart i hai hlt)).1
      · rw [hframe]
        exact hsole
    · intro i hai hi
      rcases Nat.lt_succ_iff_lt_or_eq.mp hi with hlt | rfl
      · rw [hold i hlt]
        exact (hfilled.keeps hgrown (hspace.backed.sole i hai hlt) (hspace.backed.apart i hai hlt)).2
      · rw [hframe]
        exact hT'
    · intro i j hai hi haj hj heq
      rcases Nat.lt_succ_iff_lt_or_eq.mp hi with hlt | rfl <;>
        rcases Nat.lt_succ_iff_lt_or_eq.mp hj with hlt' | rfl
      · rw [hold i hlt, hold j hlt'] at heq
        exact hspace.backed.inj i j hai hlt haj hlt' heq
      · rw [hold i hlt, hframe] at heq
        exact (hne i hlt heq).elim
      · rw [hold j hlt', hframe] at heq
        exact (hne j hlt' heq.symm).elim
      · rfl
    · intro i hi htrap
      rw [hother i (by omega)]
      exact hspace.rest i (by omega) htrap
  · have hframes : frames t.mem T' n (n + 1) = {q} := by rw [frames_one, hframe]
    refine ⟨hgrown.proc.trans hfilled.proc, ?_, hgrown.pages, ?_, ?_, ?_, ?_⟩
    · rw [hframes, Set.union_comm]
      exact hfilled.lent.trans hgrown.lent
    · exact fun y hT hused => hfilled.mem_of_used hgrown hT hused
    · intro i hi
      rw [hother i (by omega)]
      exact .refl _
    · intro i hi hi'
      rw [show i = n by omega, hlast]
      omega
    · intro i hi hi'
      rw [show i = n by omega, hframe]
      exact hx

theorem Space.drop (hspace : Space s r T n) (hfilled : Filled s s₁ q x)
    (hgrown : Grown s₁ T t T' N) (hpte : ∀ i, pteOf t.mem T' i = pteOf s₁.mem T i)
    (flags : Nat → Nat) (content : Nat → Nat → Nat) {E : Panic → Kernel → Prop} :
    Wp (kfree (q * 4096)) (fun _ u => Space u r T' n ∧ u.failedAllocs = t.failedAllocs ∧
      Extended s T n u T' n N flags content) E t := by
  obtain ⟨hT', hN, hsole, -⟩ := hfilled.grown hspace.table hgrown
  have htable := hgrown.table (hfilled.table hspace.table)
  obtain ⟨u, hrun, hproc, hcount, hback, hmem⟩ := kfree_lent htable.inv hsole
  have hsame : ∀ y ∈ T'.pages, u.mem y = t.mem y := by
    intro y hy
    rw [hmem]
    exact upd_of_ne _ _ fun h => hT' (h ▸ hy)
  have hreturned : Returned t T' u {q} := by
    refine ⟨hproc, hcount, hback, htable.tree.frame hsame, ?_, fun y _ hy => hmem ▸ upd_of_ne _ _ hy⟩
    rintro _ rfl
    exact hT'
  have hsamePte : ∀ i, SamePte (pteOf u.mem T' i) (pteOf s.mem T i) := by
    intro i
    rw [pteOf, Radix.entry_frame hsame i, ← pteOf, hpte i, hfilled.pteOf_eq hspace.table]
    exact .refl _
  have hne : ∀ y, ¬ s.kmem.Free y → y ∉ ({q} : Set Nat) := fun y hy h =>
    hy ((show y = q from h) ▸ hfilled.lent.free q rfl)
  refine .of_ok hrun ⟨hspace.transfer (hreturned.table htable) ?_ hsamePte, hcount, ?_⟩
  · intro y hy hT
    have hkept := hfilled.keeps hgrown hy hT
    exact ⟨(hback.other y (hne y hy.not_free)).2.mp hkept.1, hkept.2⟩
  · refine ⟨hproc.trans (hgrown.proc.trans hfilled.proc), ?_, hgrown.pages, ?_,
      fun i _ => hsamePte i, fun i _ _ => by omega, fun i _ _ => by omega⟩
    · have hloan := (hfilled.lent.trans hgrown.lent).give_back hback Set.subset_union_left
      refine hloan.congr ?_
      rw [frames_self, Set.union_empty, Set.union_sdiff_left, Set.sdiff_singleton_eq_self hN]
    · intro y hT hused
      rw [hmem, upd_of_ne _ _ (hne y hused)]
      exact hfilled.mem_of_used hgrown hT hused

end Filled

theorem Backed.mono {a' b' : Nat} (hbacked : Backed s T a b) (ha : a ≤ a') (hb : b' ≤ b) :
    Backed s T a' b' where
  leaf := fun i hi hi' => hbacked.leaf i (by omega) (by omega)
  sole := fun i hi hi' => hbacked.sole i (by omega) (by omega)
  apart := fun i hi hi' => hbacked.apart i (by omega) (by omega)
  inj := fun i j hi hi' hj hj' => hbacked.inj i j (by omega) (by omega) (by omega) (by omega)

namespace Extended

theorem refl (hspace : Space s r T n) : Extended s T n s T n ∅ flags content where
  proc := rfl
  lent := by
    rw [frames_self, Set.union_empty]
    exact .refl hspace.table.inv
  pages := (Set.union_empty _).symm
  mem := fun _ _ _ => rfl
  same := fun _ _ => .refl _
  flags := fun i hi hi' => by omega
  content := fun i hi hi' => by omega

theorem notMem_pages (hext : Extended s T a t T' b N flags content) (hT : q ∉ T.pages)
    (hused : ¬ s.kmem.Free q) : q ∉ T'.pages := by
  rw [hext.pages]
  exact fun h => h.elim hT fun hN => hused (hext.lent.free q (Or.inl hN))

theorem trans (hext : Extended s T a t T' b N flags content) (hspace : Space t r T' b)
    (hext' : Extended t T' b u T'' c M flags content) (hab : a ≤ b) (hbc : b ≤ c) :
    Extended s T a u T'' c (N ∪ M) flags content := by
  have heq : ∀ i < b, pteOf u.mem T'' i = pteOf t.mem T' i := fun i hi =>
    (hext'.same i (by omega)).2 (isValid_of_isLeaf (hspace.backed.leaf i (Nat.zero_le i) hi))
  have hframes : frames u.mem T'' a c = frames t.mem T' a b ∪ frames u.mem T'' b c := by
    ext x
    constructor
    · rintro ⟨i, hai, hic, rfl⟩
      by_cases hib : i < b
      · exact Or.inl ⟨i, hai, hib, by rw [frameOf, frameOf, heq i hib]⟩
      · exact Or.inr ⟨i, by omega, hic, rfl⟩
    · rintro (⟨i, hai, hib, rfl⟩ | ⟨i, hbi, hic, rfl⟩)
      · exact ⟨i, hai, by omega, by rw [frameOf, frameOf, heq i hib]⟩
      · exact ⟨i, by omega, hic, rfl⟩
  refine ⟨hext'.proc.trans hext.proc, ?_, ?_, ?_, ?_, ?_, ?_⟩
  · refine (hext.lent.trans hext'.lent).congr ?_
    rw [hframes, Set.union_union_union_comm]
  · rw [hext'.pages, hext.pages, Set.union_assoc]
  · intro q hT hused
    rw [hext'.mem q (hext.notMem_pages hT hused) (hext.lent.not_free hused), hext.mem q hT hused]
  · intro i hi
    exact (hext'.same i (by omega)).trans (hext.same i (by omega))
  · intro i hai hic
    by_cases hib : i < b
    · rw [heq i hib]
      exact hext.flags i hai hib
    · exact hext'.flags i (by omega) hic
  · intro i hai hic
    by_cases hib : i < b
    · have hsole := hspace.backed.sole i (Nat.zero_le i) hib
      rw [frameOf, heq i hib,
        hext'.mem _ (hspace.backed.apart i (Nat.zero_le i) hib) hsole.not_free]
      exact hext.content i hai hib
    · exact hext'.content i (by omega) hic

theorem undo (hext : Extended s T a t T' b N flags content) (hspace : Space t r T' b)
    (hstart : Space s r T a) (hab : a ≤ b) {E : Panic → Kernel → Prop} :
    Wp (uvmunmap (r * 4096) (a * 4096) (b - a) true) (fun _ u => Space u r T' a ∧
      u.failedAllocs = t.failedAllocs ∧ Extended s T a u T' a N flags content) E t := by
  have hb : a + (b - a) = b := by omega
  have hlimit : b < trapframe / 4096 := lt_of_le_of_lt hspace.backed.le npages_lt_trapframe
  have hbacked : Backed t T' a (a + (b - a)) := hspace.backed.mono (Nat.zero_le a) (by omega)
  refine (hspace.table.uvmunmap_back (b - a) hbacked ?_).imp ?_
  · rw [hb]
    exact (page_lt_maxva hlimit).le
  rw [hb]
  rintro _ u ⟨hback, hpte⟩
  have hsame : ∀ i, SamePte (pteOf u.mem T' i) (pteOf s.mem T i) := by
    intro i
    rw [hpte i]
    split
    · next h => exact .of_invalid isValid_zero (hstart.rest i h.1 (by omega))
    · next h => exact hext.same i h
  have hfree : ∀ q, ¬ s.kmem.Free q → q ∉ frames t.mem T' a b := fun q hq h =>
    hq (hext.lent.free q (Or.inr h))
  refine ⟨?_, hback.counted, ?_⟩
  · refine hstart.transfer (hback.table hspace.table) ?_ hsame
    intro q hq hT
    refine ⟨(hback.lent.other q (hfree q hq.not_free)).2.mp (hext.lent.sole_of_sole hq), ?_⟩
    exact hext.notMem_pages hT hq.not_free
  · refine ⟨hback.proc.trans hext.proc, ?_, hext.pages, ?_, fun i _ => hsame i,
      fun i _ _ => by omega, fun i _ _ => by omega⟩
    · refine (hext.lent.give_back hback.lent Set.subset_union_right).congr ?_
      have hdisjoint : Disjoint N (frames t.mem T' a b) := by
        rw [Set.disjoint_left]
        intro q hN hq
        exact hback.apart q hq (hext.pages ▸ Or.inr hN)
      rw [frames_self, Set.union_empty, Set.union_sdiff_right, hdisjoint.sdiff_eq_left]
    · intro q hT hused
      rw [hback.mem q (hext.notMem_pages hT hused) (hfree q hused), hext.mem q hT hused]

end Extended

/-! ### `uvmalloc` -/

theorem pgroundup_page (hn : n * 4096 < maxva) : pgroundup (n * 4096) = n * 4096 := by
  rw [maxva] at hn
  simp only [pgroundup, pgsize, uint64]
  omega

theorem Space.congr (hspace : Space s r T n) (hmem : t.mem = s.mem) (hkmem : t.kmem = s.kmem) :
    Space t r T n := by
  refine hspace.transfer ⟨?_, ?_, hspace.table.root, ?_⟩ ?_ ?_
  · rw [hkmem]
    exact hspace.table.inv
  · rw [hmem]
    exact hspace.table.tree
  · rw [hkmem]
    exact hspace.table.used
  · rw [hkmem]
    exact fun q hq hT => ⟨hq, hT⟩
  · rw [hmem]
    exact fun i => .refl _

theorem Extended.congr (hext : Extended s T a t T' b N flags content) (hproc : u.proc = t.proc)
    (hmem : u.mem = t.mem) (hkmem : u.kmem = t.kmem) :
    Extended s T a u T' b N flags content := by
  refine ⟨hproc.trans hext.proc, ?_, hext.pages, ?_, ?_, ?_, ?_⟩
  · rw [hmem, hkmem]
    exact hext.lent
  · rw [hmem]
    exact hext.mem
  · rw [hmem]
    exact hext.same
  · rw [hmem]
    exact hext.flags
  · rw [hmem]
    exact hext.content

theorem Extended.uvmdealloc_undo (hext : Extended s T a t T' b N flags content)
    (hspace : Space t r T' b) (hstart : Space s r T a) (hab : a ≤ b) {E : Panic → Kernel → Prop} :
    Wp (uvmdealloc (r * 4096) (b * 4096) (a * 4096)) (fun _ u => Space u r T' a ∧
      u.failedAllocs = t.failedAllocs ∧ Extended s T a u T' a N flags content) E t := by
  have hb : b * 4096 < maxva :=
    page_lt_maxva (lt_of_le_of_lt hspace.backed.le npages_lt_trapframe)
  have ha : a * 4096 < maxva := lt_of_le_of_lt (by omega) hb
  unfold uvmdealloc
  rw [pgroundup_page ha, pgroundup_page hb]
  refine .ite (fun hle => .pure ?_) fun hlt => ?_
  · obtain rfl : a = b := by omega
    exact ⟨hspace, rfl, hext⟩
  · have hcount : (b * 4096 - a * 4096) / pgsize = b - a := by
      simp only [pgsize]
      omega
    rw [if_pos (Nat.not_le.mp hlt), hcount]
    exact .bind ((hext.undo hspace hstart hab).imp fun _ u hu => .pure hu)

theorem Space.mapFrame (hspace : Space s r T n) {x : Nat → Nat} (hfilled : Filled s s₁ q x)
    (hn : n < trapframe / 4096) {f : Nat} (hperm : perm ||| pteV = f) (hf : f < 1024)
    (hleaf : isLeaf f = true) {E : Panic → Kernel → Prop} :
    Wp (mappages (r * 4096) (n * 4096) pgsize (q * 4096) perm) (fun res t => ∃ T' N,
      (res = 0 ∧ t.failedAllocs = s.failedAllocs ∧ Space t r T' (n + 1) ∧
        Extended s T n t T' (n + 1) N (fun _ => f) fun _ => x) ∨
      (res = -1 ∧ OutOfMemory s t ∧ Grown s₁ T t T' N ∧
        ∀ i, pteOf t.mem T' i = pteOf s₁.mem T i)) E s₁ := by
  have hdiv : n * 4096 / 4096 = n := Nat.mul_div_cancel _ (by decide)
  have hpage := (hfilled.lent.sole q rfl).1
  have hword : pa2pte (q * 4096) ||| perm ||| pteV = q * 1024 + f := by
    rw [Nat.lor_assoc, hperm]
    exact pa2pte_lor (by have := hpage.2; omega) hf
  have hinvalid : isValid (pteOf s₁.mem T (n * 4096 / 4096)) = false := by
    rw [hdiv, hfilled.pteOf_eq hspace.table]
    exact hspace.rest n le_rfl hn
  rw [mappages_one]
  refine ((hfilled.table hspace.table).mapPage_grow (page_lt_maxva hn) hinvalid _ _).imp ?_
  rintro res t ⟨T', N, hgrown, ⟨rfl, hout, hpte⟩ | ⟨rfl, hcount, hpte⟩⟩
  · exact ⟨T', N, Or.inr ⟨rfl, hout.of_eq hfilled.counted, hgrown, hpte⟩⟩
  · rw [hdiv, hword] at hpte
    exact ⟨T', N, Or.inl ⟨rfl, hcount.trans hfilled.counted,
      hspace.extend hfilled hgrown hf hleaf hpte⟩⟩

end Space

end Xv6Mmap
