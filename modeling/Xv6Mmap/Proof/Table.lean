import Xv6Mmap.Lib.Radix
import Xv6Mmap.Proof.Lent

/-!
# One page table

A page table is a radix tree of three levels. The functions of `kernel/vm.c` on base pages are
described by what they do to the shape of the tree, to its entries and to the loans of the allocator.
-/

namespace Xv6Mmap

open Sequential
open Radix (Shape Stores)

/-- Above the bottom a valid word refers to a page table. -/
def pteFormat : Radix.Format Nat where
  width := 512
  height := 2
  page w := if isValid w then some (w / 1024) else none
  inner w := isValid w = true → isTable w = true
  empty := 0
  width_pos := by decide
  page_empty := rfl
  inner_empty := fun h => absurd h (by decide)

abbrev pteOf (m : Mem) (T : Shape) (n : Nat) : Nat := Radix.entry pteFormat m T n

/-- The page table with root `r` has the shape `T`, in pages that are in use. -/
structure Table (s : Kernel) (r : Nat) (T : Shape) : Prop where
  inv : s.kmem.Inv
  tree : Radix.Tree pteFormat s.mem T
  root : T 2 0 = some r
  used : ∀ q ∈ T.pages, RamPage q ∧ ¬ s.kmem.Free q

/-- The tree has got the pages of `N`, taken from the allocator, and nothing else has changed but
words of the tree. -/
structure Grown (s : Kernel) (T : Shape) (t : Kernel) (T' : Shape) (N : Set Nat) : Prop where
  proc : t.proc = s.proc
  lent : Lent s.kmem t.kmem N
  tree : Radix.Tree pteFormat t.mem T'
  mono : ∀ {l i q}, T l i = some q → T' l i = some q
  pages : T'.pages = T.pages ∪ N
  mem : ∀ q, q ∉ T.pages → q ∉ N → t.mem q = s.mem q

section Grown

variable {s t u : Kernel} {r : Nat} {T T' T'' : Shape} {N M : Set Nat}

theorem Grown.table (hgrown : Grown s T t T' N) (htable : Table s r T) : Table t r T' where
  inv := hgrown.lent.inv'
  tree := hgrown.tree
  root := hgrown.mono htable.root
  used := by
    intro q hq
    rw [hgrown.pages] at hq
    rcases hq with hold | hnew
    · exact ⟨(htable.used q hold).1, hgrown.lent.not_free (htable.used q hold).2⟩
    · have hsole := hgrown.lent.sole q hnew
      exact ⟨hsole.1.ramPage, hsole.not_free⟩

theorem Grown.trans (hgrown : Grown s T t T' N) (hgrown' : Grown t T' u T'' M) :
    Grown s T u T'' (N ∪ M) where
  proc := hgrown'.proc.trans hgrown.proc
  lent := hgrown.lent.trans hgrown'.lent
  tree := hgrown'.tree
  mono := fun h => hgrown'.mono (hgrown.mono h)
  pages := by rw [hgrown'.pages, hgrown.pages, Set.union_assoc]
  mem := by
    intro q hT hNM
    have hN : q ∉ N := fun h => hNM (Or.inl h)
    have hT' : q ∉ T'.pages := by
      rw [hgrown.pages]
      exact fun h => h.elim hT hN
    rw [hgrown'.mem q hT' fun h => hNM (Or.inr h), hgrown.mem q hT hN]

theorem Grown.of_eq (htable : Table s r T) (hproc : t.proc = s.proc) (hmem : t.mem = s.mem)
    (hkmem : t.kmem = s.kmem) : Grown s T t T ∅ where
  proc := hproc
  lent := by
    rw [hkmem]
    exact .refl htable.inv
  tree := hmem ▸ htable.tree
  mono := id
  pages := (Set.union_empty _).symm
  mem := fun q _ _ => by rw [hmem]

end Grown

theorem stores_upd (m : Mem) (q j w : Nat) : Stores m (upd m q (upd (m q) j w)) q j w where
  stored := by rw [upd_self, upd_self]
  row := fun j' hj' => by rw [upd_self, upd_of_ne _ _ hj']
  rest := fun q' hq' => upd_of_ne _ _ hq'

section Access

variable {α : Type} {s : Kernel} {q j : Nat} {E : Panic → Kernel → Prop}

theorem RamPage.wp_load (hq : RamPage q) (hj : j < 512) {f : Nat → K α} {Q : α → Kernel → Prop}
    (hwp : Wp (f (s.mem q j)) Q E s) : Wp (loadWord (q * 4096 + 8 * j) >>= f) Q E s := by
  constructor
  rw [run_loadWord_bind (hq.inRam_slot hj), word_slot _ hj]
  exact hwp.outcome

theorem RamPage.wp_store (hq : RamPage q) (hj : j < 512) {w : Nat} {Q : Unit → Kernel → Prop}
    (hpost : Q () { s with mem := upd s.mem q (upd (s.mem q) j w) }) :
    Wp (storeWord (q * 4096 + 8 * j) w) Q E s := by
  refine .of_ok (run_storeWord (hq.inRam_slot hj) w s) ?_
  rw [setWord_slot _ _ hj]
  exact hpost

theorem RamPage.wp_zero (hq : RamPage q) {Q : Unit → Kernel → Prop}
    (hpost : Q () { s with mem := upd s.mem q fun _ => 0 }) : Wp (zeroPages (q * 4096) 1) Q E s := by
  refine .of_ok (run_zeroPages (inRam_page hq.1 hq.2) 1 s) ?_
  rw [Nat.mul_div_cancel _ (by decide), zeroPages_one]
  exact hpost

end Access

section Walking

variable {s : Kernel} {r : Nat} {T : Shape} {l i q va : Nat}

namespace Table

theorem link (htable : Table s r T) (hq : T (l + 1) i = some q) {j : Nat} (hj : j < 512) :
    (isValid (s.mem q j) = false ∧ T l (i * 512 + j) = none) ∨
      (isValid (s.mem q j) = true ∧ isTable (s.mem q j) = true ∧
        T l (i * 512 + j) = some (s.mem q j / 1024) ∧ RamPage (s.mem q j / 1024)) := by
  obtain ⟨hpage, hinner⟩ := htable.tree.link hq j hj
  cases hvalid : isValid (s.mem q j) with
  | false =>
      refine Or.inl ⟨rfl, hpage.symm.trans ?_⟩
      exact if_neg (by rw [hvalid]; exact Bool.false_ne_true)
  | true =>
      have hnode : T l (i * 512 + j) = some (s.mem q j / 1024) := hpage.symm.trans (if_pos hvalid)
      exact Or.inr ⟨rfl, hinner hvalid, hnode, (htable.used _ ⟨_, _, hnode⟩).1⟩

theorem ramPage (htable : Table s r T) (hq : T l i = some q) : RamPage q :=
  (htable.used q ⟨_, _, hq⟩).1

theorem walkLevel_find (htable : Table s r T) (hq : T (l + 1) i = some q) :
    walkLevel (q * 4096) (l + 1) va false s =
      .ok ((T l (i * 512 + px (l + 1) va)).map (· * 4096)) s := by
  rw [walkLevel_read (htable.ramPage hq) (px_lt _ va)]
  rcases htable.link hq (px_lt (l + 1) va) with ⟨hvalid, hnone⟩ | ⟨hvalid, -, hnode, hram⟩
  · rw [hvalid, hnone]
    rfl
  · rw [hnode, if_pos hvalid, hram.pte2pa]
    rfl

theorem walk_find (htable : Table s r T) (hva : va < maxva) :
    walk (r * 4096) va false s =
      .ok ((T 0 (va / 4096 / 512)).elim 0 fun q => q * 4096 + 8 * (va / 4096 % 512)) s := by
  unfold walk
  rw [if_neg (Nat.not_le.mpr hva)]
  show (walkLevel (r * 4096) 2 va false >>= _) s = _
  rw [run_bind_ok (htable.walkLevel_find htable.root), Nat.zero_mul, Nat.zero_add, px_two hva]
  cases hmid : T 1 (va / 4096 / 512 / 512) with
  | none =>
      have hlow : T 0 (va / 4096 / 512) = none := by
        cases h : T 0 (va / 4096 / 512) with
        | none => rfl
        | some q =>
            obtain ⟨p, hp⟩ := htable.tree.parent h (by decide)
            cases hmid.symm.trans hp
      rw [hlow]
      rfl
  | some q =>
      show (walkLevel (q * 4096) 1 va false >>= _) s = _
      rw [run_bind_ok (htable.walkLevel_find hmid), px_one, Nat.div_add_mod']
      cases hlow : T 0 (va / 4096 / 512) with
      | none => rfl
      | some q' =>
          rw [← px_zero]
          rfl

theorem attach (htable : Table s r T) (hq : T (l + 1) i = some q) (hl : l < 2) {j q' : Nat}
    (hj : j < 512) (hnone : T l (i * 512 + j) = none) {t : Kernel} (hproc : t.proc = s.proc)
    (hlent : Lent s.kmem t.kmem {q'})
    (hmem : Stores (upd s.mem q' fun _ => 0) t.mem q j (q' * 1024 + 1)) :
    Grown s T t (T.graft l (i * 512 + j) q') {q'} ∧
      ∀ n, pteOf t.mem (T.graft l (i * 512 + j) q') n = pteOf s.mem T n := by
  have hfresh : q' ∉ T.pages := fun h => (htable.used q' h).2 (hlent.free q' rfl)
  have hsame : ∀ x ∈ T.pages, upd s.mem q' (fun _ => 0) x = s.mem x := by
    intro x hx
    exact upd_of_ne _ _ fun h => hfresh (h ▸ hx)
  have htree := htable.tree.frame hsame
  have hparent : T (l + 1) ((i * 512 + j) / pteFormat.width) = some q := by
    rw [show (i * 512 + j) / pteFormat.width = i from pteFormat.child_div hj]
    exact hq
  have hstore : Stores (upd s.mem q' fun _ => 0) t.mem q ((i * 512 + j) % pteFormat.width)
      (q' * 1024 + 1) := by
    rw [show (i * 512 + j) % pteFormat.width = j from pteFormat.child_mod hj]
    exact hmem
  have hempty : ∀ j' < pteFormat.width, upd s.mem q' (fun _ => 0) q' j' = pteFormat.empty := by
    intro j' _
    rw [upd_self]
    rfl
  constructor
  · refine ⟨hproc, hlent, ?_, Shape.graft_mono hnone, ?_, ?_⟩
    · refine htree.attach hnone hl hparent hfresh hempty hstore ?_ fun _ => isTable_table q'
      exact (if_pos (isValid_table q')).trans (congrArg some (by omega))
    · rw [Shape.pages_graft hnone, Set.union_comm]
      rfl
    · intro x hT hN
      rw [hmem.rest x fun h => hT (h ▸ Shape.mem_pages hq), upd_of_ne _ _ hN]
  · intro n
    exact (htree.entry_attach hnone hparent hfresh hempty hstore n).trans
      (Radix.entry_frame hsame n)

theorem walkLevel_grow (htable : Table s r T) (hq : T (l + 1) i = some q) (hl : l < 2)
    {E : Panic → Kernel → Prop} :
    Wp (walkLevel (q * 4096) (l + 1) va true) (fun res t => ∃ T' N, Grown s T t T' N ∧
      (∀ n, pteOf t.mem T' n = pteOf s.mem T n) ∧
      ((res = none ∧ OutOfMemory s t) ∨ ∃ q', res = some (q' * 4096) ∧
        t.failedAllocs = s.failedAllocs ∧ T' l (i * 512 + px (l + 1) va) = some q')) E s := by
  have hram := htable.ramPage hq
  have hpx := px_lt (l + 1) va
  unfold walkLevel
  refine hram.wp_load hpx (.ite (fun hvalid => .pure ?_) fun hvalid => .ite (fun _ => ?_) ?_)
  · rcases htable.link hq hpx with ⟨hinvalid, -⟩ | ⟨-, -, hnode, hram'⟩
    · cases hinvalid.symm.trans hvalid
    · rw [hram'.pte2pa]
      exact ⟨T, ∅, .of_eq htable rfl rfl rfl, fun _ => rfl, Or.inr ⟨_, rfl, rfl, hnode⟩⟩
  swap
  · exact fun h => absurd rfl h
  have hnone : T l (i * 512 + px (l + 1) va) = none := by
    rcases htable.link hq hpx with ⟨-, hnone⟩ | ⟨hvalid', -⟩
    · exact hnone
    · exact absurd hvalid' hvalid
  refine .bind ((kalloc_lent htable.inv).imp ?_)
  rintro pa t ⟨hproc, ⟨rfl, hout, hmem, hkmem⟩ | ⟨q', rfl, hcount, hlent, hmem⟩⟩
  · refine .ite (fun _ => .pure ?_) fun h => absurd rfl h
    exact ⟨T, ∅, .of_eq htable hproc hmem hkmem, fun n => by rw [hmem], Or.inl ⟨rfl, hout⟩⟩
  have hpage := (hlent.free q' rfl).1
  have hne := hpage.addr_ne_zero
  have hqq' : q ≠ q' := by
    rintro rfl
    exact (htable.used q ⟨_, _, hq⟩).2 (hlent.free q rfl)
  refine .ite (fun h => absurd h hne) fun _ => .bind (hpage.ramPage.wp_zero (.bind ?_))
  have hword : pa2pte (q' * 4096) ||| pteV = q' * 1024 + 1 :=
    pa2pte_lor (by have := hpage.2; omega) (by decide)
  rw [hword]
  refine hram.wp_store hpx (.pure ?_)
  rw [hmem, upd_upd]
  refine ⟨T.graft l (i * 512 + px (l + 1) va) q', {q'},
    and_assoc.mp ⟨?_, Or.inr ⟨q', rfl, hcount, Shape.graft_self⟩⟩⟩
  exact htable.attach hq hl hpx hnone hproc hlent (stores_upd _ q _ _)

/-- The entry of `va` is found, unless memory for the tables is missing. -/
theorem walk_grow (htable : Table s r T) (hva : va < maxva) {E : Panic → Kernel → Prop} :
    Wp (walk (r * 4096) va true) (fun slot t => ∃ T' N, Grown s T t T' N ∧
      (∀ n, pteOf t.mem T' n = pteOf s.mem T n) ∧
      ((slot = 0 ∧ OutOfMemory s t) ∨ ∃ q, slot = q * 4096 + 8 * (va / 4096 % 512) ∧
        t.failedAllocs = s.failedAllocs ∧ T' 0 (va / 4096 / 512) = some q)) E s := by
  unfold walk
  rw [if_neg (Nat.not_le.mpr hva)]
  refine .bind ((htable.walkLevel_grow htable.root (by decide)).imp ?_)
  rintro res t ⟨T', N, hgrown, hpte, ⟨rfl, hout⟩ | ⟨q, rfl, hcount, hq⟩⟩
  · exact .pure ⟨T', N, hgrown, hpte, Or.inl ⟨rfl, hout⟩⟩
  rw [Nat.zero_mul, Nat.zero_add, px_two hva] at hq
  refine .bind (((hgrown.table htable).walkLevel_grow hq (by decide)).imp ?_)
  rintro res u ⟨T'', M, hgrown', hpte', ⟨rfl, hout⟩ | ⟨q', rfl, hcount', hq'⟩⟩
  · exact .pure ⟨T'', N ∪ M, hgrown.trans hgrown', fun n => (hpte' n).trans (hpte n),
      Or.inl ⟨rfl, hout.of_eq hcount⟩⟩
  rw [px_one, Nat.div_add_mod'] at hq'
  refine .pure ⟨T'', N ∪ M, hgrown.trans hgrown', fun n => (hpte' n).trans (hpte n),
    Or.inr ⟨q', ?_, hcount'.trans hcount, hq'⟩⟩
  rw [px_zero]

end Table

end Walking

/-! ### Reading the tables -/

def IsTablePage (m : Mem) (r q : Nat) : Prop :=
  q = r ∨ (∃ g < 512, isValid (m r g) = true ∧ m r g / 1024 = q) ∨
    ∃ b, isValid (level1 m r b) = true ∧ level1 m r b / 1024 = q

/-- The pages that a page table is made of and those that it maps: its tables, the frame of each base
page and the 512 frames of each huge page. -/
inductive Holds (m : Mem) (r : Nat) : Nat → Prop where
  | table {q : Nat} : IsTablePage m r q → Holds m r q
  | base (i : Nat) : isValid (level0 m r i) = true → Holds m r (level0 m r i / 1024)
  | huge (b j : Nat) : isLeaf (level1 m r b) = true → j < 512 → Holds m r (level1 m r b / 1024 + j)

section Reading

variable {m m' : Mem} {r q : Nat} (hsame : ∀ q, IsTablePage m r q → m' q = m q)
include hsame

theorem level1_congr (b : Nat) : level1 m' r b = level1 m r b := by
  rw [level1, level1, hsame r (Or.inl rfl)]
  split
  · next h => rw [hsame _ (Or.inr (Or.inl ⟨_, h.1, h.2, rfl⟩))]
  · rfl

theorem level0_congr (i : Nat) : level0 m' r i = level0 m r i := by
  rw [level0, level0, level1_congr hsame]
  split
  · next h => rw [hsame _ (Or.inr (Or.inr ⟨_, isValid_of_isTable h, rfl⟩))]
  · rfl

theorem Holds.congr (hq : Holds m' r q) : Holds m r q := by
  cases hq with
  | table htable =>
      refine .table ?_
      rcases htable with hroot | ⟨g, hg, hvalid, rfl⟩ | ⟨b, hvalid, rfl⟩
      · exact Or.inl hroot
      · rw [hsame r (Or.inl rfl)] at hvalid ⊢
        exact Or.inr (Or.inl ⟨g, hg, hvalid, rfl⟩)
      · rw [level1_congr hsame] at hvalid ⊢
        exact Or.inr (Or.inr ⟨b, hvalid, rfl⟩)
  | base i hvalid =>
      rw [level0_congr hsame] at hvalid ⊢
      exact .base i hvalid
  | huge b j hleaf hj =>
      rw [level1_congr hsame] at hleaf ⊢
      exact .huge b j hleaf hj

end Reading

namespace Table

variable {s : Kernel} {r : Nat} {T : Shape} {q : Nat}

theorem mid (htable : Table s r T) {g : Nat} (hg : g < 512) :
    (isValid (s.mem r g) = false ∧ T 1 g = none) ∨
      (isValid (s.mem r g) = true ∧ T 1 g = some (s.mem r g / 1024)) := by
  have hlink := htable.link htable.root hg
  rw [Nat.zero_mul, Nat.zero_add] at hlink
  exact hlink.imp_right fun h => ⟨h.1, h.2.2.1⟩

theorem low_lt (htable : Table s r T) {b : Nat} (hq : T 0 b = some q) : b < 512 * 512 := by
  have hinside := (htable.tree.inside hq).2
  exact (Nat.div_eq_zero_iff_lt (by decide)).mp hinside

theorem level1_cases (htable : Table s r T) (b : Nat) :
    (isValid (level1 s.mem r b) = false ∧ T 0 b = none) ∨
      (isTable (level1 s.mem r b) = true ∧ T 0 b = some (level1 s.mem r b / 1024)) := by
  have hnone : T 1 (b / 512) = none → T 0 b = none := by
    intro hmid
    cases h : T 0 b with
    | none => rfl
    | some q =>
        obtain ⟨p, hp⟩ := htable.tree.parent h (by decide)
        cases hmid.symm.trans hp
  by_cases hb : b / 512 < 512
  swap
  · refine Or.inl ⟨?_, ?_⟩
    · rw [level1, if_neg fun h => hb h.1]
      exact isValid_zero
    · cases h : T 0 b with
      | none => rfl
      | some q =>
          have hlt := htable.low_lt h
          omega
  rcases htable.mid hb with ⟨hinvalid, hmid⟩ | ⟨hvalid, hmid⟩
  · refine Or.inl ⟨?_, hnone hmid⟩
    rw [level1, if_neg fun h => Bool.false_ne_true (hinvalid.symm.trans h.2)]
    exact isValid_zero
  · have hlink := htable.link hmid (Nat.mod_lt b (show 0 < 512 by decide))
    rw [Nat.div_add_mod'] at hlink
    rw [level1, if_pos ⟨hb, hvalid⟩]
    exact hlink.imp_right fun h => ⟨h.2.1, h.2.2.1⟩

theorem pteOf_eq_level0 (htable : Table s r T) (n : Nat) : pteOf s.mem T n = level0 s.mem r n := by
  rcases htable.level1_cases (n / 512) with ⟨hinvalid, hnone⟩ | ⟨htab, hnode⟩
  · rw [level0, isTable_of_invalid hinvalid]
    exact Radix.entry_of_none (F := pteFormat) hnone
  · rw [level0, if_pos htab]
    exact Radix.entry_of_some (F := pteFormat) hnode

theorem isTablePage (htable : Table s r T) (hq : q ∈ T.pages) : IsTablePage s.mem r q := by
  obtain ⟨l, i, hi⟩ := hq
  obtain ⟨hl, hinside⟩ := htable.tree.inside hi
  have hl : l ≤ 2 := hl
  rcases show l = 0 ∨ l = 1 ∨ l = 2 by omega with rfl | rfl | rfl
  · rcases htable.level1_cases i with ⟨-, hnone⟩ | ⟨htab, hnode⟩
    · cases hnone.symm.trans hi
    · exact Or.inr (Or.inr ⟨i, isValid_of_isTable htab, Option.some.inj (hnode.symm.trans hi)⟩)
  · have hi512 : i < 512 := (Nat.div_eq_zero_iff_lt (by decide)).mp hinside
    rcases htable.mid hi512 with ⟨-, hnone⟩ | ⟨hvalid, hnode⟩
    · cases hnone.symm.trans hi
    · exact Or.inr (Or.inl ⟨i, hi512, hvalid, Option.some.inj (hnode.symm.trans hi)⟩)
  · have hi0 : i = 0 := by
      have hone : i / 1 = 0 := hinside
      rwa [Nat.div_one] at hone
    rw [hi0] at hi
    exact Or.inl (Option.some.inj (hi.symm.trans htable.root))

end Table

/-! ### Entries -/

section Entries

variable {s : Kernel} {r : Nat} {T : Shape} {q va : Nat}

theorem pteOf_slot {m : Mem} {n : Nat} (hq : T 0 (n / 512) = some q) : pteOf m T n = m q (n % 512) :=
  Radix.entry_of_some (F := pteFormat) hq

theorem Table.walk_valid (htable : Table s r T) {n : Nat} (hn : n * 4096 < maxva)
    (hvalid : isValid (pteOf s.mem T n) = true) : ∃ q, T 0 (n / 512) = some q ∧ RamPage q ∧
      q * 4096 + 8 * (n % 512) ≠ 0 ∧ s.mem q (n % 512) = pteOf s.mem T n ∧
      walk (r * 4096) (n * 4096) false s = .ok (q * 4096 + 8 * (n % 512)) s := by
  have hdiv : n * 4096 / 4096 = n := Nat.mul_div_cancel _ (by decide)
  cases hq : T 0 (n / 512) with
  | none =>
      rw [pteOf, Radix.entry_of_none (F := pteFormat) hq] at hvalid
      exact absurd hvalid (by decide)
  | some q =>
      have hram := htable.ramPage hq
      refine ⟨q, rfl, hram, ?_, (pteOf_slot hq).symm, ?_⟩
      · have hlow := hram.1
        omega
      · rw [htable.walk_find hn, hdiv, hq]
        rfl

theorem Table.setEntry (htable : Table s r T) {n : Nat} (hq : T 0 (n / 512) = some q) (w : Nat)
    {t : Kernel} (hproc : t.proc = s.proc) (hkmem : t.kmem = s.kmem)
    (hmem : t.mem = upd s.mem q (upd (s.mem q) (n % 512) w)) :
    Grown s T t T ∅ ∧ ∀ k, pteOf t.mem T k = if k = n then w else pteOf s.mem T k := by
  have hstore : Stores s.mem t.mem q (n % pteFormat.width) w := hmem ▸ stores_upd s.mem q (n % 512) w
  refine ⟨⟨hproc, ?_, htable.tree.set hq hstore, id, (Set.union_empty _).symm, ?_⟩,
    htable.tree.entry_set hq hstore⟩
  · rw [hkmem]
    exact .refl htable.inv
  · intro x hx _
    exact hstore.rest x fun h => hx (h ▸ Shape.mem_pages hq)

theorem Table.mapPage_grow (htable : Table s r T) (hva : va < maxva)
    (hinvalid : isValid (pteOf s.mem T (va / 4096)) = false) (pa perm : Nat)
    {E : Panic → Kernel → Prop} :
    Wp (mapPage (r * 4096) va pa perm) (fun res t => ∃ T' N, Grown s T t T' N ∧
      ((res = -1 ∧ OutOfMemory s t ∧ ∀ n, pteOf t.mem T' n = pteOf s.mem T n) ∨
        (res = 0 ∧ t.failedAllocs = s.failedAllocs ∧ ∀ n, pteOf t.mem T' n =
          if n = va / 4096 then pa2pte pa ||| perm ||| pteV else pteOf s.mem T n))) E s := by
  unfold mapPage
  refine .bind ((htable.walk_grow hva).imp ?_)
  rintro slot t ⟨T', N, hgrown, hpte, ⟨rfl, hout⟩ | ⟨q, rfl, hcount, hq⟩⟩
  · exact .ite (fun _ => .pure ⟨T', N, hgrown, Or.inl ⟨rfl, hout, hpte⟩⟩) fun h => absurd rfl h
  have htable' := hgrown.table htable
  have hram := htable'.ramPage hq
  have hj : va / 4096 % 512 < 512 := Nat.mod_lt _ (by decide)
  have hslot : q * 4096 + 8 * (va / 4096 % 512) ≠ 0 := by
    have hlow := hram.1
    omega
  have hword : t.mem q (va / 4096 % 512) = pteOf s.mem T (va / 4096) :=
    (pteOf_slot hq).symm.trans (hpte _)
  refine .ite (fun h => absurd h hslot) fun _ => hram.wp_load hj ?_
  rw [hword, hinvalid]
  refine .bind (hram.wp_store hj (.pure ?_))
  obtain ⟨hset, hpte'⟩ := htable'.setEntry hq (pa2pte pa ||| perm ||| pteV)
    (t := { t with mem := upd t.mem q (upd (t.mem q) (va / 4096 % 512) (pa2pte pa ||| perm ||| pteV)) })
    rfl rfl rfl
  refine ⟨T', N ∪ ∅, hgrown.trans hset, Or.inr ⟨rfl, hcount, fun n => ?_⟩⟩
  rw [hpte' n, hpte n]

end Entries

end Xv6Mmap
