import Xv6Mmap.Proof.Sbrk

/-!
# Freeing an address space

`proc_freepagetable` takes away the pages of a process without `mmap` regions and then the tables, and
touches nothing else.
-/

namespace Xv6Mmap

open Sequential
open Radix (Shape)

/-! ### The tables -/

section Freewalk

variable {s s₀ : Kernel} {T : Shape} {l i q : Nat}

/-- The pages of `N` have been freed, and nothing else has changed. -/
structure FreedBelow (s : Kernel) (N : Set Nat) (t : Kernel) : Prop where
  proc : t.proc = s.proc
  lent : Lent t.kmem s.kmem N
  mem : ∀ x, x ∉ N → t.mem x = s.mem x

/-- The subtree is as it was in `s₀`, and each of its pages has one reference. -/
structure Unfreed (s₀ : Kernel) (N : Set Nat) (s : Kernel) : Prop where
  inv : s.kmem.Inv
  same : ∀ x ∈ N, ∀ j < 512, s.mem x j = s₀.mem x j
  sole : ∀ x ∈ N, s.kmem.Sole x

/-- What the loop of `freewalk` has done after `k` slots of page `q`; the pages of `C j` lie under
slot `j`. -/
structure FreedSlots (s : Kernel) (C : Nat → Set Nat) (q k : Nat) (t : Kernel) : Prop where
  proc : t.proc = s.proc
  lent : Lent t.kmem s.kmem { x | ∃ j < k, x ∈ C j }
  mem : ∀ x, x ≠ q → (∀ j < k, x ∉ C j) → t.mem x = s.mem x
  row : ∀ j, k ≤ j → t.mem q j = s.mem q j

variable {t : Kernel} {C : Nat → Set Nat} {N : Set Nat} {k : Nat} {E : Panic → Kernel → Prop}

theorem FreedSlots.start (hinv : s.kmem.Inv) : FreedSlots s C q 0 s where
  proc := rfl
  lent := (Lent.refl hinv).congr (by
    ext x
    exact ⟨fun h => h.elim, fun ⟨j, hj, _⟩ => absurd hj (Nat.not_lt_zero j)⟩)
  mem := fun _ _ _ => rfl
  row := fun _ _ => rfl

theorem FreedSlots.skip (hslots : FreedSlots s C q k t) (hempty : C k = ∅) :
    FreedSlots s C q (k + 1) t where
  proc := hslots.proc
  lent := hslots.lent.congr (by
    ext x
    refine ⟨fun ⟨j, hj, h⟩ => ⟨j, by omega, h⟩, fun ⟨j, hj, h⟩ => ⟨j, ?_, h⟩⟩
    have hne : j ≠ k := by
      rintro rfl
      rw [hempty] at h
      exact h
    omega)
  mem := fun x hx hC => hslots.mem x hx fun j hj => hC j (by omega)
  row := fun j hj => hslots.row j (by omega)

theorem FreedSlots.next (hslots : FreedSlots s C q k t) {u : Kernel} (hfreed : FreedBelow t (C k) u)
    (hq : q ∉ C k) {v : Kernel} (hproc : v.proc = u.proc) (hkmem : v.kmem = u.kmem)
    (hmem : v.mem = upd u.mem q (upd (u.mem q) k 0)) : FreedSlots s C q (k + 1) v where
  proc := hproc.trans (hfreed.proc.trans hslots.proc)
  lent := by
    rw [hkmem]
    refine (hfreed.lent.trans hslots.lent).congr ?_
    ext x
    constructor
    · rintro (h | ⟨j, hj, h⟩)
      · exact ⟨k, Nat.lt_succ_self k, h⟩
      · exact ⟨j, by omega, h⟩
    · rintro ⟨j, hj, h⟩
      rcases Nat.lt_succ_iff_lt_or_eq.mp hj with hlt | rfl
      · exact Or.inr ⟨j, hlt, h⟩
      · exact Or.inl h
  mem := by
    intro x hx hC
    rw [hmem, upd_of_ne _ _ hx, hfreed.mem x (hC k (Nat.lt_succ_self k))]
    exact hslots.mem x hx fun j hj => hC j (by omega)
  row := by
    intro j hj
    rw [hmem, upd_self, upd_of_ne _ _ (by omega), hfreed.mem q hq]
    exact hslots.row j (by omega)

theorem FreedSlots.kfree (hslots : FreedSlots s C q 512 t) (hq : s.kmem.Sole q)
    (hnot : ∀ j < 512, q ∉ C j) (hN : ∀ x, x ∈ N ↔ x = q ∨ ∃ j < 512, x ∈ C j) :
    Wp (kfree (q * 4096)) (fun _ u => FreedBelow s N u) E t := by
  have hout : q ∉ { x | ∃ j < 512, x ∈ C j } := fun ⟨j, hj, h⟩ => hnot j hj h
  obtain ⟨u, hrun, hproc, -, hlent, hmem⟩ := kfree_lent hslots.lent.inv
    ((hslots.lent.other q hout).2.mp hq)
  refine .of_ok hrun ⟨hproc.trans hslots.proc, (hlent.trans hslots.lent).congr ?_, fun x hx => ?_⟩
  · ext x
    rw [hN x]
    rfl
  · rw [hN x] at hx
    have hne : x ≠ q := fun h => hx (Or.inl h)
    rw [hmem, upd_of_ne _ _ hne]
    exact hslots.mem x hne fun j hj h => hx (Or.inr ⟨j, hj, h⟩)

/-- The rest of the tree under a slot is whole while the slots before it are freed. -/
theorem Unfreed.of_slots (hwhole : Unfreed s₀ N s) (hslots : FreedSlots s C q k t) (hsub : C k ⊆ N)
    (hq : q ∉ C k) (hdisjoint : ∀ j < k, ∀ x ∈ C k, x ∉ C j) : Unfreed s₀ (C k) t where
  inv := hslots.lent.inv
  same := fun x hx j hj => by
    rw [hslots.mem x (fun h => hq (h ▸ hx)) fun j hj => hdisjoint j hj x hx]
    exact hwhole.same x (hsub hx) j hj
  sole := fun x hx =>
    (hslots.lent.other x fun ⟨j, hj, h⟩ => hdisjoint j hj x hx h).2.mp (hwhole.sole x (hsub hx))

/-- `freewalk` frees a subtree that maps nothing. -/
theorem freewalk_freed (htree : Radix.Tree pteFormat s₀.mem T)
    (hnone : ∀ n, isValid (pteOf s₀.mem T n) = false) (d : Nat) (hl : l ≤ 2) (hq : T l i = some q)
    (hwhole : Unfreed s₀ (T.below 512 l i) s) :
    Wp (freewalk (d + l + 1) (q * 4096)) (fun _ t => FreedBelow s (T.below 512 l i) t) E s := by
  induction l generalizing i q s with
  | zero =>
      have hmem : q ∈ T.below 512 0 i := Shape.mem_below_zero.mpr hq
      have hsole := hwhole.sole q hmem
      unfold freewalk
      refine .bind (.forUp (FreedSlots s (fun _ => ∅) q) (.start hwhole.inv) (fun k hk t ht => ?_)
        fun t ht => ?_)
      · rw [Nat.mul_comm k 8]
        refine hsole.1.ramPage.wp_load hk ?_
        have hentry : pteOf s₀.mem T (i * 512 + k) = s₀.mem q k := by
          rw [pteOf_slot (by rw [show (i * 512 + k) / 512 = i by omega]; exact hq),
            show (i * 512 + k) % 512 = k by omega]
        have hinvalid : isValid (t.mem q k) = false := by
          rw [ht.row k le_rfl, hwhole.same q hmem k hk, ← hentry]
          exact hnone _
        rw [isTable_of_invalid hinvalid, hinvalid]
        exact .pure (ht.skip rfl)
      · refine ht.kfree hsole (fun _ _ => id) fun x => ?_
        rw [Shape.mem_below_zero, hq, Option.some_inj, eq_comm (a := q)]
        exact ⟨Or.inl, fun h => h.resolve_right fun ⟨_, _, hx⟩ => hx⟩
  | succ l ih =>
      have hbelow : ∀ x, x ∈ T.below 512 (l + 1) i ↔
          T (l + 1) i = some x ∨ ∃ j < 512, x ∈ T.below 512 l (i * 512 + j) := fun x =>
        Shape.mem_below_succ (F := pteFormat)
      have hmem : q ∈ T.below 512 (l + 1) i := (hbelow q).mpr (Or.inl hq)
      have hsole := hwhole.sole q hmem
      have hsub : ∀ k < 512, T.below 512 l (i * 512 + k) ⊆ T.below 512 (l + 1) i := fun k hk x hx =>
        (hbelow x).mpr (Or.inr ⟨k, hk, hx⟩)
      have hnot : ∀ k, q ∉ T.below 512 l (i * 512 + k) := fun k => htree.notMem_below hq
      have hdisjoint : ∀ k, ∀ j < k, ∀ x ∈ T.below 512 l (i * 512 + k),
          x ∉ T.below 512 l (i * 512 + j) := by
        intro k j hj x hx hx'
        have hindex := htree.below_inj (F := pteFormat) hx hx'
        omega
      unfold freewalk
      refine .bind (.forUp (FreedSlots s (fun k => T.below 512 l (i * 512 + k)) q) (.start hwhole.inv)
        (fun k hk t ht => ?_) fun t ht => ?_)
      · rw [Nat.mul_comm k 8]
        refine hsole.1.ramPage.wp_load hk ?_
        obtain ⟨hpage, hinner⟩ := htree.link hq k hk
        rw [ht.row k le_rfl, hwhole.same q hmem k hk]
        cases hvalid : isValid (s₀.mem q k) with
        | false =>
            have hchild : T l (i * 512 + k) = none :=
              hpage.symm.trans (if_neg (by rw [hvalid]; exact Bool.false_ne_true))
            rw [isTable_of_invalid hvalid]
            exact .pure (ht.skip (htree.below_of_none (Nat.le_of_succ_le hl) hchild))
        | true =>
            have hchild : T l (i * 512 + k) = some (s₀.mem q k / 1024) :=
              hpage.symm.trans (if_pos hvalid)
            have hwhole' := hwhole.of_slots ht (hsub k hk) (hnot k) (hdisjoint k)
            have hram : RamPage (s₀.mem q k / 1024) := by
              refine (hwhole'.sole _ ?_).1.ramPage
              exact ⟨l, _, le_rfl, hchild, by rw [Nat.sub_self, Nat.pow_zero, Nat.div_one]⟩
            rw [hinner hvalid, hram.pte2pa]
            refine .bind ((ih (by omega) hchild hwhole').imp fun _ u hu => ?_)
            exact hsole.1.ramPage.wp_store hk (ht.next hu (hnot k) rfl rfl rfl)
      · refine ht.kfree hsole (fun k _ => hnot k) fun x => ?_
        rw [hbelow x, hq, Option.some_inj, eq_comm (a := q)]

end Freewalk

/-! ### The whole space -/

/-- What `proc_pagetable` maps above the user pages, for the trapframe in page `f`. -/
def highEntry (f i : Nat) : Nat :=
  if i = trapframe / 4096 then f * 1024 + 7
  else if i = trapframe / 4096 + 1 then 0x80008 * 1024 + 0xb
  else 0

/-- A user address space with the entries `h` above it, in page tables that nobody shares. -/
structure UserSpace (s : Kernel) (r : Nat) (T : Shape) (n : Nat) (h : Nat → Nat) : Prop where
  space : Space s r T n
  high : ∀ i, trapframe / 4096 ≤ i → SamePte (pteOf s.mem T i) (h i)
  own : ∀ q ∈ T.pages, s.kmem.Sole q

section UserSpace

variable {s t u : Kernel} {r n f p sz : Nat} {T : Shape} {N M : Set Nat} {h : Nat → Nat}
  {E : Panic → Kernel → Prop}

theorem Space.of_low (hspace : Space s r T n) (htable : Table t r T)
    (hsole : ∀ q, s.kmem.Sole q → t.kmem.Sole q)
    (hpte : ∀ i < trapframe / 4096, pteOf t.mem T i = pteOf s.mem T i) : Space t r T n := by
  have hlimit := lt_of_le_of_lt hspace.backed.le npages_lt_trapframe
  have hlow : ∀ i < n, pteOf t.mem T i = pteOf s.mem T i := fun i hi => hpte i (by omega)
  refine ⟨htable, ⟨?_, ?_, ?_, ?_⟩, ?_⟩
  · intro i hai hi
    rw [hlow i hi]
    exact hspace.backed.leaf i hai hi
  · intro i hai hi
    rw [frameOf, hlow i hi]
    exact hsole _ (hspace.backed.sole i hai hi)
  · intro i hai hi
    rw [frameOf, hlow i hi]
    exact hspace.backed.apart i hai hi
  · intro i j hai hi haj hj
    rw [frameOf, frameOf, hlow i hi, hlow j hj]
    exact hspace.backed.inj i j hai hi haj hj
  · intro i hi htrap
    rw [hpte i htrap]
    exact hspace.rest i hi htrap

theorem UserSpace.unmapHigh (huser : UserSpace s r T n h) {i : Nat} (hi : trapframe / 4096 ≤ i)
    (hva : i * 4096 < maxva) (hleaf : isLeaf (h i) = true) :
    Wp (uvmunmap (r * 4096) (i * 4096) 1 false) (fun _ t => UserSpace t r T n (upd h i 0) ∧
      t.proc = s.proc ∧ t.kmem = s.kmem ∧ (∀ x, x ∉ T.pages → t.mem x = s.mem x) ∧
      ∀ k, k ≠ i → pteOf t.mem T k = pteOf s.mem T k) E s := by
  have htable := huser.space.table
  have hsame := (huser.high i hi).2 (isValid_of_isLeaf hleaf)
  have hvalid : isValid (pteOf s.mem T i) = true := by
    rw [hsame]
    exact isValid_of_isLeaf hleaf
  obtain ⟨q, hq, hram, hslot, hword, hwalk⟩ := htable.walk_valid hva hvalid
  have hj : i % 512 < 512 := Nat.mod_lt _ (by decide)
  unfold uvmunmap
  rw [if_neg (by simp only [pgsize]; omega)]
  show Wp (unmapPage (r * 4096) false (i * 4096) >>= fun _ => pure ()) _ E s
  unfold unmapPage
  refine .bind (.bind (.of_ok hwalk ?_))
  rw [if_neg hslot]
  refine hram.wp_load hj ?_
  rw [hword, hvalid, if_neg (pteFlags_ne_of_isLeaf (hsame.symm ▸ hleaf))]
  refine hram.wp_store hj (.pure ?_)
  obtain ⟨hset, hpte⟩ := htable.setEntry hq 0
    (t := { s with mem := upd s.mem q (upd (s.mem q) (i % 512) 0) }) rfl rfl rfl
  have hother : ∀ k, k ≠ i → pteOf (upd s.mem q (upd (s.mem q) (i % 512) 0)) T k = pteOf s.mem T k :=
    fun k hk => by rw [hpte k, if_neg hk]
  refine ⟨⟨huser.space.of_low (hset.table htable) (fun _ h => h) fun k hk => hother k (by omega),
    fun k hk => ?_, huser.own⟩, rfl, rfl, fun x hx => hset.mem x hx (Set.notMem_empty x), hother⟩
  by_cases hki : k = i
  · rw [hki, upd_self, hpte i, if_pos rfl]
    exact .refl 0
  · rw [upd_of_ne _ _ hki, hother k hki]
    exact huser.high k hk

theorem freeRegion_empty {i : Nat} (pagetable : Nat) (hempty : (s.proc p).mmapList i = 0) :
    freeRegion pagetable p i s = .ok () s := by
  unfold freeRegion
  rw [run_getProc_bind]
  dsimp only
  rw [if_neg (not_not.mpr hempty)]
  rfl

theorem UserSpace.uvmfree_freed (huser : UserSpace s r T (pagesFor sz) fun _ => 0) :
    Wp (uvmfree (r * 4096) sz) (fun _ t => FreedBelow s (T.pages ∪ frames s.mem T 0 (pagesFor sz)) t)
      E s := by
  have htable := huser.space.table
  have hbacked : Backed s T 0 (0 + pagesFor sz) := by
    rw [Nat.zero_add]
    exact huser.space.backed
  have hlimit : (0 + pagesFor sz) * 4096 ≤ maxva := by
    rw [Nat.zero_add]
    exact (page_lt_maxva (lt_of_le_of_lt huser.space.backed.le npages_lt_trapframe)).le
  have hinvalid : ∀ k, ¬ k < pagesFor sz → isValid (pteOf s.mem T k) = false := by
    intro k hk
    by_cases hhigh : k < trapframe / 4096
    · exact huser.space.rest k (by omega) hhigh
    · rw [(huser.high k (by omega)).1]
      exact isValid_zero
  have hrest : ∀ t, Returned s T t (frames s.mem T 0 (pagesFor sz)) →
      (∀ k, isValid (pteOf t.mem T k) = false) → Wp (freewalk stackDepth (r * 4096)) (fun _ u =>
        FreedBelow s (T.pages ∪ frames s.mem T 0 (pagesFor sz)) u) E t := by
    intro t hback hnone
    have hroot : T.below 512 2 0 = T.pages := hback.tree.below_root
    have hwhole : Unfreed t (T.below 512 2 0) t := by
      refine ⟨hback.lent.inv, fun _ _ _ _ => rfl, fun x hx => ?_⟩
      rw [hroot] at hx
      exact (hback.lent.other x fun h => hback.apart x h hx).2.mp (huser.own x hx)
    refine (freewalk_freed hback.tree hnone 61 le_rfl htable.root hwhole).imp fun _ u hu => ?_
    rw [hroot] at hu
    refine ⟨hu.proc.trans hback.proc, hu.lent.trans hback.lent, fun x hx => ?_⟩
    rw [hu.mem x fun h => hx (Or.inl h), hback.mem x (fun h => hx (Or.inl h)) fun h => hx (Or.inr h)]
  unfold uvmfree
  refine .ite (fun _ => .bind ?_) fun hzero => hrest s ?_ fun k => hinvalid k ?_
  · have hunmap := htable.uvmunmap_back (pagesFor sz) hbacked hlimit (E := E)
    rw [Nat.zero_mul] at hunmap
    refine hunmap.imp fun _ t ht => ?_
    rw [Nat.zero_add] at ht
    refine hrest t ht.1 fun k => ?_
    rw [ht.2 k]
    split
    · exact isValid_zero
    · next hk => exact hinvalid k fun h => hk ⟨Nat.zero_le k, h⟩
  all_goals rw [show sz = 0 by omega, show pagesFor 0 = 0 from rfl]
  · rw [frames_self]
    exact .refl htable
  · exact Nat.not_lt_zero k

/-- Without regions, `proc_freepagetable` frees what is in the address space and nothing else. -/
theorem UserSpace.procFreepagetable_freed (huser : UserSpace s r T (pagesFor sz) (highEntry f))
    (hregions : ∀ k < 4, (s.proc p).mmapList (0 + k * 3) = 0) :
    Wp (procFreepagetable (r * 4096) sz p) (fun _ t =>
      FreedBelow s (T.pages ∪ frames s.mem T 0 (pagesFor sz)) t) E s := by
  have htrampoline : trampoline = (trapframe / 4096 + 1) * 4096 := by decide
  have htrapframe : trapframe = trapframe / 4096 * 4096 := by decide
  have hhigh : highEntry f (trapframe / 4096 + 1) = 0x80008 * 1024 + 0xb := by
    rw [highEntry, if_neg (by omega), if_pos rfl]
  have hlow : highEntry f (trapframe / 4096) = f * 1024 + 7 := if_pos rfl
  have hleaf : isLeaf (upd (highEntry f) (trapframe / 4096 + 1) 0 (trapframe / 4096)) = true := by
    rw [upd_of_ne _ _ (by omega), hlow, isLeaf_mod, show (f * 1024 + 7) % 1024 = 7 by omega]
    rfl
  unfold procFreepagetable
  rw [htrampoline]
  refine .bind ((huser.unmapHigh (by omega) (by decide) (by rw [hhigh]; decide)).imp ?_)
  rintro _ t ⟨huser₁, hproc₁, hkmem₁, hmem₁, hpte₁⟩
  rw [htrapframe]
  refine .bind ((huser₁.unmapHigh le_rfl (by decide) hleaf).imp ?_)
  rintro _ u ⟨huser₂, hproc₂, hkmem₂, hmem₂, hpte₂⟩
  have hsame : ∀ i < pagesFor sz, pteOf u.mem T i = pteOf s.mem T i := by
    intro i hi
    have hlimit := lt_of_le_of_lt huser.space.backed.le npages_lt_trapframe
    rw [hpte₂ i (by omega), hpte₁ i (by omega)]
  have hcleared : ∀ i, upd (upd (highEntry f) (trapframe / 4096 + 1) 0) (trapframe / 4096) 0 i = 0 := by
    intro i
    by_cases hi : i = trapframe / 4096
    · rw [hi, upd_self]
    · rw [upd_of_ne _ _ hi]
      by_cases hi' : i = trapframe / 4096 + 1
      · rw [hi', upd_self]
      · rw [upd_of_ne _ _ hi', highEntry, if_neg hi, if_neg hi']
  have huser₃ : UserSpace u r T (pagesFor sz) fun _ => 0 :=
    ⟨huser₂.space, fun i hi => hcleared i ▸ huser₂.high i hi, huser₂.own⟩
  have hframes : frames u.mem T 0 (pagesFor sz) = frames s.mem T 0 (pagesFor sz) := by
    ext x
    constructor <;> rintro ⟨i, hai, hi, rfl⟩ <;> exact ⟨i, hai, hi, by rw [frameOf, frameOf, hsame i hi]⟩
  have hproc : u.proc = s.proc := hproc₂.trans hproc₁
  refine .bind (.forUp (fun _ v => v = u) rfl (fun k hk v hv => ?_) fun v hv => ?_)
  · rw [hv]
    exact .of_ok (freeRegion_empty _ (by rw [hproc]; exact hregions k hk)) rfl
  · rw [hv]
    refine huser₃.uvmfree_freed.imp fun _ w hw => ?_
    rw [hframes] at hw
    refine ⟨hw.proc.trans hproc, ?_, fun x hx => ?_⟩
    · have hlent := hw.lent
      rwa [hkmem₂, hkmem₁] at hlent
    · have hT : x ∉ T.pages := fun h => hx (Or.inl h)
      rw [hw.mem x hx, hmem₂ x hT, hmem₁ x hT]

end UserSpace

end Xv6Mmap
