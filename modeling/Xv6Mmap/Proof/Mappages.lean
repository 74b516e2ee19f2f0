import Xv6Mmap.Proof.Sbrk

/-!
# `mappages`

The loop of `mappages` fills in the entries of a range one after the other. It stops at the first page
for which the tables cannot be created; the entries before it stay.
-/

namespace Xv6Mmap

open Sequential
open Radix (Shape)

/-- The entry that `walk` finds for `va`, and 0 where there is no table. -/
def leaf (pagetable va : Nat) : K Nat := do
  let slot ← walk pagetable va false
  if slot = 0 then pure 0 else loadWord slot

def rangeEntry (pa perm j : Nat) : Nat := pa2pte (uint64 (pa + j * 4096)) ||| perm ||| pteV

section Mappages

variable {s t : Kernel} {r : Nat} {T T' : Shape} {N : Set Nat}

theorem RamPage.load_slot {q j : Nat} (hq : RamPage q) (hj : j < 512) :
    loadWord (q * 4096 + 8 * j) s = .ok (s.mem q j) s := by
  rw [loadWord, if_pos (hq.inRam_slot hj), word_slot _ hj]

theorem Table.leaf_eq (htable : Table s r T) {va : Nat} (hva : va < maxva) :
    leaf (r * 4096) va s = .ok (pteOf s.mem T (va / 4096)) s := by
  unfold leaf
  rw [run_bind_ok (htable.walk_find hva)]
  cases hq : T 0 (va / 4096 / 512) with
  | none =>
      rw [pteOf, Radix.entry_of_none (F := pteFormat) hq]
      rfl
  | some q =>
      have hram := htable.ramPage hq
      have hslot : q * 4096 + 8 * (va / 4096 % 512) ≠ 0 := by
        have hlow := hram.1
        omega
      have hj : va / 4096 % 512 < 512 := Nat.mod_lt _ (by decide)
      show (if q * 4096 + 8 * (va / 4096 % 512) = 0 then pure 0
        else loadWord (q * 4096 + 8 * (va / 4096 % 512))) s = _
      rw [pteOf_slot hq, if_neg hslot, hram.load_slot hj]

/-- The first `k` pages from `first` on are mapped, and the other entries are as they were. -/
structure Filling (s : Kernel) (T : Shape) (first k pa perm : Nat) (t : Kernel) (T' : Shape)
    (N : Set Nat) : Prop where
  grown : Grown s T t T' N
  inside : ∀ j < k, pteOf t.mem T' (first + j) = rangeEntry pa perm j
  outside : ∀ n, n < first ∨ first + k ≤ n → pteOf t.mem T' n = pteOf s.mem T n

theorem uint64_uint64_add (a b : Nat) : uint64 (uint64 a + b) = uint64 (a + b) := Nat.mod_add_mod _ _ _

theorem rangeEntry_zero {pa : Nat} (hpa : pa < 2 ^ 64) (perm : Nat) :
    rangeEntry pa perm 0 = pa2pte pa ||| perm ||| pteV := by
  have hsame : uint64 pa = pa := Nat.mod_eq_of_lt hpa
  rw [rangeEntry, Nat.zero_mul, Nat.add_zero, hsame]

theorem rangeEntry_succ (pa perm j : Nat) :
    rangeEntry (uint64 (pa + pgsize)) perm j = rangeEntry pa perm (j + 1) := by
  rw [rangeEntry, rangeEntry, uint64_uint64_add, Nat.succ_mul, Nat.add_assoc, Nat.add_comm pgsize]
  rfl

theorem uint64_lt (n : Nat) : uint64 n < 2 ^ 64 := Nat.mod_lt n (by decide)

theorem Filling.cons {first k pa perm : Nat} {u : Kernel} {T'' : Shape} {M : Set Nat}
    (hpa : pa < 2 ^ 64) (hgrown : Grown s T t T' N)
    (hpte : ∀ n, pteOf t.mem T' n =
      if n = first then pa2pte pa ||| perm ||| pteV else pteOf s.mem T n)
    (hrest : Filling t T' (first + 1) k (uint64 (pa + pgsize)) perm u T'' M) :
    Filling s T first (k + 1) pa perm u T'' (N ∪ M) where
  grown := hgrown.trans hrest.grown
  inside := by
    intro j hj
    cases j with
    | zero =>
        rw [Nat.add_zero, hrest.outside _ (Or.inl (Nat.lt_succ_self first)), hpte, if_pos rfl,
          rangeEntry_zero hpa]
    | succ j =>
        have hnext := hrest.inside j (Nat.lt_of_succ_lt_succ hj)
        rw [rangeEntry_succ] at hnext
        rw [← hnext]
        congr 1
        omega
  outside := by
    intro n hn
    rw [hrest.outside n (by omega), hpte, if_neg (by omega)]

theorem Table.mapPage_first (htable : Table s r T) {first pa perm : Nat}
    (hva : first * 4096 < maxva) (hfree : isValid (pteOf s.mem T first) = false) :
    Wp (mapPage (r * 4096) (first * 4096) pa perm) (fun res t => ∃ T' N,
      (res = -1 ∧ OutOfMemory s t ∧ Filling s T first 0 pa perm t T' N) ∨
      (res = 0 ∧ t.failedAllocs = s.failedAllocs ∧ Grown s T t T' N ∧ ∀ n, pteOf t.mem T' n =
        if n = first then pa2pte pa ||| perm ||| pteV else pteOf s.mem T n)) (fun _ _ => False) s := by
  have hdiv : first * 4096 / 4096 = first := Nat.mul_div_cancel _ (by decide)
  have hmap := htable.mapPage_grow hva (hdiv.symm ▸ hfree) pa perm (E := fun _ _ => False)
  rw [hdiv] at hmap
  refine hmap.imp fun res t h => ?_
  obtain ⟨T', N, hgrown, ⟨hres, hout, hpte⟩ | ⟨hres, hcount, hpte⟩⟩ := h
  · refine ⟨T', N, Or.inl ⟨hres, hout, hgrown, fun j hj => ?_, fun n _ => hpte n⟩⟩
    exact absurd hj (Nat.not_lt_zero j)
  · exact ⟨T', N, Or.inr ⟨hres, hcount, hgrown, hpte⟩⟩

theorem mappagesFrom_filling (n : Nat) (htable : Table s r T) {first pa perm : Nat} (hpa : pa < 2 ^ 64)
    (hrange : (first + n) * 4096 < maxva)
    (hfree : ∀ m, first ≤ m → m ≤ first + n → isValid (pteOf s.mem T m) = false) :
    Wp (mappagesFrom (r * 4096) perm n (first * 4096) pa) (fun res t => ∃ k T' N,
      ((res = 0 ∧ k = n + 1 ∧ t.failedAllocs = s.failedAllocs) ∨
        (res = -1 ∧ k < n + 1 ∧ OutOfMemory s t)) ∧ Filling s T first k pa perm t T' N)
      (fun _ _ => False) s := by
  have hva : first * 4096 < maxva :=
    (Nat.mul_le_mul_right 4096 (Nat.le_add_right first n)).trans_lt hrange
  have hfirst := hfree first le_rfl (Nat.le_add_right first n)
  induction n generalizing s T first pa with
  | zero =>
      refine (htable.mapPage_first hva hfirst).imp fun res t h => ?_
      obtain ⟨T', N, ⟨rfl, hout, hnone⟩ | ⟨rfl, hcount, hgrown, hpte⟩⟩ := h
      · exact ⟨0, T', N, Or.inr ⟨rfl, Nat.zero_lt_one, hout⟩, hnone⟩
      · refine ⟨1, T', N, Or.inl ⟨rfl, rfl, hcount⟩, hgrown, fun j hj => ?_, fun m hm => ?_⟩
        · obtain rfl : j = 0 := by omega
          rw [Nat.add_zero, hpte, if_pos rfl, rangeEntry_zero hpa]
        · rw [hpte, if_neg (by omega)]
  | succ n ih =>
      refine .bind ((htable.mapPage_first hva hfirst).imp fun res t h => ?_)
      obtain ⟨T', N, ⟨rfl, hout, hnone⟩ | ⟨rfl, hcount, hgrown, hpte⟩⟩ := h
      · exact .ite (fun _ => .pure ⟨0, T', N, Or.inr ⟨rfl, Nat.succ_pos _, hout⟩, hnone⟩)
          fun h => absurd (by decide) h
      · refine .ite (fun h => absurd h (by decide)) fun _ => ?_
        have hnext : first * 4096 + pgsize = (first + 1) * 4096 := by
          rw [Nat.add_mul]
          rfl
        have hrange' : (first + 1 + n) * 4096 < maxva := by
          rw [Nat.add_assoc, Nat.add_comm 1 n]
          exact hrange
        have hfree' : ∀ m, first + 1 ≤ m → m ≤ first + 1 + n →
            isValid (pteOf t.mem T' m) = false := fun m hm hm' => by
          rw [hpte, if_neg (by omega)]
          exact hfree m (by omega) (by omega)
        have hrest := ih (hgrown.table htable) (uint64_lt (pa + pgsize)) hrange' hfree'
          ((Nat.mul_le_mul_right 4096 (Nat.le_add_right _ n)).trans_lt hrange')
          (hfree' (first + 1) le_rfl (Nat.le_add_right _ n))
        rw [← hnext] at hrest
        refine hrest.imp fun res u hu => ?_
        obtain ⟨k, T'', M, hres, hfilling⟩ := hu
        refine ⟨k + 1, T'', N ∪ M, ?_, hfilling.cons hpa hgrown hpte⟩
        rcases hres with ⟨hres, rfl, hcount'⟩ | ⟨hres, hk, hout⟩
        · exact Or.inl ⟨hres, rfl, hcount'.trans hcount⟩
        · exact Or.inr ⟨hres, Nat.succ_lt_succ hk, hout.of_eq hcount⟩

/-- What `mappages` leaves behind when it has mapped the first `k` pages of a range. -/
structure Installs (r : Nat) (T : Shape) (first k pa perm : Nat) (s t : Kernel) : Prop where
  mapped : ∀ j < k, ∃ slot, walk (r * 4096) ((first + j) * 4096) false t = .ok slot t ∧ slot ≠ 0 ∧
    loadWord slot t = .ok (rangeEntry pa perm j) t
  unchanged : ∀ va < maxva, va / 4096 < first ∨ first + k ≤ va / 4096 →
    ∃ w, leaf (r * 4096) va s = .ok w s ∧ leaf (r * 4096) va t = .ok w t
  tree : ∃ T', Table t r T' ∧ (∀ l i q, T l i = some q → T' l i = some q) ∧
    ∀ q, s.kmem.Free q → ¬ t.kmem.Free q → ∃ l i, T' l i = some q

theorem isValid_lor (w : Nat) : isValid (w ||| pteV) = true := by
  rw [isValid_iff]
  have hbit : (w ||| 1).testBit 0 = true := by
    rw [Nat.testBit_or]
    simp
  exact of_decide_eq_true (Nat.testBit_zero _ ▸ hbit)

theorem isValid_rangeEntry (pa perm j : Nat) : isValid (rangeEntry pa perm j) = true := isValid_lor _

theorem Filling.installs {first k pa perm : Nat} (htable : Table s r T)
    (hrange : (first + k) * 4096 ≤ maxva) (hfilling : Filling s T first k pa perm t T' N) :
    Installs r T first k pa perm s t where
  mapped := by
    intro j hj
    have hj' : (first + j) * 4096 < maxva :=
      (Nat.mul_lt_mul_of_pos_right (by omega) (by decide)).trans_le hrange
    have hentry := hfilling.inside j hj
    obtain ⟨q, hq, hram, hne, hword, hwalk⟩ := (hfilling.grown.table htable).walk_valid hj'
      (hentry ▸ isValid_rangeEntry pa perm j)
    refine ⟨_, hwalk, hne, ?_⟩
    rw [hram.load_slot (Nat.mod_lt _ (by decide)), hword, hentry]
  unchanged := by
    intro va hva hout
    refine ⟨_, htable.leaf_eq hva, ?_⟩
    rw [(hfilling.grown.table htable).leaf_eq hva, hfilling.outside _ hout]
  tree := by
    refine ⟨T', hfilling.grown.table htable, fun l i q => hfilling.grown.mono, fun q hfree htaken => ?_⟩
    have hmem : q ∈ T'.pages := by
      rw [hfilling.grown.pages]
      by_contra hout
      exact htaken ((hfilling.grown.lent.other q fun h => hout (Or.inr h)).1.mpr hfree)
    exact hmem

/-- `mappages` installs a range that was not mapped, or a part of it from its start on when there is no
page left for a table. -/
theorem mappages_installs (htable : Table s r T) {va size pa : Nat} (hsize : 1 ≤ size)
    (hrange : va + size ≤ maxva) (hpa : pa < 2 ^ 64)
    (hfree : ∀ n, va / 4096 ≤ n → n ≤ (va + size - 1) / 4096 →
      ∃ w, leaf (r * 4096) (n * 4096) s = .ok w s ∧ isValid w = false) (perm : Nat) :
    Wp (mappages (r * 4096) va size pa perm) (fun res t => ∃ k,
      ((res = 0 ∧ va / 4096 + k = (va + size - 1) / 4096 + 1 ∧ t.failedAllocs = s.failedAllocs) ∨
        (res = -1 ∧ va / 4096 + k < (va + size - 1) / 4096 + 1 ∧ OutOfMemory s t)) ∧
      Installs r T (va / 4096) k pa perm s t) (fun _ _ => False) s := by
  have hle : va ≤ va + size - 1 := by omega
  have hlt : va + size - 1 < va + size := by omega
  have hfirst : va / 4096 ≤ (va + size - 1) / 4096 := Nat.div_le_div_right hle
  have hlast : (va + size - 1) / 4096 * 4096 < maxva :=
    (Nat.div_mul_le_self _ _).trans_lt (hlt.trans_le hrange)
  obtain ⟨m, hm⟩ := Nat.exists_eq_add_of_le hfirst
  have hrounds : (pgrounddown (va + size - 1) - pgrounddown va) / pgsize = m := by
    rw [pgrounddown, pgrounddown, pgsize, ← Nat.sub_mul, Nat.mul_div_cancel _ (by decide), hm,
      Nat.add_sub_cancel_left]
  rw [hm] at hlast hfree ⊢
  have hinvalid : ∀ n, va / 4096 ≤ n → n ≤ va / 4096 + m → isValid (pteOf s.mem T n) = false := by
    intro n hn hn'
    obtain ⟨w, hleaf, hw⟩ := hfree n hn hn'
    rw [htable.leaf_eq ((Nat.mul_le_mul_right 4096 hn').trans_lt hlast),
      Nat.mul_div_cancel _ (by decide)] at hleaf
    injection hleaf with hpte
    rwa [hpte]
  unfold mappages
  rw [if_neg (Nat.one_le_iff_ne_zero.mp hsize)]
  show Wp (mappagesFrom (r * 4096) perm ((pgrounddown (va + size - 1) - pgrounddown va) / pgsize)
    (va / 4096 * 4096) pa) _ _ s
  rw [hrounds]
  refine (mappagesFrom_filling m htable hpa hlast hinvalid).imp fun res t h => ?_
  obtain ⟨k, T', N, hres, hfilling⟩ := h
  refine ⟨k, ?_, hfilling.installs htable ?_⟩
  · rcases hres with ⟨hres, rfl, hcount⟩ | ⟨hres, hk, hout⟩
    · exact Or.inl ⟨hres, rfl, hcount⟩
    · exact Or.inr ⟨hres, Nat.add_lt_add_left hk _, hout⟩
  · have hpages : va / 4096 + m < 0x4000000 := Nat.lt_of_mul_lt_mul_right (a := 4096) hlast
    have hk : va / 4096 + k ≤ 0x4000000 := by omega
    exact Nat.mul_le_mul_right 4096 hk

theorem mappages_installs_first : ∃ t,
    mappages (0x80200 * 4096) 5 1 0x80400000 pteR freshProcess = .ok 0 t ∧
      t.failedAllocs = freshProcess.failedAllocs ∧
      Installs 0x80200 (rootShape 0x80200) 0 1 0x80400000 pteR freshProcess t := by
  have htable := freshProcess_process.space.table
  have hfree : ∀ n, 5 / 4096 ≤ n → n ≤ (5 + 1 - 1) / 4096 →
      ∃ w, leaf (0x80200 * 4096) (n * 4096) freshProcess = .ok w freshProcess ∧ isValid w = false := by
    intro n _ hn
    obtain rfl : n = 0 := Nat.le_zero.mp hn
    refine ⟨_, htable.leaf_eq (by decide), ?_⟩
    rw [pteOf, Radix.entry_of_none (F := pteFormat) (rootShape_low _ _)]
    exact isValid_zero
  have hrun := run_of_value (show value (mappages (0x80200 * 4096) 5 1 0x80400000 pteR
    freshProcess) = some 0 by decide +kernel)
  obtain ⟨k, hres, hinstalls⟩ := (@mappages_installs freshProcess 0x80200 (rootShape 0x80200) htable 5 1
    0x80400000 (by decide) (by decide) (by decide) hfree pteR).ok hrun
  rcases hres with ⟨-, hk, hcount⟩ | ⟨hneg, -⟩
  · obtain rfl : k = 1 := by omega
    exact ⟨_, hrun, hcount, hinstalls⟩
  · cases hneg

end Mappages

end Xv6Mmap
