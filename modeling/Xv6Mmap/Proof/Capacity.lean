import Xv6Mmap.Proof.Allocator

/-!
# How much the allocator has to give

In every state that calls of the allocator lead to, the free pages are exactly those that repeated
calls of `kalloc` hand out, and the empty blocks those that `kalloc_huge` hands out.
-/

namespace Xv6Mmap

open Sequential

def times {σ : Type} (x : EStateM Panic σ Nat) : Nat → EStateM Panic σ (List Nat)
  | 0 => pure []
  | n + 1 => do
    let pa ← x
    let rest ← times x n
    pure (pa :: rest)

theorem run_times_succ {x : K Nat} {n pa : Nat} {rest : List Nat} {s t u : Kernel}
    (hfirst : x s = .ok pa t) (hrest : times x n t = .ok rest u) :
    times x (n + 1) s = .ok (pa :: rest) u := by
  unfold times
  rw [run_bind_ok hfirst, run_bind_ok hrest]
  rfl

theorem run_times_fail {x : K Nat} {k : Kmem}
    (hfail : ∀ s : Kernel, s.kmem = k → x s = .ok 0 { s with failedAllocs := s.failedAllocs + 1 }) (n : Nat)
    {s : Kernel} (hs : s.kmem = k) :
    ∃ t, times x n s = .ok (List.replicate n 0) t ∧ t.mem = s.mem := by
  induction n generalizing s with
  | zero => exact ⟨s, rfl, rfl⟩
  | succ n ih =>
      obtain ⟨t, hrun, hmem⟩ := ih (s := { s with failedAllocs := s.failedAllocs + 1 }) hs
      exact ⟨t, run_times_succ (hfail s hs) hrun, hmem⟩

namespace Kmem

variable {k : Kmem} {i b : Nat}

def freePages (k : Kmem) : Finset Nat :=
  (Finset.range npages).filter fun i => k.pagelist i ≠ 0 ∧ k.hugepagelist (i / 512) ≠ -1

def Vacant (k : Kmem) (b : Nat) : Prop :=
  k.hugepagelist b ≠ -1 ∧ ∀ j < 512, k.pagelist (b * 512 + j) ≠ 0

def Partly (k : Kmem) (b : Nat) : Prop :=
  k.hugepagelist b ≠ -1 ∧ (∃ j < 512, k.pagelist (b * 512 + j) = 0) ∧
    ∃ j < 512, k.pagelist (b * 512 + j) ≠ 0

instance (k : Kmem) (b : Nat) : Decidable (k.Vacant b) :=
  inferInstanceAs (Decidable (_ ∧ _))

def vacantBlocks (k : Kmem) : Finset Nat := (Finset.range nblocks).filter k.Vacant

theorem mem_freePages :
    i ∈ k.freePages ↔ i < npages ∧ k.pagelist i ≠ 0 ∧ k.hugepagelist (i / 512) ≠ -1 := by
  simp only [freePages, Finset.mem_filter, Finset.mem_range]

theorem mem_vacantBlocks : b ∈ k.vacantBlocks ↔ b < nblocks ∧ k.Vacant b := by
  simp only [vacantBlocks, Finset.mem_filter, Finset.mem_range]

theorem Inv.vacant_iff (hinv : k.Inv) (hb : b < nblocks) : k.Vacant b ↔ k.hugepagelist b = 0 := by
  constructor
  · rintro ⟨hsplit, hpages⟩
    have hnone : k.usedIn b = 0 := Finset.card_eq_zero.mpr
      (Finset.filter_eq_empty_iff.mpr fun j hj => hpages j (Finset.mem_range.mp hj))
    rw [(hinv.split_of_ne hb hsplit).1, hnone]
    rfl
  · intro hzero
    refine ⟨by omega, fun j hj => ?_⟩
    rw [hinv.pages_free_of_zero hb hzero j hj]
    decide

theorem Inv.partly_iff (hinv : k.Inv) (hb : b < nblocks) :
    k.Partly b ↔ 0 < k.hugepagelist b ∧ k.hugepagelist b < 512 := by
  have hpos : (∃ j < 512, k.pagelist (b * 512 + j) = 0) ↔ 0 < k.usedIn b := by
    simp only [usedIn, Finset.card_pos, Finset.Nonempty, Finset.mem_filter, Finset.mem_range]
  have hlt : (∃ j < 512, k.pagelist (b * 512 + j) ≠ 0) ↔ k.usedIn b < 512 := by
    have hcard := Finset.card_filter_add_card_filter_not (s := Finset.range 512)
      (fun j => k.pagelist (b * 512 + j) = 0)
    have hrest : (∃ j < 512, k.pagelist (b * 512 + j) ≠ 0) ↔
        0 < ((Finset.range 512).filter fun j => ¬ k.pagelist (b * 512 + j) = 0).card := by
      simp only [Finset.card_pos, Finset.Nonempty, Finset.mem_filter, Finset.mem_range]
    rw [Finset.card_range] at hcard
    rw [hrest, usedIn]
    omega
  unfold Partly
  rw [hpos, hlt]
  constructor
  · rintro ⟨hsplit, hbounds⟩
    have hcount := (hinv.split_of_ne hb hsplit).1
    omega
  · intro hbounds
    have hcount := (hinv.split_of_ne hb (by omega)).1
    exact ⟨by omega, by omega, by omega⟩

/-- What `freemem` counts beyond the 512 pages that `kinit` adds. -/
theorem Inv.card_freePages (hinv : k.Inv) : (k.freePages.card : Int) = k.freemem - 512 := by
  have hused := Finset.card_filter_add_card_filter_not (s := Finset.range npages)
    (fun i => k.pagelist i = 0)
  have hsplit := Finset.card_filter_add_card_filter_not
    (s := (Finset.range npages).filter fun i => ¬ k.pagelist i = 0)
    (fun i => k.hugepagelist (i / 512) = -1)
  have hwhole : (((Finset.range npages).filter fun i => ¬ k.pagelist i = 0).filter
      fun i => k.hugepagelist (i / 512) = -1).card = k.usedBlocks * 512 := by
    rw [usedBlocks, ← Finset.card_filter_div (fun b => k.hugepagelist b = -1) nblocks 512,
      Finset.filter_filter]
    refine Finset.card_filter_congr fun i hi => ⟨fun h => h.2, fun hblock => ⟨fun hzero => ?_, hblock⟩⟩
    have hcount := (hinv.split_of_used (Finset.mem_range.mp hi) hzero).1
    omega
  have hfree : k.freePages.card = (((Finset.range npages).filter fun i => ¬ k.pagelist i = 0).filter
      fun i => ¬ k.hugepagelist (i / 512) = -1).card := by
    rw [Finset.filter_filter]
    rfl
  have hpages : ((Finset.range npages).filter fun i => k.pagelist i = 0).card = k.usedPages := rfl
  have hcount := hinv.used4k
  have hblocks := hinv.used2m
  have hsum := hinv.freemem
  rw [Finset.card_range] at hused
  simp only [npages] at *
  omega

theorem freePages_takePage (hfree : i ∈ k.freePages) (hinv : k.Inv) :
    (k.takePage i).freePages = k.freePages.erase i := by
  obtain ⟨hi, _, hsplit⟩ := mem_freePages.mp hfree
  have hcount := (hinv.split_of_ne (Inv.block_lt hi) hsplit).1
  ext j
  rw [Finset.mem_erase, mem_freePages, mem_freePages]
  by_cases hj : j = i
  · simp [takePage, hj]
  · have hblock : (k.takePage i).hugepagelist (j / 512) ≠ -1 ↔ k.hugepagelist (j / 512) ≠ -1 := by
      by_cases hb : j / 512 = i / 512
      · simp only [takePage, hb, upd_self]
        omega
      · simp only [takePage, upd_of_ne _ _ hb]
    have hpage : (k.takePage i).pagelist j = k.pagelist j := upd_of_ne _ _ hj
    rw [hblock, hpage]
    exact ⟨fun h => ⟨hj, h⟩, fun h => h.2⟩

theorem vacantBlocks_takeBlock (hinv : k.Inv) (hb : b < nblocks) (hzero : k.hugepagelist b = 0) :
    (k.takeBlock b).vacantBlocks = k.vacantBlocks.erase b := by
  ext c
  rw [Finset.mem_erase, mem_vacantBlocks, mem_vacantBlocks]
  by_cases hc : c < nblocks
  swap
  · exact ⟨fun h => absurd h.1 hc, fun h => absurd h.2.1 hc⟩
  rw [(hinv.takeBlock hb hzero).vacant_iff hc, hinv.vacant_iff hc]
  by_cases hcb : c = b
  · simp [takeBlock, hcb]
  · simp [takeBlock, upd_of_ne _ _ hcb, hcb]

end Kmem

/-! ### Draining the allocator -/

section Draining

variable {s : Kernel}

/-- `kalloc` fails only when nothing is left. -/
theorem kalloc_of_freePages (hinv : s.kmem.Inv) :
    (s.kmem.freePages = ∅ ∧ kalloc s = .ok 0 { s with failedAllocs := s.failedAllocs + 1 }) ∨
    ∃ i ∈ s.kmem.freePages, kalloc s = .ok (pageindexToPa i)
      { s with
        mem := s.mem.zeroPages (pageindexToPa i / 4096) 1
        kmem := s.kmem.takePage i } := by
  cases hblock : kallocBlock s.kmem with
  | some b =>
      obtain ⟨hdiv, hi, hfree⟩ := kallocPage_free hinv hblock
      refine .inr ⟨_, Kmem.mem_freePages.mpr ⟨hi, by omega, ?_⟩, kalloc_eq_of_some hinv hblock⟩
      rw [hdiv]
      exact (kallocBlock_some hinv hblock).2.1
  | none =>
      refine .inl ⟨?_, kalloc_eq_of_none hblock⟩
      unfold kallocBlock at hblock
      split at hblock
      · cases hblock
      · next hpartly =>
        refine Finset.eq_empty_of_forall_notMem fun i hmem => ?_
        obtain ⟨hi, hfree, hsplit⟩ := Kmem.mem_freePages.mp hmem
        have hb := Kmem.Inv.block_lt hi
        have hnotVacant := List.find?_range_none hblock _ hb
        have hnotPartly := List.find?_range_none hpartly _ hb
        -- a block that is not empty has a page in use, so this one would be partly used
        rw [← hinv.partly_iff hb] at hnotPartly
        rw [← hinv.vacant_iff hb] at hnotVacant
        refine hnotPartly ⟨hsplit, ?_, i % 512, Nat.mod_lt i (by decide), ?_⟩
        · by_contra hnone
          exact hnotVacant ⟨hsplit, fun j hj hzero => hnone ⟨j, hj, hzero⟩⟩
        · rwa [Kmem.index_split]

structure Drains (s : Kernel) (order : List Nat) : Prop where
  nodup : order.Nodup
  free : ∀ i, i ∈ order ↔ i ∈ s.kmem.freePages
  run : ∀ n, ∃ t, times kalloc n s = .ok ((order.take n).map pageindexToPa ++
      List.replicate (n - order.length) 0) t ∧
    (∀ i ∈ order.take n, ∀ j, t.mem (0x80200 + i) j = 0) ∧
    ∀ q, (∀ i ∈ order.take n, q ≠ 0x80200 + i) → t.mem q = s.mem q

theorem Drains.nil (hempty : s.kmem.freePages = ∅) (hinv : s.kmem.Inv) : Drains s [] := by
  refine ⟨List.nodup_nil, fun i => by simp [hempty], fun n => ?_⟩
  have hfail : ∀ t : Kernel, t.kmem = s.kmem → kalloc t = .ok 0 { t with failedAllocs := t.failedAllocs + 1 } := by
    intro t ht
    rcases kalloc_of_freePages (s := t) (by rwa [ht]) with hfail | ⟨i, hmem, _⟩
    · exact hfail.2
    · rw [ht, hempty] at hmem
      exact absurd hmem (Finset.notMem_empty i)
  obtain ⟨t, hrun, hmem⟩ := run_times_fail hfail n rfl
  refine ⟨t, ?_, fun i hi => ?_, fun q _ => by rw [hmem]⟩
  · rwa [List.take_nil, List.map_nil, List.nil_append, List.length_nil, Nat.sub_zero]
  · rw [List.take_nil] at hi
    exact absurd hi List.not_mem_nil

theorem Drains.cons {i : Nat} {order : List Nat} (hinv : s.kmem.Inv) (hfree : i ∈ s.kmem.freePages)
    (hcall : kalloc s = .ok (pageindexToPa i)
      { s with
        mem := s.mem.zeroPages (pageindexToPa i / 4096) 1
        kmem := s.kmem.takePage i })
    (hrest : Drains { s with
        mem := s.mem.zeroPages (pageindexToPa i / 4096) 1
        kmem := s.kmem.takePage i } order) : Drains s (i :: order) := by
  have hset := Kmem.freePages_takePage hfree hinv
  have hnot : i ∉ order := by
    rw [hrest.free, hset]
    exact Finset.notMem_erase i _
  have hpage : pageindexToPa i / 4096 = 0x80200 + i := by
    rw [pageindexToPa, pageStart, pgsize]
    omega
  refine ⟨List.nodup_cons.mpr ⟨hnot, hrest.nodup⟩, fun j => ?_, fun n => ?_⟩
  · rw [List.mem_cons, hrest.free, hset, Finset.mem_erase]
    constructor
    · rintro (rfl | hj)
      · exact hfree
      · exact hj.2
    · intro hj
      by_cases hji : j = i
      · exact .inl hji
      · exact .inr ⟨hji, hj⟩
  cases n with
  | zero => exact ⟨s, by simp [times, run_pure], by simp, fun _ _ => rfl⟩
  | succ n =>
      obtain ⟨t, hrun, hzero, hother⟩ := hrest.run n
      have hmem : ∀ q, q ≠ 0x80200 + i →
          (s.mem.zeroPages (pageindexToPa i / 4096) 1) q = s.mem q := fun q hq =>
        if_neg (by rw [hpage]; omega)
      refine ⟨t, ?_, fun j hj => ?_, fun q hq => ?_⟩
      · rw [List.take_succ_cons, List.map_cons, List.cons_append, List.length_cons,
          Nat.add_sub_add_right]
        exact run_times_succ hcall hrun
      · rw [List.take_succ_cons, List.mem_cons] at hj
        rcases hj with rfl | hj
        · intro w
          rw [hother (0x80200 + j) fun x hx heq => hnot ?_]
          · exact congrFun (if_pos (by rw [hpage]; omega)) w
          · have hxj : x = j := by omega
            exact hxj ▸ List.mem_of_mem_take hx
        · exact hzero j hj
      · rw [List.take_succ_cons] at hq
        rw [hother q fun x hx => hq x (List.mem_cons_of_mem i hx)]
        exact hmem q (hq i List.mem_cons_self)

theorem kalloc_drains (c : Nat) (hinv : s.kmem.Inv) (hcard : s.kmem.freePages.card = c) :
    ∃ order, Drains s order := by
  induction c generalizing s with
  | zero => exact ⟨[], .nil (Finset.card_eq_zero.mp hcard) hinv⟩
  | succ c ih =>
      rcases kalloc_of_freePages hinv with ⟨hempty, _⟩ | ⟨i, hfree, hcall⟩
      · rw [hempty] at hcard
        cases hcard
      · obtain ⟨hi, hpage, hsplit⟩ := Kmem.mem_freePages.mp hfree
        obtain ⟨order, hrest⟩ := ih (s := { s with
            mem := s.mem.zeroPages (pageindexToPa i / 4096) 1
            kmem := s.kmem.takePage i }) (hinv.takePage hi hpage hsplit) (by
          rw [Kmem.freePages_takePage hfree hinv, Finset.card_erase_of_mem hfree, hcard]
          rfl)
        exact ⟨i :: order, .cons hinv hfree hcall hrest⟩

/-- `kalloc_huge` hands out as many blocks as are vacant, and then fails. -/
theorem kallocHuge_drains (c : Nat) (hinv : s.kmem.Inv) (hcard : s.kmem.vacantBlocks.card = c) (n : Nat) :
    ∃ pas t, times kallocHuge n s = .ok (pas ++ List.replicate (n - c) 0) t ∧
      pas.length = min n c ∧ ∀ pa ∈ pas, pa ≠ 0 := by
  induction n generalizing s c with
  | zero => exact ⟨[], s, by simp [times, run_pure], by simp, by simp⟩
  | succ n ih =>
      rcases kallocHuge_cases hinv with ⟨hnone, hfail⟩ | ⟨b, hb, hzero, hok⟩
      · have hempty : s.kmem.vacantBlocks = ∅ := Finset.eq_empty_of_forall_notMem fun b hmem =>
          have hvacant := Kmem.mem_vacantBlocks.mp hmem
          hnone b hvacant.1 ((hinv.vacant_iff hvacant.1).mp hvacant.2)
        rw [hempty, Finset.card_empty] at hcard
        subst hcard
        obtain ⟨pas, t, hrun, hlen, hne⟩ := ih (s := { s with failedAllocs := s.failedAllocs + 1 }) 0 hinv
          (by rw [hempty, Finset.card_empty])
        obtain rfl : pas = [] := List.eq_nil_of_length_eq_zero (by rw [hlen, Nat.min_zero])
        exact ⟨[], t, run_times_succ hfail hrun, by simp, by simp⟩
      · have hmem : b ∈ s.kmem.vacantBlocks :=
          Kmem.mem_vacantBlocks.mpr ⟨hb, (hinv.vacant_iff hb).mpr hzero⟩
        have hpos := Finset.card_pos.mpr ⟨b, hmem⟩
        obtain ⟨pas, t, hrun, hlen, hne⟩ := ih (s := { s with
            mem := s.mem.zeroPages (blockAddr b / 4096) 512
            kmem := s.kmem.takeBlock b }) (c - 1) (hinv.takeBlock hb hzero) (by
          rw [Kmem.vacantBlocks_takeBlock hinv hb hzero, Finset.card_erase_of_mem hmem, hcard])
        refine ⟨blockAddr b :: pas, t, ?_, ?_, ?_⟩
        · rw [List.cons_append, show n + 1 - c = n - (c - 1) by omega]
          exact run_times_succ hok hrun
        · rw [List.length_cons, hlen]
          omega
        · intro pa hpa
          rcases List.mem_cons.mp hpa with rfl | hpa
          · simp only [blockAddr, pageStart]
            omega
          · exact hne pa hpa

end Draining

/-! ### Reachable states -/

def Kmem.Unallocated (k : Kmem) (pa : Nat) : Prop :=
  k.isAllocated .base pa = false ∧ k.isAllocated .huge (pa / hugepgsize * hugepgsize) = false

/-- Nothing that is free is out of reach of `kalloc` and `kalloc_huge`. -/
structure UsesAllMemory (s : Kernel) : Prop where
  /-- `kalloc` succeeds `freemem - 512` times, with pages that are distinct, were not handed out and
  are zero, and then returns 0. -/
  pages : ∃ pas : List Nat, (pas.length : Int) = s.kmem.freemem - 512 ∧ pas.Nodup ∧
    (∀ pa ∈ pas, PageKind.base.Managed pa ∧ s.kmem.Unallocated pa) ∧
    ∀ n, ∃ t, times kalloc n s = .ok (pas.take n ++ List.replicate (n - pas.length) 0) t ∧
      ∀ pa ∈ pas.take n, ∀ j, t.mem (pa / 4096) j = 0
  /-- `kalloc_huge` succeeds as many times as there are vacant blocks, and then returns 0. -/
  blocks : ∀ n, ∃ pas t,
    times kallocHuge n s = .ok (pas ++ List.replicate (n - s.kmem.vacantBlocks.card) 0) t ∧
      pas.length = min n s.kmem.vacantBlocks.card ∧ ∀ pa ∈ pas, pa ≠ 0
  /-- `kalloc` opens a vacant block only when no block is partly used. -/
  packed : ∀ pa t, kalloc s = .ok pa t → pa ≠ 0 →
    s.kmem.Vacant ((pa - pageStart) / hugepgsize) → ∀ b < nblocks, ¬ s.kmem.Partly b

theorem unallocated_of_free {k : Kmem} {i : Nat} (hfree : i ∈ k.freePages) :
    k.Unallocated (pageindexToPa i) := by
  obtain ⟨hi, hpage, hsplit⟩ := Kmem.mem_freePages.mp hfree
  have hindex : (pageindexToPa i - pageStart) / pgsize = i := by
    simp only [pageindexToPa, pgsize]
    omega
  have hblock : (pageindexToPa i / hugepgsize * hugepgsize - pageStart) / hugepgsize = i / 512 := by
    simp only [pageindexToPa, pgsize, pageStart, hugepgsize]
    omega
  simp only [Kmem.Unallocated, Kmem.isAllocated, hindex, hblock]
  exact ⟨Bool.and_eq_false_imp.mpr fun _ => beq_eq_false_iff_ne.mpr hpage,
    Bool.and_eq_false_imp.mpr fun _ => beq_eq_false_iff_ne.mpr hsplit⟩

theorem Kmem.Inv.usesAllMemory {s : Kernel} (hinv : s.kmem.Inv) : UsesAllMemory s where
  pages := by
    obtain ⟨order, hdrains⟩ := kalloc_drains _ hinv rfl
    have hset : order.toFinset = s.kmem.freePages := by
      ext i
      rw [List.mem_toFinset, hdrains.free]
    have hlength : order.length = s.kmem.freePages.card := by
      rw [← hset, List.toFinset_card_of_nodup hdrains.nodup]
    refine ⟨order.map pageindexToPa, ?_, ?_, fun pa hpa => ?_, fun n => ?_⟩
    · rw [List.length_map, hlength]
      exact hinv.card_freePages
    · exact hdrains.nodup.map fun i j heq => pageindexToPa_inj heq
    · obtain ⟨i, hi, rfl⟩ := List.mem_map.mp hpa
      have hfree := (hdrains.free i).mp hi
      exact ⟨managed_base_iff.mpr ⟨i, (mem_freePages.mp hfree).1, rfl⟩, unallocated_of_free hfree⟩
    · obtain ⟨t, hrun, hzero, _⟩ := hdrains.run n
      rw [← List.map_take, List.length_map]
      refine ⟨t, hrun, fun pa hpa j => ?_⟩
      obtain ⟨i, hi, rfl⟩ := List.mem_map.mp hpa
      rw [show pageindexToPa i / 4096 = 0x80200 + i by rw [pageindexToPa, pageStart, pgsize]; omega]
      exact hzero i hi j
  blocks := kallocHuge_drains _ hinv rfl
  packed := by
    intro pa t hcall hpa hvacant b hb hpartly
    cases hblock : kallocBlock s.kmem with
    | none =>
        rw [kalloc_eq_of_none hblock] at hcall
        cases hcall
        exact hpa rfl
    | some c =>
        obtain ⟨hdiv, hi, _⟩ := kallocPage_free hinv hblock
        have hc := (kallocBlock_some hinv hblock).1
        rw [kalloc_eq_of_some hinv hblock] at hcall
        have hindex : (pa - pageStart) / hugepgsize = c := by
          rw [← (EStateM.Result.ok.inj hcall).1]
          simp only [pageindexToPa, pgsize, hugepgsize]
          omega
        rw [hindex, hinv.vacant_iff hc] at hvacant
        rw [hinv.partly_iff hb] at hpartly
        -- the first search has found nothing, or else the block would not be empty
        unfold kallocBlock at hblock
        split at hblock
        · next hfind =>
          cases hblock
          have hfound := (List.find?_range_some hfind).2
          omega
        · next hfind => exact List.find?_range_none hfind b hb hpartly

/-- A run that frees an address in the gap leaves the arrays. -/
theorem AvoidsGap.of_run {endAddr : Nat} (hlow : kernbase < endAddr) {ops : List AllocOp} {s : Kernel}
    {history events : List AllocEvent} {t : Kernel} (hinv : AllocInv endAddr history s.kmem)
    (hrun : allocRun ops s = .ok events t) : AvoidsGap endAddr ops := by
  induction ops generalizing s history events t with
  | nil => exact fun _ hmem => absurd hmem List.not_mem_nil
  | cons op ops ih =>
      have hhead : ∀ pa, op = .free .base pa → ¬ InGap endAddr pa := by
        rintro pa rfl hgap
        rw [← hinv.endEq] at hlow hgap
        have hstop : (AllocOp.free .base pa).run s = .error .outOfBounds s :=
          run_bind_error (kfree_gap hlow hgap) _
        unfold allocRun at hrun
        rw [run_bind_error hstop] at hrun
        cases hrun
      have hstep := op.run_inv hinv hhead
      unfold allocRun at hrun
      cases hop : op.run s with
      | error e u =>
          rw [run_bind_error hop] at hrun
          cases hrun
      | ok first u =>
          rw [run_bind_ok hop] at hrun
          cases hrest : allocRun ops u with
          | error e v =>
              rw [run_bind_error hrest] at hrun
              cases hrun
          | ok rest v =>
              intro pa hmem
              rcases List.mem_cons.mp hmem with heq | hmem
              · exact hhead pa heq.symm
              · exact ih (hstep.ok hop) hrest pa hmem

/-- In every state that `kinit` and calls of the allocator lead to, all free memory can be had. -/
theorem kalloc_uses_all_memory {endAddr : Nat} (hend : IsEnd endAddr) {m : Mem} {ops : List AllocOp}
    {history : List AllocEvent} {s : Kernel}
    (hrun : (do kinit; allocRun ops) (powerOn endAddr m) = .ok history s) : UsesAllMemory s := by
  rw [run_bind_ok (kinit_eq hend rfl)] at hrun
  have hinit : AllocInv endAddr [] (Kmem.initial endAddr) := allocInv_initial hend
  have hgap : AvoidsGap endAddr ops := .of_run hend.aboveKernbase (s := { powerOn endAddr m with
    mem := m.zeroPages 0x80200 npages
    kmem := Kmem.initial endAddr }) hinit hrun
  exact ((allocRun_inv hinit ops hgap).ok hrun).inv.usesAllMemory

theorem kalloc_uses_all_memory_afterOne :
    ∃ history s, (do kinit; allocRun [.alloc .base]) (powerOn 0x800344d0 fun _ _ => 0) =
      .ok history s ∧ UsesAllMemory s := by
  have hend : IsEnd 0x800344d0 := ⟨by decide, by decide⟩
  have hinit := kinit_eq (s := powerOn 0x800344d0 fun _ _ => 0) hend rfl
  obtain ⟨events, t, halloc, _⟩ := (alloc_step (s := { powerOn 0x800344d0 fun _ _ => 0 with
    mem := (powerOn 0x800344d0 fun _ _ => 0).mem.zeroPages 0x80200 npages
    kmem := Kmem.initial 0x800344d0 }) (allocInv_initial hend) .base).returns
  have hrun : (do kinit; allocRun [.alloc .base]) (powerOn 0x800344d0 fun _ _ => 0) =
      .ok (events ++ []) t := by
    rw [run_bind_ok hinit, allocRun, run_bind_ok halloc]
    rfl
  exact ⟨_, t, hrun, kalloc_uses_all_memory hend hrun⟩

end Xv6Mmap
