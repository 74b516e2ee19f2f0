import Mathlib.Algebra.Ring.Int.Defs
import Xv6Mmap.Proof.Kalloc
import Xv6Mmap.System

/-!
# Runs of the allocator

Any sequence of calls to the six functions of the allocator, from `kinit` on. The calls write down
which areas they hand out, share and free, so that what the arrays say can be compared with what has
happened.
-/

namespace Xv6Mmap

open Sequential

inductive AllocOp where
  | alloc (kind : PageKind)
  | free (kind : PageKind) (pa : Nat)
  | incrRef (kind : PageKind) (pa : Nat)

inductive AllocEvent where
  | handedOut (kind : PageKind) (pa : Nat)
  | shared (kind : PageKind) (pa : Nat)
  | freed (kind : PageKind) (pa : Nat)

def PageKind.Managed (kind : PageKind) (pa : Nat) : Prop :=
  pa % kind.size = 0 ∧ pageStart ≤ pa ∧ pa < phystop

instance (kind : PageKind) (pa : Nat) : Decidable (kind.Managed pa) :=
  inferInstanceAs (Decidable (_ ∧ _))

namespace Kmem

def refs (k : Kmem) : PageKind → Nat → Nat
  | .base, pa => k.paReferenced ((pa - pageStart) / pgsize)
  | .huge, pa => k.hugePaReferenced ((pa - pageStart) / hugepgsize)

def isAllocated (k : Kmem) : PageKind → Nat → Bool
  | .base, pa => decide (PageKind.base.Managed pa) && k.pagelist ((pa - pageStart) / pgsize) == 0
  | .huge, pa =>
    decide (PageKind.huge.Managed pa) && k.hugepagelist ((pa - pageStart) / hugepgsize) == -1

end Kmem

/-- References are added only to what is handed out, and never beyond what a `char` holds. -/
def AllocOp.run : AllocOp → K (List AllocEvent)
  | alloc kind => do
    let pa ← kind.alloc
    pure (if pa = 0 then [] else [.handedOut kind pa])
  | free kind pa => do
    kind.free pa
    pure [.freed kind pa]
  | incrRef kind pa => do
    let s ← get
    if s.kmem.isAllocated kind pa ∧ s.kmem.refs kind pa < 255 then
      kind.incrRef pa
      pure [.shared kind pa]
    else
      pure []

def allocRun : List AllocOp → K (List AllocEvent)
  | [] => pure []
  | op :: ops => do
    let events ← op.run
    let rest ← allocRun ops
    pure (events ++ rest)

def AllocEvent.change (kind : PageKind) (pa : Nat) : AllocEvent → Int
  | handedOut kind' pa' => if kind' = kind ∧ pa' = pa then 1 else 0
  | shared kind' pa' => if kind' = kind ∧ pa' = pa then 1 else 0
  | freed kind' pa' => if kind' = kind ∧ pa' = pa then -1 else 0

/-- The references to an area that have been given out and not been given back. -/
def references (history : List AllocEvent) (kind : PageKind) (pa : Nat) : Int :=
  (history.map (AllocEvent.change kind pa)).sum

theorem references_append (h₁ h₂ : List AllocEvent) (kind : PageKind) (pa : Nat) :
    references (h₁ ++ h₂) kind pa = references h₁ kind pa + references h₂ kind pa := by
  simp only [references, List.map_append, List.sum_append]

theorem references_singleton (event : AllocEvent) (kind : PageKind) (pa : Nat) :
    references [event] kind pa = event.change kind pa := by
  simp only [references, List.map_cons, List.map_nil, List.sum_singleton]

/-- The arrays agree with each other and with what has happened. -/
structure AllocInv (endAddr : Nat) (history : List AllocEvent) (k : Kmem) : Prop where
  inv : k.Inv
  managed : ∀ kind pa, kind.Managed pa → references history kind pa = k.refs kind pa
  unmanaged : ∀ kind pa, ¬ kind.Managed pa → references history kind pa = 0
  endEq : k.endAddr = endAddr
  aboveKernbase : kernbase < endAddr

/-! ### Areas -/

theorem managed_base_iff {pa : Nat} :
    PageKind.base.Managed pa ↔ ∃ i < npages, pa = pageindexToPa i := by
  simp only [PageKind.Managed, PageKind.size, pageindexToPa, pgsize, pageStart, phystop, npages]
  constructor
  · rintro ⟨halign, hlow, hhigh⟩
    exact ⟨(pa - 0x80200000) / 4096, by omega, by omega⟩
  · rintro ⟨i, hi, rfl⟩
    omega

theorem managed_huge_iff {pa : Nat} :
    PageKind.huge.Managed pa ↔ ∃ b < nblocks, pa = blockAddr b := by
  simp only [PageKind.Managed, PageKind.size, blockAddr, hugepgsize, pageStart, phystop, nblocks]
  constructor
  · rintro ⟨halign, hlow, hhigh⟩
    exact ⟨(pa - 0x80200000) / 2097152, by omega, by omega⟩
  · rintro ⟨b, hb, rfl⟩
    omega

theorem refs_base (k : Kmem) (i : Nat) : k.refs .base (pageindexToPa i) = k.paReferenced i := by
  have hindex : (pageindexToPa i - pageStart) / pgsize = i := by
    simp only [pageindexToPa, pgsize]
    omega
  rw [Kmem.refs, hindex]

theorem refs_huge (k : Kmem) (b : Nat) : k.refs .huge (blockAddr b) = k.hugePaReferenced b := by
  have hindex : (blockAddr b - pageStart) / hugepgsize = b := by
    simp only [blockAddr, hugepgsize]
    omega
  rw [Kmem.refs, hindex]

theorem pageindexToPa_inj {i j : Nat} (heq : pageindexToPa i = pageindexToPa j) : i = j := by
  simp only [pageindexToPa, pgsize] at heq
  omega

theorem blockAddr_inj {b c : Nat} (heq : blockAddr b = blockAddr c) : b = c := by
  simp only [blockAddr, hugepgsize] at heq
  omega

theorem refs_of_upd_page (k k' : Kmem) {i n : Nat}
    (hpages : k'.paReferenced = upd k.paReferenced i n)
    (hblocks : k'.hugePaReferenced = k.hugePaReferenced) {kind : PageKind} {pa : Nat}
    (hmanaged : kind.Managed pa) :
    k'.refs kind pa = if .base = kind ∧ pageindexToPa i = pa then n else k.refs kind pa := by
  cases kind with
  | base =>
      obtain ⟨j, _, rfl⟩ := managed_base_iff.mp hmanaged
      rw [refs_base, refs_base, hpages]
      by_cases hj : j = i
      · rw [hj, upd_self, if_pos ⟨rfl, rfl⟩]
      · rw [upd_of_ne _ _ hj, if_neg fun h => hj (pageindexToPa_inj h.2).symm]
  | huge =>
      rw [if_neg fun h => nomatch h.1]
      simp only [Kmem.refs, hblocks]

theorem refs_of_upd_block (k k' : Kmem) {b n : Nat}
    (hpages : k'.paReferenced = k.paReferenced)
    (hblocks : k'.hugePaReferenced = upd k.hugePaReferenced b n) {kind : PageKind} {pa : Nat}
    (hmanaged : kind.Managed pa) :
    k'.refs kind pa = if .huge = kind ∧ blockAddr b = pa then n else k.refs kind pa := by
  cases kind with
  | base =>
      rw [if_neg fun h => nomatch h.1]
      simp only [Kmem.refs, hpages]
  | huge =>
      obtain ⟨c, _, rfl⟩ := managed_huge_iff.mp hmanaged
      rw [refs_huge, refs_huge, hblocks]
      by_cases hc : c = b
      · rw [hc, upd_self, if_pos ⟨rfl, rfl⟩]
      · rw [upd_of_ne _ _ hc, if_neg fun h => hc (blockAddr_inj h.2).symm]

/-! ### One call -/

section Step

variable {endAddr : Nat} {history : List AllocEvent} {k k' : Kmem} {s : Kernel}

/-- An event at one area, which moves the count of that area and no other. -/
theorem AllocInv.extend (hinv : AllocInv endAddr history k) (hinv' : k'.Inv)
    (hend : k'.endAddr = k.endAddr) {event : AllocEvent} {kind : PageKind} {pa n : Nat} {d : Int}
    (hmanaged : kind.Managed pa)
    (hevent : ∀ kind' pa', event.change kind' pa' = if kind = kind' ∧ pa = pa' then d else 0)
    (hrefs : ∀ kind' pa', kind'.Managed pa' →
      k'.refs kind' pa' = if kind = kind' ∧ pa = pa' then n else k.refs kind' pa')
    (hcount : (n : Int) = k.refs kind pa + d) : AllocInv endAddr (history ++ [event]) k' where
  inv := hinv'
  managed := by
    intro kind' pa' hmanaged'
    rw [references_append, references_singleton, hevent, hrefs kind' pa' hmanaged',
      hinv.managed kind' pa' hmanaged']
    split
    · next heq =>
      obtain ⟨rfl, rfl⟩ := heq
      exact hcount.symm
    · exact add_zero _
  unmanaged := by
    intro kind' pa' hmanaged'
    rw [references_append, references_singleton, hevent, hinv.unmanaged kind' pa' hmanaged',
      if_neg, add_zero]
    rintro ⟨rfl, rfl⟩
    exact hmanaged' hmanaged
  endEq := hend.trans hinv.endEq
  aboveKernbase := hinv.aboveKernbase

theorem AllocInv.skip (hinv : AllocInv endAddr history k) : AllocInv endAddr (history ++ []) k := by
  rwa [List.append_nil]

theorem alloc_step (hinv : AllocInv endAddr history s.kmem) (kind : PageKind) :
    Wp (AllocOp.alloc kind).run (fun events t => AllocInv endAddr (history ++ events) t.kmem)
      (fun _ _ => False) s := by
  refine Wp.bind ?_
  cases kind with
  | base =>
      rcases kalloc_cases hinv.inv with hfail | ⟨i, hi, hfree, hsplit, hok⟩
      · exact Wp.of_ok hfail (.pure hinv.skip)
      · have hzero : s.kmem.paReferenced i = 0 := by
          have hiff := hinv.inv.page i hi
          omega
        have hne : pageindexToPa i ≠ 0 := by
          simp only [pageindexToPa, pageStart]
          omega
        refine Wp.of_ok hok (.pure ?_)
        rw [if_neg hne]
        refine hinv.extend (hinv.inv.takePage hi (by omega) hsplit) rfl (n := 1) (d := 1)
          (managed_base_iff.mpr ⟨i, hi, rfl⟩) (fun _ _ => rfl)
          (fun _ _ => refs_of_upd_page s.kmem (s.kmem.takePage i) rfl rfl) ?_
        rw [refs_base, hzero]
        rfl
  | huge =>
      rcases kallocHuge_cases hinv.inv with ⟨_, hfail⟩ | ⟨b, hb, hempty, hok⟩
      · exact Wp.of_ok hfail (.pure hinv.skip)
      · have hzero : s.kmem.hugePaReferenced b = 0 := (hinv.inv.split_of_ne hb (by omega)).2
        have hne : blockAddr b ≠ 0 := by
          simp only [blockAddr, pageStart]
          omega
        refine Wp.of_ok hok (.pure ?_)
        rw [if_neg hne]
        refine hinv.extend (hinv.inv.takeBlock hb hempty) rfl (n := 1) (d := 1)
          (managed_huge_iff.mpr ⟨b, hb, rfl⟩) (fun _ _ => rfl)
          (fun _ _ => refs_of_upd_block s.kmem (s.kmem.takeBlock b) rfl rfl) ?_
        rw [refs_huge, hzero]
        rfl

/-- Where the check of `kfree` lets an address through that lies below the managed area. -/
def InGap (endAddr pa : Nat) : Prop := pa % pgsize = 0 ∧ endAddr ≤ pa ∧ pa < pageStart

theorem kfree_unmanaged {pa : Nat} (hgap : ¬ InGap s.kmem.endAddr pa)
    (hmanaged : ¬ PageKind.base.Managed pa) : kfree pa s = .error .kfree s := by
  have hcheck : pa % pgsize ≠ 0 ∨ pa < s.kmem.endAddr ∨ phystop ≤ pa := by
    simp only [InGap, PageKind.Managed, PageKind.size] at hgap hmanaged
    omega
  unfold kfree
  rw [run_get_bind]
  simp only [if_pos hcheck, run_panic_bind]

theorem InGap.checked {endAddr pa : Nat} (hgap : InGap endAddr pa) :
    ¬ (pa % pgsize ≠ 0 ∨ pa < endAddr ∨ phystop ≤ pa) := by
  obtain ⟨halign, hlow, hhigh⟩ := hgap
  simp only [pageStart, phystop] at hhigh ⊢
  omega

theorem InGap.checkIndex_eq {endAddr pa : Nat} (hend : kernbase < endAddr) (hgap : InGap endAddr pa) :
    checkIndex (getPageI pa) npages = panic .outOfBounds := by
  obtain ⟨halign, hlow, hhigh⟩ := hgap
  have hindex : getPageI pa < 0 := by
    apply toInt_neg
    simp only [uint64, pageStart, pgsize, kernbase] at *
    omega
  rw [checkIndex, if_neg (by omega)]

theorem kfree_gap {pa : Nat} (hend : kernbase < s.kmem.endAddr) (hgap : InGap s.kmem.endAddr pa) :
    kfree pa s = .error .outOfBounds s := by
  unfold kfree
  rw [run_get_bind]
  simp only [if_neg hgap.checked, hgap.checkIndex_eq hend]
  rfl

theorem kfreeHuge_unmanaged {pa : Nat} (hend : kernbase < s.kmem.endAddr)
    (hmanaged : ¬ PageKind.huge.Managed pa) : kfreeHuge pa s = .error .kfreeHuge s := by
  have hcheck : pa % hugepgsize ≠ 0 ∨ pa < s.kmem.endAddr ∨ phystop ≤ pa := by
    simp only [PageKind.Managed, PageKind.size, hugepgsize, pageStart, phystop, kernbase] at *
    omega
  unfold kfreeHuge
  rw [run_get_bind]
  simp only [if_pos hcheck, run_panic_bind]

def FreePanic (e : Panic) : Prop := e = .kfree ∨ e = .doubleKfree ∨ e = .kfreeHuge

theorem free_base_step (hinv : AllocInv endAddr history s.kmem) {pa : Nat}
    (hgap : ¬ InGap endAddr pa) :
    Wp (AllocOp.free .base pa).run (fun events t => AllocInv endAddr (history ++ events) t.kmem)
      (fun e _ => FreePanic e) s := by
  refine Wp.bind ?_
  by_cases hmanaged : PageKind.base.Managed pa
  swap
  · rw [← hinv.endEq] at hgap
    exact Wp.of_error (kfree_unmanaged hgap hmanaged) (Or.inl rfl)
  obtain ⟨i, hi, rfl⟩ := managed_base_iff.mp hmanaged
  have hfree := kfree_eq hi hinv.inv.endAddr
  by_cases hused : s.kmem.pagelist i = 0
  swap
  · rw [if_pos hused] at hfree
    exact Wp.of_error hfree (Or.inr (Or.inl rfl))
  have hpos := (hinv.inv.page i hi).mp hused
  rw [if_neg (not_not.mpr hused)] at hfree
  by_cases hone : s.kmem.paReferenced i ≤ 1
  · rw [if_pos hone] at hfree
    refine Wp.of_ok hfree (.pure ?_)
    refine hinv.extend (hinv.inv.releasePage hi hused) rfl (n := 0) (d := -1) hmanaged
      (fun _ _ => rfl) (fun _ _ => refs_of_upd_page s.kmem (s.kmem.releasePage i) rfl rfl) ?_
    rw [refs_base]
    omega
  · rw [if_neg hone] at hfree
    refine Wp.of_ok hfree (.pure ?_)
    refine hinv.extend (hinv.inv.setPageRef hused (by omega)) rfl (d := -1) hmanaged
      (fun _ _ => rfl) (fun _ _ => refs_of_upd_page s.kmem (s.kmem.setPageRef i _) rfl rfl) ?_
    rw [refs_base]
    omega

theorem free_huge_step (hinv : AllocInv endAddr history s.kmem) (pa : Nat) :
    Wp (AllocOp.free .huge pa).run (fun events t => AllocInv endAddr (history ++ events) t.kmem)
      (fun e _ => FreePanic e) s := by
  refine Wp.bind ?_
  by_cases hmanaged : PageKind.huge.Managed pa
  swap
  · have hlow : kernbase < s.kmem.endAddr := by
      rw [hinv.endEq]
      exact hinv.aboveKernbase
    exact Wp.of_error (kfreeHuge_unmanaged hlow hmanaged) (Or.inr (Or.inr rfl))
  obtain ⟨b, hb, rfl⟩ := managed_huge_iff.mp hmanaged
  have hfree := kfreeHuge_eq hb hinv.inv.endAddr
  by_cases hwhole : s.kmem.hugepagelist b = -1
  swap
  · rw [if_pos hwhole] at hfree
    exact Wp.of_error hfree (Or.inr (Or.inr rfl))
  have hpos := (hinv.inv.pages_free_of_whole hb hwhole).1
  rw [if_neg (not_not.mpr hwhole)] at hfree
  by_cases hone : s.kmem.hugePaReferenced b ≤ 1
  · rw [if_pos hone] at hfree
    refine Wp.of_ok hfree (.pure ?_)
    refine hinv.extend (hinv.inv.releaseBlock hb hwhole) rfl (n := 0) (d := -1) hmanaged
      (fun _ _ => rfl) (fun _ _ => refs_of_upd_block s.kmem (s.kmem.releaseBlock b) rfl rfl) ?_
    rw [refs_huge]
    omega
  · rw [if_neg hone] at hfree
    refine Wp.of_ok hfree (.pure ?_)
    refine hinv.extend (hinv.inv.setBlockRef hwhole (by omega)) rfl (d := -1) hmanaged
      (fun _ _ => rfl) (fun _ _ => refs_of_upd_block s.kmem (s.kmem.setBlockRef b _) rfl rfl) ?_
    rw [refs_huge]
    omega

theorem incrRef_step (hinv : AllocInv endAddr history s.kmem) (kind : PageKind) (pa : Nat) :
    Wp (AllocOp.incrRef kind pa).run (fun events t => AllocInv endAddr (history ++ events) t.kmem)
      (fun _ _ => False) s := by
  refine Wp.get (Wp.ite (fun hallowed => Wp.bind ?_) (fun _ => .pure hinv.skip))
  obtain ⟨hallocated, hbelow⟩ := hallowed
  cases kind with
  | base =>
      simp only [Kmem.isAllocated, Bool.and_eq_true, decide_eq_true_eq, beq_iff_eq] at hallocated
      obtain ⟨hmanaged, hused⟩ := hallocated
      obtain ⟨i, hi, rfl⟩ := managed_base_iff.mp hmanaged
      have hindex : (pageindexToPa i - pageStart) / pgsize = i := by
        simp only [pageindexToPa, pgsize]
        omega
      rw [hindex] at hused
      rw [refs_base] at hbelow
      have hchar : char (s.kmem.paReferenced i + 1) = s.kmem.paReferenced i + 1 :=
        Nat.mod_eq_of_lt (by omega)
      have hincr := incrPaRef_eq hi hinv.inv.endAddr
      rw [hchar] at hincr
      refine Wp.of_ok hincr (.pure ?_)
      refine hinv.extend (hinv.inv.setPageRef hused (by omega)) rfl (d := 1) hmanaged
        (fun _ _ => rfl) (fun _ _ => refs_of_upd_page s.kmem (s.kmem.setPageRef i _) rfl rfl) ?_
      rw [refs_base]
      omega
  | huge =>
      simp only [Kmem.isAllocated, Bool.and_eq_true, decide_eq_true_eq, beq_iff_eq] at hallocated
      obtain ⟨hmanaged, hwhole⟩ := hallocated
      obtain ⟨b, hb, rfl⟩ := managed_huge_iff.mp hmanaged
      have hindex : (blockAddr b - pageStart) / hugepgsize = b := by
        simp only [blockAddr, hugepgsize]
        omega
      rw [hindex] at hwhole
      rw [refs_huge] at hbelow
      have hchar : char (s.kmem.hugePaReferenced b + 1) = s.kmem.hugePaReferenced b + 1 :=
        Nat.mod_eq_of_lt (by omega)
      have hincr := incrHugePaRef_eq hb hinv.inv.endAddr
      rw [hchar] at hincr
      refine Wp.of_ok hincr (.pure ?_)
      refine hinv.extend (hinv.inv.setBlockRef hwhole (by omega)) rfl (d := 1) hmanaged
        (fun _ _ => rfl) (fun _ _ => refs_of_upd_block s.kmem (s.kmem.setBlockRef b _) rfl rfl) ?_
      rw [refs_huge]
      omega

end Step

/-! ### Whole runs -/

section Runs

variable {history : List AllocEvent} {s : Kernel} {endAddr : Nat} {m : Mem}

def AvoidsGap (endAddr : Nat) (ops : List AllocOp) : Prop :=
  ∀ pa, AllocOp.free .base pa ∈ ops → ¬ InGap endAddr pa

theorem AllocOp.run_inv (hinv : AllocInv endAddr history s.kmem) (op : AllocOp)
    (hgap : ∀ pa, op = .free .base pa → ¬ InGap endAddr pa) :
    Wp op.run (fun events t => AllocInv endAddr (history ++ events) t.kmem)
      (fun e _ => FreePanic e) s := by
  cases op with
  | alloc kind => exact (alloc_step hinv kind).mono (fun _ _ h => h) (fun _ _ h => h.elim)
  | free kind pa =>
      cases kind with
      | base => exact free_base_step hinv (hgap pa rfl)
      | huge => exact free_huge_step hinv pa
  | incrRef kind pa =>
      exact (incrRef_step hinv kind pa).mono (fun _ _ h => h) (fun _ _ h => h.elim)

theorem allocRun_inv (hinv : AllocInv endAddr history s.kmem) (ops : List AllocOp)
    (hgap : AvoidsGap endAddr ops) :
    Wp (allocRun ops) (fun events t => AllocInv endAddr (history ++ events) t.kmem)
      (fun e _ => FreePanic e) s := by
  induction ops generalizing history s with
  | nil => exact .pure hinv.skip
  | cons op ops ih =>
      have hhead : ∀ pa, op = .free .base pa → ¬ InGap endAddr pa := by
        rintro pa rfl
        exact hgap pa List.mem_cons_self
      have htail : AvoidsGap endAddr ops := fun pa hmem => hgap pa (List.mem_cons_of_mem op hmem)
      refine Wp.bind ((op.run_inv hinv hhead).imp fun events t ht => ?_)
      refine Wp.bind ((ih ht htail).imp fun rest u hu => .pure ?_)
      show AllocInv endAddr (history ++ (events ++ rest)) u.kmem
      rwa [← List.append_assoc]

theorem IsEnd.aboveKernbase (hend : IsEnd endAddr) : kernbase < endAddr := by
  obtain ⟨hword, hround⟩ := hend
  simp only [hugepgroundup, uint64, hugepgsize, pageStart, kernbase] at hword hround ⊢
  omega

theorem allocInv_initial (hend : IsEnd endAddr) : AllocInv endAddr [] (Kmem.initial endAddr) where
  inv := Kmem.initial_inv hend.le
  managed := by
    intro kind pa _
    cases kind <;> rfl
  unmanaged := fun _ _ _ => rfl
  endEq := rfl
  aboveKernbase := hend.aboveKernbase

/-! ### What the invariant gives -/

def AreasDisjoint (kind : PageKind) (pa : Nat) (kind' : PageKind) (pa' : Nat) : Prop :=
  pa + kind.size ≤ pa' ∨ pa' + kind'.size ≤ pa

/-- What the callers of the allocator rely on after the given history of calls. -/
structure AllocSound (history : List AllocEvent) (s : Kernel) : Prop where
  inv : s.kmem.Inv
  counts : ∀ kind pa, references history kind pa =
    if kind.Managed pa then (s.kmem.refs kind pa : Int) else 0
  disjoint : ∀ kind pa kind' pa', (kind, pa) ≠ (kind', pa') → 0 < references history kind pa →
    0 < references history kind' pa' → AreasDisjoint kind pa kind' pa'
  search : ∀ b, kallocBlock s.kmem = some b →
    kallocPage s.kmem b / 512 = b ∧ s.kmem.pagelist (kallocPage s.kmem b) = 1
  fresh : ∀ kind pa t, kind.alloc s = .ok pa t → pa ≠ 0 → references history kind pa = 0 ∧
    ∀ kind' pa', 0 < references history kind' pa' → AreasDisjoint kind pa kind' pa'

theorem AllocInv.page_block (hinv : AllocInv endAddr history s.kmem) {i b : Nat} (hi : i < npages)
    (hpage : 0 < references history .base (pageindexToPa i)) (hb : b < nblocks)
    (hblock : 0 < references history .huge (blockAddr b)) : i / 512 ≠ b := by
  rintro rfl
  rw [hinv.managed _ _ (managed_base_iff.mpr ⟨i, hi, rfl⟩), refs_base] at hpage
  rw [hinv.managed _ _ (managed_huge_iff.mpr ⟨_, hb, rfl⟩), refs_huge] at hblock
  have hused := (hinv.inv.page i hi).mpr (by omega)
  have hsplit := hinv.inv.split_of_used hi hused
  omega

theorem AllocInv.managed_of_pos (hinv : AllocInv endAddr history s.kmem) {kind : PageKind} {pa : Nat}
    (hpos : 0 < references history kind pa) : kind.Managed pa := by
  by_contra hmanaged
  have hzero := hinv.unmanaged kind pa hmanaged
  omega

theorem AllocInv.disjoint (hinv : AllocInv endAddr history s.kmem) {kind kind' : PageKind}
    {pa pa' : Nat} (hne : (kind, pa) ≠ (kind', pa')) (hpos : 0 < references history kind pa)
    (hpos' : 0 < references history kind' pa') : AreasDisjoint kind pa kind' pa' := by
  have hmanaged := hinv.managed_of_pos hpos
  have hmanaged' := hinv.managed_of_pos hpos'
  unfold AreasDisjoint
  cases kind with
  | base =>
      obtain ⟨i, hi, rfl⟩ := managed_base_iff.mp hmanaged
      cases kind' with
      | base =>
          obtain ⟨j, hj, rfl⟩ := managed_base_iff.mp hmanaged'
          have hij : i ≠ j := fun heq => hne (by rw [heq])
          simp only [PageKind.size, pageindexToPa, pgsize]
          omega
      | huge =>
          obtain ⟨b, hb, rfl⟩ := managed_huge_iff.mp hmanaged'
          have hblock := hinv.page_block hi hpos hb hpos'
          simp only [PageKind.size, pageindexToPa, blockAddr, pgsize, hugepgsize]
          omega
  | huge =>
      obtain ⟨b, hb, rfl⟩ := managed_huge_iff.mp hmanaged
      cases kind' with
      | base =>
          obtain ⟨i, hi, rfl⟩ := managed_base_iff.mp hmanaged'
          have hblock := hinv.page_block hi hpos' hb hpos
          simp only [PageKind.size, pageindexToPa, blockAddr, pgsize, hugepgsize]
          omega
      | huge =>
          obtain ⟨c, hc, rfl⟩ := managed_huge_iff.mp hmanaged'
          have hbc : b ≠ c := fun heq => hne (by rw [heq])
          simp only [PageKind.size, blockAddr, hugepgsize]
          omega

theorem AllocInv.alloc_unreferenced (hinv : AllocInv endAddr history s.kmem) {kind : PageKind}
    {pa : Nat} {t : Kernel} (halloc : kind.alloc s = .ok pa t) (hpa : pa ≠ 0) :
    references history kind pa = 0 := by
  cases kind with
  | base =>
      rcases kalloc_cases hinv.inv with hfail | ⟨i, hi, hfree, _, hok⟩
      · rw [PageKind.alloc, hfail] at halloc
        cases halloc
        exact absurd rfl hpa
      · rw [PageKind.alloc, hok] at halloc
        cases halloc
        have hiff := hinv.inv.page i hi
        rw [hinv.managed _ _ (managed_base_iff.mpr ⟨i, hi, rfl⟩), refs_base]
        omega
  | huge =>
      rcases kallocHuge_cases hinv.inv with ⟨_, hfail⟩ | ⟨b, hb, hempty, hok⟩
      · rw [PageKind.alloc, hfail] at halloc
        cases halloc
        exact absurd rfl hpa
      · rw [PageKind.alloc, hok] at halloc
        cases halloc
        have hzero := (hinv.inv.split_of_ne hb (by omega)).2
        rw [hinv.managed _ _ (managed_huge_iff.mpr ⟨b, hb, rfl⟩), refs_huge, hzero]
        rfl

theorem AllocInv.alloc_disjoint (hinv : AllocInv endAddr history s.kmem) {kind : PageKind}
    {pa : Nat} {t : Kernel} (halloc : kind.alloc s = .ok pa t) (hpa : pa ≠ 0) {kind' : PageKind}
    {pa' : Nat} (hpos : 0 < references history kind' pa') : AreasDisjoint kind pa kind' pa' := by
  have hzero := hinv.alloc_unreferenced halloc hpa
  have hrun : (AllocOp.alloc kind).run s = .ok [.handedOut kind pa] t := by
    show (kind.alloc >>= _) s = _
    rw [run_bind_ok halloc, if_neg hpa]
    rfl
  have hafter := (alloc_step hinv kind).ok hrun
  have hne : (kind, pa) ≠ (kind', pa') := by
    intro heq
    cases heq
    omega
  refine hafter.disjoint hne ?_ ?_
  · rw [references_append, references_singleton, hzero]
    simp [AllocEvent.change]
  · rw [references_append, references_singleton]
    simp only [AllocEvent.change]
    split <;> omega

theorem AllocInv.sound (hinv : AllocInv endAddr history s.kmem) : AllocSound history s where
  inv := hinv.inv
  counts := by
    intro kind pa
    split
    · next hmanaged => exact hinv.managed kind pa hmanaged
    · next hmanaged => exact hinv.unmanaged kind pa hmanaged
  disjoint := fun _ _ _ _ hne hpos hpos' => hinv.disjoint hne hpos hpos'
  search := by
    intro b hblock
    obtain ⟨hdiv, _, hfree⟩ := kallocPage_free hinv.inv hblock
    exact ⟨hdiv, hfree⟩
  fresh := fun _ _ _ halloc hpa =>
    ⟨hinv.alloc_unreferenced halloc hpa, fun _ _ hpos => hinv.alloc_disjoint halloc hpa hpos⟩

/-- From `kinit` on, in any sequence of calls none of which frees a page between `end` and
`page_start`, the arrays stay consistent and no access leaves them. -/
theorem allocator_sound (endAddr : Nat) (m : Mem) (ops : List AllocOp) (hend : IsEnd endAddr)
    (hgap : AvoidsGap endAddr ops) :
    Wp (do kinit; allocRun ops) AllocSound (fun e _ => FreePanic e) (powerOn endAddr m) := by
  refine Wp.bind (Wp.of_ok (kinit_eq hend rfl) ?_)
  have hinit : AllocInv endAddr [] (Kmem.initial endAddr) := allocInv_initial hend
  exact (allocRun_inv (s := { powerOn endAddr m with
    mem := m.zeroPages 0x80200 npages
    kmem := Kmem.initial endAddr }) hinit ops hgap).imp fun _ _ hinv => hinv.sound

theorem isEnd_example : IsEnd 0x800344d0 := ⟨by decide, by decide⟩

theorem avoidsGap_example : AvoidsGap 0x800344d0 [.alloc .base, .free .base 0x80200000] := by
  intro pa hmem hgap
  simp only [List.mem_cons, List.not_mem_nil, or_false, reduceCtorEq, false_or,
    AllocOp.free.injEq, true_and] at hmem
  subst hmem
  exact absurd hgap.2.2 (by decide)

theorem allocator_sound_of_kalloc :
    Wp (do kinit; allocRun [.alloc .base, .free .base 0x80200000]) AllocSound
      (fun e _ => FreePanic e) (powerOn 0x800344d0 fun _ _ => 0) :=
  allocator_sound 0x800344d0 (fun _ _ => 0) [.alloc .base, .free .base 0x80200000]
    isEnd_example avoidsGap_example

end Runs

/-! ### Indices -/

section Indices

variable {s : Kernel} {pa : Nat}

theorem incrPaRef_unmanaged (hgap : ¬ InGap s.kmem.endAddr pa)
    (hmanaged : ¬ PageKind.base.Managed pa) : incrPaRef pa s = .error .incrPaRef s := by
  have hcheck : pa % pgsize ≠ 0 ∨ pa < s.kmem.endAddr ∨ phystop ≤ pa := by
    simp only [InGap, PageKind.Managed, PageKind.size] at hgap hmanaged
    omega
  unfold incrPaRef
  rw [run_get_bind]
  simp only [if_pos hcheck, run_panic_bind]

theorem incrPaRef_gap (hend : kernbase < s.kmem.endAddr) (hgap : InGap s.kmem.endAddr pa) :
    incrPaRef pa s = .error .outOfBounds s := by
  unfold incrPaRef
  rw [run_get_bind]
  simp only [if_neg hgap.checked, hgap.checkIndex_eq hend]
  rfl

theorem incrHugePaRef_unmanaged (hend : kernbase < s.kmem.endAddr)
    (hmanaged : ¬ PageKind.huge.Managed pa) : incrHugePaRef pa s = .error .incrPaRef s := by
  have hcheck : pa % hugepgsize ≠ 0 ∨ pa < s.kmem.endAddr ∨ phystop ≤ pa := by
    simp only [PageKind.Managed, PageKind.size, hugepgsize, pageStart, phystop, kernbase] at *
    omega
  unfold incrHugePaRef
  rw [run_get_bind]
  simp only [if_pos hcheck, run_panic_bind]

def InBounds (x : K Unit) (s : Kernel) : Prop := ∀ t, x s ≠ .error .outOfBounds t

theorem inBounds_of_error {x : K Unit} {e : Panic} (hrun : x s = .error e s)
    (hne : e ≠ .outOfBounds) : InBounds x s := by
  intro t ht
  rw [hrun] at ht
  cases ht
  exact hne rfl

theorem inBounds_of_ok {x : K Unit} {t : Kernel} (hrun : x s = .ok () t) : InBounds x s := by
  intro u hu
  rw [hrun] at hu
  cases hu

theorem kfree_inBounds_iff (hend : kernbase < s.kmem.endAddr) (hle : s.kmem.endAddr ≤ pageStart) :
    InBounds (kfree pa) s ↔ ¬ InGap s.kmem.endAddr pa := by
  refine ⟨fun hbounds hgap => hbounds s (kfree_gap hend hgap), fun hgap => ?_⟩
  by_cases hmanaged : PageKind.base.Managed pa
  · obtain ⟨i, hi, rfl⟩ := managed_base_iff.mp hmanaged
    have hfree := kfree_eq hi hle
    split_ifs at hfree
    · exact inBounds_of_error hfree (by decide)
    · exact inBounds_of_ok hfree
    · exact inBounds_of_ok hfree
  · exact inBounds_of_error (kfree_unmanaged hgap hmanaged) (by decide)

theorem incrPaRef_inBounds_iff (hend : kernbase < s.kmem.endAddr)
    (hle : s.kmem.endAddr ≤ pageStart) :
    InBounds (incrPaRef pa) s ↔ ¬ InGap s.kmem.endAddr pa := by
  refine ⟨fun hbounds hgap => hbounds s (incrPaRef_gap hend hgap), fun hgap => ?_⟩
  by_cases hmanaged : PageKind.base.Managed pa
  · obtain ⟨i, hi, rfl⟩ := managed_base_iff.mp hmanaged
    exact inBounds_of_ok (incrPaRef_eq hi hle)
  · exact inBounds_of_error (incrPaRef_unmanaged hgap hmanaged) (by decide)

/-- `end` and `page_start` are less than 2 MiB apart, so no huge page lies between them. -/
theorem kfreeHuge_inBounds (hend : kernbase < s.kmem.endAddr) (hle : s.kmem.endAddr ≤ pageStart) :
    InBounds (kfreeHuge pa) s := by
  by_cases hmanaged : PageKind.huge.Managed pa
  · obtain ⟨b, hb, rfl⟩ := managed_huge_iff.mp hmanaged
    have hfree := kfreeHuge_eq hb hle
    split_ifs at hfree
    · exact inBounds_of_error hfree (by decide)
    · exact inBounds_of_ok hfree
    · exact inBounds_of_ok hfree
  · exact inBounds_of_error (kfreeHuge_unmanaged hend hmanaged) (by decide)

theorem incrHugePaRef_inBounds (hend : kernbase < s.kmem.endAddr)
    (hle : s.kmem.endAddr ≤ pageStart) : InBounds (incrHugePaRef pa) s := by
  by_cases hmanaged : PageKind.huge.Managed pa
  · obtain ⟨b, hb, rfl⟩ := managed_huge_iff.mp hmanaged
    exact inBounds_of_ok (incrHugePaRef_eq hb hle)
  · exact inBounds_of_error (incrHugePaRef_unmanaged hend hmanaged) (by decide)

/-- None of the four functions that take an address leaves the arrays. -/
structure AddressChecked (pa : Nat) (s : Kernel) : Prop where
  kfree : InBounds (kfree pa) s
  incrPaRef : InBounds (incrPaRef pa) s
  kfreeHuge : InBounds (kfreeHuge pa) s
  incrHugePaRef : InBounds (incrHugePaRef pa) s

/-- The address checks imply valid indices exactly for the addresses outside the gap between `end` and
`page_start`, whatever the arrays hold. -/
theorem indices_valid {endAddr : Nat} (hend : IsEnd endAddr) (pa : Nat) :
    (∀ s : Kernel, s.kmem.endAddr = endAddr → AddressChecked pa s) ↔ ¬ InGap endAddr pa := by
  have hlow := hend.aboveKernbase
  have hle := hend.le
  constructor
  · intro hchecked
    have hstart := (hchecked (powerOn endAddr fun _ _ => 0) rfl).kfree
    exact (kfree_inBounds_iff hlow hle).mp hstart
  · rintro hgap s rfl
    exact ⟨(kfree_inBounds_iff hlow hle).mpr hgap, (incrPaRef_inBounds_iff hlow hle).mpr hgap,
      kfreeHuge_inBounds hlow hle, incrHugePaRef_inBounds hlow hle⟩

theorem indices_valid_pageStart :
    AddressChecked 0x80200000 (powerOn 0x800344d0 fun _ _ => 0) :=
  (indices_valid isEnd_example 0x80200000).mpr (fun hgap => absurd hgap.2.2 (by decide)) _ rfl

/-- The page below `page_start` passes the checks of `kfree` and `incr_pa_ref`, and both then use the
index `-1`. -/
theorem indices_invalid_gap :
    IsEnd 0x800344d0 ∧ getPageI 0x801ff000 = -1 ∧
      ¬ ∀ s : Kernel, s.kmem.endAddr = 0x800344d0 → AddressChecked 0x801ff000 s := by
  refine ⟨⟨by decide, by decide⟩, by decide, fun hchecked => ?_⟩
  have hstart := (hchecked (powerOn 0x800344d0 fun _ _ => 0) rfl).kfree
  have hlow : kernbase < (powerOn 0x800344d0 fun _ _ => 0).kmem.endAddr := by decide
  exact hstart _ (kfree_gap hlow ⟨by decide, by decide, by decide⟩)

end Indices

end Xv6Mmap
