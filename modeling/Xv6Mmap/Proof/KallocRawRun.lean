import Xv6Mmap.Proof.KallocRaw
import Xv6Mmap.Proof.Capacity

/-!
# Runs of the compiled allocator

From `kinit` on, any sequence of calls that frees no address between `end` and `page_start` does what
the array model says. `kfree` lets the addresses in between through; at one of them it returns, and
the arrays no longer agree with each other.
-/

namespace Xv6Mmap.Raw

open Sequential
open Bytes (get_add get_zero)

/-! ### `kinit` -/

section Kinit

variable {s : Memory} {k : Kernel} {endAddr : Nat}

theorem freerangeFrom_simulates (hend : endAddr ≤ pageStart) (rounds n : Nat)
    (hn : n + rounds ≤ npages) (hrep : Rep 0 s k) (hk : k.kmem = Kmem.freed endAddr n) :
    Simulates (freerangeFrom rounds (pageindexToPa n))
      (Xv6Mmap.freerangeFrom rounds (pageindexToPa n)) s k := by
  induction rounds generalizing n s k with
  | zero => exact .pure hrep ()
  | succ rounds ih =>
      have hlt : n < npages := by omega
      have hle : k.kmem.endAddr ≤ pageStart := by
        rw [hk]
        exact hend
      have hcount : 0 ≤ k.kmem.hugepagelist (n / 512) ∧ k.kmem.hugepagelist (n / 512) ≤ 512 := by
        rw [hk, Kmem.freed]
        dsimp only
        split <;> omega
      have hnext : pageindexToPa n + pgsize = pageindexToPa (n + 1) := by
        simp only [pageindexToPa, pgsize]
        omega
      unfold freerangeFrom Xv6Mmap.freerangeFrom
      rw [hnext]
      refine .bind (kfree_simulates hrep hlt hle (by omega) (by omega)) fun _ t k' hrun hrep' => ?_
      refine ih (n + 1) (by omega) hrep' ?_
      have hfree := kfree_eq hlt hle
      have hused : ¬ (Kmem.freed endAddr n).pagelist n ≠ 0 := by
        simp [Kmem.freed]
      have href : (Kmem.freed endAddr n).paReferenced n ≤ 1 := Nat.zero_le 1
      rw [hk, if_neg hused, if_pos href, hrun] at hfree
      cases hfree
      exact Kmem.freed_releasePage hlt

theorem setCounts_spec (hheld : Rep 1 s k) :
    Wp (forUp 1 (fun i => store (hugepagelistAt i) 2 512) nblocks 0) (fun _ t => Rep 1 t { k with kmem :=
      { k.kmem with hugepagelist := fun i => if i < nblocks then 512 else k.kmem.hugepagelist i } })
      (fun _ _ => False) s := by
  refine .forUp (fun n t => Rep 1 t { k with kmem :=
    { k.kmem with hugepagelist := fun i => if i < n then 512 else k.kmem.hugepagelist i } })
    ?_ (fun n hn t ht => ?_) fun t ht => ht
  · simpa only [Nat.not_lt_zero, if_false] using hheld
  · rw [Nat.zero_add, Nat.mul_one]
    obtain ⟨u, hstore, hheld'⟩ := ht.store_hugepagelist hn (x := 512) (by decide) (by decide)
    refine .of_ok hstore ?_
    have hcounts : upd (fun i => if i < n then 512 else k.kmem.hugepagelist i) n 512 =
        fun i => if i < n + 1 then 512 else k.kmem.hugepagelist i := by
      funext i
      by_cases hi : i = n
      · rw [hi, upd_self, if_pos (Nat.lt_succ_self n)]
      · rw [upd_of_ne _ _ hi]
        split <;> split <;> first | rfl | omega
    rwa [hcounts] at hheld'

theorem Rep.initlock (hrep : Rep 0 s k) (name : Nat) :
    ∃ t, initlock name s = .ok () t ∧ Rep 0 t k := by
  have hname : store nameAt 8 name s = _ := run_store (o := 8) (by decide)
  have hlocked : store lockedAt 4 0 (s.put 8 8 name) = _ := run_store (o := 0) (by decide)
  have hcpu : store cpuAt 8 0 ((s.put 8 8 name).put 0 4 0) = _ := run_store (o := 16) (by decide)
  refine ⟨_, (run_bind_ok hname _).trans ((run_bind_ok hlocked _).trans hcpu), ?_,
    fun h => absurd rfl h, hrep.cpu, ?_, hrep.mem⟩
  · exact (get_put_of_disjoint (by decide)).trans get_put
  · rw [arrays_put_lock (by decide), arrays_put_lock (by decide), arrays_put_lock (by decide)]
    exact hrep.arrays

theorem powerOn_rep {mycpu : Nat} (hcpu : mycpu < phystop) (endAddr : Nat) (m : Mem) :
    Rep 0 (powerOn endAddr mycpu m) (Xv6Mmap.powerOn endAddr m) := by
  have hzero : ∀ o n, Bytes.get (fun _ => 0) o n = 0 := fun o n => get_zero fun _ _ _ => rfl
  refine ⟨hzero 0 4, fun h => absurd rfl h, hcpu, ?_, rfl⟩
  have hentry : ∀ start width count i, (powerOn endAddr mycpu m).entry start width count i = 0 := by
    intro start width count i
    rw [Memory.entry]
    split
    · exact hzero _ _
    · rfl
  simp only [Xv6Mmap.powerOn, Kmem.bss, Memory.arrays, Kmem.mk.injEq]
  refine ⟨rfl, ?_, ?_, ?_, ?_, rfl, rfl, rfl⟩ <;> funext i <;> rw [hentry]
  rfl

/-- `kinit` leaves the bytes that hold the arrays of the model after its own `kinit`. -/
theorem kinit_simulates (hend : IsEnd endAddr) (name : Nat) (hrep : Rep 0 s k)
    (hbss : k.kmem = Kmem.bss endAddr) : Simulates (kinit name) Xv6Mmap.kinit s k := by
  obtain ⟨s₁, hinit, hrep₁⟩ := hrep.initlock name
  obtain ⟨s₂, hacquire₂, hheld₂⟩ := hrep₁.acquire_eq
  obtain ⟨s₃, hrelease₃, hrep₃⟩ := hheld₂.release_eq
  obtain ⟨s₄, hacquire₄, hheld₄⟩ := hrep₃.acquire_eq
  obtain ⟨_, s₅, hcounts, hheld₅⟩ := (setCounts_spec hheld₄).returns
  obtain ⟨s₆, hrelease₆, hrep₆⟩ := hheld₅.release_eq
  have hfreed : { k.kmem with
      hugepagelist := fun i => if i < nblocks then 512 else k.kmem.hugepagelist i } =
      Kmem.freed endAddr 0 := by
    rw [hbss]
    simp [Kmem.freed, Kmem.bss]
  have hrange : Simulates (freerange endAddr phystop) (Xv6Mmap.freerange endAddr phystop) s₃ k := by
    have hloop := freerangeFrom_simulates hend.le npages 0 (le_refl _) hrep₆ hfreed
    have hrounds : (phystop - pageindexToPa 0) / pgsize = npages := by decide
    have hstart : hugepgroundup endAddr = pageindexToPa 0 := by
      rw [hend.2]
      decide
    unfold freerange Xv6Mmap.freerange
    rw [hstart]
    dsimp only
    rw [hrounds]
    refine .left hacquire₄ (.left hcounts (.left hrelease₆ (.right rfl ?_)))
    exact hloop
  unfold kinit Xv6Mmap.kinit
  refine .left hinit (.left hacquire₂ (.left hrelease₃ (.left rfl (.right rfl ?_))))
  rw [hrep₃.endAddr, hbss]
  refine hrange.bind fun _ t k' _ hrep' => Wp.of_ok rfl ⟨_, rfl, ?_⟩
  exact hrep'.recount (· + 512) (fun _ => 0) id

end Kinit

/-! ### Runs -/

def alloc : PageKind → M Nat
  | .base => kalloc
  | .huge => kallocHuge

def free : PageKind → Nat → M Unit
  | .base => kfree
  | .huge => kfreeHuge

def incrRef : PageKind → Nat → M Unit
  | .base => incrPaRef
  | .huge => incrHugePaRef

def runOp : AllocOp → M (List AllocEvent)
  | .alloc kind => do
    let pa ← alloc kind
    pure (if pa = 0 then [] else [.handedOut kind pa])
  | .free kind pa => do
    free kind pa
    pure [.freed kind pa]
  | .incrRef kind pa => do
    let s ← get
    if s.arrays.isAllocated kind pa ∧ s.arrays.refs kind pa < 255 then
      incrRef kind pa
      pure [.shared kind pa]
    else
      pure []

def allocRun : List AllocOp → M (List AllocEvent)
  | [] => pure []
  | op :: ops => do
    let events ← runOp op
    let rest ← allocRun ops
    pure (events ++ rest)

section Runs

variable {s : Memory} {k : Kernel} {endAddr : Nat} {history : List AllocEvent}

theorem count_bounds (hinv : k.kmem.Inv) {b : Nat} (hb : b < nblocks) :
    -1 ≤ k.kmem.hugepagelist b ∧ k.kmem.hugepagelist b ≤ 512 := by
  have hle : k.kmem.usedIn b ≤ 512 :=
    (Finset.card_filter_le _ _).trans (Finset.card_range 512).le
  rcases hinv.block b hb with ⟨hwhole, -⟩ | ⟨hsplit, -⟩ <;> omega

theorem alloc_simulates (hrep : Rep 0 s k) (hinv : k.kmem.Inv) (kind : PageKind) :
    Simulates (alloc kind) kind.alloc s k := by
  cases kind with
  | base => exact kalloc_simulates hrep hinv
  | huge => exact kallocHuge_simulates hrep

theorem free_base_simulates (hrep : Rep 0 s k) (hinv : k.kmem.Inv) {pa : Nat}
    (hgap : ¬ InGap k.kmem.endAddr pa) : Simulates (kfree pa) (Xv6Mmap.kfree pa) s k := by
  by_cases hmanaged : PageKind.base.Managed pa
  · obtain ⟨i, hi, rfl⟩ := managed_base_iff.mp hmanaged
    obtain ⟨hlow, hhigh⟩ := count_bounds hinv (Kmem.Inv.block_lt hi)
    exact kfree_simulates hrep hi hinv.endAddr (by omega) (by omega)
  · have hcheck : pa % pgsize ≠ 0 ∨ pa < s.endAddr ∨ phystop ≤ pa := by
      simp only [InGap, PageKind.Managed, PageKind.size, ← hrep.endAddr] at hgap hmanaged
      omega
    unfold Simulates kfree
    refine .get (.ite (fun _ => .bind (.of_error rfl ⟨k, kfree_unmanaged hgap hmanaged⟩)) fun h => ?_)
    exact absurd hcheck h

theorem free_huge_simulates (hrep : Rep 0 s k) (hinv : k.kmem.Inv) (hend : kernbase < k.kmem.endAddr)
    (pa : Nat) : Simulates (kfreeHuge pa) (Xv6Mmap.kfreeHuge pa) s k := by
  by_cases hmanaged : PageKind.huge.Managed pa
  · obtain ⟨b, hb, rfl⟩ := managed_huge_iff.mp hmanaged
    exact kfreeHuge_simulates hrep hb hinv.endAddr
  · have hcheck : pa % hugepgsize ≠ 0 ∨ pa < s.endAddr ∨ phystop ≤ pa := by
      simp only [PageKind.Managed, PageKind.size, hugepgsize, pageStart, phystop, kernbase,
        ← hrep.endAddr] at *
      omega
    unfold Simulates kfreeHuge
    refine .get (.ite (fun _ => .bind (.of_error rfl ⟨k, kfreeHuge_unmanaged hend hmanaged⟩))
      fun h => ?_)
    exact absurd hcheck h

theorem incrRef_simulates (hrep : Rep 0 s k) (hinv : k.kmem.Inv) {kind : PageKind} {pa : Nat}
    (hmanaged : kind.Managed pa) : Simulates (incrRef kind pa) (kind.incrRef pa) s k := by
  cases kind with
  | base =>
      obtain ⟨i, hi, rfl⟩ := managed_base_iff.mp hmanaged
      exact incrPaRef_simulates hrep hi hinv.endAddr
  | huge =>
      obtain ⟨b, hb, rfl⟩ := managed_huge_iff.mp hmanaged
      exact incrHugePaRef_simulates hrep hb hinv.endAddr

theorem runOp_simulates (hrep : Rep 0 s k) (hinv : AllocInv endAddr history k.kmem) (op : AllocOp)
    (hgap : ∀ pa, op = .free .base pa → ¬ InGap endAddr pa) : Simulates (runOp op) op.run s k := by
  have hlow := hinv.aboveKernbase
  rw [← hinv.endEq] at hgap hlow
  cases op with
  | alloc kind =>
      exact (alloc_simulates hrep hinv.inv kind).bind fun _ _ _ _ hrep' => .pure hrep' _
  | free kind pa =>
      refine Simulates.bind ?_ fun _ _ _ _ hrep' => .pure hrep' _
      cases kind with
      | base => exact free_base_simulates hrep hinv.inv (hgap pa rfl)
      | huge => exact free_huge_simulates hrep hinv.inv hlow pa
  | incrRef kind pa =>
      refine .left rfl (.right rfl ?_)
      rw [← hrep.arrays]
      by_cases hallowed : k.kmem.isAllocated kind pa ∧ k.kmem.refs kind pa < 255
      · rw [if_pos hallowed, if_pos hallowed]
        have hmanaged : kind.Managed pa := by
          have hallocated := hallowed.1
          cases kind <;>
            simp only [Kmem.isAllocated, Bool.and_eq_true, decide_eq_true_eq] at hallocated <;>
            exact hallocated.1
        exact (incrRef_simulates hrep hinv.inv hmanaged).bind fun _ _ _ _ hrep' => .pure hrep' _
      · rw [if_neg hallowed, if_neg hallowed]
        exact .pure hrep []

theorem allocRun_simulates (hrep : Rep 0 s k) (hinv : AllocInv endAddr history k.kmem)
    (ops : List AllocOp) (hgap : AvoidsGap endAddr ops) :
    Simulates (allocRun ops) (Xv6Mmap.allocRun ops) s k := by
  induction ops generalizing history s k with
  | nil => exact .pure hrep []
  | cons op ops ih =>
      have hhead : ∀ pa, op = .free .base pa → ¬ InGap endAddr pa := by
        rintro pa rfl
        exact hgap pa List.mem_cons_self
      have htail : AvoidsGap endAddr ops := fun pa hmem => hgap pa (List.mem_cons_of_mem op hmem)
      refine (runOp_simulates hrep hinv op hhead).bind fun events t k' hrun hrep' => ?_
      have hinv' := (op.run_inv hinv hhead).ok hrun
      exact (ih hrep' hinv' htail).bind fun rest _ _ _ hrep'' => .pure hrep'' _

/-- The compiled allocator keeps its arrays consistent as the model does. -/
theorem raw_allocator_sound {mycpu : Nat} (hcpu : mycpu < phystop) (name : Nat) (m : Mem)
    (ops : List AllocOp) (hend : IsEnd endAddr) (hgap : AvoidsGap endAddr ops) :
    Wp (do kinit name; allocRun ops) (fun history t => ∃ k, Rep 0 t k ∧ AllocSound history k)
      (fun e _ => FreePanic e) (powerOn endAddr mycpu m) := by
  have hinit := kinit_eq (s := Xv6Mmap.powerOn endAddr m) hend rfl
  obtain ⟨s, hrun, hrep⟩ :=
    (kinit_simulates hend name (powerOn_rep hcpu endAddr m) rfl).of_ok hinit
  have hinv : AllocInv endAddr [] (Kmem.initial endAddr) := allocInv_initial hend
  refine .bind (.of_ok hrun ((allocRun_simulates hrep hinv ops hgap).mono ?_ ?_))
  · rintro events t ⟨k, hevents, hrep'⟩
    have hinv' : AllocInv endAddr ([] ++ events) k.kmem := (allocRun_inv hinv ops hgap).ok hevents
    exact ⟨k, hrep', hinv'.sound⟩
  · rintro e t ⟨k, herror⟩
    exact (allocRun_inv hinv ops hgap).error herror

end Runs

/-! ### An address in the gap -/

section Gap

variable {s : Memory} {k : Kernel}

/-- The two bytes that `pagelist[-128]` and `hugepagelist[-1]` share, the highest ones of `lock.cpu`,
are zero while the lock is held. -/
theorem Rep.top_bytes (hheld : Rep 1 s k) : Bytes.get s.kmem 22 2 = 0 := by
  have hsplit : Bytes.get s.kmem 16 8 = Bytes.get s.kmem 16 6 + 256 ^ 6 * Bytes.get s.kmem 22 2 :=
    get_add s.kmem 16 6 2
  have hcpu := hheld.cpu
  rw [hheld.owner Nat.one_ne_zero] at hsplit
  rw [phystop] at hcpu
  omega

/-- `pagelist[-128] = 1` and `hugepagelist[-1]--` cancel. -/
theorem Rep.cancel (hheld : Rep 1 s k) :
    ∃ t u, store (pagelistAt (-128)) 1 1 s = .ok () t ∧
      addShort (hugepagelistAt (-1)) (-1) t = .ok () u ∧ Rep 1 u k := by
  have htop := hheld.top_bytes
  have hsplit : Bytes.get s.kmem 22 2 = Bytes.get s.kmem 22 1 + 256 ^ 1 * Bytes.get s.kmem 23 1 :=
    get_add s.kmem 22 1 1
  have hone : Bytes.get (s.put 22 1 1).kmem 22 2 = 1 := by
    have hsplit' : Bytes.get (s.put 22 1 1).kmem 22 2 =
        Bytes.get (s.put 22 1 1).kmem 22 1 + 256 ^ 1 * Bytes.get (s.put 22 1 1).kmem 23 1 :=
      get_add _ 22 1 1
    have hlow : Bytes.get (s.put 22 1 1).kmem 22 1 = 1 := get_put
    have hhigh : Bytes.get (s.put 22 1 1).kmem 23 1 = Bytes.get s.kmem 23 1 :=
      get_put_of_disjoint (by decide)
    omega
  have hstore : store (pagelistAt (-128)) 1 1 s = .ok () (s.put 22 1 1) :=
    run_store (o := 22) (by decide)
  have hload : load (hugepagelistAt (-1)) 2 (s.put 22 1 1) = .ok 1 (s.put 22 1 1) := by
    have hload := run_load (s := s.put 22 1 1) (o := 22) (n := 2) (by decide)
    rwa [hone] at hload
  have hback : store (hugepagelistAt (-1)) 2 (ofShort (toShort 1 + -1)) (s.put 22 1 1) =
      .ok () ((s.put 22 1 1).put 22 2 0) := run_store (o := 22) (by decide)
  refine ⟨_, _, hstore, (run_bind_ok hload _).trans hback, ?_, fun h => ?_, hheld.cpu, ?_, hheld.mem⟩
  · refine (get_put_of_disjoint (by decide)).trans ?_
    exact (get_put_of_disjoint (by decide)).trans hheld.locked
  · have hsame : Bytes.get ((s.put 22 1 1).put 22 2 0).kmem 16 6 = Bytes.get s.kmem 16 6 :=
      (get_put_of_disjoint (by decide)).trans (get_put_of_disjoint (by decide))
    have hzero : Bytes.get ((s.put 22 1 1).put 22 2 0).kmem 22 2 = 0 := get_put
    have hsplit₁ : Bytes.get ((s.put 22 1 1).put 22 2 0).kmem 16 8 = _ := get_add _ 16 6 2
    have hsplit₂ : Bytes.get s.kmem 16 8 = _ := get_add _ 16 6 2
    rw [hsplit₁, hsame, hzero, ← htop, ← hsplit₂]
    exact hheld.owner h
  · rw [arrays_put_lock (by decide), arrays_put_lock (by decide)]
    exact hheld.arrays

/-- `pa_referenced[-128]` is `pagelist[32128]`: a free page loses its mark, and no page gains one. -/
theorem kfree_hole (hrep : Rep 0 s k) (hend : k.kmem.endAddr ≤ 0x80180000)
    (hfree : k.kmem.pagelist 32128 = 1) : Wp (kfree 0x80180000) (fun _ t => Rep 0 t { k with
      mem := k.mem.zeroPages 0x80180 1
      kmem := { k.kmem with
        pagelist := upd k.kmem.pagelist 32128 0
        freemem := k.kmem.freemem + 1
        used4k := k.kmem.used4k - 1 } }) (fun _ _ => False) s := by
  have hpage : getPageI 0x80180000 = -128 := by decide
  have hhuge : getHugepageI 0x80180000 = -1 := by decide
  have hplace : paReferencedAt (-128) = pagelistAt (32128 : Nat) := by decide
  have hlt : 32128 < npages := by decide
  have hcheck : ¬ (0x80180000 % pgsize ≠ 0 ∨ 0x80180000 < s.endAddr ∨ phystop ≤ 0x80180000) := by
    rw [hrep.endAddr]
    simp only [pgsize, phystop]
    omega
  obtain ⟨t₁, hacquire, hheld₁⟩ := hrep.acquire_eq
  have hmark : load (pagelistAt (-128)) 1 t₁ = .ok 0 t₁ := by
    have hload : load (pagelistAt (-128)) 1 t₁ = .ok (Bytes.get t₁.kmem 22 1) t₁ :=
      run_load (o := 22) (by decide)
    have hsplit : Bytes.get t₁.kmem 22 2 = Bytes.get t₁.kmem 22 1 + 256 ^ 1 * Bytes.get t₁.kmem 23 1 :=
      get_add t₁.kmem 22 1 1
    rwa [show Bytes.get t₁.kmem 22 1 = 0 by have htop := hheld₁.top_bytes; omega] at hload
  have href : load (paReferencedAt (-128)) 1 t₁ = .ok 1 t₁ := by
    rw [hplace, hheld₁.load_pagelist hlt, hfree]
  obtain ⟨t₂, hstore, hheld₂⟩ := hheld₁.store_pagelist hlt (1 + 255)
  have hdecr : decrChar (paReferencedAt (-128)) t₁ = .ok () t₂ := by
    unfold decrChar
    rw [run_bind_ok href, hplace, hstore]
  have href' : load (paReferencedAt (-128)) 1 t₂ = .ok 0 t₂ := by
    rw [hplace, hheld₂.load_pagelist hlt]
    exact congrArg (EStateM.Result.ok · t₂) (upd_self k.kmem.pagelist 32128 0)
  have hram : inRam 0x80180000 = true := by decide
  obtain ⟨t₃, hzeroed, hheld₃⟩ := hheld₂.zeroPages_eq hram 1
  obtain ⟨t₄, t₅, hset, hadd, hheld₅⟩ := hheld₃.cancel
  obtain ⟨t₆, hrelease, hrep₆⟩ := (hheld₅.recount (· + 1) (· - 1) id).release_eq
  unfold kfree
  refine .get (.ite (fun h => absurd h hcheck) fun _ => ?_)
  rw [hpage, hhuge]
  refine .bind (.of_ok hacquire ?_)
  refine .bind (.of_ok hmark (.ite (fun h => absurd rfl h) fun _ => ?_))
  refine .bind (.of_ok href (.ite (fun _ => ?_) fun h => absurd Nat.one_pos h))
  refine .bind (.of_ok hdecr ?_)
  refine .bind (.of_ok href' (.ite (fun _ => ?_) fun h => absurd rfl h))
  refine .bind (.of_ok hzeroed ?_)
  refine .bind (.of_ok hset ?_)
  refine .bind (.of_ok hadd ?_)
  refine .bind (.of_ok rfl ?_)
  exact .of_ok hrelease hrep₆

def holed : Kernel :=
  { Xv6Mmap.powerOn 0x800344d0 fun _ _ => 0 with
    mem := Mem.zeroPages (Mem.zeroPages (fun _ _ => 0) 0x80200 npages) 0x80180 1
    kmem := { Kmem.initial 0x800344d0 with
      pagelist := upd (Kmem.initial 0x800344d0).pagelist 32128 0
      freemem := 32769
      used4k := -1 } }

/-- The kernel as it is linked: `end`, the `struct cpu` of the first processor and the string "kmem"
have the addresses of `kernel/kernel.sym` and `kernel/kernel.asm`. -/
theorem kinit_hole : ∃ s t, kinit 0x80009180 (powerOn 0x800344d0 0x80021ad8 fun _ _ => 0) = .ok () s ∧
    kfree 0x80180000 s = .ok () t ∧ Rep 0 t holed := by
  have hend : IsEnd 0x800344d0 := ⟨by decide, by decide⟩
  have hinit := kinit_eq (s := Xv6Mmap.powerOn 0x800344d0 fun _ _ => 0) hend rfl
  have hcpu : 0x80021ad8 < phystop := by decide
  obtain ⟨s, hrun, hrep⟩ := (kinit_simulates hend 0x80009180
    (powerOn_rep hcpu 0x800344d0 fun _ _ => 0) rfl).of_ok hinit
  obtain ⟨_, t, hfree, hrep'⟩ := (kfree_hole hrep (by decide) (by decide)).returns
  exact ⟨s, t, hrun, hfree, hrep'⟩

/-- `kfree(0x80180000)` returns, and page 32128 is then neither free nor referenced. -/
theorem allocator_hole : IsEnd 0x800344d0 ∧ ∃ s, (do kinit 0x80009180; kfree 0x80180000)
      (powerOn 0x800344d0 0x80021ad8 fun _ _ => 0) = .ok () s ∧
    s.arrays.pagelist 32128 = 0 ∧ s.arrays.paReferenced 32128 = 0 ∧ s.arrays.hugepagelist 62 = 0 ∧
    s.freemem = 32769 ∧ s.used4k = -1 ∧ ¬ s.arrays.Inv := by
  obtain ⟨s, t, hinit, hfree, hrep⟩ := kinit_hole
  have hfreemem : t.freemem = t.arrays.freemem := rfl
  have hused : t.used4k = t.arrays.used4k := rfl
  refine ⟨⟨by decide, by decide⟩, t, (run_bind_ok hinit _).trans hfree, ?_⟩
  rw [hfreemem, hused, ← hrep.arrays]
  refine ⟨by decide, rfl, rfl, rfl, rfl, fun hinv => ?_⟩
  have hpage := (hinv.page 32128 (by decide)).mp (by decide)
  exact absurd hpage (by decide)

theorem times_simulates {x : M Nat} {y : K Nat} (hsim : ∀ s k, Rep 0 s k → Simulates x y s k) (n : Nat)
    (hrep : Rep 0 s k) : Simulates (times x n) (times y n) s k := by
  induction n generalizing s k with
  | zero => exact .pure hrep []
  | succ n ih =>
      refine (hsim s k hrep).bind fun a t k' _ hrep' => ?_
      exact (ih hrep').bind fun _ _ _ _ hrep'' => .pure hrep'' _

/-- After `kfree(0x80180000)` all 63 blocks can be handed out. One page of `freemem` should then be
left, and there is none. -/
theorem kalloc_hole : IsEnd 0x800344d0 ∧ ∃ pas s, (do
        kinit 0x80009180
        kfree 0x80180000
        times kallocHuge 63) (powerOn 0x800344d0 0x80021ad8 fun _ _ => 0) = .ok pas s ∧
    s.freemem - 512 = 1 ∧ ∃ t, kalloc s = .ok 0 t := by
  obtain ⟨s, t, hinit, hfree, hrep⟩ := kinit_hole
  have hblocks := run_of_value (x := times Xv6Mmap.kallocHuge 63) (s := holed)
    (a := (List.range 63).map blockAddr) (by decide +kernel)
  obtain ⟨u, htimes, hrep'⟩ := (times_simulates (fun _ _ => kallocHuge_simulates) 63 hrep).of_ok hblocks
  have hnone : kallocBlock (final (times Xv6Mmap.kallocHuge 63 holed)).kmem = none := by
    decide +kernel
  obtain ⟨v, hkalloc, -⟩ := (kalloc_simulates_none hrep' hnone).of_ok (kalloc_eq_of_none hnone)
  have hfreemem : u.freemem = u.arrays.freemem := rfl
  refine ⟨⟨by decide, by decide⟩, _, u,
    (run_bind_ok hinit _).trans ((run_bind_ok hfree _).trans htimes), ?_, v, hkalloc⟩
  rw [hfreemem, ← hrep'.arrays]
  decide +kernel

end Gap

end Xv6Mmap.Raw
