import Xv6Mmap.KallocRaw
import Xv6Mmap.Proof.Kalloc

/-!
# The compiled allocator does what the array model says

The bytes of `kmem` hold the arrays of the model, and while indices stay within the arrays each function
returns and panics together with that of the model.
-/

namespace Xv6Mmap.Raw

open Sequential
open Bytes (get_splice_out get_splice_mod get_lt)

/-! ### Members -/

section Members

variable {s t : Memory} {o n v i : Nat}

def Memory.put (s : Memory) (o n v : Nat) : Memory :=
  { s with kmem := Bytes.splice s.kmem (Bytes.ofNat v) o n }

theorem get_put : Bytes.get (s.put o n v).kmem o n = v % 256 ^ n := get_splice_mod s.kmem v

theorem get_put_of_disjoint {o' n' : Nat} (hdisj : o + n ≤ o' ∨ o' + n' ≤ o) :
    Bytes.get (s.put o n v).kmem o' n' = Bytes.get s.kmem o' n' :=
  get_splice_out (Bytes.ofNat v) s.kmem hdisj.symm

theorem run_load (ho : o + n ≤ kmemSize) : load o n s = .ok (Bytes.get s.kmem o n) s := by
  unfold load
  rw [if_pos ⟨Int.natCast_nonneg o, by exact_mod_cast ho⟩, Int.toNat_natCast]

theorem run_store (ho : o + n ≤ kmemSize) : store o n v s = .ok () (s.put o n v) := by
  unfold store
  rw [if_pos ⟨Int.natCast_nonneg o, by exact_mod_cast ho⟩, Int.toNat_natCast]
  rfl

theorem toShort_ofShort {x : Int} (hlow : -0x8000 ≤ x) (hhigh : x < 0x8000) :
    toShort (ofShort x % 256 ^ 2) = x := by
  unfold toShort ofShort
  split <;> omega

theorem entry_of_lt {start width count : Nat} (hi : i < count) :
    s.entry start width count i = Bytes.get s.kmem (start + width * i) width :=
  if_pos hi

theorem load_place {start width : Nat} (count : Nat) (hfit : start + width * count ≤ kmemSize)
    (hi : i < count) : load (place start width i) width s = .ok (s.entry start width count i) s := by
  have hplace : place start width i = (start + width * i : Nat) := by
    rw [place]
    push_cast
    rfl
  have hle := Nat.mul_le_mul_left width hi
  rw [Nat.succ_eq_add_one, Nat.mul_succ] at hle
  rw [hplace, run_load (by omega), entry_of_lt hi]

theorem store_place {start width : Nat} (count : Nat) (hfit : start + width * count ≤ kmemSize)
    (hi : i < count) :
    store (place start width i) width v s = .ok () (s.put (start + width * i) width v) := by
  have hplace : place start width i = (start + width * i : Nat) := by
    rw [place]
    push_cast
    rfl
  have hle := Nat.mul_le_mul_left width hi
  rw [Nat.succ_eq_add_one, Nat.mul_succ] at hle
  rw [hplace, run_store (by omega)]

theorem entry_put_self {start width count : Nat} (hi : i < count) :
    (s.put (start + width * i) width v).entry start width count =
      upd (s.entry start width count) i (v % 256 ^ width) := by
  funext j
  by_cases hj : j = i
  · rw [hj, upd_self, entry_of_lt hi]
    exact get_put
  · have hdisj : start + width * i + width ≤ start + width * j ∨
        start + width * j + width ≤ start + width * i := by
      rcases Nat.lt_or_gt_of_ne hj with hlt | hlt
      · have hle := Nat.mul_le_mul_left width hlt
        rw [Nat.succ_eq_add_one, Nat.mul_succ] at hle
        omega
      · have hle := Nat.mul_le_mul_left width hlt
        rw [Nat.succ_eq_add_one, Nat.mul_succ] at hle
        omega
    rw [upd_of_ne _ _ hj, Memory.entry, Memory.entry]
    split
    · exact get_put_of_disjoint hdisj
    · rfl

theorem entry_put_other {start width count : Nat}
    (hdisj : o + n ≤ start ∨ start + width * count ≤ o) :
    (s.put o n v).entry start width count = s.entry start width count := by
  funext j
  rw [Memory.entry, Memory.entry]
  split
  · next hj =>
    have hle := Nat.mul_le_mul_left width hj
    rw [Nat.succ_eq_add_one, Nat.mul_succ] at hle
    exact get_put_of_disjoint (by omega)
  · rfl

theorem arrays_put_lock (ho : o + n ≤ 24) : (s.put o n v).arrays = s.arrays := by
  simp only [Memory.arrays]
  rw [entry_put_other (Or.inl ho), entry_put_other (Or.inl (by omega)),
    entry_put_other (Or.inl (by omega)), entry_put_other (Or.inl (by omega))]
  rfl

theorem arrays_put_hugepagelist (hi : i < nblocks) {x : Int} (hlow : -0x8000 ≤ x)
    (hhigh : x < 0x8000) : (s.put (24 + 2 * i) 2 (ofShort x)).arrays =
      { s.arrays with hugepagelist := upd s.arrays.hugepagelist i x } := by
  have hi' := hi
  unfold nblocks at hi'
  simp only [Memory.arrays]
  rw [entry_put_self hi, entry_put_other (Or.inl (by omega)), entry_put_other (Or.inl (by omega)),
    entry_put_other (Or.inl (by omega))]
  congr 1
  funext j
  by_cases hj : j = i
  · rw [hj, upd_self, upd_self, toShort_ofShort hlow hhigh]
  · rw [upd_of_ne _ _ hj, upd_of_ne _ _ hj]

theorem arrays_put_pagelist (hi : i < npages) : (s.put (150 + 1 * i) 1 v).arrays =
    { s.arrays with pagelist := upd s.arrays.pagelist i (v % 256 ^ 1) } := by
  have hi' := hi
  unfold npages at hi'
  simp only [Memory.arrays]
  rw [entry_put_self hi, entry_put_other (Or.inr (by rw [nblocks]; omega)),
    entry_put_other (Or.inl (by omega)), entry_put_other (Or.inl (by omega))]
  rfl

theorem arrays_put_paReferenced (hi : i < npages) : (s.put (32406 + 1 * i) 1 v).arrays =
    { s.arrays with paReferenced := upd s.arrays.paReferenced i (v % 256 ^ 1) } := by
  have hi' := hi
  unfold npages at hi'
  simp only [Memory.arrays]
  rw [entry_put_self hi, entry_put_other (Or.inr (by rw [nblocks]; omega)),
    entry_put_other (Or.inr (by rw [npages]; omega)), entry_put_other (Or.inl (by omega))]
  rfl

theorem arrays_put_hugePaReferenced (hi : i < nblocks) : (s.put (64662 + 1 * i) 1 v).arrays =
    { s.arrays with hugePaReferenced := upd s.arrays.hugePaReferenced i (v % 256 ^ 1) } := by
  simp only [Memory.arrays]
  rw [entry_put_self hi, entry_put_other (Or.inr (by rw [nblocks]; omega)),
    entry_put_other (Or.inr (by rw [npages]; omega)), entry_put_other (Or.inr (by rw [npages]; omega))]
  rfl

end Members

/-! ### The two levels -/

/-- The bytes hold the arrays of `k`; the lock is free when `lock` is 0 and held when it is 1. -/
structure Rep (lock : Nat) (s : Memory) (k : Kernel) : Prop where
  locked : Bytes.get s.kmem 0 4 = lock
  owner : lock ≠ 0 → Bytes.get s.kmem 16 8 = s.mycpu
  cpu : s.mycpu < phystop
  arrays : k.kmem = s.arrays
  mem : k.mem = s.mem

section Steps

variable {s t : Memory} {k : Kernel} {lock i n v o : Nat} {x : Int}

theorem Rep.put {a : Kmem} (hrep : Rep lock s k) (ho : 24 ≤ o) (harrays : (s.put o n v).arrays = a) :
    Rep lock (s.put o n v) { k with kmem := a } where
  locked := (get_put_of_disjoint (by omega)).trans hrep.locked
  owner := fun h => (get_put_of_disjoint (by omega)).trans (hrep.owner h)
  cpu := hrep.cpu
  arrays := harrays.symm
  mem := hrep.mem

theorem Rep.holding_eq (hrep : Rep lock s k) : holding s = .ok (decide (lock ≠ 0)) s := by
  have hlocked : load lockedAt 4 s = _ := run_load (o := 0) (by decide)
  have hcpu : load cpuAt 8 s = _ := run_load (o := 16) (by decide)
  unfold holding
  rw [run_bind_ok hlocked, run_bind_ok hcpu, run_get_bind, hrep.locked]
  refine congrArg (EStateM.Result.ok · s) (decide_eq_decide.mpr ?_)
  exact ⟨And.left, fun h => ⟨h, hrep.owner h⟩⟩

theorem Rep.acquire_eq (hrep : Rep 0 s k) : ∃ t, acquire s = .ok () t ∧ Rep 1 t k := by
  refine ⟨(s.put 0 4 1).put 16 8 s.mycpu, ?_, ?_, fun _ => ?_, hrep.cpu, ?_, hrep.mem⟩
  · have hload : load lockedAt 4 s = _ := run_load (o := 0) (by decide)
    have hlock : store lockedAt 4 1 s = _ := run_store (o := 0) (by decide)
    have howner : store cpuAt 8 s.mycpu (s.put 0 4 1) = _ := run_store (o := 16) (by decide)
    rw [hrep.locked] at hload
    unfold acquire
    rw [run_bind_ok hrep.holding_eq]
    exact ((run_bind_ok hload _).trans ((run_bind_ok hlock _).trans howner))
  · exact (get_put_of_disjoint (by decide)).trans get_put
  · exact get_put.trans (Nat.mod_eq_of_lt (hrep.cpu.trans (by decide)))
  · rw [arrays_put_lock (by decide), arrays_put_lock (by decide)]
    exact hrep.arrays

theorem Rep.release_eq (hrep : Rep 1 s k) : ∃ t, release s = .ok () t ∧ Rep 0 t k := by
  refine ⟨(s.put 16 8 0).put 0 4 0, ?_, get_put, fun h => absurd rfl h, hrep.cpu, ?_, hrep.mem⟩
  · have howner : store cpuAt 8 0 s = _ := run_store (o := 16) (by decide)
    have hlock : store lockedAt 4 0 (s.put 16 8 0) = _ := run_store (o := 0) (by decide)
    unfold release
    rw [run_bind_ok hrep.holding_eq]
    exact (run_bind_ok howner _).trans hlock
  · rw [arrays_put_lock (by decide), arrays_put_lock (by decide)]
    exact hrep.arrays

theorem Rep.load_hugepagelist (hrep : Rep lock s k) (hi : i < nblocks) :
    ∃ n, load (hugepagelistAt i) 2 s = .ok n s ∧ toShort n = k.kmem.hugepagelist i :=
  ⟨_, load_place nblocks (by decide) hi, by rw [hrep.arrays]; rfl⟩

theorem Rep.load_pagelist (hrep : Rep lock s k) (hi : i < npages) :
    load (pagelistAt i) 1 s = .ok (k.kmem.pagelist i) s := by
  rw [hrep.arrays]
  exact load_place npages (by decide) hi

theorem Rep.load_paReferenced (hrep : Rep lock s k) (hi : i < npages) :
    load (paReferencedAt i) 1 s = .ok (k.kmem.paReferenced i) s := by
  rw [hrep.arrays]
  exact load_place npages (by decide) hi

theorem Rep.load_hugePaReferenced (hrep : Rep lock s k) (hi : i < nblocks) :
    load (hugePaReferencedAt i) 1 s = .ok (k.kmem.hugePaReferenced i) s := by
  rw [hrep.arrays]
  exact load_place nblocks (by decide) hi

theorem Rep.store_hugepagelist (hrep : Rep lock s k) (hi : i < nblocks) (hlow : -0x8000 ≤ x)
    (hhigh : x < 0x8000) : ∃ t, store (hugepagelistAt i) 2 (ofShort x) s = .ok () t ∧
      Rep lock t { k with kmem :=
        { k.kmem with hugepagelist := upd k.kmem.hugepagelist i x } } := by
  rw [hrep.arrays]
  exact ⟨_, store_place nblocks (by decide) hi,
    hrep.put (by omega) (arrays_put_hugepagelist hi hlow hhigh)⟩

theorem Rep.store_pagelist (hrep : Rep lock s k) (hi : i < npages) (v : Nat) :
    ∃ t, store (pagelistAt i) 1 v s = .ok () t ∧ Rep lock t { k with kmem :=
      { k.kmem with pagelist := upd k.kmem.pagelist i (char v) } } := by
  rw [hrep.arrays]
  exact ⟨_, store_place npages (by decide) hi, hrep.put (by omega) (arrays_put_pagelist hi)⟩

theorem Rep.store_paReferenced (hrep : Rep lock s k) (hi : i < npages) (v : Nat) :
    ∃ t, store (paReferencedAt i) 1 v s = .ok () t ∧
      Rep lock t { k with kmem := k.kmem.setPageRef i (char v) } := by
  rw [hrep.arrays]
  exact ⟨_, store_place npages (by decide) hi, hrep.put (by omega) (arrays_put_paReferenced hi)⟩

theorem Rep.store_hugePaReferenced (hrep : Rep lock s k) (hi : i < nblocks) (v : Nat) :
    ∃ t, store (hugePaReferencedAt i) 1 v s = .ok () t ∧
      Rep lock t { k with kmem := k.kmem.setBlockRef i (char v) } := by
  rw [hrep.arrays]
  exact ⟨_, store_place nblocks (by decide) hi, hrep.put (by omega) (arrays_put_hugePaReferenced hi)⟩

theorem Rep.addShort_hugepagelist (hrep : Rep lock s k) (hi : i < nblocks) {d : Int}
    (hlow : -0x8000 ≤ k.kmem.hugepagelist i + d) (hhigh : k.kmem.hugepagelist i + d < 0x8000) :
    ∃ t, addShort (hugepagelistAt i) d s = .ok () t ∧ Rep lock t { k with kmem :=
      { k.kmem with hugepagelist := upd k.kmem.hugepagelist i (k.kmem.hugepagelist i + d) } } := by
  obtain ⟨n, hload, hn⟩ := hrep.load_hugepagelist hi
  obtain ⟨t, hstore, hrep'⟩ := hrep.store_hugepagelist hi hlow hhigh
  refine ⟨t, ?_, hrep'⟩
  unfold addShort
  rw [run_bind_ok hload, hn, hstore]

theorem Rep.incr_paReferenced (hrep : Rep lock s k) (hi : i < npages) :
    ∃ t, incrChar (paReferencedAt i) s = .ok () t ∧
      Rep lock t { k with kmem := k.kmem.setPageRef i (char (k.kmem.paReferenced i + 1)) } := by
  obtain ⟨t, hstore, hrep'⟩ := hrep.store_paReferenced hi (k.kmem.paReferenced i + 1)
  exact ⟨t, (run_bind_ok (hrep.load_paReferenced hi) _).trans hstore, hrep'⟩

theorem Rep.incr_hugePaReferenced (hrep : Rep lock s k) (hi : i < nblocks) :
    ∃ t, incrChar (hugePaReferencedAt i) s = .ok () t ∧
      Rep lock t { k with kmem := k.kmem.setBlockRef i (char (k.kmem.hugePaReferenced i + 1)) } := by
  obtain ⟨t, hstore, hrep'⟩ := hrep.store_hugePaReferenced hi (k.kmem.hugePaReferenced i + 1)
  exact ⟨t, (run_bind_ok (hrep.load_hugePaReferenced hi) _).trans hstore, hrep'⟩

theorem char_pred {n : Nat} (hn : n < 256) (hpos : 0 < n) : char (n + 255) = n - 1 := by
  unfold char
  omega

theorem Rep.decr_paReferenced (hrep : Rep lock s k) (hi : i < npages)
    (hpos : 0 < k.kmem.paReferenced i) :
    ∃ t, decrChar (paReferencedAt i) s = .ok () t ∧
      Rep lock t { k with kmem := k.kmem.setPageRef i (k.kmem.paReferenced i - 1) } := by
  have hbyte : k.kmem.paReferenced i < 256 := by
    rw [hrep.arrays]
    exact (entry_of_lt hi).trans_lt (get_lt _ _ 1)
  obtain ⟨t, hstore, hrep'⟩ := hrep.store_paReferenced hi (k.kmem.paReferenced i + 255)
  rw [char_pred hbyte hpos] at hrep'
  exact ⟨t, (run_bind_ok (hrep.load_paReferenced hi) _).trans hstore, hrep'⟩

theorem Rep.decr_hugePaReferenced (hrep : Rep lock s k) (hi : i < nblocks)
    (hpos : 0 < k.kmem.hugePaReferenced i) :
    ∃ t, decrChar (hugePaReferencedAt i) s = .ok () t ∧
      Rep lock t { k with kmem := k.kmem.setBlockRef i (k.kmem.hugePaReferenced i - 1) } := by
  have hbyte : k.kmem.hugePaReferenced i < 256 := by
    rw [hrep.arrays]
    exact (entry_of_lt hi).trans_lt (get_lt _ _ 1)
  obtain ⟨t, hstore, hrep'⟩ := hrep.store_hugePaReferenced hi (k.kmem.hugePaReferenced i + 255)
  rw [char_pred hbyte hpos] at hrep'
  exact ⟨t, (run_bind_ok (hrep.load_hugePaReferenced hi) _).trans hstore, hrep'⟩

theorem Rep.zeroPages_eq (hrep : Rep lock s k) {pa : Nat} (hram : inRam pa = true) (n : Nat) :
    ∃ t, zeroPages pa n s = .ok () t ∧
      Rep lock t { k with mem := k.mem.zeroPages (pa / 4096) n } := by
  refine ⟨_, if_pos hram, hrep.locked, hrep.owner, hrep.cpu, hrep.arrays, ?_⟩
  rw [hrep.mem]

theorem Rep.recount (hrep : Rep lock s k) (f g h : Int → Int) :
    Rep lock { s with freemem := f s.freemem, used4k := g s.used4k, used2m := h s.used2m }
      { k with kmem := { k.kmem with
        freemem := f k.kmem.freemem
        used4k := g k.kmem.used4k
        used2m := h k.kmem.used2m } } := by
  refine ⟨hrep.locked, hrep.owner, hrep.cpu, ?_, hrep.mem⟩
  rw [hrep.arrays]
  rfl

end Steps

/-- From related states the compiled function and that of the array model return the same value, in
related states, or panic alike. -/
def Simulates {α : Type} (x : M α) (y : K α) (s : Memory) (k : Kernel) : Prop :=
  Wp x (fun a t => ∃ k', y k = .ok a k' ∧ Rep 0 t k') (fun e _ => ∃ k', y k = .error e k') s

theorem Simulates.bind {α β : Type} {x : M β} {y : K β} {f : β → M α} {g : β → K α} {s : Memory}
    {k : Kernel} (hx : Simulates x y s k)
    (hnext : ∀ a t k', y k = .ok a k' → Rep 0 t k' → Simulates (f a) (g a) t k') :
    Simulates (x >>= f) (y >>= g) s k := by
  refine Wp.bind (hx.mono ?_ ?_)
  · rintro a t ⟨k', hrun, hrep⟩
    refine (hnext a t k' hrun hrep).mono ?_ ?_
    · rintro c u ⟨k'', hrun', hrep'⟩
      exact ⟨k'', (run_bind_ok hrun g).trans hrun', hrep'⟩
    · rintro e u ⟨k'', hrun'⟩
      exact ⟨k'', (run_bind_ok hrun g).trans hrun'⟩
  · rintro e t ⟨k', hrun⟩
    exact ⟨k', run_bind_error hrun g⟩

/-- A step of the compiled function that the model does not have. -/
theorem Simulates.left {α β : Type} {x : M β} {f : β → M α} {y : K α} {s t : Memory} {k : Kernel}
    {a : β} (hrun : x s = .ok a t) (hnext : Simulates (f a) y t k) : Simulates (x >>= f) y s k :=
  Wp.bind (.of_ok hrun hnext)

/-- A step of the model that the compiled function does not have. -/
theorem Simulates.right {α β : Type} {x : M α} {y : K β} {g : β → K α} {s : Memory} {k k' : Kernel}
    {a : β} (hrun : y k = .ok a k') (hnext : Simulates x (g a) s k') : Simulates x (y >>= g) s k :=
  hnext.mono (fun _ _ ⟨k'', h, hrep⟩ => ⟨k'', (run_bind_ok hrun g).trans h, hrep⟩)
    fun _ _ ⟨k'', h⟩ => ⟨k'', (run_bind_ok hrun g).trans h⟩

theorem Simulates.pure {α : Type} {s : Memory} {k : Kernel} (hrep : Rep 0 s k) (a : α) :
    Simulates (Pure.pure a) (Pure.pure a) s k :=
  Wp.pure ⟨k, rfl, hrep⟩

theorem Simulates.of_ok {α : Type} {x : M α} {y : K α} {s : Memory} {k k' : Kernel} {a : α}
    (hsim : Simulates x y s k) (hrun : y k = .ok a k') : ∃ t, x s = .ok a t ∧ Rep 0 t k' := by
  cases hx : x s with
  | ok b t =>
      obtain ⟨k'', hrun', hrep⟩ := hsim.ok hx
      rw [hrun] at hrun'
      cases hrun'
      exact ⟨t, rfl, hrep⟩
  | error e t =>
      obtain ⟨k'', hrun'⟩ := hsim.error hx
      rw [hrun] at hrun'
      cases hrun'

section Functions

variable {s t : Memory} {k : Kernel} {i b : Nat}

theorem Rep.endAddr (hrep : Rep 0 s k) : s.endAddr = k.kmem.endAddr := by
  rw [hrep.arrays]
  rfl

theorem kfree_simulates (hrep : Rep 0 s k) (hi : i < npages) (hend : k.kmem.endAddr ≤ pageStart)
    (hlow : -0x8000 < k.kmem.hugepagelist (i / 512)) (hhigh : k.kmem.hugepagelist (i / 512) ≤ 0x8000) :
    Simulates (kfree (pageindexToPa i)) (Xv6Mmap.kfree (pageindexToPa i)) s k := by
  have hblock : i / 512 < nblocks := by
    unfold npages at hi
    unfold nblocks
    omega
  have hresult := kfree_eq (s := k) hi hend
  unfold Simulates kfree
  refine .get ?_
  rw [hrep.endAddr, getPageI_pageindexToPa hi, getHugepageI_pageindexToPa hi]
  refine .ite (fun h => absurd h (pageindexToPa_managed hi hend)) fun _ => ?_
  obtain ⟨t, hacquire, hheld⟩ := hrep.acquire_eq
  refine .bind (.of_ok hacquire (.bind (.of_ok (hheld.load_pagelist hi) (.ite (fun hfree => ?_)
    fun hused => ?_))))
  · obtain ⟨u, hrelease, -⟩ := hheld.release_eq
    rw [if_pos hfree] at hresult
    exact .bind (.of_ok hrelease (.bind (.of_error rfl ⟨k, hresult⟩)))
  rw [if_neg hused] at hresult
  refine .bind (.of_ok (hheld.load_paReferenced hi) (.when
    (fun u => Rep 1 u { k with kmem := k.kmem.setPageRef i (k.kmem.paReferenced i - 1) })
    (fun hpos => ?_) (fun hzero => ?_) fun u hheld' => ?_))
  · obtain ⟨u, hdecr, hheld'⟩ := hheld.decr_paReferenced hi hpos
    exact .of_ok hdecr hheld'
  · have hsame : k.kmem.setPageRef i (k.kmem.paReferenced i - 1) = k.kmem := by
      rw [Kmem.setPageRef, upd_eq_self _ _ (by omega)]
    rwa [hsame]
  have href : (k.kmem.setPageRef i (k.kmem.paReferenced i - 1)).paReferenced i =
    k.kmem.paReferenced i - 1 := upd_self ..
  refine .bind (.of_ok (hheld'.load_paReferenced hi) (.ite (fun hzero => ?_) fun hpos => ?_))
  · rw [href] at hzero
    obtain ⟨u₁, hzeroed, hheld₁⟩ := hheld'.zeroPages_eq (inRam_pageindexToPa hi) 1
    obtain ⟨u₂, hmarked, hheld₂⟩ := hheld₁.store_pagelist hi 1
    obtain ⟨u₃, hcounted, hheld₃⟩ := hheld₂.addShort_hugepagelist hblock (d := -1)
      (show -0x8000 ≤ k.kmem.hugepagelist (i / 512) + -1 by omega)
      (show k.kmem.hugepagelist (i / 512) + -1 < 0x8000 by omega)
    obtain ⟨u₄, hrelease, hrep'⟩ := (hheld₃.recount (· + 1) (· - 1) id).release_eq
    rw [if_pos (by omega)] at hresult
    refine .bind (.of_ok hzeroed ?_)
    refine .bind (.of_ok hmarked ?_)
    refine .bind (.of_ok hcounted ?_)
    refine .bind (.of_ok rfl (.of_ok hrelease ⟨_, hresult, ?_⟩))
    rw [hzero] at hrep'
    exact hrep'
  · rw [href] at hpos
    obtain ⟨u₁, hrelease, hrep'⟩ := hheld'.release_eq
    rw [if_neg (by omega)] at hresult
    exact .of_ok hrelease ⟨_, hresult, hrep'⟩

theorem kfreeHuge_simulates (hrep : Rep 0 s k) (hb : b < nblocks) (hend : k.kmem.endAddr ≤ pageStart) :
    Simulates (kfreeHuge (blockAddr b)) (Xv6Mmap.kfreeHuge (blockAddr b)) s k := by
  have hram : inRam (blockAddr b) = true := by
    rw [blockAddr_eq]
    apply inRam_pageindexToPa
    unfold nblocks at hb
    unfold npages
    omega
  have hresult := kfreeHuge_eq (s := k) hb hend
  unfold Simulates kfreeHuge
  refine .get ?_
  rw [hrep.endAddr, getHugepageI_blockAddr hb]
  refine .ite (fun h => absurd h (blockAddr_managed hb hend)) fun _ => ?_
  obtain ⟨t, hacquire, hheld⟩ := hrep.acquire_eq
  obtain ⟨n, hload, hn⟩ := hheld.load_hugepagelist hb
  refine .bind (.of_ok hacquire (.bind (.of_ok hload ?_)))
  rw [hn]
  refine .ite (fun hne => ?_) fun hwhole => ?_
  · rw [if_pos hne] at hresult
    exact .bind (.of_error rfl ⟨k, hresult⟩)
  rw [if_neg hwhole] at hresult
  refine .bind (.of_ok (hheld.load_hugePaReferenced hb) (.when
    (fun u => Rep 1 u { k with kmem := k.kmem.setBlockRef b (k.kmem.hugePaReferenced b - 1) })
    (fun hpos => ?_) (fun hzero => ?_) fun u hheld' => ?_))
  · obtain ⟨u, hdecr, hheld'⟩ := hheld.decr_hugePaReferenced hb hpos
    exact .of_ok hdecr hheld'
  · have hsame : k.kmem.setBlockRef b (k.kmem.hugePaReferenced b - 1) = k.kmem := by
      rw [Kmem.setBlockRef, upd_eq_self _ _ (by omega)]
    rwa [hsame]
  have href : (k.kmem.setBlockRef b (k.kmem.hugePaReferenced b - 1)).hugePaReferenced b =
    k.kmem.hugePaReferenced b - 1 := upd_self ..
  refine .bind (.of_ok (hheld'.load_hugePaReferenced hb) (.ite (fun hzero => ?_) fun hpos => ?_))
  · rw [href] at hzero
    obtain ⟨u₁, hzeroed, hheld₁⟩ := hheld'.zeroPages_eq hram 512
    obtain ⟨u₂, hmarked, hheld₂⟩ := hheld₁.store_hugepagelist hb (x := 0) (by decide) (by decide)
    obtain ⟨u₃, hrelease, hrep'⟩ := (hheld₂.recount (· + 512) id (· - 1)).release_eq
    rw [if_pos (by omega)] at hresult
    refine .bind (.of_ok hzeroed ?_)
    refine .bind (.of_ok hmarked ?_)
    refine .bind (.of_ok rfl (.of_ok hrelease ⟨_, hresult, ?_⟩))
    rw [hzero] at hrep'
    exact hrep'
  · rw [href] at hpos
    obtain ⟨u₁, hrelease, hrep'⟩ := hheld'.release_eq
    rw [if_neg (by omega)] at hresult
    exact .of_ok hrelease ⟨_, hresult, hrep'⟩

theorem kalloc_simulates_none (hrep : Rep 0 s k) (hblock : kallocBlock k.kmem = none) :
    Simulates kalloc Xv6Mmap.kalloc s k := by
  obtain ⟨t, hacquire, hheld⟩ := hrep.acquire_eq
  obtain ⟨u, hrelease, hrep'⟩ := hheld.release_eq
  unfold Simulates kalloc
  refine .bind (.of_ok hacquire (.get ?_))
  rw [← hheld.arrays, hblock]
  refine .bind (.of_ok hrelease (.pure ⟨_, kalloc_eq_of_none hblock, ?_⟩))
  exact ⟨hrep'.locked, hrep'.owner, hrep'.cpu, hrep'.arrays, hrep'.mem⟩

theorem kalloc_simulates (hrep : Rep 0 s k) (hinv : k.kmem.Inv) :
    Simulates kalloc Xv6Mmap.kalloc s k := by
  cases hblock : kallocBlock k.kmem with
  | none => exact kalloc_simulates_none hrep hblock
  | some b =>
      obtain ⟨hb, hwhole, hroom⟩ := kallocBlock_some hinv hblock
      have hpage := kallocPage_free hinv hblock
      have hresult := kalloc_eq_of_some hinv hblock
      have hcount : 0 ≤ k.kmem.hugepagelist b ∧ k.kmem.hugepagelist b < 512 := by
        rw [(hinv.split_of_ne hb hwhole).1]
        omega
      obtain ⟨t, hacquire, hheld⟩ := hrep.acquire_eq
      unfold Simulates kalloc
      refine .bind (.of_ok hacquire (.get ?_))
      rw [← hheld.arrays, hblock]
      dsimp only
      generalize kallocPage k.kmem b = i at hpage hresult ⊢
      obtain ⟨rfl, hi, hfree⟩ := hpage
      have hzero : k.kmem.paReferenced i = 0 := by
        have hiff := hinv.page _ hi
        omega
      obtain ⟨u₁, hincr, hheld₁⟩ := hheld.incr_paReferenced hi
      rw [hzero] at hheld₁
      obtain ⟨u₂, hzeroed, hheld₂⟩ := hheld₁.zeroPages_eq (inRam_pageindexToPa hi) 1
      obtain ⟨u₃, hmarked, hheld₃⟩ := hheld₂.store_pagelist hi 0
      obtain ⟨u₄, hcounted, hheld₄⟩ := hheld₃.addShort_hugepagelist hb (d := 1)
        (show -0x8000 ≤ k.kmem.hugepagelist (i / 512) + 1 by omega)
        (show k.kmem.hugepagelist (i / 512) + 1 < 0x8000 by omega)
      obtain ⟨u₅, hrelease, hrep'⟩ := (hheld₄.recount (· - 1) (· + 1) id).release_eq
      have href : (k.kmem.setPageRef i 1).paReferenced i = 1 := upd_self ..
      refine .bind (.of_ok hincr ?_)
      refine .bind (.of_ok (hheld₁.load_paReferenced hi) (.ite (fun _ => ?_) fun h => absurd href h))
      refine .bind (.of_ok hzeroed ?_)
      refine .bind (.of_ok hmarked ?_)
      refine .bind (.of_ok hcounted ?_)
      refine .bind (.of_ok rfl ?_)
      exact .bind (.of_ok hrelease (.pure ⟨_, hresult, hrep'⟩))

theorem kallocHuge_simulates (hrep : Rep 0 s k) : Simulates kallocHuge Xv6Mmap.kallocHuge s k := by
  obtain ⟨t, hacquire, hheld⟩ := hrep.acquire_eq
  unfold Simulates kallocHuge
  refine .bind (.of_ok hacquire (.get ?_))
  rw [← hheld.arrays]
  cases hfind : (List.range nblocks).find? fun i => k.kmem.hugepagelist i = 0 with
  | none =>
      obtain ⟨u, hrelease, hrep'⟩ := hheld.release_eq
      have hresult : Xv6Mmap.kallocHuge k = .ok 0 { k with failedAllocs := k.failedAllocs + 1 } := by
        unfold Xv6Mmap.kallocHuge
        rw [run_get_bind, hfind]
        rfl
      refine .bind (.of_ok hrelease (.pure ⟨_, hresult, ?_⟩))
      exact ⟨hrep'.locked, hrep'.owner, hrep'.cpu, hrep'.arrays, hrep'.mem⟩
  | some b =>
      obtain ⟨hb, -⟩ := List.find?_range_some hfind
      have hram : inRam (pageStart + hugepgsize * b) = true := by
        rw [← blockAddr, blockAddr_eq]
        apply inRam_pageindexToPa
        unfold nblocks at hb
        unfold npages
        omega
      obtain ⟨u₁, hmarked, hheld₁⟩ := hheld.store_hugepagelist hb (x := -1) (by decide) (by decide)
      obtain ⟨u₂, hincr, hheld₂⟩ := hheld₁.incr_hugePaReferenced hb
      obtain ⟨u₃, hzeroed, hheld₃⟩ := hheld₂.zeroPages_eq hram 512
      obtain ⟨u₄, hrelease, hrep'⟩ := (hheld₃.recount (· - 512) id (· + 1)).release_eq
      refine .bind (.of_ok hmarked ?_)
      refine .bind (.of_ok hincr ?_)
      refine .bind (.of_ok hzeroed ?_)
      refine .bind (.of_ok rfl ?_)
      refine .bind (.of_ok hrelease (.pure ⟨_, ?_, hrep'⟩))
      unfold Xv6Mmap.kallocHuge
      rw [run_get_bind, hfind]
      simp only [run_modifyKmem_bind, run_zeroPages_bind hram, run_pure]
      rfl

theorem incrPaRef_simulates (hrep : Rep 0 s k) (hi : i < npages) (hend : k.kmem.endAddr ≤ pageStart) :
    Simulates (incrPaRef (pageindexToPa i)) (Xv6Mmap.incrPaRef (pageindexToPa i)) s k := by
  obtain ⟨t, hacquire, hheld⟩ := hrep.acquire_eq
  obtain ⟨u, hincr, hheld'⟩ := hheld.incr_paReferenced hi
  obtain ⟨v, hrelease, hrep'⟩ := hheld'.release_eq
  unfold Simulates incrPaRef
  refine .get ?_
  rw [hrep.endAddr, getPageI_pageindexToPa hi]
  refine .ite (fun h => absurd h (pageindexToPa_managed hi hend)) fun _ => ?_
  exact .bind (.of_ok hacquire (.bind (.of_ok hincr (.of_ok hrelease ⟨_, incrPaRef_eq hi hend, hrep'⟩))))

theorem incrHugePaRef_simulates (hrep : Rep 0 s k) (hb : b < nblocks)
    (hend : k.kmem.endAddr ≤ pageStart) :
    Simulates (incrHugePaRef (blockAddr b)) (Xv6Mmap.incrHugePaRef (blockAddr b)) s k := by
  obtain ⟨t, hacquire, hheld⟩ := hrep.acquire_eq
  obtain ⟨u, hincr, hheld'⟩ := hheld.incr_hugePaReferenced hb
  obtain ⟨v, hrelease, hrep'⟩ := hheld'.release_eq
  unfold Simulates incrHugePaRef
  refine .get ?_
  rw [hrep.endAddr, getHugepageI_blockAddr hb]
  refine .ite (fun h => absurd h (blockAddr_managed hb hend)) fun _ => ?_
  exact .bind (.of_ok hacquire (.bind (.of_ok hincr (.of_ok hrelease
    ⟨_, incrHugePaRef_eq hb hend, hrep'⟩))))

end Functions

end Xv6Mmap.Raw
