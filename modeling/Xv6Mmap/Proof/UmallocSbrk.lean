import Xv6Mmap.Proof.Frame
import Xv6Mmap.Proof.Sbrk
import Xv6Mmap.Proof.Umalloc

/-!
# The allocator on the kernel's `sbrk`

`malloc` rounds its argument to units in 64 bits, and `sbrk` takes an `int`. From `2 ^ 31` bytes on the
number that arrives in `growproc` is another one, mostly negative.
-/

namespace Xv6Mmap.Umalloc

open Sequential Cyclic Tiling

/-! ### What `growproc` does to the break -/

section Growproc

variable {s : Kernel} {p : Nat} {n : Int}

theorem uvmallocFrom_value (pagetable oldsz newsz perm n a : Nat) (s : Kernel) :
    Wp (uvmallocFrom pagetable oldsz newsz perm n a) (fun res _ => res = 0 ∨ res = newsz)
      (fun _ _ => True) s := by
  induction n generalizing a s with
  | zero => exact .pure (Or.inr rfl)
  | succ n ih =>
      refine .bind ((Wp.any _ s).imp fun mem s₁ _ => .ite (fun _ => ?_) fun _ => ?_)
      · exact .bind ((Wp.any _ s₁).imp fun _ _ _ => .pure (Or.inl rfl))
      · refine .bind ((Wp.any _ s₁).imp fun _ s₂ _ => .bind ((Wp.any _ s₂).imp fun r s₃ _ => ?_))
        refine .ite (fun _ => .bind ((Wp.any _ s₃).imp fun _ s₄ _ => ?_)) fun _ => ih _ s₃
        exact .bind ((Wp.any _ s₄).imp fun _ _ _ => .pure (Or.inl rfl))

theorem uvmdealloc_value (pagetable oldsz newsz : Nat) (s : Kernel) :
    Wp (uvmdealloc pagetable oldsz newsz) (fun res _ => res ≤ oldsz) (fun _ _ => True) s := by
  unfold uvmdealloc
  refine .ite (fun _ => .pure le_rfl) fun hlt => ?_
  have hrest : ∀ t, Wp (pure newsz : K Nat) (fun res _ => res ≤ oldsz) (fun _ _ => True) t := fun t =>
    .pure (not_le.mp hlt).le
  exact .ite (fun _ => .bind ((Wp.any _ s).imp fun _ t _ => hrest t)) fun _ => hrest s

theorem growproc_grows (hn : 0 < n) (hsz : (s.proc p).sz + n < 0x10000000000000000) :
    Wp (growproc p n) (fun res t => (res = -1 ∧ (t.proc p).sz = (s.proc p).sz) ∨
      (res = 0 ∧ ((t.proc p).sz : Int) = (s.proc p).sz + n)) (fun _ _ => True) s := by
  have hadd : (addInt (s.proc p).sz n : Int) = (s.proc p).sz + n := by
    unfold addInt
    omega
  have hnot : ¬ addInt (s.proc p).sz n < (s.proc p).sz := by omega
  unfold growproc
  refine .bind (.of_ok rfl ?_)
  dsimp only
  rw [if_pos hn]
  have hvalue : Wp (uvmalloc (s.proc p).pagetable (s.proc p).sz (addInt (s.proc p).sz n) pteW)
      (fun res _ => res = 0 ∨ res = addInt (s.proc p).sz n) (fun _ _ => True) s := by
    unfold uvmalloc
    rw [if_neg hnot]
    exact uvmallocFrom_value ..
  refine .bind ((hvalue.and (uvmalloc_keeps _ _ _ _ s)).mono (fun res t ht => ?_) fun _ _ _ => trivial)
  obtain ⟨hres, hproc⟩ := ht
  refine .ite (fun hzero => .pure (Or.inl ⟨rfl, by rw [hproc]⟩)) fun hne => ?_
  refine .bind (.of_ok rfl (.pure (Or.inr ⟨rfl, ?_⟩)))
  rw [hres.resolve_left hne]
  simpa using hadd

theorem growproc_shrinks (hn : n ≤ 0) :
    Wp (growproc p n) (fun res t => res = 0 ∧ (t.proc p).sz ≤ (s.proc p).sz) (fun _ _ => True) s := by
  unfold growproc
  refine .bind (.of_ok rfl ?_)
  dsimp only
  rw [if_neg (by omega)]
  refine .ite (fun _ => ?_) fun _ => ?_
  · refine .bind ((uvmdealloc_value _ _ _ s).imp fun res t hres => .bind (.of_ok rfl (.pure ⟨rfl, ?_⟩)))
    simpa using hres
  · refine .bind (.of_ok rfl (.pure ⟨rfl, ?_⟩))
    simp

end Growproc

/-! ### `malloc` in a process -/

def brk (p : Nat) (u : User Kernel) : Nat := (u.kernel.proc p).sz

/-- A process `p` with a heap: the areas of the heap lie one above the other below the break, which is
not larger than memory can be, and the kernel does not panic when the process asks for more. -/
structure Placed (p base : Nat) (u : User Kernel) : Prop where
  base_pos : 0 < base
  base_le : base + headerSize ≤ brk p u
  small : brk p u < 0x800000000
  heap : ∃ A live, Ready base A live u ∧ (A.Pairwise fun r q => r.1 + r.2 ≤ q.1) ∧
    ∀ r ∈ A, r.1 + r.2 ≤ brk p u
  calm : ∀ n : Int, -0x80000000 ≤ n → n < 0x80000000 → ∃ res t, growproc p n u.kernel = .ok res t

/-- `malloc` returns null or a block with `nbytes` bytes below the break, and does not lower the
break. -/
def Fits (p base nbytes : Nat) (u : User Kernel) : Prop :=
  ∃ N, ∀ fuel ≥ N, Wp (malloc (sysSbrk p) base fuel nbytes) (fun res t => brk p u ≤ brk p t ∧
    (res = 0 ∨ (nbytes + headerSize ≤ len t.mem (res - headerSize) ∧ res + nbytes ≤ brk p t)))
    (fun _ _ => False) u

section Fits

variable {p base nbytes r : Nat} {u : User Kernel} {T : Radix.Shape}

theorem size_lt (hs : Process u.kernel p r T) : brk p u < 0x800000000 := by
  have hpages := hs.space.backed.le
  have hsize := hs.size
  rw [maxva] at hsize
  rw [pagesFor_eq (by omega), npages] at hpages
  rw [brk]
  omega

theorem calm_of_process (hs : Process u.kernel p r T) (n : Int) (hmin : -0x80000000 ≤ n)
    (hmax : n < 0x80000000) : ∃ res t, growproc p n u.kernel = .ok res t := by
  obtain ⟨res, t, hrun, -⟩ := (growproc_spec hs hmin hmax).returns
  exact ⟨res, t, hrun⟩

theorem Placed.grants {A : List (Nat × Nat)} {n : Nat} (h : Placed p base u)
    (hbelow : ∀ r ∈ A, r.1 + r.2 ≤ brk p u) (hpos : 0 < n) (hn : n < 0x8000000) :
    Grants (sysSbrk p) (fun k => brk p u ≤ (k.proc p).sz)
      (fun k A => brk p u ≤ (k.proc p).sz ∧ ∀ r ∈ A, r.1 + r.2 ≤ (k.proc p).sz) base
      (int32 (n * headerSize)) (headerSize * n) u.kernel A := by
  have hsmall := h.small
  have hk : int32 (n * headerSize) = ((headerSize * n : Nat) : Int) := by
    unfold int32 headerSize
    omega
  rw [hk]
  obtain ⟨res, t, hrun⟩ := h.calm ((headerSize * n : Nat) : Int) (by omega)
    (by unfold headerSize; omega)
  have hgrow := (growproc_grows (s := u.kernel) (p := p) (n := ((headerSize * n : Nat) : Int))
    (by unfold headerSize; omega) (by rw [brk] at hsmall; unfold headerSize; omega)).ok hrun
  refine .bind (.of_ok rfl (.bind (.of_ok hrun ?_)))
  rcases hgrow with ⟨rfl, hsz⟩ | ⟨rfl, hsz⟩
  · exact .pure (Or.inl ⟨rfl, hsz.ge⟩)
  · have hsz' : (t.proc p).sz = brk p u + headerSize * n := by
      rw [brk]
      omega
    refine .pure (Or.inr ⟨?_, h.base_le, hbelow, ?_, fun r hr => ?_⟩)
    · rw [brk] at hsmall
      unfold minusOne
      omega
    · omega
    · rcases List.mem_append.mp hr with hr | hr
      · have hle := hbelow r hr
        omega
      · obtain rfl := List.mem_singleton.mp hr
        exact hsz'.ge

theorem Placed.fits (h : Placed p base u) (hn : nbytes ≤ 0x7fffffe0) : Fits p base nbytes u := by
  obtain ⟨A, live, hready, hsorted, hbelow⟩ := h.heap
  have hunits : nunits nbytes = (nbytes + 15) / 16 + 1 := nunits_eq (by omega)
  have hsmall := h.small
  have htotal : 0 + total A ≤ brk p u := total_le hsorted (Nat.zero_le _) (fun r _ => Nat.zero_le _) hbelow
  obtain ⟨N, hserve⟩ := hready.serve h.base_pos ⟨le_rfl, hbelow⟩
    (h.grants (n := max 4096 (nunits nbytes)) hbelow (by omega) (by omega)) (by omega)
    (by unfold headerSize; omega)
  refine ⟨N, fun fuel hfuel => (hserve fuel hfuel).imp fun res t ht => ?_⟩
  rcases ht.outcome with ⟨rfl, hle, -⟩ | ⟨A', nodes, x, ⟨hle, hbelow'⟩, -, rfl, hx, hheap, hsize⟩
  · exact ⟨hle, Or.inl rfl⟩
  · refine ⟨hle, Or.inr ?_⟩
    have hlen : len t.mem x = headerSize * nunits nbytes := by rw [len, hsize]
    rw [Nat.add_sub_cancel, hlen, hunits]
    have hblock : x ∈ nodes.erase base ∪ insert x live :=
      Finset.mem_union_right _ (Finset.mem_insert_self x live)
    have hlast : x + len t.mem x - 1 ∈ covered A' := by
      refine (hheap.blocks.tiles.cover _).mpr ⟨x, hblock, ?_, ?_⟩ <;>
      · rw [hlen, hunits, headerSize]
        omega
    obtain ⟨r, hr, -, hlt⟩ := hlast
    have hend := hbelow' r hr
    rw [hlen, hunits, headerSize] at hlt
    rw [brk, headerSize]
    omega

end Fits

/-! ### Requests from `2 ^ 31` bytes on -/

theorem exists_process : ∃ s T, Process s 0 0x80200 T ∧ (s.proc 0).sz = 8192 ∧
    ∃ t, growproc 0 16 s = .ok 0 t := by
  have hvalue : (match growproc 0 8192 freshProcess with
    | .ok res s => (res, match growproc 0 16 s with
      | .ok res' _ => res'
      | .error _ _ => 1)
    | .error _ _ => (1, 1)) = ((0, 0) : Int × Int) := by decide +kernel
  obtain ⟨res, s, hrun, T, hs, -⟩ := (growproc_spec freshProcess_process (n := 8192) (by decide)
    (by decide)).returns
  rw [hrun, Prod.mk.injEq] at hvalue
  obtain ⟨rfl, hvalue⟩ := hvalue
  refine ⟨s, T, hs, ?_, ?_⟩
  · have hgrow := (growproc_grows (s := freshProcess) (p := 0) (n := 8192) (by decide) (by decide)).ok hrun
    have hzero : (freshProcess.proc 0).sz = 0 := rfl
    rcases hgrow with ⟨hres, -⟩ | ⟨-, hsz⟩
    · cases hres
    · omega
  · cases hmore : growproc 0 16 s with
    | error e t =>
        rw [hmore] at hvalue
        cases hvalue
    | ok res t =>
        rw [hmore] at hvalue
        obtain rfl : res = 0 := hvalue
        exact ⟨t, rfl⟩

def newUser (s : Kernel) : User Kernel := { mem := fun _ => ⟨0, 0⟩, freep := 0, kernel := s }

section Undersized

variable {s : Kernel} {T : Radix.Shape} {nbytes : Nat}

theorem newUser_placed (hs : Process s 0 0x80200 T) (hsz : (s.proc 0).sz = 8192) :
    Placed 0 0x1000 (newUser s) := by
  have hs' : Process (newUser s).kernel 0 0x80200 T := hs
  have hbrk : brk 0 (newUser s) = 8192 := hsz
  refine ⟨by decide, ?_, size_lt hs', ⟨[], ∅, Or.inl ⟨rfl, rfl, rfl⟩, .nil, fun r hr => by cases hr⟩,
    calm_of_process hs'⟩
  rw [hbrk]
  decide

/-- The number that arrives is at most 16, so the break stays below the new block. -/
theorem newUser_grants (hs : Process s 0 0x80200 T) (hsz : (s.proc 0).sz = 8192)
    (hmore : ∃ t, growproc 0 16 s = .ok 0 t) {n : Nat} (hmin : 0x8000000 ≤ n) (hmax : n ≤ 0x10000001) :
    Grants (sysSbrk 0) (fun _ => False)
      (fun k A => (k.proc 0).sz ≤ 8208 ∧ ∀ r ∈ A, 8192 ≤ r.1) 0x1000 (int32 (n * headerSize))
      (headerSize * n) s [] := by
  have hk : -0x80000000 ≤ int32 (n * headerSize) ∧ int32 (n * headerSize) ≤ 16 := by
    unfold int32 headerSize
    omega
  obtain ⟨res, t, hrun, -⟩ := (growproc_spec hs hk.1 (by omega)).returns
  have hgrow : res = 0 ∧ (t.proc 0).sz ≤ 8208 := by
    by_cases hpos : 0 < int32 (n * headerSize)
    · have hk16 : int32 (n * headerSize) = 16 := by
        unfold int32 headerSize at hpos ⊢
        omega
      obtain ⟨t', hmore⟩ := hmore
      rw [hk16, hmore] at hrun
      obtain ⟨rfl, rfl⟩ := hrun
      have hgrow := (growproc_grows (s := s) (p := 0) (n := 16) (by decide) (by omega)).ok hmore
      exact ⟨rfl, by omega⟩
    · obtain ⟨hres, hle⟩ := (growproc_shrinks (s := s) (p := 0) (not_lt.mp hpos)).ok hrun
      exact ⟨hres, by omega⟩
  obtain ⟨rfl, hle⟩ := hgrow
  refine .bind (.of_ok rfl (.bind (.of_ok hrun (.pure (Or.inr ⟨?_, ?_, fun r hr => (by cases hr), hle, ?_⟩)))))
  · rw [hsz]
    decide
  · rw [hsz]
    decide
  · intro r hr
    obtain rfl := List.mem_singleton.mp hr
    exact hsz.ge

theorem newUser_undersized (hs : Process s 0 0x80200 T) (hsz : (s.proc 0).sz = 8192)
    (hmore : ∃ t, growproc 0 16 s = .ok 0 t) (hmin : 0x7fffffe0 < nbytes) (hmax : nbytes < 0x100000000) :
    ¬ Fits 0 0x1000 nbytes (newUser s) := by
  rintro ⟨N, hfits⟩
  have hunits : nunits nbytes = (nbytes + 15) / 16 + 1 := nunits_eq hmax
  have hmax' : max 4096 (nunits nbytes) = nunits nbytes := by omega
  have hready : Ready 0x1000 [] ∅ (newUser s) := Or.inl ⟨rfl, rfl, rfl⟩
  have hgrants := newUser_grants hs hsz hmore (n := max 4096 (nunits nbytes)) (by omega) (by omega)
  have hG : (s.proc 0).sz ≤ 8208 ∧ ∀ r ∈ ([] : List (Nat × Nat)), 8192 ≤ r.1 :=
    ⟨by omega, fun r hr => by cases hr⟩
  obtain ⟨M, hserve⟩ := hready.serve (by decide) hG hgrants (by omega)
    (by rw [total, List.map_nil, List.sum_nil]; unfold headerSize; omega)
  have hboth := (hfits _ (le_max_left N M)).and (hserve _ (le_max_right N M))
  obtain ⟨res, t, -, ⟨-, hres⟩, hserved⟩ := (hboth.mono (fun _ _ h => h) fun _ _ h => h.1).returns
  rcases hserved.outcome with ⟨-, hfalse, -⟩ | ⟨A, nodes, x, ⟨hle, hstart⟩, -, rfl, hx, hheap, hsize⟩
  · exact hfalse
  · have hlow : 8192 ≤ x := by
      have hblock : x ∈ nodes.erase 0x1000 ∪ insert x ∅ :=
        Finset.mem_union_right _ (Finset.mem_insert_self x ∅)
      obtain ⟨r, hr, hle, -⟩ := (hheap.blocks.tiles.cover x).mpr ⟨x, hblock, le_rfl,
        Nat.lt_add_of_pos_right (hheap.blocks.tiles.pos x hblock)⟩
      exact (hstart r hr).trans hle
    rw [brk, headerSize] at hres
    omega

end Undersized

/-- `malloc` is right in every process exactly for the requests whose units fit into an `int`. -/
theorem malloc_fits (nbytes : Nat) (hn : nbytes < 0x100000000) :
    (∀ p base u, Placed p base u → Fits p base nbytes u) ↔ nbytes ≤ 0x7fffffe0 := by
  constructor
  · intro h
    by_contra hlarge
    obtain ⟨s, T, hs, hsz, hmore⟩ := exists_process
    exact newUser_undersized hs hsz hmore (not_le.mp hlarge) hn (h _ _ _ (newUser_placed hs hsz))
  · exact fun hle p base u h => h.fits hle

theorem malloc_fits_page : 4096 ≤ 0x7fffffe0 ∧ ∀ p base u, Placed p base u → Fits p base 4096 u :=
  ⟨by decide, (malloc_fits 4096 (by decide)).mpr (by decide)⟩

/-- The largest request is answered with 16 bytes. -/
theorem malloc_undersized : ∃ u, brk 0 u = 8192 ∧ Placed 0 0x1000 u ∧ ¬ Fits 0 0x1000 0xffffffff u := by
  obtain ⟨s, T, hs, hsz, hmore⟩ := exists_process
  exact ⟨newUser s, hsz, newUser_placed hs hsz, newUser_undersized hs hsz hmore (by decide) (by decide)⟩

end Xv6Mmap.Umalloc
