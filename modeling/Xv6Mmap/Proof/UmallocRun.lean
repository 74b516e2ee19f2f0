import Xv6Mmap.Proof.Umalloc

/-!
# Programs that use the heap

What every sequence of calls of `malloc` and `free` keeps, whatever `sbrk` does within its contract.
-/

namespace Xv6Mmap.Umalloc

open Sequential Cyclic Tiling

/-! ### Bounds on the rounds -/

section Rounds

variable {ε κ : Type} {sbrk : Int → EStateM ε κ Nat} {base : Nat}

theorem freeFrom_approx (bp fuel p : Nat) :
    Approx .loops (freeFrom bp fuel p : M ε κ Nat) (freeFrom bp (fuel + 1) p) := by
  induction fuel generalizing p with
  | zero => exact .throw _ _
  | succ fuel ih => exact .bind (.refl _ _) fun h => .ite (.refl _ _) (.ite (.refl _ _) (ih h.ptr))

theorem free_approx (fuel ap : Nat) :
    Approx .loops (free fuel ap : M ε κ Unit) (free (fuel + 1) ap) :=
  .bind (.refl _ _) fun _ => .bind (freeFrom_approx _ _ _) fun _ => .refl _ _

theorem morecore_approx (fuel nu : Nat) :
    Approx .loops (morecore sbrk fuel nu) (morecore sbrk (fuel + 1) nu) := by
  refine .bind (.refl _ _) fun p => .ite (.refl _ _) (.bind (.refl _ _) fun _ => ?_)
  exact .bind (free_approx _ _) fun _ => .refl _ _

theorem mallocFrom_approx (n fuel prevp p : Nat) :
    Approx .loops (mallocFrom sbrk n fuel prevp p) (mallocFrom sbrk n (fuel + 1) prevp p) := by
  induction fuel generalizing prevp p with
  | zero => exact .throw _ _
  | succ fuel ih =>
      refine .bind (.refl _ _) fun h => .ite (.refl _ _) (.bind (.refl _ _) fun u => .ite ?_ ?_)
      · refine .bind (morecore_approx _ _) fun p => .ite (.refl _ _) (.bind (.refl _ _) fun h => ?_)
        exact ih p h.ptr
      · exact .bind (.refl _ _) fun h => ih p h.ptr

theorem malloc_approx (fuel nbytes : Nat) :
    Approx .loops (malloc sbrk base fuel nbytes) (malloc sbrk base (fuel + 1) nbytes) := by
  have hrest : Approx .loops
      (do
        let prevp := (← get).freep
        mallocFrom sbrk (nunits nbytes) fuel prevp (← load prevp).ptr)
      (do
        let prevp := (← get).freep
        mallocFrom sbrk (nunits nbytes) (fuel + 1) prevp (← load prevp).ptr) :=
    .bind (.refl _ _) fun _ => .bind (.refl _ _) fun _ => mallocFrom_approx _ _ _ _
  refine .bind (.refl _ _) fun u => .ite ?_ hrest
  exact .bind (.refl _ _) fun _ => .bind (.refl _ _) fun _ => .bind (.refl _ _) fun _ => hrest

theorem call_malloc {s : Program κ} {u : User κ} {fuel nbytes p : Nat}
    (hrun : malloc sbrk base fuel nbytes s.user = .ok p u) :
    call sbrk base fuel s (.malloc nbytes) =
      some ⟨u, if p = 0 then s.live else s.live ++ [(p, nbytes)]⟩ := by
  unfold call
  dsimp only
  rw [hrun]

theorem call_free {s : Program κ} {u : User κ} {fuel ap : Nat}
    (hrun : (free fuel ap : M ε κ Unit) s.user = .ok () u) :
    call sbrk base fuel s (.free ap) = some ⟨u, s.live.filter fun r => r.1 ≠ ap⟩ := by
  unfold call
  dsimp only
  rw [hrun]

theorem call_mono {s t : Program κ} {c : Call} {fuel fuel' : Nat} (hle : fuel ≤ fuel')
    (hcall : call sbrk base fuel s c = some t) : call sbrk base fuel' s c = some t := by
  cases c with
  | malloc nbytes =>
      cases hrun : malloc sbrk base fuel nbytes s.user with
      | ok p u =>
          rw [call_malloc ((Approx.mono (malloc_approx · nbytes) hle).ok hrun), ← hcall, call_malloc hrun]
      | error e u =>
          unfold call at hcall
          dsimp only at hcall
          rw [hrun] at hcall
          cases hcall
  | free ap =>
      cases hrun : (free fuel ap : M ε κ Unit) s.user with
      | ok _ u =>
          rw [call_free ((Approx.mono (free_approx · ap) hle).ok hrun), ← hcall, call_free hrun]
      | error e u =>
          unfold call at hcall
          dsimp only at hcall
          rw [hrun] at hcall
          cases hcall
  | write mem => exact hcall

end Rounds

/-! ### What holds between two calls -/

section Inv

variable {ε κ : Type} {sbrk : Int → EStateM ε κ Nat} {base : Nat} {A : List (Nat × Nat)}
  {s t : Program κ}

def Program.heads (s : Program κ) : Finset Nat := (s.live.map fun r => r.1 - headerSize).toFinset

theorem Program.mem_heads {x : Nat} : x ∈ s.heads ↔ ∃ r ∈ s.live, r.1 - headerSize = x := by
  rw [heads, List.mem_toFinset, List.mem_map]

theorem Program.live_eq_nil (hheads : s.heads = ∅) : s.live = [] := by
  rw [Program.heads, List.toFinset_eq_empty_iff] at hheads
  exact List.map_eq_nil_iff.mp hheads

structure Inv (base : Nat) (A : List (Nat × Nat)) (s : Program κ) : Prop where
  ready : Ready base A s.heads s.user
  room : total A < 0x1000000000
  nodup : (s.live.map Prod.fst).Nodup
  holds : ∀ r ∈ s.live, headerSize ≤ r.1 ∧ r.2 + headerSize ≤ len s.user.mem (r.1 - headerSize)

/-- `sbrk` either fails or hands out `k` bytes above the static data and above the areas before. -/
def Contract (sbrk : Int → EStateM ε κ Nat) (areas : κ → List (Nat × Nat)) (base : Nat) : Prop :=
  ∀ k s, Wp (sbrk k) (fun p t => (p = minusOne ∧ areas t = areas s) ∨
    (p ≠ minusOne ∧ 0 ≤ k ∧ base + headerSize ≤ p ∧ (∀ r ∈ areas s, r.1 + r.2 ≤ p) ∧
      areas t = areas s ++ [(p, k.toNat)])) (fun _ _ => False) s

theorem int32_units {n : Nat} (hn : n < 0x10000000) : int32 (n * headerSize) < 0 ∨
    int32 (n * headerSize) = ((headerSize * n : Nat) : Int) := by
  unfold int32 headerSize
  omega

theorem Contract.grants {areas : κ → List (Nat × Nat)} {n : Nat} (h : Contract sbrk areas base)
    (hn : n < 0x10000000) (k : κ) : Grants sbrk (fun k' => areas k' = areas k) (fun k' A => areas k' = A)
      base (int32 (n * headerSize)) (headerSize * n) k (areas k) := by
  refine (h _ k).imp fun p t ht => ?_
  rcases ht with ht | ⟨hp, hk, hlow, habove, hareas⟩
  · exact Or.inl ht
  · rw [(int32_units hn).resolve_left (not_lt.mpr hk), Int.toNat_natCast] at hareas
    exact Or.inr ⟨hp, hlow, habove, hareas⟩

/-- The requests for which the allocator's arithmetic is right: they are below the range in which the
bytes of a request do not fit into 32 bits, and all areas together stay below `2 ^ 32` units. -/
def Moderate (areas : κ → List (Nat × Nat)) (s : Program κ) : Call → Prop
  | .malloc nbytes => nbytes ≤ 0xffffffe0 ∧
      total (areas s.user.kernel) + max 65536 (nbytes + 31) < 0x1000000000
  | .free _ => True
  | .write _ => True

variable {areas : κ → List (Nat × Nat)}

theorem Inv.malloc {nbytes : Nat} (h : Inv base (areas s.user.kernel) s) (hbase : 0 < base)
    (hsbrk : Contract sbrk areas base)
    (hmoderate : Moderate areas s (.malloc nbytes)) :
    ∃ N, ∀ fuel ≥ N, ∃ t, call sbrk base fuel s (.malloc nbytes) = some t ∧
      Inv base (areas t.user.kernel) t := by
  obtain ⟨hbytes, hroom⟩ := hmoderate
  have hunits : nunits nbytes = (nbytes + 15) / 16 + 1 := nunits_eq (by omega)
  have hroom' : total (areas s.user.kernel) + headerSize * max 4096 (nunits nbytes) <
      0x1000000000 := by
    rw [hunits, headerSize]
    omega
  obtain ⟨N, hserve⟩ := h.ready.serve hbase rfl (hsbrk.grants (by omega) _) (by omega) hroom'
  refine ⟨N, fun fuel hfuel => ?_⟩
  obtain ⟨res, u, hrun, hsame, hres⟩ := (hserve fuel hfuel).returns
  refine ⟨_, call_malloc hrun, ?_⟩
  have holds : ∀ r ∈ s.live, headerSize ≤ r.1 ∧ r.2 + headerSize ≤ len u.mem (r.1 - headerSize) := by
    intro r hr
    rw [len, hsame _ (Program.mem_heads.mpr ⟨r, hr, rfl⟩)]
    exact h.holds r hr
  rcases hres with ⟨rfl, hareas, nodes, hheap⟩ | ⟨A, nodes, x, rfl, htotal, rfl, hx, hheap, hsize⟩
  · rw [← hareas] at hheap hroom
    exact ⟨Or.inr ⟨nodes, hheap⟩, (Nat.le_add_right _ _).trans_lt hroom, h.nodup, holds⟩
  · have hne : x + headerSize ≠ 0 := by
      rw [headerSize]
      omega
    rw [if_neg hne]
    refine ⟨Or.inr ⟨nodes, ?_⟩, htotal, ?_, ?_⟩
    · have hheads : Program.heads { user := u, live := s.live ++ [(x + headerSize, nbytes)] } =
          insert x s.heads := by
        ext y
        simp [Program.heads, eq_comm]
      rw [hheads]
      exact hheap
    · rw [List.map_append, List.nodup_append]
      refine ⟨h.nodup, List.nodup_singleton _, ?_⟩
      intro a ha b hb heq
      obtain ⟨r, hr, rfl⟩ := List.mem_map.mp ha
      obtain rfl := List.mem_singleton.mp hb
      refine hx (Program.mem_heads.mpr ⟨r, hr, ?_⟩)
      rw [heq, Nat.add_sub_cancel]
    · intro r hr
      rcases List.mem_append.mp hr with hr | hr
      · exact holds r hr
      · obtain rfl := List.mem_singleton.mp hr
        refine ⟨Nat.le_add_left _ _, ?_⟩
        rw [Nat.add_sub_cancel, len, hsize, hunits, headerSize]
        omega

theorem Inv.free {ap : Nat} (h : Inv base (areas s.user.kernel) s) (hap : ap ∈ s.live.map Prod.fst) :
    ∃ N, ∀ fuel ≥ N, ∃ t, call sbrk base fuel s (.free ap) = some t ∧
      Inv base (areas t.user.kernel) t := by
  obtain ⟨r, hr, rfl⟩ := List.mem_map.mp hap
  have hlow := (h.holds r hr).1
  have hhead : r.1 - headerSize ∈ s.heads := Program.mem_heads.mpr ⟨r, hr, rfl⟩
  rcases h.ready with ⟨-, -, hlive⟩ | ⟨nodes, hheap⟩
  · rw [hlive] at hhead
    exact absurd hhead (Finset.notMem_empty _)
  · refine ⟨nodes.card, fun fuel hfuel => ?_⟩
    have hwp : Wp (Umalloc.free fuel (r.1 - headerSize + headerSize) : M ε κ Unit) _ (fun _ _ => False)
      s.user := hheap.free h.room hhead hfuel
    rw [Nat.sub_add_cancel hlow] at hwp
    obtain ⟨res, u, hrun, ⟨nodes', hheap', -, -⟩, hkernel, hsame⟩ := hwp.returns
    refine ⟨_, call_free hrun, ?_⟩
    have hheads : Program.heads { user := u, live := s.live.filter fun q => q.1 ≠ r.1 } =
        s.heads.erase (r.1 - headerSize) := by
      ext y
      rw [Program.mem_heads, Finset.mem_erase, Program.mem_heads]
      constructor
      · rintro ⟨q, hq, rfl⟩
        obtain ⟨hq, hne⟩ := List.mem_filter.mp hq
        have hlow' := (h.holds q hq).1
        refine ⟨fun heq => of_decide_eq_true hne ?_, q, hq, rfl⟩
        omega
      · rintro ⟨hne, q, hq, rfl⟩
        exact ⟨q, List.mem_filter.mpr ⟨hq, decide_eq_true fun heq => hne (by rw [heq])⟩, rfl⟩
    rw [← hheads] at hheap' hsame
    refine ⟨Or.inr ⟨nodes', ?_⟩, ?_, ?_, ?_⟩
    · rw [hkernel]
      exact hheap'
    · rw [hkernel]
      exact h.room
    · exact h.nodup.sublist (List.filter_sublist.map _)
    · intro q hq
      rw [len, hsame _ (Program.mem_heads.mpr ⟨q, hq, rfl⟩)]
      exact h.holds q (List.mem_of_mem_filter hq)

theorem Inv.guarded {nodes : Finset Nat} {x : Nat} (h : Inv base A s)
    (hheap : Heap base A nodes s.heads s.user) (hx : x ∈ nodes ∪ s.heads) : s.Guarded x := by
  intro r hr
  obtain ⟨hlow, hholds⟩ := h.holds r hr
  have hhead : r.1 - headerSize ∈ s.heads := Program.mem_heads.mpr ⟨r, hr, rfl⟩
  have hheadB : r.1 - headerSize ∈ nodes.erase base ∪ s.heads := Finset.mem_union_right _ hhead
  rcases lt_trichotomy x (r.1 - headerSize) with hlt | heq | hgt
  · have hbase := hheap.blocks.base_le hheadB
    have happart := hheap.blocks.apart hx (Finset.mem_union_right _ hhead) hlt
    by_cases hxbase : x = base
    · omega
    · have hxB : x ∈ nodes.erase base ∪ s.heads := by
        rcases Finset.mem_union.mp hx with hx | hx
        · exact Finset.mem_union_left _ (Finset.mem_erase.mpr ⟨hxbase, hx⟩)
        · exact Finset.mem_union_right _ hx
      have hpos := hheap.blocks.tiles.pos x hxB
      rw [len, headerSize] at hpos happart
      rw [headerSize] at hlow ⊢
      omega
  · omega
  · have happart := hheap.blocks.apart (Finset.mem_union_right _ hhead) hx hgt
    omega

theorem Inv.write {mem : Nat → Header} (h : Inv base A s)
    (hmem : ∀ a, s.Guarded a → mem a = s.user.mem a) :
    Inv base A { s with user := { s.user with mem := mem } } := by
  rcases h.ready with hstart | ⟨nodes, hheap⟩
  · have hnone := Program.live_eq_nil hstart.2.2
    refine ⟨Or.inl hstart, h.room, h.nodup, fun r hr => ?_⟩
    rw [hnone] at hr
    cases hr
  · have hsame : ∀ x ∈ nodes ∪ s.heads, mem x = s.user.mem x := fun x hx => hmem x (h.guarded hheap hx)
    have hlen : ∀ x ∈ nodes ∪ s.heads, len mem x = len s.user.mem x := fun x hx => by
      rw [len, len, hsame x hx]
    refine ⟨Or.inr ⟨nodes, hheap.blocks.congr hsame, fun x hx y hy hxy => ?_, hheap.freep⟩, h.room,
      h.nodup, fun r hr => ?_⟩
    · rw [hlen x (Finset.mem_union_left _ hx)]
      exact hheap.gaps x hx y hy hxy
    · have hhead : r.1 - headerSize ∈ s.heads := Program.mem_heads.mpr ⟨r, hr, rfl⟩
      rw [hlen _ (Finset.mem_union_right _ hhead)]
      exact h.holds r hr

/-- Every call that a program may make returns and keeps the heap in order. -/
theorem Inv.call {c : Call} (h : Inv base (areas s.user.kernel) s) (hbase : 0 < base)
    (hsbrk : Contract sbrk areas base) (hallowed : s.Allowed c)
    (hmoderate : Moderate areas s c) :
    ∃ N, ∀ fuel ≥ N, ∃ t, call sbrk base fuel s c = some t ∧ Inv base (areas t.user.kernel) t := by
  cases c with
  | malloc nbytes => exact h.malloc hbase hsbrk hmoderate
  | free ap => exact h.free hallowed
  | write mem => exact ⟨0, fun fuel _ => ⟨_, rfl, h.write hallowed⟩⟩

theorem Run.inv {start : Program κ} (hrun : Run sbrk base (Moderate areas) start s)
    (hstart : Inv base (areas start.user.kernel) start) (hbase : 0 < base)
    (hsbrk : Contract sbrk areas base) :
    Inv base (areas s.user.kernel) s := by
  induction hrun with
  | start => exact hstart
  | step _ hallowed hmoderate hcall ih =>
      obtain ⟨N, hN⟩ := ih.call hbase hsbrk hallowed hmoderate
      obtain ⟨t, hcall', ht⟩ := hN _ (le_max_right _ N)
      rw [call_mono (le_max_left _ N) hcall] at hcall'
      exact Option.some.inj hcall' ▸ ht

/-! ### The heap seen from outside -/

/-- The free list, whose nodes are `nodes`, and the blocks in use, over the areas `A`. -/
structure InOrder (base : Nat) (A : List (Nat × Nat)) (nodes : Finset Nat) (s : Program κ) : Prop where
  list : ∃ low high, Round nodes (fun a => (s.user.mem a).ptr) s.user.freep low high
  gaps : ∀ x ∈ nodes, ∀ y ∈ nodes, x ≠ y → x + len s.user.mem x ≠ y
  root : base ∈ nodes ∧ len s.user.mem base = 0
  separate : ∀ x ∈ nodes, x ∉ s.heads
  tiles : Tiles (nodes.erase base ∪ s.heads) (len s.user.mem) (covered A)
  holds : ∀ r ∈ s.live, headerSize ≤ r.1 ∧ r.2 + headerSize ≤ len s.user.mem (r.1 - headerSize)
  apart : s.live.Pairwise fun r q => r.1 + r.2 ≤ q.1 ∨ q.1 + q.2 ≤ r.1

/-- Nothing has been obtained before the first call of `malloc`. -/
def Integrity (base : Nat) (A : List (Nat × Nat)) (s : Program κ) : Prop :=
  (s.user.freep = 0 ∧ A = [] ∧ s.live = []) ∨ ∃ nodes, InOrder base A nodes s

theorem Inv.integrity (h : Inv base A s) : Integrity base A s := by
  rcases h.ready with ⟨hfreep, hA, hheads⟩ | ⟨nodes, hheap⟩
  · exact Or.inl ⟨hfreep, hA, Program.live_eq_nil hheads⟩
  · refine Or.inr ⟨nodes, exists_round hheap.blocks.ring hheap.freep, hheap.gaps,
      ⟨hheap.blocks.base_mem, hheap.blocks.len_base⟩, hheap.blocks.disjoint, hheap.blocks.tiles,
      h.holds, ?_⟩
    refine (List.pairwise_map.mp h.nodup).imp_of_mem fun {r q} hr hq hne => ?_
    obtain ⟨hlow, hholds⟩ := h.holds r hr
    obtain ⟨hlow', hholds'⟩ := h.holds q hq
    have hhead : r.1 - headerSize ∈ nodes ∪ s.heads :=
      Finset.mem_union_right _ (Program.mem_heads.mpr ⟨r, hr, rfl⟩)
    have hhead' : q.1 - headerSize ∈ nodes ∪ s.heads :=
      Finset.mem_union_right _ (Program.mem_heads.mpr ⟨q, hq, rfl⟩)
    rcases lt_or_gt_of_ne hne with hlt | hlt
    · have hle := hheap.blocks.apart hhead hhead' (by omega)
      left
      omega
    · have hle := hheap.blocks.apart hhead' hhead (by omega)
      right
      omega

structure Fresh (areas : κ → List (Nat × Nat)) (s : Program κ) : Prop where
  freep : s.user.freep = 0
  live : s.live = []
  areas : areas s.user.kernel = []

theorem Fresh.inv (h : Fresh areas s) : Inv base (areas s.user.kernel) s := by
  refine ⟨Or.inl ⟨h.freep, h.areas, ?_⟩, ?_, ?_, ?_⟩
  · rw [Program.heads, h.live]
    rfl
  · rw [h.areas]
    decide
  · rw [h.live]
    exact List.nodup_nil
  · intro r hr
    rw [h.live] at hr
    cases hr

/-- The heap is in order after all calls of a program with moderate requests, and the next call
returns. -/
theorem heap_integrity {start : Program κ} (hfresh : Fresh areas start) (hbase : 0 < base)
    (hsbrk : Contract sbrk areas base)
    (hrun : Run sbrk base (Moderate areas) start s) :
    Integrity base (areas s.user.kernel) s ∧
      ∀ c, s.Allowed c → Moderate areas s c →
        ∃ t N, ∀ fuel ≥ N, Umalloc.call sbrk base fuel s c = some t := by
  have hinv := hrun.inv hfresh.inv hbase hsbrk
  refine ⟨hinv.integrity, fun c hallowed hmoderate => ?_⟩
  obtain ⟨N, hN⟩ := hinv.call hbase hsbrk hallowed hmoderate
  obtain ⟨t, hcall, -⟩ := hN N le_rfl
  exact ⟨t, N, fun fuel hfuel => call_mono hfuel hcall⟩

end Inv

/-! ### A kernel that hands out memory from `0x2000` up -/

def top (A : List (Nat × Nat)) : Nat := A.foldr (fun r m => max (r.1 + r.2) m) 0x2000

def bump (k : Int) : EStateM Unit (List (Nat × Nat)) Nat := do
  let A ← get
  if 0 ≤ k ∧ top A < minusOne then
    set (A ++ [(top A, k.toNat)])
    pure (top A)
  else
    pure minusOne

theorem le_top (A : List (Nat × Nat)) : 0x2000 ≤ top A ∧ ∀ r ∈ A, r.1 + r.2 ≤ top A := by
  induction A with
  | nil => exact ⟨le_rfl, fun r hr => by cases hr⟩
  | cons q A ih =>
      have htop : top (q :: A) = max (q.1 + q.2) (top A) := rfl
      rw [htop]
      refine ⟨ih.1.trans (le_max_right _ _), fun r hr => ?_⟩
      rcases List.mem_cons.mp hr with rfl | hr
      · exact le_max_left _ _
      · exact (ih.2 r hr).trans (le_max_right _ _)

theorem bump_contract : Contract bump id 0x1000 := by
  intro k s
  refine .get (.ite (fun hk => .of_ok rfl ?_) fun _ => .pure (Or.inl ⟨rfl, rfl⟩))
  have hle := le_top s
  exact Or.inr ⟨hk.2.ne, hk.1, le_trans (by decide) hle.1, hle.2, rfl⟩

def newProgram : Program (List (Nat × Nat)) where
  user := { mem := fun _ => ⟨0, 0⟩, freep := 0, kernel := [] }
  live := []

theorem newProgram_fresh : Fresh id newProgram := ⟨rfl, rfl, rfl⟩

def Program.next (s : Program (List (Nat × Nat))) (c : Call) : Program (List (Nat × Nat)) :=
  (call bump 0x1000 10 s c).getD s

theorem Program.run_next {P : Program (List (Nat × Nat)) → Call → Prop} {s : Program (List (Nat × Nat))}
    {c : Call} (hrun : Run bump 0x1000 P newProgram s) (hallowed : s.Allowed c) (hP : P s c)
    (hcall : (call bump 0x1000 10 s c).isSome = true) : Run bump 0x1000 P newProgram (s.next c) := by
  obtain ⟨t, ht⟩ := Option.isSome_iff_exists.mp hcall
  have hnext : s.next c = t := by rw [Program.next, ht, Option.getD_some]
  rw [hnext]
  exact .step hrun hallowed hP ht

/-- Two blocks, and the one that was got first is given back first. -/
def twoBlocks : Program (List (Nat × Nat)) := (newProgram.next (.malloc 100)).next (.malloc 200)

def freedFirst : Program (List (Nat × Nat)) := twoBlocks.next (.free 73616)

/-- The second block is joined to the free blocks on both of its sides. -/
theorem heap_integrity_joined : ∃ t, Run bump 0x1000 (Moderate id) newProgram t ∧
    t = freedFirst.next (.free 73392) ∧ (t.user.mem 0x2000).size = 4096 ∧
    Integrity 0x1000 (id t.user.kernel) t := by
  have hone : Run bump 0x1000 (Moderate id) newProgram (newProgram.next (.malloc 100)) :=
    Program.run_next .start (show 100 < 0x100000000 by decide) ⟨by decide, by decide⟩ (by decide +kernel)
  have htwo : Run bump 0x1000 (Moderate id) newProgram twoBlocks :=
    Program.run_next hone (show 200 < 0x100000000 by decide) ⟨by decide, by decide +kernel⟩
      (by decide +kernel)
  have hlive : twoBlocks.live.map Prod.fst = [73616, 73392] := by decide +kernel
  have hthree : Run bump 0x1000 (Moderate id) newProgram freedFirst :=
    Program.run_next htwo (show _ ∈ _ by rw [hlive]; decide) trivial (by decide +kernel)
  have hlive' : freedFirst.live.map Prod.fst = [73392] := by decide +kernel
  have hfour : Run bump 0x1000 (Moderate id) newProgram (freedFirst.next (.free 73392)) :=
    Program.run_next hthree (show _ ∈ _ by rw [hlive']; decide) trivial (by decide +kernel)
  exact ⟨_, hfour, rfl, by decide +kernel,
    (heap_integrity newProgram_fresh (by decide) bump_contract hfour).1⟩

/-- For a request of `0xffffffff` bytes, 16 bytes are asked for. -/
theorem heap_integrity_wrapped : Contract bump id 0x1000 ∧ Fresh id newProgram ∧
    ∃ t, Run bump 0x1000 (fun _ _ => True) newProgram t ∧
      ¬ Integrity 0x1000 (id t.user.kernel) t := by
  have hallowed : newProgram.Allowed (.malloc 0xffffffff) := show 0xffffffff < 0x100000000 by decide
  have hrun : Run bump 0x1000 (fun _ _ => True) newProgram (newProgram.next (.malloc 0xffffffff)) :=
    Program.run_next .start hallowed trivial (by decide +kernel)
  have hlive : (newProgram.next (.malloc 0xffffffff)).live = [(0x2010, 0xffffffff)] := by decide +kernel
  have hareas : (newProgram.next (.malloc 0xffffffff)).user.kernel = [(0x2000, 16)] := by decide +kernel
  generalize newProgram.next (.malloc 0xffffffff) = t at hrun hlive hareas
  refine ⟨bump_contract, newProgram_fresh, t, hrun, ?_⟩
  rw [id, hareas]
  rintro (⟨-, hA, -⟩ | ⟨nodes, h⟩)
  · cases hA
  · have hr : ((0x2010, 0xffffffff) : Nat × Nat) ∈ t.live := hlive ▸ List.mem_cons_self
    obtain ⟨-, hholds⟩ := h.holds _ hr
    have hhead : 0x2000 ∈ nodes.erase 0x1000 ∪ t.heads :=
      Finset.mem_union_right _ (Program.mem_heads.mpr ⟨_, hr, rfl⟩)
    have hin : 0x2010 ∈ covered [(0x2000, 16)] := by
      refine (h.tiles.cover 0x2010).mpr ⟨0x2000, hhead, by decide, ?_⟩
      have hlen : 0xffffffff + 16 ≤ len t.user.mem 0x2000 := hholds
      omega
    simp [covered] at hin

end Xv6Mmap.Umalloc
