import Xv6Mmap.Umalloc
import Xv6Mmap.Lib.Cyclic
import Xv6Mmap.Lib.Tiling
import Xv6Mmap.Lib.Wp

/-!
# The heap of a user program

The blocks on the free list and the blocks in use tile the areas that `sbrk` has handed out. Two
operations on the blocks are all that `free` does: a block goes on the list between its neighbours,
and a block is joined with the one right behind it. `malloc` takes a block off the list or splits
one.
-/

namespace Xv6Mmap.Umalloc

open Sequential Cyclic Tiling

def len (mem : Nat → Header) (x : Nat) : Nat := headerSize * (mem x).size

/-- The nodes of the free list and the headers of the blocks in use, over the areas `A`. -/
structure Blocks (base : Nat) (A : List (Nat × Nat)) (nodes live : Finset Nat) (mem : Nat → Header) :
    Prop where
  ring : ∀ a ∈ nodes, Follows nodes a (mem a).ptr
  base_mem : base ∈ nodes
  base_size : (mem base).size = 0
  disjoint : ∀ x ∈ nodes, x ∉ live
  tiles : Tiles (nodes.erase base ∪ live) (len mem) (covered A)
  above : ∀ a ∈ covered A, base + headerSize ≤ a

section Blocks

variable {base : Nat} {A : List (Nat × Nat)} {nodes live : Finset Nat} {mem mem' : Nat → Header}
  {x y p bp : Nat}

theorem mem_of_node (base : Nat) (live : Finset Nat) (hx : x ∈ nodes) :
    x = base ∨ x ∈ nodes.erase base ∪ live := by
  by_cases hbase : x = base
  · exact Or.inl hbase
  · exact Or.inr (Finset.mem_union_left _ (Finset.mem_erase.mpr ⟨hbase, hx⟩))

theorem Blocks.len_base (h : Blocks base A nodes live mem) : len mem base = 0 := by
  rw [len, h.base_size, Nat.mul_zero]

theorem Blocks.base_le (h : Blocks base A nodes live mem) (hx : x ∈ nodes.erase base ∪ live) :
    base + headerSize ≤ x :=
  h.above x ((h.tiles.cover x).mpr ⟨x, hx, le_rfl, Nat.lt_add_of_pos_right (h.tiles.pos x hx)⟩)

theorem Blocks.base_lt (h : Blocks base A nodes live mem) (hx : x ∈ nodes.erase base ∪ live) :
    base < x :=
  Nat.lt_of_lt_of_le (Nat.lt_add_of_pos_right (by decide)) (h.base_le hx)

theorem Blocks.base_le_node (h : Blocks base A nodes live mem) (hx : x ∈ nodes) : base ≤ x := by
  rcases mem_of_node base live hx with rfl | hx
  · exact le_rfl
  · exact (h.base_lt hx).le

theorem Blocks.apart (h : Blocks base A nodes live mem) (hx : x ∈ nodes ∪ live)
    (hy : y ∈ nodes ∪ live) (hlt : x < y) : x + len mem x ≤ y := by
  have hblock : ∀ z ∈ nodes ∪ live, z = base ∨ z ∈ nodes.erase base ∪ live := by
    intro z hz
    rcases Finset.mem_union.mp hz with hz | hz
    · exact mem_of_node base live hz
    · exact Or.inr (Finset.mem_union_right _ hz)
  rcases hblock x hx with rfl | hx'
  · rw [h.len_base]
    exact hlt.le
  · rcases hblock y hy with rfl | hy'
    · exact absurd (h.base_lt hx') hlt.not_gt
    · exact h.tiles.apart x hx' y hy' hlt

theorem Blocks.ptr_ne (h : Blocks base A nodes live mem) (hx : x ∈ nodes) (hbase : x ≠ base) :
    (mem x).ptr ≠ x := by
  intro heq
  have hfollows := h.ring x hx
  rw [heq] at hfollows
  exact hbase (hfollows.eq_of_self h.base_mem).symm

theorem Blocks.congr (h : Blocks base A nodes live mem)
    (hsame : ∀ z ∈ nodes ∪ live, mem' z = mem z) : Blocks base A nodes live mem' where
  ring a ha := by
    rw [hsame a (Finset.mem_union_left _ ha)]
    exact h.ring a ha
  base_mem := h.base_mem
  base_size := by
    rw [hsame base (Finset.mem_union_left _ h.base_mem)]
    exact h.base_size
  disjoint := h.disjoint
  tiles := h.tiles.congr fun z hz => by
    rw [len, len, hsame z (Finset.union_subset_union_left (Finset.erase_subset _ _) hz)]
  above := h.above

/-! ### A block goes on the list -/

def linkIn (mem : Nat → Header) (p bp : Nat) : Nat → Header :=
  upd (upd mem bp ⟨(mem p).ptr, (mem bp).size⟩) p ⟨bp, (mem p).size⟩

theorem linkIn_prev (mem : Nat → Header) (p bp : Nat) : linkIn mem p bp p = ⟨bp, (mem p).size⟩ :=
  upd_self ..

theorem linkIn_block (hne : p ≠ bp) : linkIn mem p bp bp = ⟨(mem p).ptr, (mem bp).size⟩ := by
  rw [linkIn, upd_of_ne _ _ hne.symm, upd_self]

theorem linkIn_other (hp : x ≠ p) (hbp : x ≠ bp) : linkIn mem p bp x = mem x := by
  rw [linkIn, upd_of_ne _ _ hp, upd_of_ne _ _ hbp]

theorem linkIn_size (mem : Nat → Header) (p bp x : Nat) :
    (linkIn mem p bp x).size = (mem x).size := by
  unfold linkIn upd
  split
  · next hp => rw [hp]
  · split
    · next hbp => rw [hbp]
    · rfl

theorem len_linkIn (mem : Nat → Header) (p bp x : Nat) : len (linkIn mem p bp) x = len mem x := by
  rw [len, len, linkIn_size]

theorem Blocks.link (h : Blocks base A nodes live mem) (hp : p ∈ nodes) (hbp : bp ∈ live)
    (hbetween : Between p bp (mem p).ptr) :
    Blocks base A (insert bp nodes) (live.erase bp) (linkIn mem p bp) := by
  have hbase : bp ≠ base := fun heq => h.disjoint base h.base_mem (heq ▸ hbp)
  have hpbp : p ≠ bp := fun heq => h.disjoint p hp (heq ▸ hbp)
  have hunion : (insert bp nodes).erase base ∪ live.erase bp = nodes.erase base ∪ live := by
    ext z
    simp only [Finset.mem_union, Finset.mem_erase, Finset.mem_insert]
    by_cases hz : z = bp
    · simp [hz, hbp, hbase]
    · simp [hz]
  refine ⟨?_, Finset.mem_insert_of_mem h.base_mem, by rw [linkIn_size, h.base_size], ?_, ?_, h.above⟩
  · refine ring_insert h.ring hp (fun hmem => h.disjoint bp hmem hbp) hbetween ?_ ?_ fun a ha hap => ?_
    · rw [linkIn_prev]
    · rw [linkIn_block hpbp]
    · rw [linkIn_other hap fun heq => h.disjoint a ha (heq ▸ hbp)]
  · intro z hz hlive
    obtain ⟨hne, hlive⟩ := Finset.mem_erase.mp hlive
    exact h.disjoint z ((Finset.mem_insert.mp hz).resolve_left hne) hlive
  · rw [hunion]
    exact h.tiles.congr fun z _ => len_linkIn mem p bp z

theorem Blocks.link_gaps (h : Blocks base A nodes live mem) (hp : p ∈ nodes) (hbp : bp ∈ live)
    (hbetween : Between p bp (mem p).ptr)
    (hgaps : ∀ x ∈ nodes, ∀ y ∈ nodes, x ≠ y → x + len mem x ≠ y)
    (hx : x ∈ insert bp nodes) (hy : y ∈ insert bp nodes) (hxy : x ≠ y) (hadj : x + len mem x = y) :
    (x = p ∧ y = bp) ∨ (x = bp ∧ y = (mem p).ptr) := by
  have hfollows := h.ring p hp
  have hbpB : bp ∈ nodes.erase base ∪ live := Finset.mem_union_right _ hbp
  have hpos := h.tiles.pos bp hbpB
  have hmem : ∀ z ∈ insert bp nodes, z ∈ nodes ∪ live := by
    intro z hz
    rcases Finset.mem_insert.mp hz with rfl | hz
    · exact Finset.mem_union_right _ hbp
    · exact Finset.mem_union_left _ hz
  by_cases hxbp : x = bp
  · right
    refine ⟨hxbp, ?_⟩
    subst hxbp
    rcases (hfollows.insert_after hbetween).next with ⟨hlt, hleast⟩ | ⟨hmax, -⟩
    · have hle := hleast y hy (by omega)
      have hge := h.apart (hmem x hx) (Finset.mem_union_left _ hfollows.mem) hlt
      omega
    · exact absurd (hmax y hy) (by omega)
  · have hxn : x ∈ nodes := (Finset.mem_insert.mp hx).resolve_left hxbp
    by_cases hybp : y = bp
    · left
      refine ⟨?_, hybp⟩
      subst hybp
      have hbase := h.base_lt hbpB
      rcases (hfollows.insert_before hbetween).next with ⟨hlt, hleast⟩ | ⟨-, hmin⟩
      · rcases lt_trichotomy x p with hlt' | heq | hgt
        · have hle := h.apart (Finset.mem_union_left _ hxn) (Finset.mem_union_left _ hp) hlt'
          omega
        · exact heq
        · have hle := hleast x hx hgt
          omega
      · exact absurd (hmin base (Finset.mem_insert_of_mem h.base_mem)) (by omega)
    · exact absurd hadj (hgaps x hxn y ((Finset.mem_insert.mp hy).resolve_left hybp) hxy)

/-! ### A block is joined with the next one -/

def joined (mem : Nat → Header) (x y : Nat) : Nat → Header :=
  upd mem x ⟨(mem y).ptr, (mem x).size + (mem y).size⟩

theorem Blocks.join_ne_base (h : Blocks base A nodes live mem) (hxy : x ≠ y)
    (hadj : x + len mem x = y) : x ≠ base := by
  rintro rfl
  rw [h.len_base] at hadj
  exact hxy (by omega)

theorem Blocks.join (h : Blocks base A nodes live mem) (hx : x ∈ nodes) (hxy : x ≠ y)
    (hnext : (mem x).ptr = y) (hadj : x + len mem x = y) :
    Blocks base A (nodes.erase y) live (joined mem x y) := by
  have hxbase := h.join_ne_base hxy hadj
  have hfollows : Follows nodes x y := hnext ▸ h.ring x hx
  have hy := hfollows.mem
  have hybase : y ≠ base := by
    rintro rfl
    have hle := h.base_le_node hx
    omega
  have hxB : x ∈ nodes.erase base ∪ live :=
    Finset.mem_union_left _ (Finset.mem_erase.mpr ⟨hxbase, hx⟩)
  have hyB : y ∈ nodes.erase base ∪ live :=
    Finset.mem_union_left _ (Finset.mem_erase.mpr ⟨hybase, hy⟩)
  have hunion : (nodes.erase y).erase base ∪ live = (nodes.erase base ∪ live).erase y := by
    ext z
    have hylive := h.disjoint y hy
    simp only [Finset.mem_union, Finset.mem_erase]
    by_cases hz : z = y
    · simp [hz, hylive]
    · simp [hz]
  refine ⟨?_, Finset.mem_erase.mpr ⟨hybase.symm, h.base_mem⟩, ?_, ?_, ?_, h.above⟩
  · refine ring_erase h.ring hx hnext (h.ptr_ne hy hybase) ?_ fun a _ hax _ => ?_
    · rw [joined, upd_self]
    · rw [joined, upd_of_ne _ _ hax]
  · rw [joined, upd_of_ne _ _ hxbase.symm, h.base_size]
  · exact fun z hz => h.disjoint z (Finset.mem_of_mem_erase hz)
  · rw [hunion]
    refine h.tiles.merge hxB hyB hadj ?_ fun z _ hzx _ => ?_
    · rw [len, joined, upd_self, len, len, Nat.mul_add]
    · rw [len, len, joined, upd_of_ne _ _ hzx]

theorem Blocks.join_size_le (h : Blocks base A nodes live mem) (hx : x ∈ nodes) (hxy : x ≠ y)
    (hnext : (mem x).ptr = y) (hadj : x + len mem x = y) :
    headerSize * ((mem x).size + (mem y).size) ≤ total A := by
  have hxbase := h.join_ne_base hxy hadj
  have hmem : x ∈ (nodes.erase y).erase base ∪ live := Finset.mem_union_left _
    (Finset.mem_erase.mpr ⟨hxbase, Finset.mem_erase.mpr ⟨hxy, hx⟩⟩)
  have hle := (h.join hx hxy hnext hadj).tiles.len_le hmem
  rwa [len, joined, upd_self] at hle

theorem joined_gaps {R : Nat → Nat → Prop} {u v : Nat} (hadj : x + len mem x = y) (hy : y ∈ nodes)
    (hgaps : ∀ u ∈ nodes, ∀ v ∈ nodes, u ≠ v → u + len mem u = v → R u v)
    (hu : u ∈ nodes.erase y) (hv : v ∈ nodes.erase y) (huv : u ≠ v)
    (hadj' : u + len (joined mem x y) u = v) : (u = x ∧ R y v) ∨ R u v := by
  obtain ⟨-, hu⟩ := Finset.mem_erase.mp hu
  obtain ⟨hvy, hv⟩ := Finset.mem_erase.mp hv
  by_cases hux : u = x
  · subst hux
    have hlen : len (joined mem u y) u = len mem u + len mem y := by
      rw [len, joined, upd_self, len, len, Nat.mul_add]
    exact Or.inl ⟨rfl, hgaps y hy v hv hvy.symm (by omega)⟩
  · rw [len, joined, upd_of_ne _ _ hux] at hadj'
    exact Or.inr (hgaps u hu v hv huv hadj')

end Blocks

/-! ### `free` -/

structure Heap {κ : Type} (base : Nat) (A : List (Nat × Nat)) (nodes live : Finset Nat) (u : User κ) :
    Prop where
  blocks : Blocks base A nodes live u.mem
  gaps : ∀ x ∈ nodes, ∀ y ∈ nodes, x ≠ y → x + len u.mem x ≠ y
  freep : u.freep ∈ nodes

/-- A heap in which `p` is about to be linked to the new block `bp`. -/
structure Linked (base : Nat) (A : List (Nat × Nat)) (nodes live : Finset Nat) (p bp : Nat)
    (mem : Nat → Header) : Prop where
  blocks : Blocks base A nodes live (upd mem p ⟨bp, (mem p).size⟩)
  gaps : ∀ x ∈ nodes, ∀ y ∈ nodes, x ≠ y →
    x + len (upd mem p ⟨bp, (mem p).size⟩) x = y → x = p ∧ y = bp
  prev : p ∈ nodes
  ne : p ≠ bp

section Free

variable {ε κ : Type} {base : Nat} {A : List (Nat × Nat)} {nodes live : Finset Nat}
  {mem mem' : Nat → Header} {u : User κ} {p bp : Nat} {E : Stop ε → User κ → Prop}

theorem freeFrom_wp {l : List Nat} {q fuel : Nat} (hwalk : Walk (fun a => (u.mem a).ptr) p l q)
    (hplace : ∃ a ∈ l, Between a bp (u.mem a).ptr) (hfuel : l.length ≤ fuel) :
    Wp (freeFrom bp fuel p) (fun a t => t = u ∧ a ∈ l ∧ Between a bp (u.mem a).ptr) E u := by
  induction l generalizing p fuel with
  | nil =>
      obtain ⟨a, ha, -⟩ := hplace
      cases ha
  | cons x l ih =>
      obtain ⟨rfl, hwalk⟩ := hwalk
      obtain ⟨fuel, rfl⟩ : ∃ n, fuel = n + 1 := ⟨fuel - 1, by rw [List.length_cons] at hfuel; omega⟩
      refine .bind (.of_ok rfl (.ite (fun hin => ?_) fun hout => .ite (fun hwrap => ?_) fun hnot => ?_))
      · exact .pure ⟨rfl, List.mem_cons_self, Or.inl hin⟩
      · exact .pure ⟨rfl, List.mem_cons_self, Or.inr hwrap⟩
      · have hplace' : ∃ a ∈ l, Between a bp (u.mem a).ptr := by
          obtain ⟨a, ha, hbetween⟩ := hplace
          rcases List.mem_cons.mp ha with rfl | ha
          · exact absurd hbetween (not_or.mpr ⟨hout, hnot⟩)
          · exact ⟨a, ha, hbetween⟩
        refine (ih hwalk hplace' (Nat.le_of_succ_le_succ hfuel)).imp fun a t h => ?_
        exact ⟨h.1, List.mem_cons_of_mem _ h.2.1, h.2.2⟩

theorem Heap.freeFrom {fuel : Nat} (h : Heap base A nodes live u) (hbp : bp ∈ live)
    (hfuel : nodes.card ≤ fuel) :
    Wp (freeFrom bp fuel u.freep) (fun a t => t = u ∧ a ∈ nodes ∧ Between a bp (u.mem a).ptr) E u := by
  obtain ⟨low, high, hround⟩ := exists_round h.blocks.ring h.freep
  have hmem : ∀ x, x ∈ u.freep :: high ++ low ↔ x ∈ nodes := by
    intro x
    rw [← hround.nodes]
    simp only [List.mem_append, List.mem_cons]
    tauto
  obtain ⟨a, ha, hbetween⟩ := exists_between ⟨base, h.blocks.base_mem⟩
    (fun hmem => h.blocks.disjoint bp hmem hbp) h.blocks.ring
  have hlength : (u.freep :: high ++ low).length ≤ fuel := by
    rw [hround.length]
    exact hfuel
  refine (freeFrom_wp hround.walk ⟨a, (hmem a).mpr ha, hbetween⟩ hlength).imp fun b t hb => ?_
  exact ⟨hb.1, (hmem b).mp hb.2.1, hb.2.2⟩

theorem uint32_eq {n : Nat} (hn : headerSize * n ≤ total A) (hsmall : total A < 0x1000000000) :
    uint32 n = n :=
  Nat.mod_eq_of_lt (by rw [headerSize] at hn; omega)

theorem Blocks.linked_apart (h : Blocks base A nodes live mem)
    (hgaps : ∀ x ∈ nodes, ∀ y ∈ nodes, x ≠ y → x + len mem x ≠ y) (hp : p ∈ nodes) (hbp : bp ∈ live)
    (hbetween : Between p bp (mem p).ptr) (hnot : bp + len mem bp ≠ (mem p).ptr) :
    Linked base A (insert bp nodes) (live.erase bp) p bp
      (upd mem bp ⟨(mem p).ptr, (mem bp).size⟩) := by
  have hpbp : p ≠ bp := fun heq => h.disjoint p hp (heq ▸ hbp)
  have hmem : upd (upd mem bp ⟨(mem p).ptr, (mem bp).size⟩) p
      ⟨bp, (upd mem bp ⟨(mem p).ptr, (mem bp).size⟩ p).size⟩ = linkIn mem p bp := by
    rw [upd_of_ne _ _ hpbp]
    rfl
  refine ⟨?_, ?_, Finset.mem_insert_of_mem hp, hpbp⟩
  · rw [hmem]
    exact h.link hp hbp hbetween
  · intro x hx y hy hxy hadj
    rw [hmem, len_linkIn] at hadj
    rcases h.link_gaps hp hbp hbetween hgaps hx hy hxy hadj with hprev | ⟨rfl, rfl⟩
    · exact hprev
    · exact absurd hadj hnot

theorem Blocks.ptr_ne_of_touching (h : Blocks base A nodes live mem) (hp : p ∈ nodes) (hbp : bp ∈ live)
    (hadj : bp + len mem bp = (mem p).ptr) : (mem p).ptr ≠ p := by
  intro heq
  have hfollows := h.ring p hp
  rw [heq] at hfollows
  have hbase : base = p := hfollows.eq_of_self h.base_mem
  have hlt := h.base_lt (Finset.mem_union_right _ hbp)
  omega

theorem Blocks.linked_touching (h : Blocks base A nodes live mem) (hsmall : total A < 0x1000000000)
    (hgaps : ∀ x ∈ nodes, ∀ y ∈ nodes, x ≠ y → x + len mem x ≠ y) (hp : p ∈ nodes) (hbp : bp ∈ live)
    (hbetween : Between p bp (mem p).ptr) (hadj : bp + len mem bp = (mem p).ptr) :
    uint32 ((mem bp).size + (mem (mem p).ptr).size) = (mem bp).size + (mem (mem p).ptr).size ∧
    Linked base A ((insert bp nodes).erase (mem p).ptr) (live.erase bp) p bp
      (upd mem bp ⟨(mem (mem p).ptr).ptr, (mem bp).size + (mem (mem p).ptr).size⟩) := by
  have hpbp : p ≠ bp := fun heq => h.disjoint p hp (heq ▸ hbp)
  have hqp := h.ptr_ne_of_touching hp hbp hadj
  have hq : (mem p).ptr ∈ nodes := (h.ring p hp).mem
  have hqbp : (mem p).ptr ≠ bp := fun heq => h.disjoint _ hq (heq ▸ hbp)
  have hblocks := h.link hp hbp hbetween
  have hblock : linkIn mem p bp bp = ⟨(mem p).ptr, (mem bp).size⟩ := linkIn_block hpbp
  have hnext : (linkIn mem p bp bp).ptr = (mem p).ptr := by rw [hblock]
  have hadj' : bp + len (linkIn mem p bp) bp = (mem p).ptr := by rw [len_linkIn, hadj]
  have hbpn : bp ∈ insert bp nodes := Finset.mem_insert_self bp nodes
  have hmem : upd (upd mem bp ⟨(mem (mem p).ptr).ptr, (mem bp).size + (mem (mem p).ptr).size⟩) p
      ⟨bp, (upd mem bp ⟨(mem (mem p).ptr).ptr, (mem bp).size + (mem (mem p).ptr).size⟩ p).size⟩ =
      joined (linkIn mem p bp) bp (mem p).ptr := by
    funext z
    rw [joined, hblock, linkIn_other hqp hqbp, upd_of_ne _ _ hpbp]
    by_cases hzp : z = p
    · rw [hzp, upd_self, upd_of_ne _ _ hpbp, linkIn_prev]
    · rw [upd_of_ne _ _ hzp]
      by_cases hzbp : z = bp
      · rw [hzbp, upd_self, upd_self]
      · rw [upd_of_ne _ _ hzbp, upd_of_ne _ _ hzbp, linkIn_other hzp hzbp]
  refine ⟨?_, ?_, ?_, ?_, hpbp⟩
  · have hle := hblocks.join_size_le hbpn hqbp.symm hnext hadj'
    rw [linkIn_size, linkIn_size] at hle
    exact uint32_eq hle hsmall
  · rw [hmem]
    exact hblocks.join hbpn hqbp.symm hnext hadj'
  · intro x hx y hy hxy htouch
    rw [hmem] at htouch
    have hlinked : ∀ x ∈ insert bp nodes, ∀ y ∈ insert bp nodes, x ≠ y →
        x + len (linkIn mem p bp) x = y → (x = p ∧ y = bp) ∨ (x = bp ∧ y = (mem p).ptr) := by
      intro x hx y hy hxy hadj
      rw [len_linkIn] at hadj
      exact h.link_gaps hp hbp hbetween hgaps hx hy hxy hadj
    have hy' := (Finset.mem_erase.mp hy).1
    rcases joined_gaps hadj' (Finset.mem_insert_of_mem hq) hlinked hx hy hxy htouch with
      ⟨-, ⟨heq, -⟩ | ⟨heq, -⟩⟩ | ⟨hprev | ⟨-, heq⟩⟩
    · exact absurd heq hqp
    · exact absurd heq hqbp
    · exact hprev
    · exact absurd heq hy'
  · exact Finset.mem_erase.mpr ⟨hqp.symm, Finset.mem_insert_of_mem hp⟩

def User.put (u : User κ) (a : Nat) (h : Header) : User κ := { u with mem := upd u.mem a h }

theorem User.put_self (u : User κ) (a : Nat) (h : Header) : (u.put a h).mem a = h := upd_self ..

theorem User.put_ne (u : User κ) {a x : Nat} (h : Header) (hx : x ≠ a) :
    (u.put a h).mem x = u.mem x :=
  upd_of_ne _ _ hx

theorem joinAfter_touching (hp : p ≠ bp) (hq : (u.mem p).ptr ≠ bp)
    (hadj : bp + len u.mem bp = (u.mem p).ptr) :
    joinAfter p bp u = (.ok () (u.put bp ⟨(u.mem (u.mem p).ptr).ptr,
      uint32 ((u.mem bp).size + (u.mem (u.mem p).ptr).size)⟩) :
        EStateM.Result (Stop ε) (User κ) Unit) := by
  have hrun : joinAfter p bp u =
      (do
        setSize bp (uint32 ((u.mem bp).size + (u.mem (u.mem p).ptr).size))
        setPtr bp (← load (← load p).ptr).ptr : M ε κ Unit) u :=
    run_bind_ok rfl _ |>.trans (run_bind_ok rfl _) |>.trans (run_ite _ _ u) |>.trans (if_pos hadj)
  rw [hrun]
  show EStateM.Result.ok () _ = _
  simp only [upd_of_ne _ _ hp, upd_of_ne _ _ hq, upd_self, upd_upd, User.put]

theorem joinAfter_apart (hnot : bp + len u.mem bp ≠ (u.mem p).ptr) :
    joinAfter p bp u = (.ok () (u.put bp ⟨(u.mem p).ptr, (u.mem bp).size⟩) :
      EStateM.Result (Stop ε) (User κ) Unit) :=
  run_bind_ok rfl _ |>.trans (run_bind_ok rfl _) |>.trans (run_ite _ _ u) |>.trans (if_neg hnot)

theorem joinBefore_touching (hp : p ≠ bp) (hadj : p + len u.mem p = bp) :
    joinBefore p bp u = (.ok () (u.put p ⟨(u.mem bp).ptr, uint32 ((u.mem p).size + (u.mem bp).size)⟩) :
      EStateM.Result (Stop ε) (User κ) Unit) := by
  have hrun : joinBefore p bp u =
      (do
        setSize p (uint32 ((u.mem p).size + (u.mem bp).size))
        setPtr p (← load bp).ptr : M ε κ Unit) u :=
    run_bind_ok rfl _ |>.trans (run_ite _ _ u) |>.trans (if_pos hadj)
  rw [hrun]
  show EStateM.Result.ok () _ = _
  simp only [upd_of_ne _ _ hp.symm, upd_self, upd_upd, User.put]

theorem joinBefore_apart (hnot : p + len u.mem p ≠ bp) :
    joinBefore p bp u = (.ok () (u.put p ⟨bp, (u.mem p).size⟩) :
      EStateM.Result (Stop ε) (User κ) Unit) :=
  run_bind_ok rfl _ |>.trans (run_ite _ _ u) |>.trans (if_neg hnot)

theorem Heap.joinAfter (h : Heap base A nodes live u) (hsmall : total A < 0x1000000000)
    (hp : p ∈ nodes) (hbp : bp ∈ live) (hbetween : Between p bp (u.mem p).ptr) :
    Wp (joinAfter p bp) (fun _ t => (∃ nodes', Linked base A nodes' (live.erase bp) p bp t.mem ∧
        nodes'.card ≤ nodes.card + 1) ∧ t.kernel = u.kernel ∧ (∀ x, x ≠ bp → t.mem x = u.mem x) ∧
      (u.mem bp).size ≤ (t.mem bp).size) E u := by
  have hpbp : p ≠ bp := fun heq => h.blocks.disjoint p hp (heq ▸ hbp)
  have hqbp : (u.mem p).ptr ≠ bp := fun heq =>
    h.blocks.disjoint _ (h.blocks.ring p hp).mem (heq ▸ hbp)
  have hcard : (insert bp nodes).card ≤ nodes.card + 1 := Finset.card_insert_le bp nodes
  by_cases hadj : bp + len u.mem bp = (u.mem p).ptr
  · obtain ⟨hsum, hlinked⟩ := h.blocks.linked_touching hsmall h.gaps hp hbp hbetween hadj
    refine .of_ok (joinAfter_touching hpbp hqbp hadj) ?_
    rw [hsum]
    refine ⟨⟨_, hlinked, (Finset.card_erase_le).trans hcard⟩, rfl, fun x hx => u.put_ne _ hx, ?_⟩
    rw [User.put_self]
    exact Nat.le_add_right _ _
  · refine .of_ok (joinAfter_apart hadj) ⟨⟨_, h.blocks.linked_apart h.gaps hp hbp hbetween hadj, hcard⟩,
      rfl, fun x hx => u.put_ne _ hx, ?_⟩
    rw [User.put_self]

theorem Linked.joinBefore (h : Linked base A nodes live p bp u.mem) (hsmall : total A < 0x1000000000) :
    Wp (joinBefore p bp) (fun _ t => (∃ nodes', Blocks base A nodes' live t.mem ∧
        (∀ x ∈ nodes', ∀ y ∈ nodes', x ≠ y → x + len t.mem x ≠ y) ∧ p ∈ nodes' ∧
        nodes'.card ≤ nodes.card ∧ ∃ q ∈ nodes', (u.mem bp).size ≤ (t.mem q).size) ∧
      t.kernel = u.kernel ∧ ∀ x, x ≠ p → t.mem x = u.mem x) E u := by
  have hvp : upd u.mem p ⟨bp, (u.mem p).size⟩ p = ⟨bp, (u.mem p).size⟩ := upd_self ..
  have hvbp : upd u.mem p ⟨bp, (u.mem p).size⟩ bp = u.mem bp := upd_of_ne _ _ h.ne.symm
  have hnext : (upd u.mem p ⟨bp, (u.mem p).size⟩ p).ptr = bp := by rw [hvp]
  have hlen : len (upd u.mem p ⟨bp, (u.mem p).size⟩) p = len u.mem p := by rw [len, hvp, len]
  have hbp : bp ∈ nodes := hnext ▸ (h.blocks.ring p h.prev).mem
  by_cases hadj : p + len u.mem p = bp
  · have hadj' : p + len (upd u.mem p ⟨bp, (u.mem p).size⟩) p = bp := by rw [hlen, hadj]
    have hsum := uint32_eq (h.blocks.join_size_le h.prev h.ne hnext hadj') hsmall
    rw [hvp, hvbp] at hsum
    have hmem : joined (upd u.mem p ⟨bp, (u.mem p).size⟩) p bp =
        upd u.mem p ⟨(u.mem bp).ptr, (u.mem p).size + (u.mem bp).size⟩ := by
      rw [joined, hvp, hvbp, upd_upd]
    refine .of_ok (joinBefore_touching h.ne hadj) ?_
    rw [hsum]
    refine ⟨⟨nodes.erase bp, ?_, ?_, Finset.mem_erase.mpr ⟨h.ne, h.prev⟩, Finset.card_erase_le, p,
      Finset.mem_erase.mpr ⟨h.ne, h.prev⟩, ?_⟩, rfl, fun x hx => u.put_ne _ hx⟩
    · show Blocks base A (nodes.erase bp) live (upd u.mem p _)
      rw [← hmem]
      exact h.blocks.join h.prev h.ne hnext hadj'
    · intro x hx y hy hxy htouch
      have htouch' : x + len (upd u.mem p ⟨(u.mem bp).ptr, (u.mem p).size + (u.mem bp).size⟩) x = y :=
        htouch
      rw [← hmem] at htouch'
      have hy' := (Finset.mem_erase.mp hy).1
      rcases joined_gaps hadj' hbp h.gaps hx hy hxy htouch' with ⟨-, heq, -⟩ | ⟨-, heq⟩
      · exact h.ne heq.symm
      · exact hy' heq
    · rw [User.put_self]
      exact Nat.le_add_left _ _
  · refine .of_ok (joinBefore_apart hadj) ⟨⟨nodes, h.blocks, fun x hx y hy hxy htouch => ?_, h.prev,
      le_rfl, bp, hbp, ?_⟩, rfl, fun x hx => u.put_ne _ hx⟩
    · obtain ⟨rfl, rfl⟩ := h.gaps x hx y hy hxy htouch
      exact hadj (hlen ▸ htouch)
    · rw [User.put_ne _ _ h.ne.symm]

theorem Heap.free {fuel : Nat} (h : Heap base A nodes live u) (hsmall : total A < 0x1000000000)
    (hbp : bp ∈ live) (hfuel : nodes.card ≤ fuel) :
    Wp (free fuel (bp + headerSize)) (fun _ t => (∃ nodes', Heap base A nodes' (live.erase bp) t ∧
        nodes'.card ≤ nodes.card + 1 ∧ ∃ q ∈ nodes', (u.mem bp).size ≤ (t.mem q).size) ∧
      t.kernel = u.kernel ∧ ∀ x ∈ live.erase bp, t.mem x = u.mem x) E u := by
  unfold Umalloc.free
  refine .bind (.of_ok rfl ?_)
  rw [Nat.add_sub_cancel]
  refine .bind ((h.freeFrom hbp hfuel).imp fun p t hp => ?_)
  obtain ⟨rfl, hp, hbetween⟩ := hp
  refine .bind ((h.joinAfter hsmall hp hbp hbetween).imp fun _ t₁ h₁ => ?_)
  obtain ⟨⟨nodes₁, hlinked, hcard₁⟩, hkernel₁, hsame₁, hsize₁⟩ := h₁
  refine .bind ((hlinked.joinBefore hsmall).imp fun _ t₂ h₂ => ?_)
  obtain ⟨⟨nodes₂, hblocks, hgaps, hp₂, hcard₂, q, hq, hsize₂⟩, hkernel₂, hsame₂⟩ := h₂
  refine .of_ok rfl ⟨⟨nodes₂, ⟨hblocks, hgaps, hp₂⟩, hcard₂.trans hcard₁, q, hq, hsize₁.trans hsize₂⟩,
    hkernel₂.trans hkernel₁, fun x hx => ?_⟩
  have hxp : x ≠ p := fun heq => hblocks.disjoint p hp₂ (heq ▸ hx)
  exact (hsame₂ x hxp).trans (hsame₁ x (Finset.mem_erase.mp hx).1)

end Free

/-! ### `malloc` -/

section Malloc

variable {ε κ : Type} {base n prev p fuel : Nat} {A : List (Nat × Nat)} {nodes live : Finset Nat}
  {mem : Nat → Header} {u : User κ} {Q : Nat → User κ → Prop} {E : Stop ε → User κ → Prop}

theorem take_exact (hsize : (u.mem p).size = n) : take n prev p u = (.ok (p + headerSize)
    { u.put prev ⟨(u.mem p).ptr, (u.mem prev).size⟩ with freep := prev } :
      EStateM.Result (Stop ε) (User κ) Nat) :=
  run_bind_ok rfl _ |>.trans (run_ite _ _ u) |>.trans (if_pos hsize)

theorem take_split (hsize : (u.mem p).size ≠ n) :
    take n prev p u = (.ok (p + headerSize * ((u.mem p).size - n) + headerSize)
    { (u.put p ⟨(u.mem p).ptr, (u.mem p).size - n⟩).put (p + headerSize * ((u.mem p).size - n))
        ⟨((u.put p ⟨(u.mem p).ptr, (u.mem p).size - n⟩).mem
          (p + headerSize * ((u.mem p).size - n))).ptr, n⟩ with freep := prev } :
      EStateM.Result (Stop ε) (User κ) Nat) := by
  have hrun : take n prev p u = (do
      setSize p ((u.mem p).size - n)
      let p := p + headerSize * (← load p).size
      setSize p n
      setFreep prev
      pure (p + headerSize) : M ε κ Nat) u :=
    run_bind_ok rfl _ |>.trans (run_ite _ _ u) |>.trans (if_neg hsize)
      |>.trans (run_bind_ok rfl _)
  rw [hrun]
  show EStateM.Result.ok _ _ = _
  simp only [upd_self, User.put]

theorem nunits_eq {nbytes : Nat} (hn : nbytes < 0x100000000) :
    nunits nbytes = (nbytes + 15) / 16 + 1 := by
  unfold nunits uint32 uint64 headerSize
  omega

theorem Blocks.take_off (h : Blocks base A nodes live mem) (hprev : prev ∈ nodes)
    (hnext : (mem prev).ptr = p) (hp : p ≠ base) :
    Blocks base A (nodes.erase p) (insert p live) (upd mem prev ⟨(mem p).ptr, (mem prev).size⟩) := by
  have hpn : p ∈ nodes := hnext ▸ (h.ring prev hprev).mem
  have hunion : (nodes.erase p).erase base ∪ insert p live = nodes.erase base ∪ live := by
    ext z
    simp only [Finset.mem_union, Finset.mem_erase, Finset.mem_insert]
    by_cases hz : z = p
    · simp [hz, hpn, hp]
    · simp [hz]
  have hsize : ∀ z, (upd mem prev ⟨(mem p).ptr, (mem prev).size⟩ z).size = (mem z).size := by
    intro z
    by_cases hz : z = prev
    · rw [hz, upd_self]
    · rw [upd_of_ne _ _ hz]
  refine ⟨?_, Finset.mem_erase.mpr ⟨hp.symm, h.base_mem⟩, by rw [hsize, h.base_size], ?_, ?_, h.above⟩
  · refine ring_erase h.ring hprev hnext (h.ptr_ne hpn hp) ?_ fun a _ ha _ => ?_
    · rw [upd_self]
    · rw [upd_of_ne _ _ ha]
  · intro z hz hlive
    obtain ⟨hne, hz⟩ := Finset.mem_erase.mp hz
    exact h.disjoint z hz ((Finset.mem_insert.mp hlive).resolve_left hne)
  · rw [hunion]
    exact h.tiles.congr fun z _ => by rw [len, len, hsize]

theorem Blocks.cut {q : Nat} (h : Blocks base A nodes live mem) (hdr : Header) (hp : p ∈ nodes)
    (hbase : p ≠ base) (hn : 0 < n) (hlt : n < (mem p).size)
    (hq : q = p + headerSize * ((mem p).size - n)) (hhdr : hdr.size = n) :
    q ∉ nodes ∧ q ∉ live ∧ Blocks base A nodes (insert q live)
      (upd (upd mem p ⟨(mem p).ptr, (mem p).size - n⟩) q hdr) := by
  have hpB : p ∈ nodes.erase base ∪ live :=
    Finset.mem_union_left _ (Finset.mem_erase.mpr ⟨hbase, hp⟩)
  have hpq : p < q := by
    rw [hq, headerSize]
    omega
  have hqB : q ∉ nodes.erase base ∪ live := by
    refine h.tiles.not_mem hpB hpq ?_
    rw [len, hq, headerSize]
    omega
  have hqbase : q ≠ base := by
    have hlt := h.base_lt hpB
    omega
  have hqn : q ∉ nodes := fun hmem =>
    hqB (Finset.mem_union_left _ (Finset.mem_erase.mpr ⟨hqbase, hmem⟩))
  have hqlive : q ∉ live := fun hmem => hqB (Finset.mem_union_right _ hmem)
  have hmem : ∀ a, a ≠ q → (upd (upd mem p ⟨(mem p).ptr, (mem p).size - n⟩) q hdr a) =
      upd mem p ⟨(mem p).ptr, (mem p).size - n⟩ a := fun a ha => upd_of_ne _ _ ha
  refine ⟨hqn, hqlive, ?_, h.base_mem, ?_, ?_, ?_, h.above⟩
  · intro a ha
    rw [hmem a fun heq => hqn (heq ▸ ha)]
    by_cases hap : a = p
    · rw [hap, upd_self]
      exact h.ring p hp
    · rw [upd_of_ne _ _ hap]
      exact h.ring a ha
  · rw [hmem base hqbase.symm, upd_of_ne _ _ hbase.symm, h.base_size]
  · intro z hz hlive
    rcases Finset.mem_insert.mp hlive with rfl | hlive
    · exact hqn hz
    · exact h.disjoint z hz hlive
  · rw [Finset.union_insert]
    refine h.tiles.split (n := headerSize * n) hpB ?_ ?_ ?_ ?_ ?_ fun z hz hzp => ?_
    · rw [headerSize]
      omega
    · rw [len, headerSize]
      omega
    · rw [hq, len, headerSize]
      omega
    · rw [len, hmem p hpq.ne, upd_self, len, Nat.mul_sub]
    · rw [len, upd_self, hhdr]
    · rw [len, len, hmem z fun heq => hqB (heq ▸ hz), upd_of_ne _ _ hzp]

theorem Heap.take (h : Heap base A nodes live u) (hprev : prev ∈ nodes) (hnext : (u.mem prev).ptr = p)
    (hn : 0 < n) (hfit : n ≤ (u.mem p).size) :
    Wp (take n prev p) (fun res t => (∃ x nodes', res = x + headerSize ∧ x ∉ live ∧
        Heap base A nodes' (insert x live) t ∧ (t.mem x).size = n) ∧ t.kernel = u.kernel ∧
      ∀ y ∈ live, t.mem y = u.mem y) E u := by
  have hp : p ∈ nodes := hnext ▸ (h.blocks.ring prev hprev).mem
  have hbase : p ≠ base := by
    rintro rfl
    rw [h.blocks.base_size] at hfit
    omega
  have hprevp : prev ≠ p := by
    rintro rfl
    exact h.blocks.ptr_ne hp hbase hnext
  by_cases hsize : (u.mem p).size = n
  · refine .of_ok (take_exact hsize) ⟨⟨p, nodes.erase p, rfl, h.blocks.disjoint p hp,
      ⟨h.blocks.take_off hprev hnext hbase, ?_, Finset.mem_erase.mpr ⟨hprevp, hprev⟩⟩, ?_⟩, rfl, ?_⟩
    · intro x hx y hy hxy hadj
      refine h.gaps x (Finset.mem_of_mem_erase hx) y (Finset.mem_of_mem_erase hy) hxy ?_
      rw [← hadj, len, len]
      by_cases hx : x = prev
      · rw [hx, User.put_self]
      · rw [User.put_ne _ _ hx]
    · exact (congrArg Header.size (u.put_ne _ hprevp.symm)).trans hsize
    · exact fun y hy => u.put_ne _ fun heq => h.blocks.disjoint prev hprev (heq ▸ hy)
  · obtain ⟨hqn, hqlive, hblocks⟩ := h.blocks.cut
      ⟨((u.put p ⟨(u.mem p).ptr, (u.mem p).size - n⟩).mem (p + headerSize * ((u.mem p).size - n))).ptr, n⟩
      hp hbase hn (lt_of_le_of_ne hfit (Ne.symm hsize)) rfl rfl
    refine .of_ok (take_split hsize) ⟨⟨_, nodes, rfl, hqlive, ⟨hblocks, ?_, hprev⟩, ?_⟩, rfl, ?_⟩
    · intro x hx y hy hxy hadj
      have hxq : x ≠ p + headerSize * ((u.mem p).size - n) := fun heq => hqn (heq ▸ hx)
      rw [len, User.put_ne _ _ hxq] at hadj
      by_cases hxp : x = p
      · rw [hxp, User.put_self] at hadj
        exact hqn (hadj ▸ hy)
      · rw [User.put_ne _ _ hxp] at hadj
        exact h.gaps x hx y hy hxy hadj
    · exact congrArg Header.size (User.put_self ..)
    · intro y hy
      have hyq : y ≠ p + headerSize * ((u.mem p).size - n) := fun heq => hqlive (heq ▸ hy)
      have hyp : y ≠ p := fun heq => h.blocks.disjoint p hp (heq ▸ hy)
      exact (User.put_ne _ _ hyq).trans (u.put_ne _ hyp)

/-! Looking for a block. -/

variable {sbrk : Int → EStateM ε κ Nat}

theorem mallocFrom_scan {l : List Nat} (hwalk : Walk (fun a => (u.mem a).ptr) p l u.freep)
    (hl : ∀ x ∈ l, x ≠ u.freep) (hprev : (u.mem prev).ptr = p) (hnodes : ∀ x ∈ prev :: l, x ∈ nodes)
    (htake : ∀ a ∈ nodes, n ≤ (u.mem (u.mem a).ptr).size → Wp (take n a (u.mem a).ptr) Q E u)
    (hmore : (∀ x ∈ l, (u.mem x).size < n) → (u.mem u.freep).size < n →
      Wp (do
        let p ← morecore sbrk fuel n
        if p = 0 then
          pure 0
        else
          mallocFrom sbrk n fuel p (← load p).ptr) Q E u) :
    Wp (mallocFrom sbrk n (fuel + l.length + 1) prev p) Q E u := by
  induction l generalizing prev p with
  | nil =>
      obtain rfl : p = u.freep := hwalk
      refine .bind (.of_ok rfl (.ite (fun hfit => ?_) fun hsmall => ?_))
      · rw [← hprev] at hfit ⊢
        exact htake prev (hnodes prev List.mem_cons_self) hfit
      · refine .bind (.of_ok rfl (.ite (fun _ => ?_) fun hne => absurd rfl hne))
        exact hmore (fun x hx => by cases hx) (not_le.mp hsmall)
  | cons x l ih =>
      obtain ⟨rfl, hwalk⟩ := hwalk
      refine .bind (.of_ok rfl (.ite (fun hfit => ?_) fun hsmall => ?_))
      · rw [← hprev] at hfit ⊢
        exact htake prev (hnodes prev List.mem_cons_self) hfit
      · refine .bind (.of_ok rfl (.ite (fun heq => absurd heq (hl x List.mem_cons_self)) fun _ => ?_))
        refine .bind (.of_ok rfl ?_)
        refine ih hwalk (fun y hy => hl y (List.mem_cons_of_mem x hy)) rfl
          (fun y hy => hnodes y (List.mem_cons_of_mem prev hy)) fun hsmall' hlast => ?_
        refine hmore (fun y hy => ?_) hlast
        rcases List.mem_cons.mp hy with rfl | hy
        · exact not_le.mp hsmall
        · exact hsmall' y hy

/-- `malloc` looks at every block before it asks for more memory. -/
theorem Heap.scan (h : Heap base A nodes live u)
    (htake : ∀ a ∈ nodes, n ≤ (u.mem (u.mem a).ptr).size → Wp (Umalloc.take n a (u.mem a).ptr) Q E u)
    (hmore : (∀ x ∈ nodes, (u.mem x).size < n) →
      Wp (do
        let p ← morecore sbrk fuel n
        if p = 0 then
          pure 0
        else
          mallocFrom sbrk n fuel p (← load p).ptr) Q E u) :
    Wp (mallocFrom sbrk n (fuel + nodes.card) u.freep (u.mem u.freep).ptr) Q E u := by
  obtain ⟨low, high, hround⟩ := exists_round h.blocks.ring h.freep
  have hmem : ∀ x, x ∈ u.freep :: (high ++ low) ↔ x ∈ nodes := by
    intro x
    rw [← hround.nodes]
    simp only [List.mem_append, List.mem_cons]
    tauto
  have hnodup : (low ++ u.freep :: high).Nodup := hround.sorted.imp fun hlt => hlt.ne
  have hne : ∀ x ∈ high ++ low, x ≠ u.freep := by
    rintro x hx rfl
    have hnot := (List.nodup_middle.mp hnodup)
    exact (List.nodup_cons.mp hnot).1 (List.mem_append.mpr (List.mem_append.mp hx).symm)
  have hlength : nodes.card = (high ++ low).length + 1 := by
    rw [← hround.length]
    rfl
  rw [hlength, ← Nat.add_assoc]
  refine mallocFrom_scan hround.walk.2 hne rfl (fun x hx => (hmem x).mp hx) htake fun hsmall hlast => ?_
  refine hmore fun x hx => ?_
  rcases List.mem_cons.mp ((hmem x).mpr hx) with rfl | hx
  · exact hlast
  · exact hsmall x hx

/-! More memory. -/

/-- `sbrk k`, called when the areas `A` have been handed out, either fails and leaves a kernel with `F`,
or it returns the start of an area above the static data and above the areas before, which the
allocator takes to be `size` bytes long; the kernel then has `G` of the areas with this one. -/
def Grants (sbrk : Int → EStateM ε κ Nat) (F : κ → Prop) (G : κ → List (Nat × Nat) → Prop)
    (base : Nat) (k : Int) (size : Nat) (s : κ) (A : List (Nat × Nat)) : Prop :=
  Wp (sbrk k) (fun p t => (p = minusOne ∧ F t) ∨ (p ≠ minusOne ∧ base + headerSize ≤ p ∧
    (∀ r ∈ A, r.1 + r.2 ≤ p) ∧ G t (A ++ [(p, size)]))) (fun _ _ => False) s

theorem system_wp {α : Type} {x : EStateM ε κ α} {R : α → κ → Prop}
    (hx : Wp x R (fun _ _ => False) u.kernel) :
    Wp (system x) (fun a t => ∃ k, t = { u with kernel := k } ∧ R a k) (fun _ _ => False) u := by
  obtain ⟨a, k, hrun, hR⟩ := hx.returns
  have hsystem : system x u = .ok a { u with kernel := k } := by
    unfold system
    rw [hrun]
  exact .of_ok hsystem ⟨k, rfl, hR⟩

theorem Blocks.extend (h : Blocks base A nodes live mem) (hdr : Header) (hlow : base + headerSize ≤ p)
    (habove : ∀ r ∈ A, r.1 + r.2 ≤ p) (hn : 0 < n) (hhdr : hdr.size = n) :
    p ∉ nodes ∧ p ∉ live ∧
      Blocks base (A ++ [(p, headerSize * n)]) nodes (insert p live) (upd mem p hdr) := by
  have hcovered : ∀ a ∈ covered A, a < p := by
    rintro a ⟨r, hr, -, har⟩
    exact har.trans_le (habove r hr)
  have hpB : p ∉ nodes.erase base ∪ live := by
    intro hmem
    refine lt_irrefl p (hcovered p ((h.tiles.cover p).mpr ⟨p, hmem, le_rfl, ?_⟩))
    exact Nat.lt_add_of_pos_right (h.tiles.pos p hmem)
  have hpbase : p ≠ base := by
    rw [headerSize] at hlow
    omega
  have hpn : p ∉ nodes := fun hmem =>
    hpB (Finset.mem_union_left _ (Finset.mem_erase.mpr ⟨hpbase, hmem⟩))
  have hplive : p ∉ live := fun hmem => hpB (Finset.mem_union_right _ hmem)
  refine ⟨hpn, hplive, ?_, h.base_mem, ?_, ?_, ?_, ?_⟩
  · intro a ha
    have hap : a ≠ p := fun heq => hpn (heq ▸ ha)
    rw [upd_of_ne _ _ hap]
    exact h.ring a ha
  · rw [upd_of_ne _ _ hpbase.symm, h.base_size]
  · intro z hz hlive
    rcases Finset.mem_insert.mp hlive with rfl | hlive
    · exact hpn hz
    · exact h.disjoint z hz hlive
  · rw [Finset.union_insert, covered_append]
    refine h.tiles.add ?_ hcovered ?_ fun z hz => ?_
    · rw [headerSize]
      omega
    · rw [len, upd_self, hhdr]
    · have hzp : z ≠ p := fun heq => hpB (heq ▸ hz)
      rw [len, len, upd_of_ne _ _ hzp]
  · intro a ha
    rw [covered_append] at ha
    rcases ha with ha | ha
    · exact h.above a ha
    · exact hlow.trans ha.1

section Morecore

variable {F : κ → Prop} {G : κ → List (Nat × Nat) → Prop}

theorem Heap.morecore (h : Heap base A nodes live u)
    (hgrants : Grants sbrk F G base (int32 (max 4096 n * headerSize)) (headerSize * max 4096 n)
      u.kernel A)
    (hroom : total A + headerSize * max 4096 n < 0x1000000000) (hfuel : nodes.card ≤ fuel) :
    Wp (morecore sbrk fuel n) (fun p t => (∀ x ∈ live, t.mem x = u.mem x) ∧
      ((p = 0 ∧ F t.kernel ∧ Heap base A nodes live t) ∨
        ∃ A' nodes', p = t.freep ∧ Heap base A' nodes' live t ∧ G t.kernel A' ∧
          total A' < 0x1000000000 ∧ nodes'.card ≤ nodes.card + 1 ∧
          ∃ q ∈ nodes', n ≤ (t.mem q).size)) (fun _ _ => False) u := by
  have hnu : (if n < 4096 then 4096 else n) = max 4096 n := by
    split <;> omega
  unfold Umalloc.morecore
  rw [hnu]
  refine .bind ((system_wp hgrants).imp fun p t hp => ?_)
  obtain ⟨k, rfl, ⟨rfl, hF⟩ | ⟨hp, hlow, habove, hG⟩⟩ := hp
  · rw [if_pos rfl]
    exact .pure ⟨fun x _ => rfl, Or.inl ⟨rfl, hF, ⟨h.blocks, h.gaps, h.freep⟩⟩⟩
  · rw [if_neg hp]
    have hpos : 0 < max 4096 n := by omega
    obtain ⟨hpn, hplive, hblocks⟩ := h.blocks.extend { u.mem p with size := max 4096 n } hlow
      habove hpos rfl
    refine .bind (.of_ok rfl ?_)
    have hheap : Heap base (A ++ [(p, headerSize * max 4096 n)]) nodes (insert p live)
        (User.put { u with kernel := k } p { u.mem p with size := max 4096 n }) := by
      refine ⟨hblocks, fun x hx y hy hxy => ?_, h.freep⟩
      have hxp : x ≠ p := fun heq => hpn (heq ▸ hx)
      rw [len, User.put_ne _ _ hxp]
      exact h.gaps x hx y hy hxy
    have hroom' : total (A ++ [(p, headerSize * max 4096 n)]) < 0x1000000000 := by
      rw [total_append]
      exact hroom
    refine .bind ((hheap.free hroom' (Finset.mem_insert_self p live) hfuel).imp fun _ t ht => ?_)
    obtain ⟨⟨nodes', hheap', hcard, q, hq, hsize'⟩, hkernel, hsame⟩ := ht
    rw [Finset.erase_insert hplive] at hheap' hsame
    refine .bind (.of_ok rfl (.pure ⟨fun x hx => ?_, Or.inr ⟨_, nodes', rfl, hheap', ?_, hroom',
      hcard, q, hq, ?_⟩⟩))
    · rw [hsame x hx]
      exact User.put_ne _ _ fun heq => hplive (heq ▸ hx)
    · rw [hkernel]
      exact hG
    · rw [User.put_self] at hsize'
      exact (le_max_right 4096 n).trans hsize'

/-- What `malloc` returns: null, or the memory behind the header of a block of `n` units. -/
structure Served (F : κ → Prop) (G : κ → List (Nat × Nat) → Prop) (base n : Nat)
    (A : List (Nat × Nat)) (live : Finset Nat) (u : User κ) (res : Nat) (t : User κ) : Prop where
  same : ∀ x ∈ live, t.mem x = u.mem x
  outcome : (res = 0 ∧ F t.kernel ∧ ∃ nodes, Heap base A nodes live t) ∨
    ∃ A' nodes x, G t.kernel A' ∧ total A' < 0x1000000000 ∧ res = x + headerSize ∧ x ∉ live ∧
      Heap base A' nodes (insert x live) t ∧ (t.mem x).size = n

theorem Heap.mallocFrom (h : Heap base A nodes live u) (hbase : 0 < base) (hG : G u.kernel A)
    (hgrants : Grants sbrk F G base (int32 (max 4096 n * headerSize)) (headerSize * max 4096 n)
      u.kernel A)
    (hpos : 0 < n) (hroom : total A + headerSize * max 4096 n < 0x1000000000)
    (hfuel : 2 * nodes.card + 1 ≤ fuel) :
    Wp (mallocFrom sbrk n fuel u.freep (u.mem u.freep).ptr) (Served F G base n A live u)
      (fun _ _ => False) u := by
  obtain ⟨fuel, rfl⟩ : ∃ k, fuel = k + nodes.card := ⟨fuel - nodes.card, by omega⟩
  refine h.scan (fun a ha hfit => ?_) fun _ => ?_
  · refine (h.take ha rfl hpos hfit).imp fun res t ht => ?_
    obtain ⟨⟨x, nodes', hres, hx, hheap, hsize⟩, hkernel, hsame⟩ := ht
    exact ⟨hsame, Or.inr ⟨A, nodes', x, hkernel ▸ hG, by omega, hres, hx, hheap, hsize⟩⟩
  · refine .bind ((h.morecore hgrants hroom (by omega)).imp fun p t hp => ?_)
    obtain ⟨hsame, ⟨rfl, hF, hheap⟩ | ⟨A', nodes', rfl, hheap, hG', hroom', hcard, q, hq, hfit⟩⟩ := hp
    · exact .pure ⟨hsame, Or.inl ⟨rfl, hF, nodes, hheap⟩⟩
    · have hne : t.freep ≠ 0 := by
        have hle := hheap.blocks.base_le_node hheap.freep
        omega
      rw [if_neg hne]
      refine .bind (.of_ok rfl ?_)
      -- the second round finds the new block, at the latest when it comes back
      obtain ⟨fuel, rfl⟩ : ∃ k, fuel = k + nodes'.card := ⟨fuel - nodes'.card, by omega⟩
      refine hheap.scan (fun a ha hfit => ?_) fun hnone => absurd (hnone q hq) (by omega)
      refine (hheap.take ha rfl hpos hfit).imp fun res t' ht => ?_
      obtain ⟨⟨x, nodes'', hres, hx, hheap', hsize⟩, hkernel, hsame'⟩ := ht
      exact ⟨fun y hy => (hsame' y hy).trans (hsame y hy), Or.inr ⟨A', nodes'', x, hkernel ▸ hG',
        hroom', hres, hx, hheap', hsize⟩⟩

def Ready (base : Nat) (A : List (Nat × Nat)) (live : Finset Nat) (u : User κ) : Prop :=
  (u.freep = 0 ∧ A = [] ∧ live = ∅) ∨ ∃ nodes, Heap base A nodes live u

theorem Heap.initial {u : User κ} (hfreep : u.freep = base) (hmem : u.mem base = ⟨base, 0⟩) :
    Heap base [] {base} ∅ u := by
  refine ⟨⟨?_, Finset.mem_singleton_self base, ?_, ?_, ?_, ?_⟩, ?_, ?_⟩
  · intro a ha
    obtain rfl := Finset.mem_singleton.mp ha
    rw [hmem]
    refine ⟨Finset.mem_singleton_self a, Or.inr ⟨fun c hc => ?_, fun c hc => ?_⟩⟩ <;>
      rw [Finset.mem_singleton.mp hc]
  · rw [hmem]
  · exact fun x _ => Finset.notMem_empty x
  · refine ⟨fun x hx => ?_, fun x hx => ?_, fun a => ?_⟩
    · simp at hx
    · simp at hx
    · simp [covered]
  · intro a ha
    simp [covered] at ha
  · intro x hx y hy hxy
    exact absurd ((Finset.mem_singleton.mp hx).trans (Finset.mem_singleton.mp hy).symm) hxy
  · rw [hfreep]
    exact Finset.mem_singleton_self base

def User.start (u : User κ) (base : Nat) : User κ :=
  { u with mem := upd u.mem base ⟨base, 0⟩, freep := base }

theorem User.start_base (u : User κ) (base : Nat) : (u.start base).mem base = ⟨base, 0⟩ := upd_self ..

theorem malloc_first {nbytes : Nat} (hfreep : u.freep = 0) : malloc sbrk base fuel nbytes u =
    mallocFrom sbrk (nunits nbytes) fuel base base (u.start base) := by
  have hrun : malloc sbrk base fuel nbytes u = (do
      setFreep base
      setPtr base base
      setSize base 0
      let prevp := (← get).freep
      mallocFrom sbrk (nunits nbytes) fuel prevp (← load prevp).ptr : M ε κ Nat) u :=
    run_bind_ok rfl _ |>.trans (run_ite _ _ u) |>.trans (if_pos hfreep)
  rw [hrun]
  show mallocFrom sbrk (nunits nbytes) fuel base _ _ = _
  simp only [upd_self, upd_upd, User.start]

theorem malloc_again {nbytes : Nat} (hfreep : u.freep ≠ 0) : malloc sbrk base fuel nbytes u =
    mallocFrom sbrk (nunits nbytes) fuel u.freep (u.mem u.freep).ptr u :=
  run_bind_ok rfl _ |>.trans (run_ite _ _ u) |>.trans (if_neg hfreep)

/-- Every request is served or refused, and the heap stays in order. -/
theorem Ready.serve {nbytes : Nat} (h : Ready base A live u) (hbase : 0 < base) (hG : G u.kernel A)
    (hgrants : Grants sbrk F G base (int32 (max 4096 (nunits nbytes) * headerSize))
      (headerSize * max 4096 (nunits nbytes)) u.kernel A)
    (hpos : 0 < nunits nbytes)
    (hroom : total A + headerSize * max 4096 (nunits nbytes) < 0x1000000000) :
    ∃ N, ∀ fuel ≥ N, Wp (malloc sbrk base fuel nbytes) (Served F G base (nunits nbytes) A live u)
      (fun _ _ => False) u := by
  rcases h with ⟨hfreep, rfl, rfl⟩ | ⟨nodes, h⟩
  · refine ⟨3, fun fuel hfuel => ⟨?_⟩⟩
    have hheap : Heap base [] {base} ∅ (u.start base) := Heap.initial rfl (u.start_base base)
    have hfuel' : 2 * ({base} : Finset Nat).card + 1 ≤ fuel := by
      rw [Finset.card_singleton]
      exact hfuel
    have hserved := hheap.mallocFrom hbase hG hgrants hpos hroom hfuel'
    rw [show (u.start base).freep = base from rfl, u.start_base] at hserved
    rw [malloc_first hfreep]
    refine (hserved.imp fun res t ht => ?_).outcome
    exact ⟨fun x hx => absurd hx (Finset.notMem_empty x), ht.outcome⟩
  · refine ⟨2 * nodes.card + 1, fun fuel hfuel => ⟨?_⟩⟩
    have hne : u.freep ≠ 0 := by
      have hle := h.blocks.base_le_node h.freep
      omega
    rw [malloc_again hne]
    exact (h.mallocFrom hbase hG hgrants hpos hroom hfuel).outcome

end Morecore

end Malloc

end Xv6Mmap.Umalloc
