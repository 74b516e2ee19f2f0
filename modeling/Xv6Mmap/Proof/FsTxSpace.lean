import Xv6Mmap.Proof.FsTxSim

/-!
# How much a function records

Functions that do not look for inodes keep the numbers of those in memory. For them the blocks that are
recorded can be counted without regard to the state: the bitmap, the blocks of certain inodes, and a
number of other blocks.
-/

namespace Xv6Mmap.Fs

open Sequential

def State.numbers (s : State) : Superblock × (Nat → Nat) := (s.sb, fun ip => (s.itable ip).inum)

theorem numbers_setInode (s : State) (ip : Nat) {node : Inode}
    (hinum : node.inum = (s.itable ip).inum) :
    State.numbers { s with itable := upd s.itable ip node } = s.numbers := by
  simp only [State.numbers, Prod.mk.injEq, true_and]
  funext iq
  by_cases hiq : iq = ip
  · rw [hiq, upd_self, hinum]
  · rw [upd_of_ne _ _ hiq]

theorem numbers_untouched (ip : Nat) : Untouched ip State.numbers where
  data := fun _ _ => rfl
  bitmap := fun _ _ => rfl
  copy := fun s _ => numbers_setInode s ip rfl
  dinode := fun _ _ => rfl

theorem modifyInode_numbers (ip : Nat) {g : Inode → Inode} (hg : ∀ node, (g node).inum = node.inum) :
    Keeps State.numbers (modifyInode ip g) := fun s => .of_ok rfl (numbers_setInode s ip (hg _))

theorem ilock_numbers (ip : Nat) : Keeps State.numbers (ilock ip) := by
  unfold ilock
  exact .bind (getInode_keeps _) fun _ => .when (stop_keeps _) fun _ => .when (stop_keeps _) fun _ =>
    .bind (modifyInode_numbers _ fun _ => rfl) fun _ => .ite
      (.bind .get fun _ => .when (stop_keeps _) fun _ => .bind (modifyInode_numbers _ fun _ => rfl)
        fun _ => .ite (stop_keeps _) (.pure _)) (.pure _)

theorem iunlock_numbers (ip : Nat) : Keeps State.numbers (iunlock ip) := by
  unfold iunlock
  exact .bind (getInode_keeps _) fun _ => .when (stop_keeps _) fun _ =>
    modifyInode_numbers _ fun _ => rfl

namespace Tx

def inodeBlock (i : Nat) : Block := .inode (i / ipb)

/-- What is in the header has been there, is the first block of the bitmap, or one of `D`. -/
def Adds (D : List Block) (c c' : Tx) : Prop :=
  ∀ blk ∈ c'.header, blk ∈ c.header ∨ blk = .bitmap 0 ∨ blk ∈ D

section Adds

variable {D D' : List Block} {c c' c'' : Tx}

theorem Adds.of_header (hheader : c'.header = c.header) : Adds D c c' := fun _ hblk =>
  .inl (hheader ▸ hblk)

theorem Adds.mono (h : Adds D c c') (hD : D ⊆ D') : Adds D' c c' := fun blk hblk =>
  (h blk hblk).imp_right (Or.imp_right fun hmem => hD hmem)

theorem Adds.trans (h : Adds D c c') (h' : Adds D c' c'') : Adds D c c'' := fun blk hblk =>
  (h' blk hblk).elim (h blk) .inr

theorem Adds.log (h : Adds D c c') {blk : Block} (hblk : blk = .bitmap 0 ∨ blk ∈ D)
    (hheader : c''.header = record c'.header blk) : Adds D c c'' := by
  intro blk' hmem
  rw [hheader, mem_record] at hmem
  rcases hmem with hmem | rfl
  · exact h blk' hmem
  · exact .inr hblk

end Adds

/-- Besides the bitmap and the blocks `K` at most `n` blocks are added. -/
def Grew (K : List Block) (n : Nat) (c c' : Tx) : Prop := ∃ D : List Block, D.length ≤ n ∧ Adds (K ++ D) c c'

section Grew

variable {K K' : List Block} {n m : Nat} {c c' c'' : Tx}

theorem Grew.of_adds {D : List Block} (h : Adds (K ++ D) c c') (hn : D.length ≤ n) : Grew K n c c' :=
  ⟨D, hn, h⟩

theorem Grew.of_header (hheader : c'.header = c.header) : Grew K n c c' :=
  ⟨[], Nat.zero_le _, .of_header hheader⟩

theorem Grew.mono (h : Grew K n c c') (hK : K ⊆ K') (hn : n ≤ m) : Grew K' m c c' := by
  obtain ⟨D, hlen, hadds⟩ := h
  refine ⟨D, hlen.trans hn, hadds.mono fun blk hblk => ?_⟩
  exact List.mem_append.mpr ((List.mem_append.mp hblk).imp_left fun h => hK h)

theorem Grew.trans (h : Grew K n c c') (h' : Grew K m c' c'') : Grew K (n + m) c c'' := by
  obtain ⟨D, hlen, hadds⟩ := h
  obtain ⟨D', hlen', hadds'⟩ := h'
  refine ⟨D ++ D', by rw [List.length_append]; omega, Adds.trans (hadds.mono ?_) (hadds'.mono ?_)⟩
  · exact fun blk hblk => by
      rw [List.mem_append] at hblk ⊢
      exact hblk.imp_right (List.mem_append_left _)
  · exact fun blk hblk => by
      rw [List.mem_append] at hblk ⊢
      exact hblk.imp_right (List.mem_append_right _)

theorem Grew.forget {blk : Block} (h : Grew (blk :: K) n c c') : Grew K (n + 1) c c' := by
  obtain ⟨D, hlen, hadds⟩ := h
  refine ⟨blk :: D, Nat.succ_le_succ hlen, hadds.mono fun blk' hmem => ?_⟩
  simp only [List.cons_append, List.mem_cons, List.mem_append] at hmem ⊢
  tauto

theorem Grew.card_le (h : Grew [] n c c') (hempty : c.header = []) :
    c'.header.toFinset.card ≤ n + 1 := by
  obtain ⟨D, hlen, hadds⟩ := h
  have hsub : c'.header.toFinset ⊆ insert (.bitmap 0) D.toFinset := by
    intro blk hblk
    rcases hadds blk (List.mem_toFinset.mp hblk) with hold | hbit | hmem
    · rw [hempty] at hold
      cases hold
    · exact Finset.mem_insert.mpr (.inl hbit)
    · exact Finset.mem_insert.mpr (.inr (List.mem_toFinset.mpr hmem))
  calc c'.header.toFinset.card
      ≤ (insert (Block.bitmap 0) D.toFinset).card := Finset.card_le_card hsub
    _ ≤ D.toFinset.card + 1 := Finset.card_insert_le _ _
    _ ≤ n + 1 := Nat.succ_le_succ ((List.toFinset_card_le D).trans hlen)

end Grew

/-! ### Functions that keep the numbers -/

structure Recorded (K : List Block) (n : Nat) (c c' : Tx) : Prop where
  numbers : c'.fs.numbers = c.fs.numbers
  grew : Grew K n c c'

/-- There is one block of the bitmap, and `x` keeps the numbers and records, besides it and the blocks
`K` that go with them, at most `n` blocks. -/
def Records {α : Type} (K : (Nat → Nat) → List Block) (n : Nat) (x : B α) : Prop :=
  ∀ c : Tx, c.fs.sb.size ≤ bpb → Wp x (fun _ c' => Recorded (K c.fs.numbers.2) n c c')
    (fun _ c' => Recorded (K c.fs.numbers.2) n c c') c

theorem lift_header {α : Type} (y : F α) (c : Tx) :
    Wp (lift y) (fun _ c' => c'.header = c.header) (fun _ c' => c'.header = c.header) c :=
  ⟨by unfold lift; cases y c.fs <;> rfl⟩

section Records

variable {α β : Type} {K : (Nat → Nat) → List Block} {n m : Nat}

theorem Recorded.trans {K : List Block} {c c' c'' : Tx} (h : Recorded K n c c')
    (h' : Recorded K m c' c'') : Recorded K (n + m) c c'' :=
  ⟨h'.numbers.trans h.numbers, h.grew.trans h'.grew⟩

theorem Recorded.size {K : List Block} {c c' : Tx} (h : Recorded K n c c')
    (hsize : c.fs.sb.size ≤ bpb) : c'.fs.sb.size ≤ bpb := by
  rwa [show c'.fs.sb = c.fs.sb from congrArg Prod.fst h.numbers]

theorem Recorded.mono {K K' : List Block} {c c' : Tx} (h : Recorded K n c c') (hK : K ⊆ K')
    (hn : n ≤ m) : Recorded K' m c c' := ⟨h.numbers, h.grew.mono hK hn⟩

namespace Records

theorem mono {K' : (Nat → Nat) → List Block} {x : B α} (hx : Records K n x)
    (hK : ∀ inum, K inum ⊆ K' inum) (hn : n ≤ m) : Records K' m x := fun c hsize =>
  (hx c hsize).mono (fun _ _ h => h.mono (hK _) hn) fun _ _ h => h.mono (hK _) hn

theorem pure (a : α) : Records K 0 (pure a) := fun _ _ => .pure ⟨rfl, .of_header rfl⟩

theorem bind {x : B β} {f : β → B α} (hx : Records K n x) (hf : ∀ b, Records K m (f b)) :
    Records K (n + m) (x >>= f) := fun c hsize => by
  refine .bind ((hx c hsize).mono (fun b c' hc => ?_) fun _ _ hc =>
    hc.mono (List.Subset.refl _) (Nat.le_add_right n m))
  have hnext := hf b c' (hc.size hsize)
  rw [show c'.fs.numbers = c.fs.numbers from hc.numbers] at hnext
  exact hnext.mono (fun _ _ h => hc.trans h) fun _ _ h => hc.trans h

theorem bind_zero {x : B β} {f : β → B α} (hx : Records K n x) (hf : ∀ b, Records K 0 (f b)) :
    Records K n (x >>= f) := hx.bind hf

theorem zero_bind {x : B β} {f : β → B α} (hx : Records K 0 x) (hf : ∀ b, Records K n (f b)) :
    Records K n (x >>= f) := (hx.bind hf).mono (fun _ => List.Subset.refl _) (Nat.zero_add n).le

theorem ite {p : Prop} [Decidable p] {x y : B α} (hx : Records K n x) (hy : Records K n y) :
    Records K n (if p then x else y) := fun c hsize =>
  .ite (fun _ => hx c hsize) fun _ => hy c hsize

theorem lift {y : F α} (hy : Keeps State.numbers y) : Records K 0 (lift y) := fun c _ =>
  (((Sim.lift y).wp (hy c.fs)).and (lift_header y c)).mono (fun _ _ h => ⟨h.1, .of_header h.2⟩)
    fun _ _ h => ⟨h.1, .of_header h.2⟩

theorem forUp {step n a : Nat} {body : Nat → B Unit} (hbody : ∀ i, Records K 0 (body i)) :
    Records K 0 (Sequential.forUp step body n a) := by
  induction n generalizing a with
  | zero => exact .pure ()
  | succ n ih => exact (hbody a).bind_zero fun _ => ih

end Records

end Records

/-! ### Freeing -/

abbrev OfInode (ip : Nat) (inum : Nat → Nat) : List Block := [inodeBlock (inum ip)]

section Freeing

variable {K : (Nat → Nat) → List Block}

theorem bfree_lt (b : Nat) (s : State) :
    Wp (Fs.bfree b) (fun _ _ => b < s.sb.size) (fun _ _ => True) s := by
  refine .get (.ite (fun _ => .bind (.of_error rfl trivial)) fun hdata => ?_)
  have hdata : s.sb.isData b = true := by simpa using hdata
  have hlt : b < s.sb.size := of_decide_eq_true (Bool.and_eq_true_iff.mp hdata).2
  exact .ite (fun _ => .bind (.of_error rfl trivial)) fun _ => .of_ok rfl hlt

theorem bfree_records (b : Nat) : Records K 0 (bfree b) := fun c hsize => by
  have hlift := Records.lift (K := K) (bfree_keeps (numbers_untouched 0) b) c hsize
  refine .bind ((hlift.and ((Sim.lift (Fs.bfree b)).wp (bfree_lt b c.fs))).mono ?_ fun _ _ h => h.1)
  rintro _ c' ⟨hc, hlt⟩
  obtain ⟨D, hlen, hadds⟩ := hc.grew
  have hbit : b / bpb = 0 := Nat.div_eq_of_lt (hlt.trans_le hsize)
  exact .of_ok rfl ⟨hc.numbers, D, hlen, hadds.log (.inl (by rw [hbit])) rfl⟩

theorem iupdate_records (ip : Nat) : Records (OfInode ip) 0 (iupdate ip) := fun c hsize => by
  refine .bind (.of_ok rfl (.bind ((Records.lift (K := OfInode ip)
    (iupdate_keeps (numbers_untouched ip)) c hsize).mono (fun _ c' hc => ?_) fun _ _ h => h)))
  obtain ⟨D, hlen, hadds⟩ := hc.grew
  refine .of_ok rfl ⟨hc.numbers, D, hlen, hadds.log (.inr ?_) rfl⟩
  exact List.mem_append_left _ List.mem_cons_self

theorem modifyCopy_records (ip : Nat) (g : Dinode → Dinode) : Records K 0 (lift (modifyCopy ip g)) :=
  .lift (modifyCopy_keeps (numbers_untouched ip) g)

theorem getInode_records (ip : Nat) : Records K 0 (lift (getInode ip)) := .lift (getInode_keeps ip)

theorem itrunc_records (ip : Nat) : Records (OfInode ip) 0 (itrunc ip) := by
  have hend : Records (OfInode ip) 0 (do
      lift (modifyCopy ip fun copy => { copy with size := 0 })
      iupdate ip) := (modifyCopy_records ip _).bind fun _ => iupdate_records ip
  refine .bind_zero (.forUp fun i => (getInode_records ip).bind_zero fun _ => ?_) fun _ =>
    (getInode_records ip).bind_zero fun _ => .ite ?_ hend
  · exact .ite ((bfree_records _).bind_zero fun _ => modifyCopy_records ip _) (.pure _)
  · exact .bind_zero (.lift (readBlock_keeps _)) fun _ =>
      .bind_zero (.forUp fun _ => .ite (bfree_records _) (.pure _)) fun _ =>
      (bfree_records _).bind_zero fun _ => (modifyCopy_records ip _).bind_zero fun _ => hend

theorem modifyInode_records (ip : Nat) {g : Inode → Inode} (hg : ∀ node, (g node).inum = node.inum) :
    Records K 0 (lift (modifyInode ip g)) := .lift (modifyInode_numbers ip hg)

theorem ifree_records (ip : Nat) : Records (OfInode ip) 0 (ifree ip) := by
  have hrest : Records (OfInode ip) 0 (do
      lift (modifyInode ip fun node => { node with locked := true })
      itrunc ip
      lift (modifyCopy ip fun copy => { copy with type := .free })
      iupdate ip
      lift (modifyInode ip fun node => { node with valid := false })
      lift (modifyInode ip fun node => { node with locked := false })) :=
    .bind_zero (modifyInode_records ip fun _ => rfl) fun _ => (itrunc_records ip).bind_zero fun _ =>
      (modifyCopy_records ip _).bind_zero fun _ => (iupdate_records ip).bind_zero fun _ =>
      .bind_zero (modifyInode_records ip fun _ => rfl) fun _ => modifyInode_records ip fun _ => rfl
  exact (getInode_records ip).bind_zero fun _ =>
    .ite (.bind_zero (.lift (stop_keeps _)) fun _ => hrest) hrest

theorem iput_records (ip : Nat) : Records (OfInode ip) 0 (iput ip) := by
  have hdrop : Records (OfInode ip) 0
      (lift (modifyInode ip fun node => { node with ref := node.ref - 1 })) :=
    modifyInode_records ip fun _ => rfl
  exact (getInode_records ip).bind_zero fun _ => .ite ((ifree_records ip).bind_zero fun _ => hdrop) hdrop

theorem iunlockput_records (ip : Nat) : Records (OfInode ip) 0 (iunlockput ip) :=
  .bind_zero (.lift (iunlock_numbers ip)) fun _ => iput_records ip

theorem addLink_records (ip : Nat) (d : Int) : Records (OfInode ip) 0 (addLink ip d) :=
  (modifyCopy_records ip _).bind_zero fun _ => iupdate_records ip

end Freeing

/-! ### Allocating and writing -/

abbrev AddsOnly (D : List Block) (c c' : Tx) : Prop := c'.fs.numbers = c.fs.numbers ∧ Adds D c c'

theorem AddsOnly.recorded {K D : List Block} {n : Nat} {c c' : Tx} (h : AddsOnly D c c')
    (hn : D.length ≤ n) : Recorded K n c c' :=
  ⟨h.1, D, hn, h.2.mono fun _ => List.mem_append_right K⟩

section Writing

variable {c : Tx}

theorem balloc_adds (hsize : c.fs.sb.size ≤ bpb) :
    Wp balloc (fun r c' => AddsOnly [.data r] c c') (fun _ c' => AddsOnly [] c c') c := by
  refine .get ?_
  split
  · rename_i b hfind
    have hlt : b < c.fs.sb.size := List.mem_range.mp (List.mem_of_find?_eq_some hfind)
    have hbit : b / bpb = 0 := Nat.div_eq_of_lt (hlt.trans_le hsize)
    have hmark : ∀ D, Adds D c { fs := { c.fs with bitmap := upd c.fs.bitmap b true }
                                 header := record c.header (.bitmap (b / bpb)) } := fun D =>
      Adds.log (.of_header rfl) (.inl (by rw [hbit])) rfl
    refine .bind (.of_ok rfl (.bind (.of_ok rfl (.bind (.bind ?_)))))
    by_cases hdata : c.fs.sb.isData b = true
    · refine .of_ok (lift_modifyBlock b _ hdata) (.of_ok rfl (.pure ⟨rfl, ?_⟩))
      exact (hmark [.data b]).log (.inr List.mem_cons_self) rfl
    · exact .of_error (lift_modifyBlock_wild b _ hdata) ⟨rfl, hmark []⟩
  · exact .pure ⟨rfl, .of_header rfl⟩

theorem bmapSlot_adds (ip k : Nat) (hsize : c.fs.sb.size ≤ bpb) :
    Wp (bmapSlot ip k) (fun r c' => AddsOnly [.data r] c c') (fun _ c' => AddsOnly [] c c') c := by
  refine .bind (.of_ok rfl (.ite (fun _ => .bind ((balloc_adds hsize).imp fun r c' hc => ?_))
    fun _ => .pure ⟨rfl, .of_header rfl⟩))
  refine .ite (fun hr => .pure (hr ▸ hc)) fun _ => .bind (.of_ok rfl (.pure ⟨?_, hc.2⟩))
  refine Eq.trans ?_ hc.1
  exact numbers_setInode c'.fs ip rfl

theorem bmapIndirect_adds (a j : Nat) (hsize : c.fs.sb.size ≤ bpb) :
    Wp (bmapIndirect a j) (fun r c' => AddsOnly [.data a, .data r] c c')
      (fun _ c' => ∃ r, AddsOnly [.data a, .data r] c c') c := by
  have hsame : ∀ D, AddsOnly D c c := fun D => ⟨rfl, .of_header rfl⟩
  by_cases hdata : c.fs.sb.isData a = true
  swap
  · have hwild : lift (readBlock a) c = .error .wild c := by simp only [lift, readBlock, if_neg hdata]
    exact .bind (.of_error hwild ⟨0, hsame _⟩)
  have hblock : lift (readBlock a) c = .ok (c.fs.data a) c := by
    simp only [lift, readBlock, if_pos hdata]
  refine .bind (.of_ok hblock
    (.ite (fun _ => .bind ((balloc_adds hsize).mono (fun r c' hc => ?_) fun _ c' hc =>
      ⟨0, hc.1, hc.2.mono (List.nil_subset _)⟩)) fun _ => .pure (hsame _)))
  have hadds : Adds [.data a, .data r] c c' := hc.2.mono (List.subset_cons_self _ _)
  have hsb : c'.fs.sb = c.fs.sb := congrArg Prod.fst hc.1
  refine .ite (fun _ => .bind (.of_ok (lift_modifyBlock a _ (hsb ▸ hdata)) (.bind (.of_ok rfl
    (.pure ⟨hc.1, ?_⟩))))) fun _ => .pure ⟨hc.1, hadds⟩
  exact hadds.log (.inr List.mem_cons_self) rfl

theorem bmap_adds (ip bn : Nat) (hsize : c.fs.sb.size ≤ bpb) :
    Wp (bmap ip bn) (fun r c' => ∃ a, AddsOnly [.data a, .data r] c c')
      (fun _ c' => ∃ a r, AddsOnly [.data a, .data r] c c') c := by
  have hone : ∀ {r : Nat} {c' : Tx}, AddsOnly [.data r] c c' → AddsOnly [.data r, .data r] c c' :=
    fun h => ⟨h.1, h.2.mono (List.subset_cons_self _ _)⟩
  have hnone : ∀ {c' : Tx}, AddsOnly [] c c' → ∃ a r, AddsOnly [.data a, .data r] c c' :=
    fun h => ⟨0, 0, h.1, h.2.mono (List.nil_subset _)⟩
  refine .ite (fun _ => (bmapSlot_adds ip bn hsize).mono (fun r _ h => ⟨r, hone h⟩) fun _ _ => hnone)
    fun _ => .ite (fun _ => .bind ((bmapSlot_adds ip ndirect hsize).mono (fun a c' hc => ?_)
      fun _ _ => hnone)) fun _ => .of_error rfl (hnone ⟨rfl, .of_header rfl⟩)
  refine .ite (fun ha => .pure ⟨a, ha ▸ hone hc⟩) fun _ => ?_
  have hsize' : c'.fs.sb.size ≤ bpb := (hc.recorded (K := []) (n := 1) le_rfl).size hsize
  have hboth : ∀ {r : Nat} {c'' : Tx}, AddsOnly [.data a, .data r] c' c'' →
      AddsOnly [.data a, .data r] c c'' := fun h =>
    ⟨h.1.trans hc.1, (hc.2.mono (by simp)).trans h.2⟩
  exact (bmapIndirect_adds a _ hsize').mono (fun _ _ h => ⟨a, hboth h⟩) fun _ _ ⟨r, h⟩ =>
    ⟨a, r, hboth h⟩

def span (off n : Nat) : Nat := if n = 0 then 0 else (off + n - 1) / bsize - off / bsize + 1

theorem span_step (off : Nat) {n : Nat} (hn : 0 < n) :
    span off n = span (off + min n (bsize - off % bsize)) (n - min n (bsize - off % bsize)) + 1 := by
  rcases Nat.le_total n (bsize - off % bsize) with hle | hle
  · rw [Nat.min_eq_left hle, Nat.sub_self, span, span, if_pos rfl, if_neg (by omega)]
    simp only [bsize] at hle ⊢
    omega
  · rw [Nat.min_eq_right hle, span, span, if_neg (by omega)]
    split <;> simp only [bsize] at * <;> omega

/-- The loop of `writei`: each block comes with at most one indirect block. -/
theorem writeiFrom_records (ip : Nat) (src : Nat → Option Nat) (n rounds : Nat) {tot : Nat}
    (htot : tot ≤ n) (off : Nat) {K : (Nat → Nat) → List Block} :
    Records K (2 * span off (n - tot)) (writeiFrom ip src n rounds tot off) := by
  induction rounds generalizing tot off with
  | zero => exact (Records.pure tot).mono (fun _ => List.Subset.refl _) (Nat.zero_le _)
  | succ rounds ih =>
      intro c hsize
      unfold writeiFrom
      have hsame : Recorded (K c.fs.numbers.2) (2 * span off (n - tot)) c c := ⟨rfl, .of_header rfl⟩
      refine .ite (fun hlt => ?_) fun _ => .pure hsame
      have hspan := span_step off (show 0 < n - tot by omega)
      generalize hm : min (n - tot) (bsize - off % bsize) = m at hspan ⊢
      rw [hspan, Nat.mul_add, Nat.mul_one, Nat.add_comm]
      have htwo : ∀ {a r : Nat} {c' : Tx}, AddsOnly [.data a, .data r] c c' →
          Recorded (K c.fs.numbers.2) 2 c c' := fun h => h.recorded le_rfl
      have hless : ∀ {c' : Tx}, Recorded (K c.fs.numbers.2) 2 c c' →
          Recorded (K c.fs.numbers.2) (2 + 2 * span (off + m) (n - tot - m)) c c' := fun h =>
        h.mono (List.Subset.refl _) (Nat.le_add_right _ _)
      refine .bind ((bmap_adds ip (off / bsize) hsize).mono (fun r c' ⟨a, hc⟩ => ?_)
        fun _ c' ⟨a, r, hc⟩ => hless (htwo hc))
      refine .ite (fun _ => .pure (hless (htwo hc))) fun _ => ?_
      -- the block itself has been counted
      have hrest : ∀ c₂ : Tx, c₂.fs.numbers = c'.fs.numbers →
          c₂.header = record c'.header (.data r) →
          Wp (writeiFrom ip src n rounds (tot + m) (off + m))
            (fun _ => Recorded (K c.fs.numbers.2) (2 + 2 * span (off + m) (n - tot - m)) c)
            (fun _ => Recorded (K c.fs.numbers.2) (2 + 2 * span (off + m) (n - tot - m)) c) c₂ := by
        intro c₂ hnumbers hheader
        have hlog : Recorded (K c.fs.numbers.2) 2 c c₂ := htwo ⟨hnumbers.trans hc.1,
          hc.2.log (.inr (List.mem_cons_of_mem _ List.mem_cons_self)) hheader⟩
        have hwp := ih (show tot + m ≤ n by omega) (off + m) c₂ (hlog.size hsize)
        rw [← Nat.sub_sub, hlog.numbers] at hwp
        exact hwp.mono (fun _ _ h => hlog.trans h) fun _ _ h => hlog.trans h
      by_cases hdata : c'.fs.sb.isData r = true
      · exact .bind (.of_ok (lift_modifyBlock r _ hdata) (.ite (fun _ => .pure (hless (htwo hc)))
          fun _ => .bind (.of_ok rfl (hrest _ rfl rfl))))
      · exact .bind (.of_error (lift_modifyBlock_wild r _ hdata) (hless (htwo hc)))

theorem writei_records (ip : Nat) (src : Nat → Option Nat) (off n : Nat) :
    Records (OfInode ip) (2 * span off n) (writei ip src off n) := by
  have hnone : Records (OfInode ip) (2 * span off n) (pure (-1) : B Int) :=
    (Records.pure _).mono (fun _ => List.Subset.refl _) (Nat.zero_le _)
  have hloop := writeiFrom_records ip src n n (Nat.zero_le n) off (K := OfInode ip)
  rw [Nat.sub_zero] at hloop
  refine (getInode_records ip).zero_bind fun _ => .ite hnone (.ite hnone ?_)
  refine hloop.bind_zero fun tot => (getInode_records ip).bind_zero fun _ => ?_
  have hend : Records (OfInode ip) 0 (do
      iupdate ip
      pure (tot : Int)) := (iupdate_records ip).bind_zero fun _ => .pure _
  exact .ite ((modifyCopy_records ip _).bind_zero fun _ => hend) hend

end Writing

end Tx

end Xv6Mmap.Fs
