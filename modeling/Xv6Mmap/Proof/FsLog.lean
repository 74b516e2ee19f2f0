import Xv6Mmap.FsLog
import Xv6Mmap.Proof.FsFile

/-!
# What a transaction records

The functions that call `log_write` do to the buffers what the file system of the other modules does, so
all that is known of it holds here too. A buffer that is not recorded in the header of the log should
equal its block on the disk: this is so wherever each change of a buffer is followed by `log_write`.
-/

namespace Xv6Mmap.Fs.Tx

open Sequential

/-! ### The buffers -/

/-- From `c`, the program `x` does to the buffers what `y` does. -/
def Sim {α : Type} (x : B α) (y : F α) (c : Tx) : Prop :=
  match y c.fs with
  | .ok a s => ∃ h, x c = .ok a { fs := s, header := h }
  | .error e s => ∃ h, x c = .error e { fs := s, header := h }

section Sim

variable {α β : Type} {c : Tx}

theorem Sim.wp {x : B α} {y : F α} (h : Sim x y c) {Q : α → State → Prop} {E : Stop → State → Prop}
    (hwp : Wp y Q E c.fs) : Wp x (fun a c' => Q a c'.fs) (fun e c' => E e c'.fs) c := by
  unfold Sim at h
  cases hrun : y c.fs with
  | ok a s =>
      rw [hrun] at h
      obtain ⟨header, hx⟩ := h
      exact .of_ok hx (hwp.ok hrun)
  | error e s =>
      rw [hrun] at h
      obtain ⟨header, hx⟩ := h
      exact .of_error hx (hwp.error hrun)

theorem Sim.and {x : B α} {y : F α} (h : Sim x y c) {Q : α → State → Prop} {Q' : α → Tx → Prop}
    (hwp : Wp y Q (fun _ _ => True) c.fs) (hx : Wp x Q' (fun _ _ => True) c) :
    Wp x (fun a c' => Q a c'.fs ∧ Q' a c') (fun _ _ => True) c :=
  ((h.wp hwp).and hx).mono (fun _ _ h => h) fun _ _ _ => trivial

theorem Sim.lift (y : F α) : Sim (lift y) y c := by
  unfold Sim Tx.lift
  cases y c.fs with
  | ok a s => exact ⟨c.header, rfl⟩
  | error e s => exact ⟨c.header, rfl⟩

theorem Sim.pure (a : α) : Sim (pure a) (pure a) c := ⟨c.header, rfl⟩

theorem Sim.bind {x : B β} {y : F β} {f : β → B α} {g : β → F α} (hx : Sim x y c)
    (hf : ∀ b c', Sim (f b) (g b) c') : Sim (x >>= f) (y >>= g) c := by
  unfold Sim at hx
  cases hrun : y c.fs with
  | ok b s =>
      rw [hrun] at hx
      obtain ⟨header, hx⟩ := hx
      have hnext := hf b { fs := s, header := header }
      unfold Sim at hnext ⊢
      rw [run_bind_ok hrun, run_bind_ok hx]
      exact hnext
  | error e s =>
      rw [hrun] at hx
      obtain ⟨header, hx⟩ := hx
      unfold Sim
      rw [run_bind_error hrun]
      exact ⟨header, run_bind_error hx f⟩

theorem Sim.ite {p : Prop} [Decidable p] {x x' : B α} {y y' : F α} (hthen : Sim x y c)
    (helse : Sim x' y' c) : Sim (if p then x else x') (if p then y else y') c := by
  by_cases hp : p
  · rwa [if_pos hp, if_pos hp]
  · rwa [if_neg hp, if_neg hp]

theorem Sim.log (blk : Block) {x : B α} {y : F α} (hx : ∀ c', c'.fs = c.fs → Sim x y c') :
    Sim (do logWrite blk; x) y c := by
  have hnext := hx { c with header := if blk ∈ c.header then c.header else c.header ++ [blk] } rfl
  unfold Sim at hnext ⊢
  exact hnext

theorem Sim.get {f : Tx → B α} {g : State → F α} (hf : Sim (f c) (g c.fs) c) :
    Sim (MonadState.get >>= f) (MonadState.get >>= g) c := hf

theorem Sim.logged (blk : Block) {x : B Unit} {y : F Unit} (hx : Sim x y c) :
    Sim (do x; logWrite blk) y c := by
  have hy : (y >>= fun _ => Pure.pure ()) = y := bind_pure_unit
  rw [← hy]
  exact hx.bind fun _ c' => ⟨_, rfl⟩

end Sim

theorem bzero_sim (b : Nat) (c : Tx) : Sim (bzero b) (Fs.bzero b) c := (Sim.lift _).logged _

theorem balloc_sim (c : Tx) : Sim balloc Fs.balloc c := by
  refine .get ?_
  cases (List.range c.fs.sb.size).find? fun b => !c.fs.bitmap b with
  | none => exact .pure 0
  | some b =>
      exact .bind (.lift _) fun _ c' => .log _ fun c'' _ => .bind (bzero_sim b c'') fun _ _ => .pure b

theorem bmapSlot_sim (ip k : Nat) (c : Tx) : Sim (bmapSlot ip k) (Fs.bmapSlot ip k) c :=
  .bind (.lift _) fun _ c' => .ite
    (.bind (balloc_sim c') fun _ _ => .ite (.pure 0) (.bind (.lift _) fun _ _ => .pure _)) (.pure _)

theorem bmap_sim (ip bn : Nat) (c : Tx) : Sim (bmap ip bn) (Fs.bmap ip bn) c := by
  refine .ite (bmapSlot_sim ip bn c) (.ite (.bind (bmapSlot_sim ip ndirect c) fun addr c' =>
    .ite (.pure 0) (.bind (.lift _) fun block _ => .ite (.bind (balloc_sim _) fun fresh c'' => ?_)
      (.pure _))) (.lift _))
  exact .ite (.bind (.lift _) fun _ _ => .log _ fun _ _ => .pure fresh) (.pure fresh)

theorem iupdate_sim (ip : Nat) (c : Tx) : Sim (iupdate ip) (Fs.iupdate ip) c :=
  (Sim.lift (Fs.iupdate ip)).logged (.inode ((c.fs.itable ip).inum / ipb))

theorem writeiFrom_sim (ip : Nat) (src : Nat → Option Nat) (n rounds tot off : Nat) (c : Tx) :
    Sim (writeiFrom ip src n rounds tot off) (Fs.writeiFrom ip src n rounds tot off) c := by
  induction rounds generalizing tot off c with
  | zero => exact .pure tot
  | succ rounds ih =>
      exact .ite (.bind (bmap_sim _ _ _) fun _ _ => .ite (.pure tot) (.bind (.lift _) fun _ _ =>
        .ite (.pure tot) (.log _ fun _ _ => ih _ _ _))) (.pure tot)

theorem writei_sim (ip : Nat) (src : Nat → Option Nat) (off n : Nat) (c : Tx) :
    Sim (writei ip src off n) (Fs.writei ip src off n) c :=
  .bind (.lift _) fun _ _ => .ite (.pure _) (.ite (.pure _) (.bind (writeiFrom_sim _ _ _ _ _ _ _)
    fun _ _ => .bind (.lift _) fun _ _ => .ite
      (.bind (.lift _) fun _ _ => .bind (iupdate_sim _ _) fun _ _ => .pure _)
      (.bind (iupdate_sim _ _) fun _ _ => .pure _)))

/-! ### What is recorded -/

def Same (img img' : Image) : Block → Prop
  | .bitmap k => ∀ b, b / bpb = k → img'.bitmap b = img.bitmap b
  | .inode k => ∀ i, i / ipb = k → img'.dinode i = img.dinode i
  | .data b => img'.data b = img.data b

theorem Same.refl (img : Image) (blk : Block) : Same img img blk := by
  cases blk with
  | bitmap k => exact fun _ _ => rfl
  | inode k => exact fun _ _ => rfl
  | data b => exact rfl

theorem Same.trans {img img' img'' : Image} {blk : Block} (h : Same img img' blk)
    (h' : Same img' img'' blk) : Same img img'' blk := by
  cases blk with
  | bitmap k => exact fun b hb => (h' b hb).trans (h b hb)
  | inode k => exact fun i hi => (h' i hi).trans (h i hi)
  | data b => exact Eq.trans h' h

/-- Every buffer that is not recorded equals its block on the disk, which is `home`. -/
def Clean (home : Image) (c : Tx) : Prop := ∀ blk ∉ c.header, Same home c.fs.disk blk

/-- A buffer is clean when it was clean, or is recorded. Nothing is recorded of the blocks in `P`. -/
structure Traced (P : Nat → Prop) (home : Image) (c c' : Tx) : Prop where
  clean : Clean home c → Clean home c'
  grows : c.header ⊆ c'.header
  old : ∀ b, P b → (.data b ∈ c'.header ↔ .data b ∈ c.header)

section Traced

variable {P P' : Nat → Prop} {home : Image} {c c' c'' : Tx}

theorem Traced.trans (h : Traced P home c c') (h' : Traced P' home c' c'') (hP : ∀ b, P b → P' b) :
    Traced P home c c'' :=
  ⟨fun hclean => h'.clean (h.clean hclean), fun _ hblk => h'.grows (h.grows hblk),
    fun b hb => (h'.old b (hP b hb)).trans (h.old b hb)⟩

theorem Traced.mono (h : Traced P' home c c') (hP : ∀ b, P b → P' b) : Traced P home c c' :=
  ⟨h.clean, h.grows, fun b hb => h.old b (hP b hb)⟩

theorem Traced.of_disk (hdisk : c'.fs.disk = c.fs.disk) (hheader : c'.header = c.header) :
    Traced P home c c' :=
  ⟨fun hclean blk hblk => by rw [hdisk]; exact hclean blk (hheader ▸ hblk),
    fun _ hblk => by rwa [hheader], fun b _ => by rw [hheader]⟩

theorem Traced.disk (h : Traced P home c c') (hdisk : c''.fs.disk = c'.fs.disk)
    (hheader : c''.header = c'.header) : Traced P home c c'' :=
  h.trans (.of_disk hdisk hheader) fun _ hb => hb

theorem Clean.step (hclean : Clean home c) (hstep : ∀ blk ∉ c'.header, blk ∉ c.header ∧
    Same c.fs.disk c'.fs.disk blk) : Clean home c' := fun blk hblk =>
  (hclean blk (hstep blk hblk).1).trans (hstep blk hblk).2

@[simp]
theorem mem_record (header : List Block) (blk blk' : Block) :
    blk' ∈ record header blk ↔ blk' ∈ header ∨ blk' = blk := by
  unfold record
  split
  · rename_i hmem
    exact ⟨.inl, fun h => h.elim id fun heq => heq ▸ hmem⟩
  · simp

/-- One block is changed and recorded. -/
theorem Traced.of_record (blk : Block) (s : State) (hblk : ∀ b, P b → .data b ≠ blk)
    (hsame : ∀ blk' ≠ blk, Same c.fs.disk s.disk blk') :
    Traced P home c { fs := s, header := record c.header blk } := by
  refine ⟨fun hclean => hclean.step fun blk' hnot => ?_, fun _ hold => by simp [hold],
    fun b hb => by simp [hblk b hb]⟩
  simp only [mem_record, not_or] at hnot
  exact ⟨hnot.1, hsame blk' hnot.2⟩

theorem Traced.block (a : Nat) (bytes : Bytes) : Traced (fun b => b ≠ a) home c
    { fs := { c.fs with data := upd c.fs.data a bytes }, header := record c.header (.data a) } := by
  refine .of_record _ _ (fun b hb => by simpa using hb) fun blk hne => ?_
  cases blk with
  | bitmap k => exact fun _ _ => rfl
  | inode k => exact fun _ _ => rfl
  | data b => exact upd_of_ne _ _ fun h => hne (by rw [h])

theorem Traced.bit (b : Nat) (v : Bool) : Traced (fun _ => True) home c
    { fs := { c.fs with bitmap := upd c.fs.bitmap b v },
      header := record c.header (.bitmap (b / bpb)) } := by
  refine .of_record _ _ (fun _ _ => nofun) fun blk hne => ?_
  cases blk with
  | bitmap k => exact fun b' hb' => upd_of_ne _ _ fun h => hne (by rw [← hb', h])
  | inode k => exact fun _ _ => rfl
  | data b => exact rfl

theorem Traced.node (i : Nat) (node : Dinode) : Traced (fun _ => True) home c
    { fs := { c.fs with dinode := upd c.fs.dinode i node },
      header := record c.header (.inode (i / ipb)) } := by
  refine .of_record _ _ (fun _ _ => nofun) fun blk hne => ?_
  cases blk with
  | bitmap k => exact fun _ _ => rfl
  | inode k => exact fun i' hi' => upd_of_ne _ _ fun h => hne (by rw [← hi', h])
  | data b => exact rfl

end Traced

/-! ### `balloc` and `bmap` -/

section Bmap

variable {ok : Dirent → Prop} {ip : Nat} {c : Tx}

theorem lift_modifyBlock (b : Nat) (f : Bytes → Bytes) (hdata : c.fs.sb.isData b = true) :
    lift (modifyBlock b f) c =
      .ok () { c with fs := { c.fs with data := upd c.fs.data b (f (c.fs.data b)) } } := by
  simp only [lift, modifyBlock, hdata, if_true]

theorem lift_modifyBlock_wild (b : Nat) (f : Bytes → Bytes) (hdata : ¬ c.fs.sb.isData b = true) :
    lift (modifyBlock b f) c = .error .wild c := by
  simp only [lift, modifyBlock, if_neg hdata]

theorem modifyBlock_traced {α : Type} (home : Image) {a : Nat} (f : Bytes → Bytes) {rest : B α}
    {Q : α → Tx → Prop} (hrest : ∀ c', Traced (fun b => b ≠ a) home c c' → .data a ∈ c'.header →
      Wp rest Q (fun _ _ => True) c') :
    Wp (do
      lift (modifyBlock a f)
      logWrite (.data a)
      rest) Q (fun _ _ => True) c := by
  by_cases hdata : c.fs.sb.isData a = true
  · exact .bind (.of_ok (lift_modifyBlock a f hdata) (.bind (.of_ok rfl (hrest _ (.block a _)
      (by simp)))))
  · exact .bind (.of_error (lift_modifyBlock_wild a f hdata) trivial)

theorem balloc_traced (home : Image) (c : Tx) :
    Wp balloc (fun r c' => Traced (fun b => c.fs.bitmap b = true) home c c' ∧
      (r ≠ 0 → .data r ∈ c'.header)) (fun _ _ => True) c := by
  unfold balloc
  refine .get ?_
  split
  · rename_i b hfind
    have hfree : c.fs.bitmap b = false := by simpa using List.find?_some hfind
    refine .bind (.of_ok rfl (.bind (.of_ok rfl ?_)))
    simp only [bzero, bind_assoc]
    refine modifyBlock_traced home (fun _ _ => 0) fun c' hc' hlog => .pure ⟨?_, fun _ => hlog⟩
    refine ((Traced.bit b true).mono fun _ _ => trivial).trans hc' ?_
    rintro b' hused rfl
    rw [hfree] at hused
    cases hused
  · exact .pure ⟨.of_disk rfl rfl, fun h => absurd rfl h⟩

theorem bmapSlot_traced (home : Image) (ip k : Nat) (c : Tx) :
    Wp (bmapSlot ip k) (fun r c' => Traced (fun b => c.fs.bitmap b = true) home c c' ∧
      ((c.fs.itable ip).copy.addrs k = 0 → r ≠ 0 → .data r ∈ c'.header)) (fun _ _ => True) c := by
  unfold bmapSlot
  refine .bind (.of_ok rfl (.ite (fun hzero => ?_) fun hsome => .pure ⟨.of_disk rfl rfl,
    fun h => absurd h hsome⟩))
  refine .bind ((balloc_traced home c).imp fun r c' ht => ?_)
  obtain ⟨ht, hlog⟩ := ht
  by_cases hr : r = 0
  · rw [if_pos hr]
    exact .pure ⟨ht, fun _ h => absurd rfl h⟩
  · rw [if_neg hr]
    exact .bind (.of_ok rfl (.pure ⟨ht.disk rfl rfl, fun _ => hlog⟩))

def Holds (ip : Nat) (s : State) (b : Nat) : Prop :=
  ∃ bn, (s.view ip).block (s.itable ip).inum bn = some b

theorem Holds.used (hint : (c.fs.view ip).Intact ok ∅) {b : Nat} (hb : Holds ip c.fs b) :
    c.fs.bitmap b = true := by
  obtain ⟨bn, hbn⟩ := hb
  exact (hint.pool.owned _ b hbn).2.1

theorem Holds.ne_indirect (hint : (c.fs.view ip).Intact ok ∅) {a b : Nat}
    (ha : (c.fs.view ip).slot ((c.fs.itable ip).inum, ndirect) = some a) (hb : Holds ip c.fs b) :
    b ≠ a := by
  rintro rfl
  obtain ⟨bn, hbn⟩ := hb
  have := (Prod.mk.inj (hint.pool.unique _ _ b hbn ha)).2
  exact fileSlot_ne bn this

theorem addr_eq_zero (hload : Loaded ip c.fs) {k : Nat} (hk : k < nslot)
    (hnone : (c.fs.view ip).slot ((c.fs.itable ip).inum, k) = none) :
    ((c.fs.view ip).dinode (c.fs.itable ip).inum).addr (c.fs.view ip).data k = 0 := by
  by_contra hne
  have hsome : (c.fs.view ip).slot ((c.fs.itable ip).inum, k) = some _ :=
    Image.slot_eq_some.mpr ⟨hload.inum_lt, hk,
      by rw [State.view_dinode_self]; exact hload.allocated, rfl, hne⟩
  rw [hnone] at hsome
  cases hsome

theorem bmapIndirect_traced (home : Image) (hint : (c.fs.view ip).Intact ok ∅) (hload : Loaded ip c.fs)
    {a j : Nat} (ha : (c.fs.view ip).slot ((c.fs.itable ip).inum, ndirect) = some a)
    (hj : j < nindirect) :
    Wp (bmapIndirect a j) (fun r c' => Traced (Holds ip c.fs) home c c' ∧
      ((c.fs.view ip).slot ((c.fs.itable ip).inum, ndirect + 1 + j) = none → r ≠ 0 →
        .data r ∈ c'.header)) (fun _ _ => True) c := by
  obtain ⟨haddrs, hne⟩ := Image.addrs_of_indirect ha
  obtain ⟨hdata, -, -⟩ := hint.pool.owned _ a ha
  refine .bind (.of_ok (show lift (readBlock a) c = .ok (c.fs.data a) c by
    simp only [lift, readBlock, show c.fs.sb.isData a = true from hdata, if_true]) ?_)
  refine .ite (fun hzero => ?_) fun hsome => .pure ⟨.of_disk rfl rfl, fun hnone => ?_⟩
  · refine .bind ((balloc_traced home c).imp fun r c' ht => ?_)
    obtain ⟨ht, hlog⟩ := ht
    have ht := ht.mono fun b (hb : Holds ip c.fs b) => hb.used hint
    by_cases hr : r = 0
    · rw [if_neg (not_not.mpr hr)]
      exact .pure ⟨ht, fun _ h => absurd hr h⟩
    · rw [if_pos hr]
      exact modifyBlock_traced home _ fun c'' ht' _ => .pure
        ⟨ht.trans ht' fun b hb => hb.ne_indirect hint ha, fun _ _ => ht'.grows (hlog hr)⟩
  · have hzero := addr_eq_zero hload (by simp only [nslot]; omega) hnone
    rw [Dinode.addr, if_neg (by omega), haddrs, if_neg hne, Nat.add_sub_cancel_left] at hzero
    exact absurd hzero hsome

theorem Holds.mapped {k r : Nat} {t : State} (hmap : Mapped ok ip k c.fs r t) {b : Nat}
    (hb : Holds ip c.fs b) : Holds ip t b := by
  obtain ⟨bn, hbn⟩ := hb
  exact ⟨bn, by rw [hmap.inum]; exact hmap.grown.slot _ b hbn⟩

/-- `bmap` records what it changes. A block that it allocates is recorded, and the blocks that the file
had are not. -/
theorem bmap_traced (home : Image) (hint : (c.fs.view ip).Intact ok ∅) (hload : Loaded ip c.fs)
    {bn : Nat} (hbn : bn < maxfile) :
    Wp (bmap ip bn) (fun r c' => Mapped ok ip (fileSlot bn) c.fs r c'.fs ∧
      Traced (Holds ip c.fs) home c c' ∧
      ((c.fs.view ip).block (c.fs.itable ip).inum bn = none → r ≠ 0 → .data r ∈ c'.header))
      (fun _ _ => True) c := by
  refine (bmap_sim ip bn c).and (bmap_wp hint hload hbn) ?_
  unfold bmap
  refine .ite (fun hdirect => ?_) fun hind => ?_
  · refine (bmapSlot_traced home ip bn c).imp fun r c' ht => ⟨ht.1.mono fun b hb => hb.used hint,
      fun hnone => ht.2 ?_⟩
    rw [Image.block, fileSlot, if_pos hdirect] at hnone
    have hzero := addr_eq_zero hload (by simp only [nslot]; omega) hnone
    rwa [Dinode.addr, if_pos (Nat.le_of_lt hdirect), State.view_dinode_self] at hzero
  · have hj : bn - ndirect < nindirect := by
      simp only [maxfile] at hbn
      omega
    rw [if_pos hj]
    refine .bind (((bmapSlot_sim ip ndirect c).and (bmapSlot_wp hint hload (Nat.le_refl _))
      (bmapSlot_traced home ip ndirect c)).imp fun a c' ha => ?_)
    obtain ⟨hmap, ht, -⟩ := ha
    have ht := ht.mono fun b (hb : Holds ip c.fs b) => hb.used hint
    by_cases hzero : a = 0
    · rw [if_pos hzero]
      exact .pure ⟨ht, fun _ h => absurd rfl h⟩
    · rw [if_neg hzero]
      have ha := hmap.slot hzero
      rw [← hmap.inum] at ha
      refine (bmapIndirect_traced home hmap.intact (hmap.loaded hload) ha hj).imp fun r c'' ht' =>
        ⟨ht.trans ht'.1 fun b hb => hb.mapped hmap, fun hnone => ht'.2 ?_⟩
      have hne : ((c.fs.itable ip).inum, fileSlot bn) ≠ ((c.fs.itable ip).inum, ndirect) := fun h =>
        fileSlot_ne bn (Prod.mk.inj h).2
      rw [hmap.inum, ← fileSlot_indirect (by omega), hmap.other _ hne hne]
      exact hnone

theorem iupdate_traced (home : Image) (hinum : (c.fs.itable ip).inum < c.fs.sb.ninodes) :
    Wp (iupdate ip) (fun _ c' => Traced (fun _ => True) home c c') (fun _ _ => True) c := by
  refine .bind (.of_ok rfl (.bind ?_))
  refine .of_ok (show lift (Fs.iupdate ip) c = .ok () { c with fs := { c.fs with
    dinode := upd c.fs.dinode (c.fs.itable ip).inum (c.fs.itable ip).copy } } from ?_)
    (.of_ok rfl (.node _ _))
  obtain ⟨_, t, hrun, rfl⟩ := (Fs.iupdate_wp hinum).returns
  simp only [lift, hrun]

end Bmap

/-! ### A copy that fails -/

section Fault

variable {home : Image} {ip base n : Nat} {src : Nat → Option Nat} {c c' v : Tx}

theorem copied_succ (src : Nat → Option Nat) (tot m : Nat) :
    copied src tot (m + 1) =
      if copied src tot m = m ∧ (src (tot + m)).isSome then m + 1 else copied src tot m := by
  unfold copied
  rw [List.range_succ, List.takeWhile_append, List.length_range]
  by_cases hall : ((List.range m).takeWhile fun k => (src (tot + k)).isSome).length = m
  · rw [if_pos hall]
    by_cases hsome : (src (tot + m)).isSome
    · simp [hall, hsome]
    · simp [hall, hsome]
  · rw [if_neg hall, if_neg fun h => hall h.1]

theorem copied_spec (src : Nat → Option Nat) (tot m : Nat) :
    (∀ k < copied src tot m, (src (tot + k)).isSome) ∧
      (copied src tot m < m → src (tot + copied src tot m) = none) := by
  induction m with
  | zero => exact ⟨fun k hk => by simp [copied] at hk, fun h => by simp at h⟩
  | succ m ih =>
      obtain ⟨hread, hstop⟩ := ih
      have hle := copied_le src tot m
      rw [copied_succ]
      by_cases hall : copied src tot m = m
      · by_cases hsome : (src (tot + m)).isSome
        · rw [if_pos ⟨hall, hsome⟩]
          refine ⟨fun k hk => ?_, fun h => absurd h (Nat.lt_irrefl _)⟩
          rcases Nat.lt_succ_iff_lt_or_eq.mp hk with hk | rfl
          · exact hread k (by omega)
          · exact hsome
        · rw [if_neg fun h => hsome h.2]
          exact ⟨hread, fun _ => by rw [hall]; simpa using hsome⟩
      · rw [if_neg fun h => hall h.1]
        exact ⟨hread, fun _ => hstop (by omega)⟩
/-- The bytes of the source that could be read go into the block `r`, and nothing is recorded. -/
def spill (src : Nat → Option Nat) (base n tot r : Nat) (v : Tx) : Tx :=
  { v with fs := { v.fs with data := upd v.fs.data r (setBytes (v.fs.data r) ((base + tot) % bsize)
    (copied src tot (chunk base n tot)) fun k => (src (tot + k)).getD 0) } }

theorem copy_filled {s : State} {lo b m : Nat} {new : Nat → Nat} (hown : (s.view ip).Owned)
    (hb : (s.view ip).block (s.itable ip).inum (lo / bsize) = some b) (bytes : Nat → Nat)
    (hm : lo % bsize + m ≤ bsize) (hnew : ∀ k < m, new (lo + k) = bytes k % 256) :
    Filled (fun _ => True) ip lo (lo + m) new s
      { s with data := upd s.data b (setBytes (s.data b) (lo % bsize) m bytes) } :=
  ⟨hown.write hb (fun _ _ => trivial) _, hown.filled_write bytes hb hm hnew, rfl⟩

/-- The loop of `writei`, started in `c` at `start`, is in `v`, and about to copy into the block `r`. -/
structure Caught (home : Image) (ip base start : Nat) (src : Nat → Option Nat) (c : Tx) (tot r : Nat)
    (v : Tx) : Prop where
  readable : ∀ k, start ≤ k → k < tot → (src k).isSome
  filled : Filled (fun _ => True) ip (base + start) (base + tot)
    (fun j => (src (j - base)).getD 0 % 256) c.fs v.fs
  block : (v.fs.view ip).block (v.fs.itable ip).inum ((base + tot) / bsize) = some r
  clean : Clean home c → Clean home v
  old : ∀ b, (c.fs.view ip).block (c.fs.itable ip).inum ((base + tot) / bsize) = some b →
    b = r ∧ (.data r ∈ v.header ↔ .data r ∈ c.header)
  fresh : (c.fs.view ip).block (c.fs.itable ip).inum ((base + tot) / bsize) = none →
    .data r ∈ v.header

theorem Caught.after {start mid tot r : Nat} {u : Tx} (h : Caught home ip base mid src u tot r v)
    (hfill : Filled (fun _ => True) ip (base + start) (base + mid)
      (fun j => (src (j - base)).getD 0 % 256) c.fs u.fs)
    (hread : ∀ k, start ≤ k → k < mid → (src k).isSome)
    (hclean : Clean home c → Clean home u) (hstart : start ≤ mid) (htot : mid ≤ tot)
    (hahead : (u.fs.view ip).block (u.fs.itable ip).inum ((base + tot) / bsize) =
      (c.fs.view ip).block (c.fs.itable ip).inum ((base + tot) / bsize))
    (hold : ∀ b, (c.fs.view ip).block (c.fs.itable ip).inum ((base + tot) / bsize) = some b →
      (.data b ∈ u.header ↔ .data b ∈ c.header)) :
    Caught home ip base start src c tot r v where
  readable := fun k hk hk' => by
    by_cases hmid : k < mid
    · exact hread k hk hmid
    · exact h.readable k (by omega) hk'
  filled := hfill.trans h.filled (by omega) (by omega)
  block := h.block
  clean := fun hc => h.clean (hclean hc)
  old := fun b hb => by
    obtain ⟨rfl, hiff⟩ := h.old b (hahead.trans hb)
    exact ⟨rfl, hiff.trans (hold b hb)⟩
  fresh := fun hnone => h.fresh (hahead.trans hnone)

theorem writeiFrom_caught (home : Image) (tot : Nat) {rounds : Nat} (hown : (c.fs.view ip).Owned)
    (hload : Loaded ip c.fs) (htot : tot ≤ n) (hmax : base + n ≤ maxfile * bsize)
    (hrounds : n - tot ≤ rounds) (hstart : tot = n ∨ tot = 0 ∨ (base + tot) % bsize = 0) :
    Wp (writeiFrom ip src n rounds tot (base + tot)) (fun tot' c' => tot ≤ tot' ∧ (tot' < n →
      ((c'.fs.view ip).block (c'.fs.itable ip).inum ((base + tot') / bsize)).isSome →
      ∃ r v, Caught home ip base tot src c tot' r v ∧ c' = spill src base n tot' r v ∧
        (tot' = 0 ∨ (base + tot') % bsize = 0) ∧
        copied src tot' (chunk base n tot') < chunk base n tot')) (fun _ _ => True) c := by
  induction rounds generalizing c tot with
  | zero => exact .pure ⟨Nat.le_refl _, fun h => by omega⟩
  | succ rounds ih =>
      refine .ite (fun hmore => ?_) fun hdone => .pure ⟨Nat.le_refl _, fun h => absurd h hdone⟩
      have hstart : tot = 0 ∨ (base + tot) % bsize = 0 := hstart.resolve_left (by omega)
      have hbn : (base + tot) / bsize < maxfile := by
        refine Nat.div_lt_of_lt_mul ?_
        rw [Nat.mul_comm]
        omega
      refine .bind ((bmap_traced home hown hload hbn).imp fun r v hv => ?_)
      obtain ⟨hmap, htr, hfresh⟩ := hv
      by_cases hr : r = 0
      · rw [if_pos hr]
        refine .pure ⟨Nat.le_refl _, fun _ hsome => ?_⟩
        rw [hmap.inum, Image.block, hmap.empty hr] at hsome
        cases hsome
      · rw [if_neg hr]
        have hblock : (v.fs.view ip).block (v.fs.itable ip).inum ((base + tot) / bsize) = some r := by
          rw [hmap.inum]
          exact hmap.slot hr
        have hdata : v.fs.sb.isData r = true := (hmap.intact.pool.owned _ r hblock).1
        have hgrown : Filled (fun _ => True) ip (base + tot) (base + tot)
          (fun j => (src (j - base)).getD 0 % 256) c.fs v.fs := hmap.filled
        refine .bind (.of_ok (lift_modifyBlock r _ hdata) (.ite (fun hfault => .pure
          ⟨Nat.le_refl _, fun _ _ => ⟨r, v, ⟨fun k _ _ => by omega, hgrown, hblock, htr.clean,
            fun b hb => ?_, fun hnone => hfresh hnone hr⟩, rfl, hstart, hfault⟩⟩) fun hall => .bind (.of_ok rfl ?_)))
        · have hb' : (v.fs.view ip).block (c.fs.itable ip).inum ((base + tot) / bsize) = some b :=
            hmap.grown.slot _ b hb
          rw [← hmap.inum, hblock] at hb'
          cases hb'
          exact ⟨rfl, htr.old _ ⟨_, hb⟩⟩
        have hmod : (base + tot) % bsize < bsize := Nat.mod_lt _ (by decide)
        have hm : chunk base n tot ≤ bsize - (base + tot) % bsize := Nat.min_le_right _ _
        have hall : copied src tot (chunk base n tot) = chunk base n tot :=
          Nat.le_antisymm (copied_le src tot _) (Nat.le_of_not_lt hall)
        have hread : ∀ k, tot ≤ k → k < tot + chunk base n tot → (src k).isSome := fun k hk hk' => by
          have hsome := (copied_spec src tot (chunk base n tot)).1 (k - tot) (by omega)
          rwa [Nat.add_sub_cancel' hk] at hsome
        have hadd : base + tot + chunk base n tot = base + (tot + chunk base n tot) :=
          Nat.add_assoc _ _ _
        have hpos : 0 < chunk base n tot := chunk_pos hmore
        have hnext : tot + chunk base n tot = n ∨ (base + (tot + chunk base n tot)) % bsize = 0 :=
          chunk_end htot
        have hfill := hgrown.trans (copy_filled hmap.intact hblock (fun k => (src (tot + k)).getD 0)
          (by omega) fun k _ => by simp only [Nat.add_assoc, Nat.add_sub_cancel_left])
          (Nat.le_refl _) (Nat.le_add_right _ (chunk base n tot))
        change Wp (writeiFrom ip src n rounds (tot + chunk base n tot)
          (base + tot + chunk base n tot)) _ _ { spill src base n tot r v with
            header := record v.header (.data r) }
        generalize hu : ({ spill src base n tot r v with header := record v.header (.data r) } : Tx) = u
        have htr' : Traced (fun b => b ≠ r) home v u := by
          rw [← hu]
          exact .block r _
        have hslot : (u.fs.view ip).slot = (v.fs.view ip).slot := by
          rw [← hu]
          exact hmap.intact.slot_write hblock _
        have hfill : Filled (fun _ => True) ip (base + tot) (base + (tot + chunk base n tot))
            (fun j => (src (j - base)).getD 0 % 256) c.fs u.fs := by
          rw [← hu, ← hadd]
          simp only [spill, hall]
          exact hfill
        rw [hadd]
        refine (ih _ hfill.intact (hfill.loaded hload) (add_chunk_le htot) (by omega)
          (by omega)).imp fun tot' c' hc' =>
          ⟨by omega, fun hlt hsome => ?_⟩
        obtain ⟨hge, hc'⟩ := hc'
        obtain ⟨r', v', hcaught, hc', hstart', hfault⟩ := hc' hlt hsome
        -- the next rounds are about other blocks of the file
        have hne : (base + tot') / bsize ≠ (base + tot) / bsize := by
          have hzero := hnext.resolve_left (by omega)
          simp only [bsize] at hzero hpos hge ⊢
          omega
        have hslotne : fileSlot ((base + tot') / bsize) ≠ fileSlot ((base + tot) / bsize) := fun h =>
          hne (fileSlot_injective h)
        have hahead : (v.fs.view ip).block (c.fs.itable ip).inum ((base + tot') / bsize) =
            (c.fs.view ip).block (c.fs.itable ip).inum ((base + tot') / bsize) :=
          hmap.other _ (fun h => hslotne (Prod.mk.inj h).2) fun h => fileSlot_ne _ (Prod.mk.inj h).2
        refine ⟨r', v', hcaught.after hfill hread (fun hc => htr'.clean (htr.clean hc)) (by omega) hge ?_
          fun b hb => ?_, hc', hstart', hfault⟩
        · rw [hfill.inum, ← hahead, Image.block, hslot]
          rfl
        · refine (htr'.old b fun h => ?_).trans (htr.old b ⟨_, hb⟩)
          rw [h, ← hahead, ← hmap.inum] at hb
          exact hslotne (Prod.mk.inj (hmap.intact.pool.unique _ _ r hb hblock)).2

structure Resized (home : Image) (ip n : Nat) (w c : Tx) : Prop where
  synced : Synced ip c.fs
  inum : (c.fs.itable ip).inum = (w.fs.itable ip).inum
  size : (c.fs.itable ip).copy.size = max (w.fs.itable ip).copy.size n
  disk : c.fs.disk = (w.fs.view ip).setNode (w.fs.itable ip).inum
    { (w.fs.itable ip).copy with size := max (w.fs.itable ip).copy.size n }
  traced : Traced (fun _ => True) home w c

theorem Resized.slot {w : Tx} (h : Resized home ip n w c) :
    (c.fs.view ip).slot = (w.fs.view ip).slot := by
  have hslot := (w.fs.view ip).setNode_resize_slot (w.fs.itable ip).inum
    (max (w.fs.itable ip).copy.size n)
  rw [State.view_dinode_self] at hslot
  rw [h.synced.view_eq, h.disk, hslot]

theorem resize_resized (home : Image) (hload : Loaded ip c.fs) (n : Nat) (r : Int) :
    Wp (do
      if (c.fs.itable ip).copy.size < n then
        lift (modifyCopy ip fun copy => { copy with size := n })
      iupdate ip
      pure r) (fun r' c' => r' = r ∧ Resized home ip n c c') (fun _ _ => True) c := by
  have htraced : Wp (do
      if (c.fs.itable ip).copy.size < n then
        lift (modifyCopy ip fun copy => { copy with size := n })
      iupdate ip
      pure r) (fun _ c' => Traced (fun _ => True) home c c') (fun _ _ => True) c := by
    refine .ite (fun _ => .bind (.of_ok rfl ?_)) fun _ => ?_
    · refine .bind ((iupdate_traced home (by simpa using hload.inum_lt)).imp fun _ c' ht => .pure
        (Traced.trans ?_ ht fun _ _ => trivial))
      exact .of_disk rfl rfl
    · exact .bind ((iupdate_traced home hload.inum_lt).imp fun _ c' ht => .pure ht)
  refine (Sim.and (.ite (.bind (.lift _) fun _ _ => .bind (iupdate_sim _ _) fun _ _ => .pure _)
    (.bind (iupdate_sim _ _) fun _ _ => .pure _)) (Fs.resize_wp hload n r) htraced).imp
    fun r' c' h => ?_
  obtain ⟨⟨hr, hsync, -, hinum, -, hsize, hdisk⟩, ht⟩ := h
  exact ⟨hr, hsync, hinum, hsize, hdisk, ht⟩

/-- `writei` returns fewer bytes than it was asked for, and the block for the next byte is there: so the
copy into this block has failed. -/
theorem writei_caught (home : Image) (hown : (c.fs.view ip).Owned) (hload : Loaded ip c.fs) :
    Wp (writei ip src base n) (fun res c' => ∀ tot : Nat, res = tot → tot < n →
      ((c'.fs.view ip).block (c'.fs.itable ip).inum ((base + tot) / bsize)).isSome →
      base ≤ (c.fs.itable ip).copy.size ∧ ∃ r v, Caught home ip base 0 src c tot r v ∧
        Resized home ip (base + tot) (spill src base n tot r v) c' ∧
        (tot = 0 ∨ (base + tot) % bsize = 0) ∧
        copied src tot (chunk base n tot) < chunk base n tot) (fun _ _ => True) c := by
  unfold writei
  refine .bind (.of_ok rfl (.ite (fun _ => .pure fun tot h => by omega) fun hoff =>
    .ite (fun _ => .pure fun tot h => by omega) fun hmax => ?_))
  refine .bind (((writeiFrom_sim ip src n n 0 base c).and (writeiFrom_wp src 0 hown hload
    (fun _ _ => trivial) (hown.covered hload (by omega)) (Nat.zero_le n) (by omega)
    (Nat.le_refl _) (.inr (.inl rfl))) (writeiFrom_caught home 0 hown hload (Nat.zero_le n) (by omega)
    (Nat.le_refl _) (.inr (.inl rfl)))).imp fun tot w hw => .bind (.of_ok rfl ?_))
  obtain ⟨⟨-, -, -, hi, -, -, hfill⟩, -, hcaught⟩ := hw
  refine (resize_resized home (hfill.loaded hload) (base + tot) tot).imp fun res c' hc' tot' hres hlt
    hsome => ⟨by omega, ?_⟩
  obtain ⟨hr, hc'⟩ := hc'
  obtain rfl : tot' = tot := by omega
  obtain ⟨r, v, hv, rfl, hstart, hfault⟩ := hcaught hlt (by
    rw [hc'.inum, Image.block, hc'.slot] at hsome
    exact hsome)
  exact ⟨r, v, hv, hc', hstart, hfault⟩

/-! ### What a failed copy leaves behind -/

/-- What `readi` returns of the bytes from `lo` up to the old size is what it returned before. -/
def Kept (ip lo : Nat) (s t : State) : Prop :=
  ∀ off n, lo ≤ off → off + n ≤ (s.itable ip).copy.size → ∃ bytes,
    Fs.readi ip (fun _ => true) off n s = .ok ((n : Int), bytes) s ∧
      Fs.readi ip (fun _ => true) off n t = .ok ((n : Int), bytes) t

theorem readi_inside {s : State} (hown : (s.view ip).Owned) (hload : Loaded ip s) {off m : Nat}
    (hm : off + m ≤ (s.itable ip).copy.size) : Fs.readi ip (fun _ => true) off m s =
      .ok ((m : Int), (List.range m).map fun k => (s.view ip).byte (s.itable ip).inum (off + k)) s := by
  have hself := State.view_dinode_self s ip
  have hsize := hown.size_le_max _ hload.inum_lt
  have hmax := maxfile_lt
  rw [hself] at hsize
  rw [reads_content s ip hown hload off m (by omega), Image.content, slice_map_range, hself,
    Nat.min_eq_left (by omega), List.length_map, List.length_range]

theorem kept_iff {s t : State} (hown : (s.view ip).Owned) (hload : Loaded ip s)
    (hown' : (t.view ip).Owned) (hload' : Loaded ip t)
    (hsize : (s.itable ip).copy.size ≤ (t.itable ip).copy.size) (lo : Nat) :
    Kept ip lo s t ↔ ∀ p, lo ≤ p → p < (s.itable ip).copy.size →
      (t.view ip).byte (t.itable ip).inum p = (s.view ip).byte (s.itable ip).inum p := by
  constructor
  · intro h p hp hlt
    obtain ⟨bytes, hs, ht⟩ := h p 1 hp hlt
    rw [readi_inside hown hload hlt] at hs
    rw [readi_inside hown' hload' (by omega)] at ht
    cases hs
    simpa using ht
  · intro h off m hoff hm
    refine ⟨_, readi_inside hown hload hm, ?_⟩
    rw [readi_inside hown' hload' (by omega)]
    have hbytes : ((List.range m).map fun k => (t.view ip).byte (t.itable ip).inum (off + k)) =
        (List.range m).map fun k => (s.view ip).byte (s.itable ip).inum (off + k) :=
      List.map_congr_left fun k hk => by
        have hk : k < m := List.mem_range.mp hk
        exact h (off + k) (by omega) (by omega)
    rw [hbytes]

def Idle (src : Nat → Option Nat) (base n tot r : Nat) (v : Tx) : Prop :=
  ∀ k < copied src tot (chunk base n tot),
    (src (tot + k)).getD 0 % 256 = v.fs.data r ((base + tot) % bsize + k)

theorem spill_self (tot r : Nat) : (spill src base n tot r v).fs.data r =
    setBytes (v.fs.data r) ((base + tot) % bsize) (copied src tot (chunk base n tot))
      fun k => (src (tot + k)).getD 0 := upd_self _ _ _

theorem idle_iff {tot r : Nat} :
    Idle src base n tot r v ↔ (spill src base n tot r v).fs.data r = v.fs.data r := by
  rw [spill_self]
  constructor
  · intro hidle
    funext j
    by_cases hj : (base + tot) % bsize ≤ j ∧
        j < (base + tot) % bsize + copied src tot (chunk base n tot)
    · rw [setBytes, if_pos hj, hidle _ (by omega), Nat.add_sub_cancel' hj.1]
    · rw [setBytes, if_neg hj]
  · intro heq k hk
    have hbyte := congrFun heq ((base + tot) % bsize + k)
    rwa [setBytes, if_pos (by omega), Nat.add_sub_cancel_left] at hbyte

theorem spill_clean {tot r : Nat} (hclean : Clean home v)
    (h : .data r ∈ v.header ∨ Idle src base n tot r v) : Clean home (spill src base n tot r v) := by
  refine hclean.step fun blk hblk => ⟨hblk, ?_⟩
  cases blk with
  | bitmap k => exact fun _ _ => rfl
  | inode k => exact fun _ _ => rfl
  | data b =>
      by_cases hb : b = r
      · subst hb
        exact idle_iff.mp (h.resolve_left hblk)
      · exact upd_of_ne _ _ hb

/-- Every buffer that is not recorded is clean after the call if the block `r` is recorded, or has not
changed. -/
theorem Resized.clean_iff {m tot r : Nat} (h : Resized home ip m (spill src base n tot r v) c)
    (hclean : Clean home v) : Clean home c ↔ .data r ∈ v.header ∨ Idle src base n tot r v := by
  refine ⟨fun hc => or_iff_not_imp_left.mpr fun hout => idle_iff.mpr ?_,
    fun hr => h.traced.clean (spill_clean hclean hr)⟩
  have hout' : .data r ∉ c.header := fun hmem => hout ((h.traced.old r trivial).mp hmem)
  have hdata : c.fs.data = (spill src base n tot r v).fs.data := congrArg Image.data h.disk
  rw [← hdata]
  exact Eq.trans (hc _ hout') (Eq.symm (hclean _ hout))

section Caught

variable {tot r : Nat} (hv : Caught home ip base 0 src c tot r v)

include hv

theorem Caught.spilled : Filled (fun _ => True) ip base
    (base + tot + copied src tot (chunk base n tot)) (fun j => (src (j - base)).getD 0 % 256) c.fs
    (spill src base n tot r v).fs := by
  have hmod : (base + tot) % bsize < bsize := Nat.mod_lt _ (by decide)
  have hc := copied_le src tot (chunk base n tot)
  have hm : chunk base n tot ≤ bsize - (base + tot) % bsize := Nat.min_le_right _ _
  refine hv.filled.trans (copy_filled hv.filled.intact hv.block (fun k => (src (tot + k)).getD 0)
    (by omega) fun k _ => ?_) (by omega) (by omega)
  simp only [Nat.add_assoc, Nat.add_sub_cancel_left]

theorem Caught.byte_after (hown : (c.fs.view ip).Owned) (hload : Loaded ip c.fs)
    (hc' : Resized home ip (base + tot) (spill src base n tot r v) c') {p : Nat} (hp : base + tot ≤ p)
    (hlt : p < (c.fs.itable ip).copy.size) :
    (c'.fs.view ip).byte (c'.fs.itable ip).inum p =
      if p < base + tot + copied src tot (chunk base n tot) then (src (p - base)).getD 0 % 256
      else (c.fs.view ip).byte (c.fs.itable ip).inum p := by
  have hspill := hv.spilled (n := n)
  have hdata : c'.fs.data = (spill src base n tot r v).fs.data := congrArg Image.data hc'.disk
  rw [hc'.inum, hspill.inum, Image.byte_eq_of_slot hc'.slot hdata]
  by_cases hin : p < base + tot + copied src tot (chunk base n tot)
  · rw [if_pos hin]
    exact (hspill.image.written p (by omega) hin).2
  · rw [if_neg hin]
    exact hown.kept_of_filled hspill.image hload.inum_lt (by rwa [State.view_dinode_self])
      fun h => hin h.2.2

theorem Caught.data_eq (hblock : (c.fs.view ip).block (c.fs.itable ip).inum ((base + tot) / bsize) =
    some r) {k : Nat} (hk : k < bsize - (base + tot) % bsize) :
    v.fs.data r ((base + tot) % bsize + k) = c.fs.data r ((base + tot) % bsize + k) := by
  have hin : (base + tot) % bsize + k < bsize := by omega
  have hdiv : (base + tot + k) / bsize = (base + tot) / bsize := by
    simp only [bsize] at hin ⊢
    omega
  have hkept := hv.filled.image.kept (c.fs.itable ip).inum (base + tot + k)
    (by rw [hdiv, hblock]; rfl) fun h => by omega
  have hvblock := hv.block
  rw [hv.filled.inum] at hvblock
  rwa [Image.byte_of_block _ hvblock hin, Image.byte_of_block _ hblock hin] at hkept

end Caught

theorem Resized.loaded {w : Tx} (h : Resized home ip n w c) (hload : Loaded ip w.fs) :
    Loaded ip c.fs := by
  have hcopy : c.fs.disk.dinode (c.fs.itable ip).inum = (c.fs.itable ip).copy := h.synced
  have hself : c.fs.disk.dinode (c.fs.itable ip).inum = { (w.fs.itable ip).copy with
      size := max (w.fs.itable ip).copy.size n } := by
    rw [h.disk, h.inum]
    exact upd_self _ _ _
  exact hload.congr (congrArg Image.sb h.disk) h.inum (by rw [← hcopy, hself])

/-- The byte `q` of the source is the first that cannot be read. The bytes before it that go into the
same block are there already, or lie behind the end of the file, in a block that is recorded. -/
def Harmless (ip off q : Nat) (src : Nat → Option Nat) (c : Tx) : Prop :=
  ∀ b, (c.fs.view ip).block (c.fs.itable ip).inum ((off + q) / bsize) = some b →
    ∀ j < q, (off + j) / bsize = (off + q) / bsize →
      (src j).getD 0 % 256 = c.fs.data b ((off + j) % bsize) ∨
        ((c.fs.itable ip).copy.size ≤ off + j ∧ .data b ∈ c.header)

/-- The copy stops at the first byte that cannot be read, in the block where the round began. -/
theorem Caught.first {tot r q : Nat} (hv : Caught home ip base 0 src c tot r v)
    (hfault : copied src tot (chunk base n tot) < chunk base n tot)
    (hq : ∀ k < q, (src k).isSome) (hq' : src q = none) :
    q = tot + copied src tot (chunk base n tot) := by
  obtain ⟨hread, hstop⟩ := copied_spec src tot (chunk base n tot)
  rcases Nat.lt_trichotomy q (tot + copied src tot (chunk base n tot)) with hlt | heq | hgt
  · have hsome : (src q).isSome := by
      by_cases hqt : q < tot
      · exact hv.readable q (Nat.zero_le _) hqt
      · have := hread (q - tot) (by omega)
        rwa [Nat.add_sub_cancel' (by omega)] at this
    rw [hq'] at hsome
    cases hsome
  · exact heq
  · have hsome := hq _ hgt
    rw [hstop hfault] at hsome
    cases hsome

/-- After a copy that failed, `readi` returns the old bytes behind those that `writei` reports and the
buffers that are not recorded are clean, exactly when the bytes that were copied are harmless. -/
theorem failed_write (home : Image) (c c' : Tx) (ip off n q tot : Nat) (src : Nat → Option Nat)
    (hown : (c.fs.view ip).Owned) (hload : Loaded ip c.fs) (hclean : Clean home c)
    (hq : ∀ k < q, (src k).isSome) (hq' : src q = none)
    (hrun : writei ip src off n c = .ok (tot : Int) c') (hshort : tot < n)
    (hcopy : ((c'.fs.view ip).block (c'.fs.itable ip).inum ((off + tot) / bsize)).isSome) :
    Kept ip (off + tot) c.fs c'.fs ∧ Clean home c' ↔ Harmless ip off q src c := by
  obtain ⟨hoff, r, v, hv, hc', hstart, hfault⟩ :=
    (writei_caught home hown hload).ok hrun tot rfl hshort hcopy
  have hqeq := hv.first hfault hq hq'
  have hmod : (off + tot) % bsize < bsize := Nat.mod_lt _ (by decide)
  have hm : chunk off n tot ≤ bsize - (off + tot) % bsize := Nat.min_le_right _ _
  have hplace : ∀ j, tot ≤ j → j ≤ q → (off + j) / bsize = (off + tot) / bsize ∧
      (off + j) % bsize = (off + tot) % bsize + (j - tot) := fun j hj hjq => by
    simp only [bsize] at hm hmod ⊢
    omega
  have hload' := hc'.loaded (hv.spilled.loaded hload)
  have hown' : (c'.fs.view ip).Owned := by
    have hwritten := ((writei_sim ip src off n c).wp (writei_wp (E := fun _ _ => True) hown hload
      (fun _ _ => trivial) src off n)).ok hrun
    rcases hwritten with ⟨h, -⟩ | ⟨_, _, -, hw⟩
    · omega
    · exact hw.synced.view_eq ▸ hw.intact
  have hsize : (c.fs.itable ip).copy.size ≤ (c'.fs.itable ip).copy.size := by
    rw [hc'.size, hv.spilled.size]
    exact Nat.le_max_left _ _
  rw [kept_iff hown hload hown' hload' hsize, hc'.clean_iff (hv.clean hclean), Harmless,
    (hplace q (by omega) (Nat.le_refl _)).1]
  have hbyte : ∀ b, (c.fs.view ip).block (c.fs.itable ip).inum ((off + tot) / bsize) = some b →
      ∀ j, tot ≤ j → j < q →
        (c.fs.view ip).byte (c.fs.itable ip).inum (off + j) = c.fs.data b ((off + j) % bsize) := by
    intro b hb j hj hjq
    rw [Image.byte, (hplace j hj (Nat.le_of_lt hjq)).1, hb]
    rfl
  constructor
  · rintro ⟨hkept, hrec⟩ b hb j hjq hdiv
    obtain ⟨rfl, hiff⟩ := hv.old b hb
    have hj : tot ≤ j := by
      simp only [bsize] at hdiv hstart
      omega
    refine or_iff_not_imp_left.mpr fun hdiff => ⟨Nat.le_of_not_lt fun hlt => hdiff ?_, ?_⟩
    · have hsame := hkept (off + j) (by omega) hlt
      rwa [hv.byte_after hown hload hc' (by omega) hlt, if_pos (by omega), Nat.add_sub_cancel_left,
        hbyte b hb j hj hjq] at hsame
    · refine hrec.elim hiff.mp fun hidle => absurd ?_ hdiff
      have hsame := hidle (j - tot) (by omega)
      rwa [hv.data_eq hb (by omega), Nat.add_sub_cancel' hj,
        ← (hplace j hj (Nat.le_of_lt hjq)).2] at hsame
  · intro hharm
    refine ⟨fun p hp hlt => ?_, ?_⟩
    · rw [hv.byte_after hown hload hc' hp hlt]
      by_cases hin : p < off + tot + copied src tot (chunk off n tot)
      · obtain ⟨j, rfl⟩ := Nat.exists_eq_add_of_le (show off ≤ p by omega)
        have hdiv := (hplace j (by omega) (by omega)).1
        obtain ⟨b, hb⟩ := Option.isSome_iff_exists.mp
          (hown.covered hload (Nat.le_refl _) ((off + j) / bsize) (div_mul_lt hlt))
        rw [hdiv] at hb
        rw [if_pos hin, Nat.add_sub_cancel_left, hbyte b hb j (by omega) (by omega)]
        exact (hharm b hb j (by omega) hdiv).resolve_right fun h => by omega
      · rw [if_neg hin]
    · cases hb : (c.fs.view ip).block (c.fs.itable ip).inum ((off + tot) / bsize) with
      | none => exact .inl (hv.fresh hb)
      | some b =>
          obtain ⟨rfl, hiff⟩ := hv.old b hb
          refine or_iff_not_imp_left.mpr fun hout k hk => ?_
          obtain ⟨hdiv, hmodk⟩ := hplace (tot + k) (by omega) (by omega)
          rw [hv.data_eq hb (by omega)]
          have hsame := (hharm b hb (tot + k) (by omega) hdiv).resolve_right fun h =>
            hout (hiff.mpr h.2)
          rwa [hmodk, Nat.add_sub_cancel_left] at hsame

end Fault

def oneBlock : Tx :=
  match Fs.writei 0 (fun _ => some 0) 0 2 oneFile with
  | .ok _ t => { fs := t, header := [] }
  | .error _ t => { fs := t, header := [] }

theorem oneBlock_owned : (oneBlock.fs.view 0).Owned ∧ Loaded 0 oneBlock.fs := by
  have hsync : Synced 0 oneFile := rfl
  have hload : Loaded 0 oneFile := ⟨by decide, by decide⟩
  have hw : Writable 0 0 2 oneFile := ⟨by decide, by decide, by decide⟩
  have hsrc : Readable (fun _ => some 0) 2 := fun _ _ => ⟨0, by decide, rfl⟩
  obtain ⟨r, t, hrun, tot, rfl, ht⟩ :=
    (writei_wrote (hsync.view_eq ▸ oneFile_owned) hload hw hsrc).returns
  simp only [oneBlock, hrun]
  exact ⟨ht.synced.view_eq ▸ ht.owned, ht.loaded hload⟩

def halfMapped (byte : Nat) (k : Nat) : Option Nat := if k = 0 then some byte else none

/-- Nothing is reported as written, and yet the first byte of the file is another one, in a buffer that
is not recorded. -/
theorem failed_write_unrecorded : (oneBlock.fs.view 0).Owned ∧ Loaded 0 oneBlock.fs ∧
    Clean oneBlock.fs.disk oneBlock ∧ ∃ c', writei 0 (halfMapped 1) 0 2 oneBlock = .ok 0 c' ∧
      Fs.readi 0 (fun _ => true) 0 1 oneBlock.fs = .ok (1, [0]) oneBlock.fs ∧
      Fs.readi 0 (fun _ => true) 0 1 c'.fs = .ok (1, [1]) c'.fs ∧
      .data 1 ∉ c'.header ∧ c'.fs.data 1 ≠ oneBlock.fs.data 1 := by
  refine ⟨oneBlock_owned.1, oneBlock_owned.2, fun blk _ => .refl _ blk, _, rfl, rfl, rfl, ?_, ?_⟩
  · decide
  · intro h
    have := congrFun h 0
    revert this
    decide

/-- The byte that is copied is the one that the file has there. -/
theorem failed_write_oneBlock : ∃ c', writei 0 (halfMapped 0) 0 2 oneBlock = .ok 0 c' ∧
    Kept 0 0 oneBlock.fs c'.fs ∧ Clean oneBlock.fs.disk c' := by
  refine ⟨_, rfl, (failed_write oneBlock.fs.disk oneBlock _ 0 0 2 1 0 (halfMapped 0) oneBlock_owned.1
    oneBlock_owned.2 (fun blk _ => .refl _ blk) (fun k hk => ?_) rfl rfl (by decide)
    (by decide)).mpr fun b hb j hj _ => .inl ?_⟩
  · obtain rfl : k = 0 := by omega
    rfl
  · obtain rfl : j = 0 := by omega
    have hblock : (oneBlock.fs.view 0).block (oneBlock.fs.itable 0).inum ((0 + 1) / bsize) = some 1 :=
      rfl
    rw [hblock] at hb
    cases hb
    rfl

end Xv6Mmap.Fs.Tx
