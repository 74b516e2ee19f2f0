import Xv6Mmap.Lib.Count
import Xv6Mmap.Proof.FsContent
import Xv6Mmap.Proof.FsName
import Xv6Mmap.Proof.FsRefs

/-!
# Finding the blocks of inodes and reading them

What `bmap` and `readi` do to an intact disk. The inode that a call works on is read and changed in
memory and written back later, so the disk is seen with the fields of that inode taken from memory.
-/

namespace Xv6Mmap.Fs

open Sequential

def State.disk (s : State) : Image := { sb := s.sb, bitmap := s.bitmap, dinode := s.dinode, data := s.data }

/-- The disk with the fields of one inode as they are in memory. -/
def State.view (s : State) (ip : Nat) : Image :=
  s.disk.setNode (s.itable ip).inum (s.itable ip).copy

/-- The reasons to stop that are left: no access outside the inodes and the data blocks, no block is
freed twice, and no inode that is free is locked. -/
def Stop.Fair (e : Stop) : Prop := e ≠ .wild ∧ e ≠ .freeingFreeBlock ∧ e ≠ .ilockNoType

instance : DecidablePred Stop.Fair := fun _ => inferInstanceAs (Decidable (_ ∧ _ ∧ _))

structure Loaded (ip : Nat) (s : State) : Prop where
  inum_lt : (s.itable ip).inum < s.sb.ninodes
  allocated : (s.itable ip).copy.type ≠ .free

@[simp]
theorem State.view_dinode_self (s : State) (ip : Nat) :
    (s.view ip).dinode (s.itable ip).inum = (s.itable ip).copy := upd_self _ _ _

theorem State.view_copy (s : State) (ip : Nat) (node : Inode)
    (hinum : node.inum = (s.itable ip).inum) :
    ({ s with itable := upd s.itable ip node } : State).view ip =
      (s.view ip).setNode (s.itable ip).inum node.copy := by
  simp only [view, Image.setNode, disk, upd_self, upd_upd, hinum]

/-- What only concerns the inode `ip`, its blocks and the bitmap. -/
def State.around (ip : Nat) (s : State) :
    Superblock × Nat × Bool × (Nat → Option Dinode) × (Nat → Option Inode) :=
  (s.sb, (s.itable ip).inum, (s.itable ip).valid,
    fun i => if i = (s.itable ip).inum then none else some (s.dinode i),
    fun iq => if iq = ip then none else some (s.itable iq))

section Balloc

variable {s : State} {ip : Nat} {ok : Dirent → Prop} {loose : Set Nat} {E : Stop → State → Prop}

def State.free (s : State) : Nat := ((Finset.range s.sb.size).filter fun b => s.bitmap b = false).card

structure Taken (b : Nat) (s t : State) : Prop where
  ne_zero : b ≠ 0
  sb : t.sb = s.sb
  dinode : t.dinode = s.dinode
  itable : t.itable = s.itable
  cleared : t.data b = fun _ => 0
  data : ∀ c, s.bitmap c = true → t.data c = s.data c
  free : t.free + 1 = s.free

theorem balloc_wp (hint : (s.view ip).Intact ok loose) :
    Wp balloc (fun b t => (b = 0 ∧ t = s ∧ (∀ c < s.sb.size, s.bitmap c = true) ∧ s.free = 0) ∨
      (Taken b s t ∧ (t.view ip).Intact ok (insert b loose) ∧ (s.view ip).Grown (t.view ip) ∧
        (t.view ip).slot = (s.view ip).slot)) E s := by
  unfold balloc
  refine .get ?_
  split
  · rename_i b hfind
    have hlt : b < s.sb.size := List.mem_range.mp (List.mem_of_find?_eq_some hfind)
    have hfree : s.bitmap b = false := by simpa using List.find?_some hfind
    have hb : s.sb.datastart ≤ b := by
      refine Nat.le_of_not_lt fun h => ?_
      have hused : s.bitmap b = true := hint.reserved b h
      rw [hfree] at hused
      cases hused
    have hdata : s.sb.isData b = true := by simp [Superblock.isData, hb, hlt]
    have hpos : 0 < s.sb.datastart := hint.datastart_pos
    obtain ⟨hint', hgrown, hslot⟩ := hint.take hdata hfree fun _ => 0
    refine .bind (.of_ok rfl (.bind (.of_ok (if_pos hdata) (.pure (.inr ⟨?_, hint', hgrown, hslot⟩)))))
    refine ⟨by omega, rfl, rfl, rfl, upd_self _ _ _, fun c hc => upd_of_ne _ _ ?_, ?_⟩
    · rintro rfl
      rw [hfree] at hc
      cases hc
    · exact Finset.card_filter_loss (Finset.mem_range.mpr hlt)
        (fun c _ hc => by simp only [upd_of_ne _ _ hc]) hfree (by simp)
  · rename_i hfind
    have hfull : ∀ c < s.sb.size, s.bitmap c = true := fun c hc => by
      simpa using List.find?_eq_none.mp hfind c (List.mem_range.mpr hc)
    refine .pure (.inl ⟨rfl, rfl, hfull, ?_⟩)
    rw [State.free, Finset.card_eq_zero, Finset.filter_eq_empty_iff]
    intro c hc
    simp [hfull c (Finset.mem_range.mp hc)]

theorem Loaded.congr {t : State} (hload : Loaded ip s) (hsb : t.sb = s.sb)
    (hinum : (t.itable ip).inum = (s.itable ip).inum)
    (htype : (t.itable ip).copy.type = (s.itable ip).copy.type) : Loaded ip t :=
  ⟨by rw [hinum, hsb]; exact hload.inum_lt, by rw [htype]; exact hload.allocated⟩

theorem attach_copy (hint : (s.view ip).Intact ok loose) (hload : Loaded ip s) {b k : Nat}
    (hb : b ∈ loose) (hk : k ≤ ndirect) (hzero : (s.itable ip).copy.addrs k = 0)
    (hclear : s.data b = fun _ => 0) :
    let t : State := { s with itable := upd s.itable ip { s.itable ip with
      copy := { (s.itable ip).copy with addrs := upd (s.itable ip).copy.addrs k b } } }
    (t.view ip).Intact ok (loose \ {b}) ∧ (s.view ip).Grown (t.view ip) ∧
      (t.view ip).slot ((s.itable ip).inum, k) = some b ∧
      ∀ y ≠ ((s.itable ip).inum, k), (t.view ip).slot y = (s.view ip).slot y := by
  intro t
  have hview := State.view_copy s ip { s.itable ip with
    copy := { (s.itable ip).copy with addrs := upd (s.itable ip).copy.addrs k b } } rfl
  have hnode := State.view_dinode_self s ip
  rw [hview, ← hnode]
  exact hint.attachDirect hb hload.inum_lt (by rw [hnode]; exact hload.allocated) hk
    (by rw [hnode]; exact hzero) fun _ => hclear

/-- The disk after `bmap`: it has grown, and the block that was asked for is there, unless there were
not enough free blocks. -/
structure Mapped (ok : Dirent → Prop) (ip k : Nat) (s : State) (r : Nat) (t : State) : Prop where
  intact : (t.view ip).Intact ok ∅
  grown : (s.view ip).Grown (t.view ip)
  sb : t.sb = s.sb
  inum : (t.itable ip).inum = (s.itable ip).inum
  slot : r ≠ 0 → (t.view ip).slot ((s.itable ip).inum, k) = some r
  full : r = 0 → ∀ b < t.sb.size, t.bitmap b = true
  empty : r = 0 → (t.view ip).slot ((s.itable ip).inum, k) = none
  other : ∀ y, y ≠ ((s.itable ip).inum, k) → y ≠ ((s.itable ip).inum, ndirect) →
    (t.view ip).slot y = (s.view ip).slot y
  enough : r ≠ 0 ↔ (s.view ip).missing (s.itable ip).inum k ≤ s.free
  used : r ≠ 0 → t.free + (s.view ip).missing (s.itable ip).inum k = s.free

theorem insert_diff_empty (b : Nat) : insert b (∅ : Set Nat) \ {b} = ∅ := by simp

section OneSlot

variable {k : Nat} {t u : State}
  (hone : ¬ (ndirect < k ∧ (s.view ip).slot ((s.itable ip).inum, ndirect) = none))

include hone

theorem Mapped.found (hint : (s.view ip).Intact ok ∅) {r : Nat}
    (hslot : (s.view ip).slot ((s.itable ip).inum, k) = some r) : Mapped ok ip k s r s := by
  have hne : r ≠ 0 := (Image.slot_eq_some.mp hslot).2.2.2.2
  have hmissing : (s.view ip).missing (s.itable ip).inum k = 0 := by
    rw [Image.missing, if_neg (by rw [hslot]; exact Option.some_ne_none r), if_neg hone]
  exact ⟨hint, .refl _, rfl, rfl, fun _ => hslot, fun h => absurd h hne,
    fun h => absurd h hne, fun _ _ _ => rfl,
    ⟨fun _ => by rw [hmissing]; exact Nat.zero_le _, fun _ => hne⟩, fun _ => by rw [hmissing]; rfl⟩

variable (hnone : (s.view ip).slot ((s.itable ip).inum, k) = none)

include hnone

theorem missing_eq_one : (s.view ip).missing (s.itable ip).inum k = 1 := by
  rw [Image.missing, if_pos hnone, if_neg hone]

theorem Mapped.stuck (hint : (s.view ip).Intact ok ∅) (hfull : ∀ c < s.sb.size, s.bitmap c = true)
    (hfree : s.free = 0) : Mapped ok ip k s 0 s := by
  have hmissing := missing_eq_one hone hnone
  refine ⟨hint, .refl _, rfl, rfl, fun h => absurd rfl h, fun _ => hfull, fun _ => hnone,
    fun _ _ _ => rfl, ⟨fun h => absurd rfl h, fun h => ?_⟩, fun h => absurd rfl h⟩
  rw [hmissing, hfree] at h
  omega

theorem Mapped.fresh {b : Nat} (htaken : Taken b s t) (hfree : u.free = t.free)
    (hint : (u.view ip).Intact ok ∅) (hgrown : (s.view ip).Grown (u.view ip)) (hsb : u.sb = s.sb)
    (hinum : (u.itable ip).inum = (s.itable ip).inum)
    (hslot : (u.view ip).slot ((s.itable ip).inum, k) = some b)
    (hother : ∀ y ≠ ((s.itable ip).inum, k), (u.view ip).slot y = (s.view ip).slot y) :
    Mapped ok ip k s b u := by
  have hmissing := missing_eq_one hone hnone
  have hcount := htaken.free
  refine ⟨hint, hgrown, hsb, hinum, fun _ => hslot, fun h => absurd h htaken.ne_zero,
    fun h => absurd h htaken.ne_zero, fun y hy _ => hother y hy, ⟨fun _ => ?_, fun _ => htaken.ne_zero⟩, fun _ => ?_⟩
  · rw [hmissing]
    omega
  · rw [hmissing, hfree, hcount]

end OneSlot

theorem bmapSlot_wp (hint : (s.view ip).Intact ok ∅) (hload : Loaded ip s) {k : Nat} (hk : k ≤ ndirect) :
    Wp (bmapSlot ip k) (Mapped ok ip k s) E s := by
  have hone : ¬ (ndirect < k ∧ (s.view ip).slot ((s.itable ip).inum, ndirect) = none) :=
    fun h => by omega
  have haddr : ((s.view ip).dinode (s.itable ip).inum).addr (s.view ip).data k =
      (s.itable ip).copy.addrs k := by
    rw [State.view_dinode_self, Dinode.addr, if_pos hk]
  unfold bmapSlot
  refine .bind (.of_ok rfl (.ite (fun hzero => ?_) fun hsome => .pure ?_))
  · have hnone : (s.view ip).slot ((s.itable ip).inum, k) = none :=
      Image.slot_eq_none_of_addr (haddr.trans hzero)
    refine .bind ((balloc_wp hint).imp fun b t ht => ?_)
    rcases ht with ⟨rfl, rfl, hfull, hfree⟩ | ⟨htaken, hint', hgrown, hsame⟩
    · rw [if_pos rfl]
      exact .pure (.stuck hone hnone hint hfull hfree)
    · rw [if_neg htaken.ne_zero]
      have hnode := congrFun htaken.itable ip
      obtain ⟨hint'', hgrown', hslot, hother⟩ := attach_copy hint' (hload.congr htaken.sb
        (by rw [hnode]) (by rw [hnode])) (.inl rfl) hk (by rw [hnode]; exact hzero) htaken.cleared
      have hinum : (t.itable ip).inum = (s.itable ip).inum := by rw [hnode]
      rw [insert_diff_empty] at hint''
      rw [hinum] at hslot hother
      refine .bind (.of_ok rfl (.pure (.fresh hone hnone htaken rfl hint'' (hgrown.trans hgrown')
        htaken.sb (by simp [hnode]) hslot fun y hy => (hother y hy).trans (congrFun hsame y))))
  · refine .found hone hint (Image.slot_eq_some.mpr ⟨hload.inum_lt, ?_, ?_, haddr, hsome⟩)
    · simp only [nslot]
      omega
    · rw [State.view_dinode_self]
      exact hload.allocated

theorem Mapped.loaded {k r : Nat} {t : State} (hmap : Mapped ok ip k s r t) (hload : Loaded ip s) :
    Loaded ip t := by
  refine hload.congr hmap.sb hmap.inum ?_
  have htype := hmap.grown.type (s.itable ip).inum
  rwa [← hmap.inum, State.view_dinode_self, hmap.inum, State.view_dinode_self] at htype

theorem Image.addrs_of_indirect {img : Image} {i a : Nat} (hslot : img.slot (i, ndirect) = some a) :
    (img.dinode i).addrs ndirect = a ∧ a ≠ 0 := by
  obtain ⟨-, -, -, haddr, hne⟩ := Image.slot_eq_some.mp hslot
  exact ⟨by simpa [Dinode.addr] using haddr, hne⟩

theorem fileSlot_indirect {bn : Nat} (hbn : ndirect ≤ bn) :
    fileSlot bn = ndirect + 1 + (bn - ndirect) := by
  unfold fileSlot
  split <;> omega

theorem bmapIndirect_wp (hint : (s.view ip).Intact ok ∅) (hload : Loaded ip s) {a j : Nat}
    (ha : (s.view ip).slot ((s.itable ip).inum, ndirect) = some a) (hj : j < nindirect) :
    Wp (do
      let block ← readBlock a
      if word block j = 0 then
        let fresh ← balloc
        if fresh ≠ 0 then modifyBlock a fun block => setWord block j fresh
        pure fresh
      else
        pure (word block j)) (Mapped ok ip (ndirect + 1 + j) s) E s := by
  obtain ⟨haddrs, hne⟩ := Image.addrs_of_indirect ha
  obtain ⟨hdata, hused, -⟩ := hint.pool.owned _ a ha
  have hone : ¬ (ndirect < ndirect + 1 + j ∧
      (s.view ip).slot ((s.itable ip).inum, ndirect) = none) := fun h => by
    rw [ha] at h
    cases h.2
  have haddr : ((s.view ip).dinode (s.itable ip).inum).addr (s.view ip).data (ndirect + 1 + j) =
      word (s.data a) j := by
    rw [Dinode.addr, if_neg (by omega), haddrs, if_neg hne, Nat.add_sub_cancel_left]
    rfl
  refine .bind (.of_ok (if_pos hdata) (.ite (fun hzero => ?_) fun hsome => .pure ?_))
  · have hnone : (s.view ip).slot ((s.itable ip).inum, ndirect + 1 + j) = none :=
      Image.slot_eq_none_of_addr (haddr.trans hzero)
    refine .bind ((balloc_wp hint).imp fun b t ht => ?_)
    rcases ht with ⟨rfl, rfl, hfull, hfree⟩ | ⟨htaken, hint', hgrown, hsame⟩
    · exact .pure (.stuck hone hnone hint hfull hfree)
    · rw [if_pos htaken.ne_zero]
      obtain ⟨haddrs', -⟩ := Image.addrs_of_indirect (hgrown.slot _ a ha)
      have hnode := congrFun htaken.itable ip
      have hload' : Loaded ip t := hload.congr htaken.sb (by rw [hnode]) (by rw [hnode])
      have hword : t.data a = s.data a := htaken.data a hused
      have hself := State.view_dinode_self t ip
      rw [hnode] at hself
      have hattach := hint'.attachIndirect (j := j) (.inl rfl)
        (hnode ▸ hload'.inum_lt) (by rw [hself, ← hnode]; exact hload'.allocated) hj
        (by rw [haddrs']; exact hne) (by rw [haddrs']; exact (congrArg (word · j) hword).trans hzero)
      rw [insert_diff_empty, haddrs'] at hattach
      obtain ⟨hint'', hgrown', hslot, hother⟩ := hattach
      have hdata' : t.sb.isData a = true := by rw [htaken.sb]; exact hdata
      exact .bind (.of_ok (if_pos hdata') (.pure (.fresh hone hnone htaken rfl hint''
        (hgrown.trans hgrown') htaken.sb (by simp [hnode]) hslot
        fun y hy => (hother y hy).trans (congrFun hsame y))))
  · refine .found hone hint (Image.slot_eq_some.mpr ⟨hload.inum_lt, ?_, ?_, haddr, hsome⟩)
    · simp only [nslot]
      omega
    · rw [State.view_dinode_self]
      exact hload.allocated

theorem Image.slot_behind {img : Image} {i j : Nat} (hnone : img.slot (i, ndirect) = none) :
    img.slot (i, ndirect + 1 + j) = none := by
  refine Option.eq_none_iff_forall_ne_some.mpr fun b hb => ?_
  obtain ⟨hi, -, htype, haddr, hne⟩ := slot_eq_some.mp hb
  rw [Dinode.addr, if_neg (by omega)] at haddr
  by_cases hzero : (img.dinode i).addrs ndirect = 0
  · rw [if_pos hzero] at haddr
    exact hne haddr.symm
  · rw [slot_indirect hi htype hzero] at hnone
    cases hnone

section Indirect

variable {j a r : Nat} {t u : State}

theorem Mapped.indirect_stuck (hmap : Mapped ok ip ndirect s a t) (ha : a = 0) :
    Mapped ok ip (ndirect + 1 + j) s 0 t := by
  have hshort : ¬ (s.view ip).missing (s.itable ip).inum ndirect ≤ s.free := fun h =>
    hmap.enough.mpr h ha
  have hmissing : (s.view ip).missing (s.itable ip).inum ndirect ≤
      (s.view ip).missing (s.itable ip).inum (ndirect + 1 + j) := by
    simp only [Image.missing, Nat.lt_irrefl, false_and, if_false, Nat.add_zero]
    by_cases hnone : (s.view ip).slot ((s.itable ip).inum, ndirect) = none
    · rw [if_pos hnone, Image.slot_behind hnone]
      simp
    · rw [if_neg hnone]
      exact Nat.zero_le _
  exact ⟨hmap.intact, hmap.grown, hmap.sb, hmap.inum, fun h => absurd rfl h, fun _ => hmap.full ha,
    fun _ => Image.slot_behind (hmap.empty ha), fun y _ hy => hmap.other y hy hy,
    ⟨fun h => absurd rfl h, fun h => by omega⟩, fun h => absurd rfl h⟩

theorem Mapped.indirect (hmap : Mapped ok ip ndirect s a t) (ha : a ≠ 0)
    (hmap' : Mapped ok ip (ndirect + 1 + j) t r u) : Mapped ok ip (ndirect + 1 + j) s r u := by
  have hslot := hmap.slot ha
  have hne : ((s.itable ip).inum, ndirect + 1 + j) ≠ ((s.itable ip).inum, ndirect) := by
    simp only [ne_eq, Prod.mk.injEq, true_and]
    omega
  -- what is missing in `s` is what was missing of the indirect block, and then in `t`
  have hmissing : (s.view ip).missing (s.itable ip).inum (ndirect + 1 + j) =
      (s.view ip).missing (s.itable ip).inum ndirect +
        (t.view ip).missing (t.itable ip).inum (ndirect + 1 + j) := by
    rw [hmap.inum]
    simp only [Image.missing, hmap.other _ hne hne, hslot, reduceCtorEq, and_false, if_false,
      Nat.lt_irrefl, false_and, Nat.add_zero]
    by_cases hnone : (s.view ip).slot ((s.itable ip).inum, ndirect) = none
    · rw [if_pos (show _ ∧ _ from ⟨by omega, hnone⟩), if_pos hnone, Nat.add_comm]
    · rw [if_neg (show ¬ (_ ∧ _) from fun h => hnone h.2), if_neg hnone, Nat.add_comm]
  have hused := hmap.used ha
  refine ⟨hmap'.intact, hmap.grown.trans hmap'.grown, hmap'.sb.trans hmap.sb,
    hmap'.inum.trans hmap.inum, fun hr => hmap.inum ▸ hmap'.slot hr, hmap'.full,
    fun hr => hmap.inum ▸ hmap'.empty hr, fun y hy hy' => ?_,
    ?_, fun hr => ?_⟩
  · rw [hmap'.other y (by rwa [hmap.inum]) (by rwa [hmap.inum]), hmap.other y hy' hy']
  · rw [hmap'.enough, hmissing]
    omega
  · have := hmap'.used hr
    omega

end Indirect

theorem bmap_wp (hint : (s.view ip).Intact ok ∅) (hload : Loaded ip s) {bn : Nat} (hbn : bn < maxfile) :
    Wp (bmap ip bn) (Mapped ok ip (fileSlot bn) s) E s := by
  unfold bmap
  refine .ite (fun hdirect => ?_) fun hind => ?_
  · rw [fileSlot, if_pos hdirect]
    exact bmapSlot_wp hint hload (Nat.le_of_lt hdirect)
  · have hj : bn - ndirect < nindirect := by
      simp only [maxfile] at hbn
      omega
    rw [if_pos hj, fileSlot_indirect (by omega)]
    refine .bind ((bmapSlot_wp hint hload (Nat.le_refl _)).imp fun a t hmap => ?_)
    by_cases ha : a = 0
    · rw [if_pos ha]
      exact .pure (hmap.indirect_stuck ha)
    · rw [if_neg ha]
      have hslot := hmap.slot ha
      rw [← hmap.inum] at hslot
      exact (bmapIndirect_wp hmap.intact (hmap.loaded hload) hslot hj).imp fun r u hmap' =>
        hmap.indirect ha hmap'

end Balloc

/-! ### Reading -/

section Reading

variable {s : State} {ip : Nat} {ok : Dirent → Prop} {E : Stop → State → Prop}

theorem bmap_find (hint : (s.view ip).Intact ok ∅) {bn b : Nat}
    (hb : (s.view ip).block (s.itable ip).inum bn = some b) :
    Wp (bmap ip bn) (fun r t => r = b ∧ t = s) E s := by
  obtain ⟨hinum, hlt, htype, haddr, hne⟩ := Image.slot_eq_some.mp hb
  rw [State.view_dinode_self] at htype haddr
  unfold bmap
  refine .ite (fun hdirect => ?_) fun hind => ?_
  · simp only [fileSlot, if_pos hdirect, Dinode.addr, if_pos (Nat.le_of_lt hdirect)] at haddr
    refine .bind (.of_ok rfl (.ite (fun hzero => ?_) fun _ => .pure ⟨haddr, rfl⟩))
    exact absurd (haddr.symm.trans hzero) hne
  · rw [fileSlot_indirect (by omega)] at hlt haddr
    have hj : bn - ndirect < nindirect := by
      simp only [nslot] at hlt
      omega
    have hsub : ndirect + 1 + (bn - ndirect) - (ndirect + 1) = bn - ndirect := by omega
    rw [Dinode.addr, if_neg (by omega), hsub] at haddr
    have hind : (s.itable ip).copy.addrs ndirect ≠ 0 := fun hzero => by
      rw [if_pos hzero] at haddr
      exact hne haddr.symm
    rw [if_neg hind] at haddr
    have hslot := Image.slot_indirect hinum (by rw [State.view_dinode_self]; exact htype)
      (by rw [State.view_dinode_self]; exact hind)
    rw [State.view_dinode_self] at hslot
    rw [if_pos hj]
    refine .bind (.bind (.of_ok rfl ?_))
    rw [if_neg hind]
    refine .pure ?_
    rw [if_neg hind]
    refine .bind (.of_ok (if_pos (hint.pool.owned _ _ hslot).1) ?_)
    have hword : word (s.data ((s.itable ip).copy.addrs ndirect)) (bn - ndirect) = b := haddr
    rw [if_neg (by rw [hword]; exact hne)]
    exact .pure ⟨hword, rfl⟩

theorem Image.byte_of_block (img : Image) {i off b k : Nat} (hb : img.block i (off / bsize) = some b)
    (hk : off % bsize + k < bsize) : img.byte i (off + k) = img.data b (off % bsize + k) := by
  have hdiv : (off + k) / bsize = off / bsize := by
    simp only [bsize] at hk ⊢
    omega
  have hmod : (off + k) % bsize = off % bsize + k := by
    simp only [bsize] at hk ⊢
    omega
  simp only [byte, hdiv, hmod, hb]

theorem readiFrom_wp (hint : (s.view ip).Intact ok ∅) (dst : Nat → Bool) {n rounds tot off : Nat}
    (hblocks : ∀ j, off ≤ j → j < off + (n - tot) →
      ((s.view ip).block (s.itable ip).inum (j / bsize)).isSome) (bytes : List Nat) :
    Wp (readiFrom ip dst n rounds tot off bytes) (fun r t => t = s ∧
      ((∀ k, dst k = true) → n - tot ≤ rounds → tot ≤ n → r = ((n : Int), bytes ++
        (List.range (n - tot)).map fun k => (s.view ip).byte (s.itable ip).inum (off + k)))) E s := by
  induction rounds generalizing tot off bytes with
  | zero =>
      refine .pure ⟨rfl, fun _ hrounds htot => ?_⟩
      have htot : tot = n := by omega
      simp [htot]
  | succ rounds ih =>
      refine .ite (fun hmore => ?_) fun hdone => .pure ⟨rfl, fun _ _ htot => ?_⟩
      · obtain ⟨b, hb⟩ := Option.isSome_iff_exists.mp (hblocks off (Nat.le_refl _) (by omega))
        refine .bind ((bmap_find hint hb).imp fun r t hr => ?_)
        obtain ⟨rfl, rfl⟩ := hr
        obtain ⟨hdata, -, -⟩ := hint.pool.owned _ _ hb
        have hne : r ≠ 0 := (Image.slot_eq_some.mp hb).2.2.2.2
        rw [if_neg hne]
        refine .bind (.of_ok (if_pos hdata) (.ite (fun _ => ?_) fun hbad => .pure ⟨rfl, fun hall => ?_⟩))
        · have hm : 0 < min (n - tot) (bsize - off % bsize) := by
            have := Nat.mod_lt off (show 0 < bsize by decide)
            omega
          have hm' : min (n - tot) (bsize - off % bsize) ≤ n - tot := Nat.min_le_left _ _
          refine (ih (fun j hj hj' => hblocks j (by omega) (by omega)) _).imp fun r' u hu =>
            ⟨hu.1, fun hall hrounds htot => ?_⟩
          rw [hu.2 hall (by omega) (by omega), List.append_assoc]
          have hsplit : n - tot = min (n - tot) (bsize - off % bsize) +
              (n - (tot + min (n - tot) (bsize - off % bsize))) := by omega
          rw [hsplit, List.range_add, ← hsplit, List.map_append, List.map_map]
          congr 3
          · refine List.map_congr_left fun k hk => ?_
            have hk : k < min (n - tot) (bsize - off % bsize) := List.mem_range.mp hk
            exact ((t.view ip).byte_of_block hb (by omega)).symm
          · exact List.map_congr_left fun k _ => by simp only [Function.comp_apply, Nat.add_assoc]
        · exact absurd (by simp [hall]) hbad
      · have htot : tot = n := by omega
        simp [htot]

theorem readi_wp (hint : (s.view ip).Intact ok ∅) (hload : Loaded ip s) (dst : Nat → Bool) (off n : Nat) :
    Wp (readi ip dst off n) (fun r t => t = s ∧ ((∀ k, dst k = true) →
      (off ≤ (s.itable ip).copy.size → off + n < 2 ^ 32) →
        r = (((min n ((s.itable ip).copy.size - off) : Nat) : Int), (List.range
          (min n ((s.itable ip).copy.size - off))).map fun k =>
            (s.view ip).byte (s.itable ip).inum (off + k)))) E s := by
  unfold readi
  refine .bind (.of_ok rfl (.ite (fun hbad => .pure ⟨rfl, fun _ hlt => ?_⟩) fun hgood => ?_))
  · have hzero : min n ((s.itable ip).copy.size - off) = 0 := by omega
    rw [hzero]
    rfl
  · have hmin : (if (s.itable ip).copy.size < off + n then (s.itable ip).copy.size - off else n) =
        min n ((s.itable ip).copy.size - off) := by
      split <;> omega
    rw [hmin]
    refine (readiFrom_wp hint dst (fun j hj hj' => ?_) []).imp fun r t hr => ⟨hr.1, fun hall _ => ?_⟩
    · have hfile : ((s.view ip).dinode (s.itable ip).inum).type ≠ .free := by
        rw [State.view_dinode_self]
        exact hload.allocated
      refine hint.blocks _ hload.inum_lt hfile _ (div_mul_lt ?_)
      rw [State.view_dinode_self]
      omega
    · rw [hr.2 hall (Nat.le_refl _) (Nat.zero_le _)]
      simp

theorem maxfile_lt : maxfile * bsize < 2 ^ 31 := by decide

theorem readDirent_wp (hint : (s.view ip).Intact ok ∅) (hload : Loaded ip s) (k : Nat) :
    Wp (readDirent ip (direntSize * k)) (fun r t => t = s ∧
      r = if direntSize * (k + 1) ≤ (s.itable ip).copy.size then
        some ((s.view ip).entry (s.itable ip).inum k) else none) E s := by
  have hmax : (s.itable ip).copy.size ≤ maxfile * bsize := by
    rw [← State.view_dinode_self]
    exact hint.size_le_max _ hload.inum_lt
  have hlt := maxfile_lt
  have hsucc : direntSize * (k + 1) = direntSize * k + direntSize := Nat.mul_succ _ _
  have hsize : direntSize = 16 := rfl
  unfold readDirent
  refine .bind ((readi_wp hint hload _ _ _).imp fun r t hr => ?_)
  obtain ⟨rfl, hr⟩ := hr
  rw [hr (fun _ => rfl) fun _ => by omega]
  by_cases hk : direntSize * (k + 1) ≤ (t.itable ip).copy.size
  · have hmin : min direntSize ((t.itable ip).copy.size - direntSize * k) = direntSize := by omega
    rw [if_pos hk, hmin]
    exact .ite (fun h => absurd rfl h) fun _ => .pure ⟨rfl, rfl⟩
  · rw [if_neg hk]
    exact .ite (fun _ => .pure ⟨rfl, rfl⟩) fun h => by omega

end Reading

end Xv6Mmap.Fs
