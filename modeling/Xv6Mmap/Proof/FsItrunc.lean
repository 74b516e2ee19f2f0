import Xv6Mmap.Proof.FsWritei

/-!
# Truncating inodes

`itrunc` frees the blocks of an inode slot by slot, before the cleared inode is written back. In between
the disk is intact but for the slots that are still to be freed.
-/

namespace Xv6Mmap.Fs

open Sequential

section Truncating

variable {s t : State} {ip n : Nat} {ok : Dirent → Prop} {slots : Set Nat}

/-- `itrunc` at work: the slots in `slots` still have to be freed, and the first `n` addresses are
cleared. The disk is seen as it will be when the inode is written back. -/
structure Truncating (ok : Dirent → Prop) (ip : Nat) (s : State) (n : Nat) (slots : Set Nat) (t : State) : Prop where
  intact : (t.disk.setNode (s.itable ip).inum (s.itable ip).copy.truncated).Intact ok
    {b | ∃ k ∈ slots, (s.view ip).slot ((s.itable ip).inum, k) = some b}
  sb : t.sb = s.sb
  data : t.data = s.data
  dinode : t.dinode = s.dinode
  inum : (t.itable ip).inum = (s.itable ip).inum
  copy : (t.itable ip).copy =
    { (s.itable ip).copy with addrs := fun k => if k < n then 0 else (s.itable ip).copy.addrs k }

theorem Truncating.start (hint : (s.view ip).Intact ok ∅) : Truncating ok ip s 0 Set.univ s where
  intact := by
    have htrunc := hint.truncate (i := (s.itable ip).inum)
    rw [State.view_dinode_self] at htrunc
    simpa [State.view, Image.setNode, upd_upd] using htrunc
  sb := rfl
  data := rfl
  dinode := rfl
  inum := rfl
  copy := by simp

theorem Truncating.skip (htr : Truncating ok ip s n slots t) {slots' : Set Nat}
    (hslots : ∀ k, (s.view ip).slot ((s.itable ip).inum, k) ≠ none → (k ∈ slots' ↔ k ∈ slots)) :
    Truncating ok ip s n slots' t := by
  have hset : {b | ∃ k ∈ slots', (s.view ip).slot ((s.itable ip).inum, k) = some b} =
      {b | ∃ k ∈ slots, (s.view ip).slot ((s.itable ip).inum, k) = some b} := by
    ext b
    refine exists_congr fun k => and_congr_left fun hk => hslots k ?_
    rw [hk]
    exact Option.some_ne_none _
  exact { htr with intact := by rw [hset]; exact htr.intact }

theorem Truncating.free (hint : (s.view ip).Intact ok ∅) (htr : Truncating ok ip s n slots t) {k b : Nat}
    (hk : k ∈ slots) (hslot : (s.view ip).slot ((s.itable ip).inum, k) = some b) :
    Wp (bfree b) (fun _ => Truncating ok ip s n (slots \ {k})) (fun e _ => e.Fair) t := by
  have hb : b ∈ {b | ∃ k ∈ slots, (s.view ip).slot ((s.itable ip).inum, k) = some b} := ⟨k, hk, hslot⟩
  obtain ⟨hdata, hused⟩ := htr.intact.pool.inUse b hb
  have hdata : t.sb.isData b = true := hdata
  have hused : t.bitmap b = true := hused
  have hrelease := htr.intact.release hb
  have hset : {b | ∃ k ∈ slots, (s.view ip).slot ((s.itable ip).inum, k) = some b} \ {b} =
      {c | ∃ j ∈ slots \ {k}, (s.view ip).slot ((s.itable ip).inum, j) = some c} := by
    ext c
    constructor
    · rintro ⟨⟨j, hj, hc⟩, hne⟩
      refine ⟨j, ⟨hj, fun h => hne ?_⟩, hc⟩
      rw [Set.mem_singleton_iff.mp h, hslot, Option.some.injEq] at hc
      exact hc.symm
    · rintro ⟨j, ⟨hj, hne⟩, hc⟩
      refine ⟨⟨j, hj, hc⟩, fun h => hne ?_⟩
      rw [Set.mem_singleton_iff.mp h] at hc
      exact congrArg Prod.snd (hint.pool.unique _ _ b hc hslot)
  rw [hset] at hrelease
  unfold bfree
  refine .get ?_
  simp only [hdata, hused, Bool.not_true, Bool.false_eq_true, if_false]
  exact .of_ok rfl ⟨hrelease, htr.sb, htr.data, htr.dinode, htr.inum, htr.copy⟩

theorem State.view_slot_direct (hload : Loaded ip s) {k : Nat} (hk : k ≤ ndirect) :
    (s.view ip).slot ((s.itable ip).inum, k) =
      if (s.itable ip).copy.addrs k = 0 then none else some ((s.itable ip).copy.addrs k) := by
  split
  · rename_i hzero
    simp [Image.slot, Dinode.addr, hk, hzero]
  · rename_i hne
    refine Image.slot_eq_some.mpr ⟨hload.inum_lt, by simp only [nslot]; omega, ?_, ?_, hne⟩
    · rw [State.view_dinode_self]
      exact hload.allocated
    · rw [State.view_dinode_self, Dinode.addr, if_pos hk]

theorem Truncating.cleared (htr : Truncating ok ip s n slots t) {u : State}
    (hdisk : u.disk = t.disk) (hinum : (u.itable ip).inum = (t.itable ip).inum)
    (hcopy : (u.itable ip).copy = { (t.itable ip).copy with addrs := upd (t.itable ip).copy.addrs n 0 }) :
    Truncating ok ip s (n + 1) slots u where
  intact := by rw [hdisk]; exact htr.intact
  sb := (congrArg Image.sb hdisk).trans htr.sb
  data := (congrArg Image.data hdisk).trans htr.data
  dinode := (congrArg Image.dinode hdisk).trans htr.dinode
  inum := hinum.trans htr.inum
  copy := by
    have haddrs : upd (fun k => if k < n then 0 else (s.itable ip).copy.addrs k) n 0 =
        fun k => if k < n + 1 then 0 else (s.itable ip).copy.addrs k := by
      funext k
      by_cases hk : k = n
      · rw [hk, upd_self, if_pos (Nat.lt_succ_self n)]
      · rw [upd_of_ne _ _ hk]
        by_cases hlt : k < n
        · rw [if_pos hlt, if_pos (by omega)]
        · rw [if_neg hlt, if_neg (by omega)]
    simp only [hcopy, htr.copy, haddrs]

theorem Truncating.direct (hint : (s.view ip).Intact ok ∅) (hload : Loaded ip s)
    (htr : Truncating ok ip s n {k | n ≤ k} t) (hn : n < ndirect) :
    Wp (do
      let node ← getInode ip
      if node.copy.addrs n ≠ 0 then
        bfree (node.copy.addrs n)
        modifyCopy ip fun copy => { copy with addrs := upd copy.addrs n 0 })
      (fun _ => Truncating ok ip s (n + 1) {k | n + 1 ≤ k}) (fun e _ => e.Fair) t := by
  have haddr : (t.itable ip).copy.addrs n = (s.itable ip).copy.addrs n := by
    rw [htr.copy]
    simp
  have hslot := State.view_slot_direct hload (Nat.le_of_lt hn)
  refine .bind (.of_ok rfl (.ite (fun hne => ?_) fun hzero => .pure ?_))
  · rw [haddr] at hne ⊢
    rw [if_neg hne] at hslot
    refine .bind ((htr.free hint (k := n) (by simp) hslot).imp fun _ u hu => .of_ok rfl ?_)
    exact (hu.skip fun k _ => by
      simp only [Set.mem_ofPred_eq, Set.mem_sdiff, Set.mem_singleton_iff]
      omega).cleared rfl (by simp) (by simp)
  · rw [haddr] at hzero
    have hzero : (s.itable ip).copy.addrs n = 0 := Decidable.not_not.mp hzero
    rw [if_pos hzero] at hslot
    refine (htr.skip fun k hk => ?_).cleared rfl rfl ?_
    · have hkn : k ≠ n := fun h => hk (h ▸ hslot)
      simp only [Set.mem_ofPred_eq]
      omega
    · rw [upd_eq_self _ _ (haddr.trans hzero)]

theorem Truncating.indirect (hint : (s.view ip).Intact ok ∅) (hload : Loaded ip s) {a j : Nat}
    (ha : (s.itable ip).copy.addrs ndirect = a) (hne : a ≠ 0)
    (htr : Truncating ok ip s n {k | k = ndirect ∨ ndirect + 1 + j ≤ k} t) (hj : j < nindirect) :
    Wp (if word (s.data a) j ≠ 0 then bfree (word (s.data a) j) else pure ())
      (fun _ => Truncating ok ip s n {k | k = ndirect ∨ ndirect + 1 + (j + 1) ≤ k})
      (fun e _ => e.Fair) t := by
  have hsub : ndirect + 1 + j - (ndirect + 1) = j := by omega
  have haddr : (s.itable ip).copy.addr (s.view ip).data (ndirect + 1 + j) = word (s.data a) j := by
    rw [Dinode.addr, if_neg (by omega), ha, if_neg hne, hsub]
    rfl
  have hslot : ∀ b, (s.view ip).slot ((s.itable ip).inum, ndirect + 1 + j) = some b ↔
      word (s.data a) j = b ∧ b ≠ 0 := fun b => by
    rw [Image.slot_eq_some, State.view_dinode_self, haddr]
    have hlt : ndirect + 1 + j < nslot := by simp only [nslot]; omega
    exact ⟨fun h => h.2.2.2, fun h => ⟨hload.inum_lt, hlt, hload.allocated, h⟩⟩
  refine .ite (fun hword => ?_) fun hword => .pure ?_
  · refine (htr.free hint (by simp) ((hslot _).mpr ⟨rfl, hword⟩)).imp fun _ u hu =>
      hu.skip fun k _ => ?_
    simp only [Set.mem_ofPred_eq, Set.mem_sdiff, Set.mem_singleton_iff]
    omega
  · refine htr.skip fun k hk => ?_
    have hkj : k ≠ ndirect + 1 + j := by
      rintro rfl
      obtain ⟨b, hb⟩ := Option.ne_none_iff_exists'.mp hk
      obtain ⟨hb, hb'⟩ := (hslot b).mp hb
      exact hword (hb ▸ hb')
    simp only [Set.mem_ofPred_eq]
    omega

/-- The inode has no blocks any more, and this is written back. -/
structure Emptied (ok : Dirent → Prop) (ip : Nat) (s t : State) : Prop where
  intact : t.disk.Intact ok ∅
  sb : t.sb = s.sb
  inum : (t.itable ip).inum = (s.itable ip).inum
  copy : (t.itable ip).copy = (s.itable ip).copy.truncated
  dinode : t.dinode = upd s.dinode (s.itable ip).inum (s.itable ip).copy.truncated
  data : t.data = s.data

theorem Truncating.finish (hload : Loaded ip s) (htr : Truncating ok ip s (ndirect + 1) {k | nslot ≤ k} t) :
    Wp (do
      modifyCopy ip fun copy => { copy with size := 0 }
      iupdate ip) (fun _ => Emptied ok ip s) (fun e _ => e.Fair) t := by
  have hset : {b | ∃ k ∈ {k | nslot ≤ k}, (s.view ip).slot ((s.itable ip).inum, k) = some b} = ∅ := by
    refine Set.eq_empty_of_forall_notMem fun b => ?_
    rintro ⟨k, hk, hslot⟩
    exact absurd (Image.slot_eq_some.mp hslot).2.1 (Nat.not_lt_of_le hk)
  have hint := htr.intact
  rw [hset] at hint
  have htrunc : ({ (t.itable ip).copy with size := 0 } : Dinode) = (s.itable ip).copy.truncated := by
    rw [htr.copy, Dinode.truncated]
    simp only [Nat.lt_succ_iff]
  have hinum : (t.itable ip).inum < t.sb.ninodes := by
    rw [htr.inum, htr.sb]
    exact hload.inum_lt
  refine .bind (.of_ok rfl ((iupdate_wp (by simpa using hinum)).imp fun _ u hu => ?_))
  · subst hu
    simp only [upd_self, htrunc, htr.inum]
    refine ⟨hint, htr.sb, by simp, by simp, ?_, htr.data⟩
    rw [htr.dinode]

theorem itrunc_wp (hint : (s.view ip).Intact ok ∅) (hload : Loaded ip s) :
    Wp (itrunc ip) (fun _ => Emptied ok ip s) (fun e _ => e.Fair) s := by
  unfold itrunc
  refine .bind (.forUp (fun n => Truncating ok ip s n {k | n ≤ k})
    ((Truncating.start hint).skip fun k _ => by simp) (fun n hn t htr => ?_) fun t htr =>
    .bind (.of_ok rfl ?_))
  · rw [Nat.zero_add, Nat.mul_one]
    exact htr.direct hint hload hn
  have haddr : (t.itable ip).copy.addrs ndirect = (s.itable ip).copy.addrs ndirect := by
    rw [htr.copy]
    simp
  have hslot := State.view_slot_direct hload (Nat.le_refl ndirect)
  refine .ite (fun hne => ?_) fun hzero => ?_
  · rw [haddr] at hne ⊢
    rw [if_neg hne] at hslot
    obtain ⟨hdata, -, -⟩ := hint.pool.owned _ _ hslot
    have hdata : t.sb.isData ((s.itable ip).copy.addrs ndirect) = true := by
      rw [htr.sb]
      exact hdata
    refine .bind (.of_ok (if_pos hdata) ?_)
    rw [htr.data]
    have hfirst : Truncating ok ip s ndirect {k | k = ndirect ∨ ndirect + 1 + 0 ≤ k} t :=
      htr.skip fun k _ => by
        simp only [Set.mem_ofPred_eq]
        omega
    refine .bind (.forUp (fun j => Truncating ok ip s ndirect {k | k = ndirect ∨ ndirect + 1 + j ≤ k})
      hfirst (fun j hj u hu => ?_) fun u hu => ?_)
    · rw [Nat.zero_add, Nat.mul_one]
      exact hu.indirect hint hload rfl hne hj
    · refine .bind ((hu.free hint (by simp) hslot).imp fun _ v hv => .bind (.of_ok rfl ?_))
      refine Truncating.finish hload ((hv.skip fun k hk => ?_).cleared rfl (by simp) (by simp))
      simp only [Set.mem_ofPred_eq, Set.mem_sdiff, Set.mem_singleton_iff, nslot]
      omega
  · have hzero : (t.itable ip).copy.addrs ndirect = 0 := Decidable.not_not.mp hzero
    refine Truncating.finish hload ((htr.skip fun k hk => ?_).cleared rfl rfl ?_)
    · -- without an indirect block there is nothing in the later slots
      rw [haddr] at hzero
      rw [if_pos hzero] at hslot
      have hlt : k < ndirect := by
        obtain ⟨b, hb⟩ := Option.ne_none_iff_exists'.mp hk
        obtain ⟨-, -, -, hb', hne⟩ := Image.slot_eq_some.mp hb
        rw [State.view_dinode_self, Dinode.addr, hzero, if_pos rfl] at hb'
        refine Nat.lt_of_not_le fun hle => ?_
        rcases Nat.eq_or_lt_of_le hle with heq | hlt
        · exact hk (heq ▸ hslot)
        · rw [if_neg (by omega)] at hb'
          exact hne hb'.symm
      simp only [Set.mem_ofPred_eq, nslot]
      omega
    · rw [upd_eq_self _ _ hzero]

end Truncating

end Xv6Mmap.Fs
