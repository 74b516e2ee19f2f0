import Xv6Mmap.Proof.FsItrunc

/-!
# The inode table and the disk

Between any two steps of a call the disk is intact, and every inode in memory whose fields have been
read has the fields that are on the disk. A call relies on the inodes it has locked: they stay valid
as long as it holds them.
-/

namespace Xv6Mmap.Fs

open Sequential

def Superblock.Names (sb : Superblock) (de : Dirent) : Prop := de.inum < sb.ninodes

structure TableOk (s : State) : Prop where
  unique : ∀ ip < ninode, ∀ iq < ninode, 0 < (s.itable ip).ref → 0 < (s.itable iq).ref →
    (s.itable ip).inum = (s.itable iq).inum → ip = iq
  inum_lt : ∀ ip < ninode, 0 < (s.itable ip).ref → (s.itable ip).inum < s.sb.ninodes
  synced : ∀ ip < ninode, 0 < (s.itable ip).ref → (s.itable ip).valid = true → Synced ip s
  allocated : ∀ ip < ninode, 0 < (s.itable ip).ref → (s.itable ip).valid = true →
    (s.itable ip).copy.type ≠ .free
  /-- An open file has its inode in memory. What can be written through it is not a directory. -/
  opened : ∀ f < nfile, ∀ ip, (s.ftable f).pointsTo = some (.inode ip) →
    0 < (s.itable ip).ref ∧ (s.itable ip).valid = true ∧
      ((s.ftable f).type = .inode → (s.ftable f).writable = true → (s.itable ip).copy.type ≠ .dir)

def Node.Dead (node : Node) : Prop := node.type ≠ .free ∧ node.nlink = 0

/-- The inode is in memory, so that dropping the last reference to it can free it. -/
def Anchor (i : Nat) (s : State) : Prop :=
  ∃ ip < ninode, 0 < (s.itable ip).ref ∧ (s.itable ip).inum = i ∧ (s.itable ip).valid = true

/-- `pins` are the inodes that the running call has read into memory, and `stray` those that need not
be in memory although no directory counts them. -/
structure Sound (sb : Superblock) (stray : Set Nat) (pins : List Nat) (s : State) : Prop where
  sb_eq : s.sb = sb
  disk : s.disk.Intact sb.Names ∅
  table : TableOk s
  pinned : ∀ ip ∈ pins, ip < ninode ∧ 0 < (s.itable ip).ref ∧ (s.itable ip).valid = true
  anchored : ∀ i ∉ stray, (s.disk.node i).Dead → Anchor i s

theorem Sound.stray {sb : Superblock} {stray stray' : Set Nat} {pins : List Nat} {s : State}
    (hs : Sound sb stray pins s) (hsub : stray ⊆ stray') : Sound sb stray' pins s :=
  { hs with anchored := fun i hi => hs.anchored i fun hmem => hi (hsub hmem) }

/-- What is in the table stays there as long as it is referenced. -/
def Stable (s t : State) : Prop :=
  ∀ iq, 0 < (s.itable iq).ref → 0 < (t.itable iq).ref →
    (t.itable iq).inum = (s.itable iq).inum ∧
      ((s.itable iq).valid = true → (t.itable iq).valid = true)

theorem Stable.setInode {s : State} {ip : Nat} {node : Inode}
    (hnode : 0 < (s.itable ip).ref → 0 < node.ref → node.inum = (s.itable ip).inum ∧
      ((s.itable ip).valid = true → node.valid = true)) :
    Stable s { s with itable := upd s.itable ip node } := fun iq hs ht => by
  by_cases hiq : iq = ip
  · subst hiq
    simp only [upd_self] at ht ⊢
    exact hnode hs ht
  · simp only [upd_of_ne _ _ hiq]
    exact ⟨trivial, id⟩

theorem around_untouched (ip : Nat) : Untouched ip (State.around ip) where
  data := fun _ _ => rfl
  bitmap := fun _ _ => rfl
  copy := fun s g => by
    have hothers : (fun iq => if iq = ip then none else some (upd s.itable ip
        { s.itable ip with copy := g (s.itable ip).copy } iq)) =
        fun iq => if iq = ip then none else some (s.itable iq) := by
      funext iq
      by_cases hiq : iq = ip
      · rw [if_pos hiq, if_pos hiq]
      · rw [if_neg hiq, if_neg hiq, upd_of_ne _ _ hiq]
    simp only [State.around, upd_self, hothers]
  dinode := fun s node => by
    have hothers : (fun i => if i = (s.itable ip).inum then none else
        some (upd s.dinode (s.itable ip).inum node i)) =
        fun i => if i = (s.itable ip).inum then none else some (s.dinode i) := by
      funext i
      by_cases hi : i = (s.itable ip).inum
      · rw [if_pos hi, if_pos hi]
      · rw [if_neg hi, if_neg hi, upd_of_ne _ _ hi]
    simp only [State.around, hothers]

section Sound

variable {sb : Superblock} {stray : Set Nat} {pins : List Nat} {s t : State} {ip : Nat}

theorem State.around_eq (haround : t.around ip = s.around ip) : t.sb = s.sb ∧
    (t.itable ip).inum = (s.itable ip).inum ∧ (t.itable ip).valid = (s.itable ip).valid ∧
    (∀ i ≠ (s.itable ip).inum, t.dinode i = s.dinode i) ∧
    ∀ iq ≠ ip, t.itable iq = s.itable iq := by
  simp only [State.around, Prod.mk.injEq] at haround
  obtain ⟨hsb, hinum, hvalid, hdinode, hitable⟩ := haround
  refine ⟨hsb, hinum, hvalid, fun i hi => ?_, fun iq hiq => ?_⟩
  · have h := congrFun hdinode i
    simpa only [hinum, if_neg hi, Option.some.injEq] using h
  · have h := congrFun hitable iq
    simpa only [if_neg hiq, Option.some.injEq] using h

theorem Sound.loaded (hs : Sound sb stray pins s) (hip : ip ∈ pins) : Loaded ip s := by
  obtain ⟨hlt, href, hvalid⟩ := hs.pinned ip hip
  exact ⟨hs.table.inum_lt ip hlt href, hs.table.allocated ip hlt href hvalid⟩

theorem Sound.synced (hs : Sound sb stray pins s) (hip : ip ∈ pins) : Synced ip s := by
  obtain ⟨hlt, href, hvalid⟩ := hs.pinned ip hip
  exact hs.table.synced ip hlt href hvalid

/-- A call works on an inode that it has locked, and writes it back. -/
theorem Sound.change (hs : Sound sb stray pins s) (hip : ip ∈ pins) (hrefs : t.refs = s.refs)
    (haround : t.around ip = s.around ip) (hdisk : t.disk.Intact sb.Names ∅) (hsync : Synced ip t)
    (htype : (t.itable ip).copy.type = (s.itable ip).copy.type)
    (hnode : ∀ i ≠ (s.itable ip).inum, t.disk.node i = s.disk.node i) : Sound sb stray pins t := by
  obtain ⟨hsb, hinum, hvalid, hdinode, hitable⟩ := State.around_eq haround
  obtain ⟨hlt, hpos, hread⟩ := hs.pinned ip hip
  simp only [State.refs, Prod.mk.injEq] at hrefs
  obtain ⟨href, hftable, -⟩ := hrefs
  have href : ∀ iq, (t.itable iq).ref = (s.itable iq).ref := congrFun href
  have hinum' : ∀ iq, (t.itable iq).inum = (s.itable iq).inum := fun iq => by
    by_cases hiq : iq = ip
    · rw [hiq, hinum]
    · rw [hitable iq hiq]
  have hvalid' : ∀ iq, (t.itable iq).valid = (s.itable iq).valid := fun iq => by
    by_cases hiq : iq = ip
    · rw [hiq, hvalid]
    · rw [hitable iq hiq]
  have htype' : ∀ iq, (t.itable iq).copy.type = (s.itable iq).copy.type := fun iq => by
    by_cases hiq : iq = ip
    · rw [hiq, htype]
    · rw [hitable iq hiq]
  refine ⟨hsb.trans hs.sb_eq, hdisk, ⟨?_, ?_, fun iq hiq hr hv => ?_, ?_, ?_⟩, ?_, fun i hi hdead => ?_⟩
  · simpa only [href, hinum'] using hs.table.unique
  · simpa only [href, hinum', hsb] using hs.table.inum_lt
  · by_cases heq : iq = ip
    · rw [heq]
      exact hsync
    · rw [href] at hr
      rw [hvalid'] at hv
      have hne : (s.itable iq).inum ≠ (s.itable ip).inum := fun h =>
        heq (hs.table.unique iq hiq ip hlt hr hpos h)
      rw [Synced, hitable iq heq, hdinode _ hne]
      exact hs.table.synced iq hiq hr hv
  · simpa only [href, hvalid', htype'] using hs.table.allocated
  · simpa only [hftable, href, hvalid', htype'] using hs.table.opened
  · simpa only [href, hvalid'] using hs.pinned
  · simp only [Anchor, href, hinum', hvalid']
    by_cases heq : i = (s.itable ip).inum
    · exact ⟨ip, hlt, hpos, heq.symm, hread⟩
    · exact hs.anchored i hi (hnode i heq ▸ hdead)

theorem stable_of_around (haround : t.around ip = s.around ip) : Stable s t := by
  obtain ⟨-, hinum, hvalid, -, hitable⟩ := State.around_eq haround
  intro iq _ _
  by_cases hiq : iq = ip
  · rw [hiq, hinum, hvalid]
    exact ⟨rfl, id⟩
  · rw [hitable iq hiq]
    exact ⟨rfl, id⟩

theorem Sound.setInode (hs : Sound sb stray pins s) (node : Inode) {pins' : List Nat}
    (hunique : 0 < node.ref → ∀ iq < ninode, 0 < (s.itable iq).ref →
      (s.itable iq).inum = node.inum → iq = ip)
    (hinum : 0 < node.ref → node.inum < s.sb.ninodes)
    (hvalid : 0 < node.ref → node.valid = true →
      s.dinode node.inum = node.copy ∧ node.copy.type ≠ .free)
    (hopened : ∀ f < nfile, (s.ftable f).pointsTo = some (.inode ip) →
      0 < node.ref ∧ node.valid = true ∧
        ((s.ftable f).type = .inode → (s.ftable f).writable = true → node.copy.type ≠ .dir))
    (hpins : ∀ iq ∈ pins', iq ≠ ip → iq ∈ pins)
    (hpin : ip ∈ pins' → ip < ninode ∧ 0 < node.ref ∧ node.valid = true)
    (hanchor : 0 < (s.itable ip).ref → (s.itable ip).valid = true →
      (s.disk.node (s.itable ip).inum).Dead →
        0 < node.ref ∧ node.inum = (s.itable ip).inum ∧ node.valid = true) :
    Sound sb stray pins' { s with itable := upd s.itable ip node } := by
  have hother : ∀ iq ≠ ip, upd s.itable ip node iq = s.itable iq := fun iq h => upd_of_ne _ _ h
  refine ⟨hs.sb_eq, hs.disk, ⟨fun iq hiq ir hir hrq hrr heq => ?_, fun iq hiq hr => ?_,
    fun iq hiq hr hv => ?_, fun iq hiq hr hv => ?_, fun f hf iq hp => ?_⟩,
    fun iq hiq => ?_, fun i hi hdead => ?_⟩
  · by_cases hq : iq = ip <;> by_cases hr : ir = ip
    · rw [hq, hr]
    · subst hq
      simp only [upd_self, hother ir hr] at hrq hrr heq
      exact (hunique hrq ir hir hrr heq.symm).symm
    · subst hr
      simp only [upd_self, hother iq hq] at hrq hrr heq
      exact hunique hrr iq hiq hrq heq
    · simp only [hother iq hq, hother ir hr] at hrq hrr heq
      exact hs.table.unique iq hiq ir hir hrq hrr heq
  · by_cases hq : iq = ip
    · subst hq
      simp only [upd_self] at hr ⊢
      exact hinum hr
    · simp only [hother iq hq] at hr ⊢
      exact hs.table.inum_lt iq hiq hr
  · by_cases hq : iq = ip
    · subst hq
      simp only [upd_self] at hr hv
      simpa only [Synced, upd_self] using (hvalid hr hv).1
    · simp only [hother iq hq] at hr hv
      simpa only [Synced, hother iq hq] using hs.table.synced iq hiq hr hv
  · by_cases hq : iq = ip
    · subst hq
      simp only [upd_self] at hr hv ⊢
      exact (hvalid hr hv).2
    · simp only [hother iq hq] at hr hv ⊢
      exact hs.table.allocated iq hiq hr hv
  · by_cases hq : iq = ip
    · subst hq
      simp only [upd_self]
      exact hopened f hf hp
    · simp only [hother iq hq]
      exact hs.table.opened f hf iq hp
  · by_cases hq : iq = ip
    · subst hq
      simp only [upd_self]
      exact hpin hiq
    · simp only [hother iq hq]
      exact hs.pinned iq (hpins iq hiq hq)
  · obtain ⟨iq, hiq, hr, heq, hv⟩ := hs.anchored i hi hdead
    refine ⟨iq, hiq, ?_⟩
    by_cases hq : iq = ip
    · subst hq
      subst heq
      simpa only [upd_self] using hanchor hr hv hdead
    · simpa only [hother iq hq] using ⟨hr, heq, hv⟩

theorem Sound.setLocked (hs : Sound sb stray pins s) (hip : ip < ninode) (locked : Bool) :
    Sound sb stray pins { s with itable := upd s.itable ip { s.itable ip with locked := locked } } :=
  hs.setInode _ (fun hr iq hiq hq heq => hs.table.unique iq hiq ip hip hq hr heq)
    (fun hr => hs.table.inum_lt ip hip hr)
    (fun hr hv => ⟨hs.table.synced ip hip hr hv, hs.table.allocated ip hip hr hv⟩)
    (fun f hf => hs.table.opened f hf ip) (fun _ h _ => h) (fun h => hs.pinned ip h)
    fun hr hv _ => ⟨hr, rfl, hv⟩

theorem iunlock_sound (hs : Sound sb stray pins s) (hip : ip < ninode) :
    Wp (iunlock ip) (fun _ t => Sound sb stray pins t ∧ Stable s t ∧ t.disk = s.disk)
      (fun e _ => e.Fair) s := by
  unfold iunlock
  exact .bind (.of_ok rfl (.ite (fun _ => .bind (.of_error rfl (by decide))) fun _ =>
    .of_ok rfl ⟨hs.setLocked hip false, .setInode fun _ _ => ⟨rfl, id⟩, rfl⟩))

theorem ilock_sound (hs : Sound sb stray pins s) (hip : ip < ninode) :
    Wp (ilock ip) (fun _ t => Sound sb stray (ip :: pins) t ∧ Stable s t ∧ t.disk = s.disk)
      (fun e _ => e.Fair ∨ (e = .ilockNoType ∧ (s.itable ip).valid = false ∧
        s.disk.node (s.itable ip).inum = .free)) s := by
  have hpins : ∀ iq ∈ ip :: pins, iq ≠ ip → iq ∈ pins := fun iq h hne =>
    (List.mem_cons.mp h).resolve_left hne
  unfold ilock
  refine .bind (.of_ok rfl (.ite (fun _ => .bind (.of_error rfl (.inl (by decide)))) fun href =>
    .ite (fun _ => .bind (.of_error rfl (.inl (by decide)))) fun _ => .bind (.of_ok rfl ?_)))
  have href : 0 < (s.itable ip).ref := by omega
  have hinum := hs.table.inum_lt ip hip href
  have hunique : ∀ iq < ninode, 0 < (s.itable iq).ref →
      (s.itable iq).inum = (s.itable ip).inum → iq = ip := fun iq hiq hq heq =>
    hs.table.unique iq hiq ip hip hq href heq
  refine .ite (fun hvalid => .get ?_) fun hvalid => .pure ⟨?_, .setInode fun _ _ => ⟨rfl, id⟩, rfl⟩
  · have hvalid : (s.itable ip).valid = false := by simpa using hvalid
    rw [if_neg (Nat.not_le_of_lt hinum)]
    refine .bind (.of_ok rfl (.ite (fun hfree => .of_error rfl (.inr ⟨rfl, hvalid, ?_⟩))
      fun hfree => .pure ⟨?_, ?_, rfl⟩))
    · have hfree : (s.disk.dinode (s.itable ip).inum).type = .free := hfree
      simp [Image.node, hfree]
    · simp only [upd_upd, upd_self]
      refine hs.setInode _ (fun _ => hunique) (fun _ => hinum) (fun _ _ => ⟨rfl, hfree⟩)
        (fun f hf hp => ?_) hpins (fun _ => ⟨hip, href, rfl⟩) fun _ _ _ => ⟨href, rfl, rfl⟩
      have hv := (hs.table.opened f hf ip hp).2.1
      rw [hv] at hvalid
      cases hvalid
    · simp only [upd_upd, upd_self]
      exact .setInode fun _ _ => ⟨rfl, fun _ => rfl⟩
  · have hvalid : (s.itable ip).valid = true := by simpa using hvalid
    exact hs.setInode _ (fun _ => hunique) (fun _ => hinum)
      (fun _ _ => ⟨hs.table.synced ip hip href hvalid, hs.table.allocated ip hip href hvalid⟩)
      (fun f hf => hs.table.opened f hf ip) hpins (fun _ => ⟨hip, href, hvalid⟩)
      fun hr hv _ => ⟨hr, rfl, hv⟩

theorem Sound.addRef (hs : Sound sb stray pins s) (hip : ip < ninode) (href : 0 < (s.itable ip).ref) :
    Sound sb stray pins { s with
      itable := upd s.itable ip { s.itable ip with ref := (s.itable ip).ref + 1 } } :=
  hs.setInode _ (fun _ iq hiq hq heq => hs.table.unique iq hiq ip hip hq href heq)
    (fun _ => hs.table.inum_lt ip hip href)
    (fun _ hv => ⟨hs.table.synced ip hip href hv, hs.table.allocated ip hip href hv⟩)
    (fun f hf hp => ⟨by simp only; omega, (hs.table.opened f hf ip hp).2⟩)
    (fun _ h _ => h) (fun h => ⟨hip, by simp only; omega, (hs.pinned ip h).2.2⟩)
    fun hr hv _ => ⟨by simp only; omega, rfl, hv⟩

theorem idup_sound (hs : Sound sb stray pins s) (hip : ip < ninode) (href : 0 < (s.itable ip).ref) :
    Wp (idup ip) (fun _ t => Sound sb stray pins t ∧ Stable s t ∧ t.disk = s.disk)
      (fun e _ => e.Fair) s :=
  .bind (.of_ok rfl (.pure ⟨hs.addRef hip href, .setInode fun _ _ => ⟨rfl, id⟩, rfl⟩))

structure Gotten (inum : Nat) (s : State) (ip : Nat) (t : State) : Prop where
  lt : ip < ninode
  inum_eq : (t.itable ip).inum = inum
  ref_pos : 0 < (t.itable ip).ref
  disk : t.disk = s.disk
  stable : Stable s t
  fresh : (∀ iq < ninode, 0 < (s.itable iq).ref → (s.itable iq).inum ≠ inum) → (t.itable ip).ref = 1

theorem iget_sound (hs : Sound sb stray pins s) {inum : Nat}
    (hinum : inum < sb.ninodes) :
    Wp (iget inum) (fun ip t => Sound sb stray pins t ∧ Gotten inum s ip t)
      (fun e _ => e.Fair) s := by
  unfold iget
  refine .get ?_
  split
  · rename_i ip hfind
    obtain ⟨hip, hpos, heq⟩ := List.find?_range_some hfind
    exact .bind (.of_ok rfl (.pure ⟨hs.addRef hip hpos, hip, by simpa using heq, by simp; omega, rfl,
      .setInode fun _ _ => ⟨rfl, id⟩, fun hfresh => absurd heq (hfresh ip hip hpos)⟩))
  · rename_i hnone
    split
    · exact .of_error rfl (by decide)
    · rename_i ip hfind
      obtain ⟨hip, hzero⟩ := List.find?_range_some hfind
      have hfresh : ∀ iq < ninode, 0 < (s.itable iq).ref → (s.itable iq).inum ≠ inum := by
        intro iq hiq hq heq
        have := List.find?_eq_none.mp hnone iq (List.mem_range.mpr hiq)
        simp [hq, heq] at this
      refine .bind (.of_ok rfl (.pure ⟨?_, hip, by simp, by simp, rfl, .setInode fun h _ => ?_,
        fun _ => by simp⟩))
      · refine hs.setInode _ (fun _ iq hiq hq heq => absurd heq (hfresh iq hiq hq))
          (fun _ => hs.sb_eq ▸ hinum) (fun _ hv => nomatch hv) (fun f hf hp => ?_)
          (fun _ h _ => h) (fun h => ?_) fun h => ?_
        · have := (hs.table.opened f hf ip hp).1
          omega
        · have := (hs.pinned ip h).2.1
          omega
        · omega
      · omega

/-! ### Dropping an inode -/

theorem Image.node_setNode_of_ne (img : Image) {i i' : Nat} (node : Dinode) (hne : i' ≠ i) :
    (img.setNode i node).node i' = img.node i' := by
  have hnode : (img.setNode i node).dinode i' = img.dinode i' := upd_of_ne _ _ hne
  have hblock : ∀ bn, (img.setNode i node).block i' bn = img.block i' bn := fun bn =>
    slot_congr rfl (by rw [hnode]) fun _ _ => by rw [hnode]; rfl
  refine node_congr rfl (by rw [hnode]) (by rw [hnode]) (fun _ => by rw [hnode]) fun _ _ j _ => ?_
  simp only [byte, hblock]
  rfl

/-- `ifree` has freed the inode; its entry in the table still counts. -/
structure Freed (sb : Superblock) (ip : Nat) (s t : State) : Prop where
  disk : t.disk.Intact sb.Names ∅
  node : t.disk.node = upd s.disk.node (s.itable ip).inum .free
  around : t.sb = s.sb ∧ (t.itable ip).inum = (s.itable ip).inum ∧
    (∀ i ≠ (s.itable ip).inum, t.dinode i = s.dinode i) ∧ ∀ iq ≠ ip, t.itable iq = s.itable iq

theorem Emptied.node_of_ne (hempty : Emptied sb.Names ip s t) {i : Nat} (hi : i ≠ (s.itable ip).inum) :
    t.disk.node i = s.disk.node i := by
  have hdisk : t.disk = { s.disk.setNode (s.itable ip).inum (s.itable ip).copy.truncated with
      bitmap := t.bitmap } := by
    simp only [State.disk, Image.setNode, hempty.sb, hempty.dinode, hempty.data]
  rw [hdisk]
  exact s.disk.node_setNode_of_ne _ hi

theorem Emptied.freed (hload : Loaded ip s) (hempty : Emptied sb.Names ip s t)
    (haround : t.around ip = s.around ip) :
    Wp (do
      modifyCopy ip fun copy => { copy with type := .free }
      iupdate ip
      modifyInode ip fun node => { node with valid := false }
      modifyInode ip fun node => { node with locked := false }) (fun _ => Freed sb ip s)
      (fun e _ => e.Fair) t := by
  obtain ⟨hsb, hinum, -, hdinode, hitable⟩ := State.around_eq haround
  have hslot : ∀ k, t.disk.slot ((s.itable ip).inum, k) = none := fun k =>
    Image.slot_eq_none (fun k hk => by simp [State.disk, hempty.dinode, Dinode.truncated, hk]) k
  have hsize : ({ (t.itable ip).copy with type := .free } : Dinode).size = 0 := by
    rw [hempty.copy]
    rfl
  have hint := hempty.intact.replace (s.itable ip).inum
    { (t.itable ip).copy with type := .free } hslot (.inl rfl) hsize
  have hlt : (t.itable ip).inum < t.sb.ninodes := by
    rw [hinum, hsb]
    exact hload.inum_lt
  refine .bind (.of_ok rfl (.bind ((iupdate_wp (by simpa using hlt)).imp fun _ u hu =>
    .bind (.of_ok rfl (.of_ok rfl ?_)))))
  subst hu
  simp only [upd_self, upd_upd, hinum]
  refine ⟨hint, funext fun i => ?_, hsb, by simp, fun i hi => ?_, fun iq hiq => ?_⟩
  · by_cases hi : i = (s.itable ip).inum
    · subst hi
      simp [Image.node, State.disk]
    · rw [upd_of_ne _ _ hi]
      exact (t.disk.node_setNode_of_ne _ hi).trans (hempty.node_of_ne hi)
  · exact (upd_of_ne _ _ hi).trans (hdinode i hi)
  · exact (upd_of_ne _ _ hiq).trans (hitable iq hiq)

theorem freeInode_wp (hs : Sound sb stray pins s) (hip : ip < ninode) (href : 0 < (s.itable ip).ref)
    (hvalid : (s.itable ip).valid = true) :
    Wp (do
      itrunc ip
      modifyCopy ip fun copy => { copy with type := .free }
      iupdate ip
      modifyInode ip fun node => { node with valid := false }
      modifyInode ip fun node => { node with locked := false }) (fun _ => Freed sb ip s)
      (fun e _ => e.Fair) s := by
  have hsync := hs.table.synced ip hip href hvalid
  have hload : Loaded ip s := ⟨hs.table.inum_lt ip hip href, hs.table.allocated ip hip href hvalid⟩
  refine .bind (((itrunc_wp (hsync.view_eq ▸ hs.disk) hload).and
    (itrunc_keeps (around_untouched ip) s)).mono (fun _ t ht => ?_) fun _ _ he => he.1)
  exact ht.1.freed hload ht.2

theorem ifree_wp (hs : Sound sb stray pins s) (hip : ip < ninode) (href : 0 < (s.itable ip).ref)
    (hvalid : (s.itable ip).valid = true) : Wp (ifree ip) (fun _ => Freed sb ip s) (fun e _ => e.Fair) s := by
  unfold ifree
  refine .bind (.of_ok rfl (.ite (fun _ => .bind (.of_error rfl (by decide))) fun _ =>
    .bind (.of_ok rfl ((freeInode_wp (hs.setLocked hip true) hip ?_ ?_).imp fun _ t ht => ?_))))
  · simpa using href
  · simpa using hvalid
  · obtain ⟨hdisk, hnode, hsb, hinum, hdinode, hitable⟩ := ht
    simp only [upd_self] at hnode hinum hdinode
    exact ⟨hdisk, hnode, hsb, hinum, hdinode,
      fun iq hiq => (hitable iq hiq).trans (upd_of_ne _ _ hiq)⟩

theorem Freed.sound (hs : Sound sb stray pins s) (hfreed : Freed sb ip s t) (hip : ip < ninode)
    (href : 0 < (s.itable ip).ref) (hpin : ip ∉ pins)
    (hfile : ∀ f < nfile, (s.ftable f).pointsTo ≠ some (.inode ip)) (hrefs : t.refs = s.refs)
    {node : Inode} (hzero : node.ref = 0) :
    Sound sb stray pins { t with itable := upd t.itable ip node } := by
  obtain ⟨hsb, -, hdinode, hitable⟩ := hfreed.around
  simp only [State.refs, Prod.mk.injEq] at hrefs
  have hftable : t.ftable = s.ftable := hrefs.2.1
  have hother : ∀ iq ≠ ip, upd t.itable ip node iq = s.itable iq := fun iq hiq =>
    (upd_of_ne _ _ hiq).trans (hitable iq hiq)
  -- whatever is in use is another entry
  have huse : ∀ iq, 0 < (upd t.itable ip node iq).ref → iq ≠ ip := by
    rintro iq hr rfl
    rw [upd_self, hzero] at hr
    omega
  refine ⟨hsb.trans hs.sb_eq, hfreed.disk, ⟨fun iq hiq ir hir hrq hrr heq => ?_, fun iq hiq hr => ?_,
    fun iq hiq hr hv => ?_, fun iq hiq hr hv => ?_, fun f hf iq hp => ?_⟩,
    fun iq hiq => ?_, fun i hi hdead => ?_⟩
  · have hq := hother iq (huse iq hrq)
    have hr := hother ir (huse ir hrr)
    simp only [hq, hr] at hrq hrr heq
    exact hs.table.unique iq hiq ir hir hrq hrr heq
  · have hq := hother iq (huse iq hr)
    simp only [hq] at hr ⊢
    exact hsb ▸ hs.table.inum_lt iq hiq hr
  · have hne := huse iq hr
    have hq := hother iq hne
    simp only [hq] at hr hv
    have hinum : (s.itable iq).inum ≠ (s.itable ip).inum := fun h =>
      hne (hs.table.unique iq hiq ip hip hr href h)
    simp only [Synced, hq]
    exact (hdinode _ hinum).trans (hs.table.synced iq hiq hr hv)
  · have hq := hother iq (huse iq hr)
    simp only [hq] at hr hv ⊢
    exact hs.table.allocated iq hiq hr hv
  · simp only [hftable] at hp ⊢
    have hne : iq ≠ ip := fun h => hfile f hf (h ▸ hp)
    simp only [hother iq hne]
    exact hs.table.opened f hf iq hp
  · have hne : iq ≠ ip := fun h => hpin (h ▸ hiq)
    simp only [hother iq hne]
    exact hs.pinned iq hiq
  · have hdead : (t.disk.node i).Dead := hdead
    rw [hfreed.node] at hdead
    have hne : i ≠ (s.itable ip).inum := by
      rintro rfl
      rw [upd_self] at hdead
      exact hdead.1 rfl
    rw [upd_of_ne _ _ hne] at hdead
    obtain ⟨iq, hiq, hr, heq, hv⟩ := hs.anchored i hi hdead
    have hiq' : iq ≠ ip := fun h => hne (by rw [← heq, h])
    exact ⟨iq, hiq, by simpa only [hother iq hiq'] using ⟨hr, heq, hv⟩⟩

theorem Sound.node_read (hs : Sound sb stray pins s) (hip : ip < ninode)
    (href : 0 < (s.itable ip).ref) (hvalid : (s.itable ip).valid = true) :
    (s.disk.node (s.itable ip).inum).type = (s.itable ip).copy.type ∧
      (s.disk.node (s.itable ip).inum).nlink = (s.itable ip).copy.nlink := by
  have hsync : s.disk.dinode (s.itable ip).inum = (s.itable ip).copy :=
    hs.table.synced ip hip href hvalid
  have hlt : (s.itable ip).inum < s.disk.sb.ninodes := hs.table.inum_lt ip hip href
  have halloc := hs.table.allocated ip hip href hvalid
  rw [Image.node, hsync, if_pos ⟨hlt, halloc⟩]
  exact ⟨rfl, rfl⟩

/-- `iput` drops a reference, and frees the inode when it was the last one and no directory names the
inode any more. -/
theorem iput_sound (hs : Sound sb stray pins s) (hip : ip < ninode) (href : 0 < (s.itable ip).ref)
    (hpin : ip ∈ pins → 1 < (s.itable ip).ref)
    (hfile : ∀ f < nfile, (s.ftable f).pointsTo = some (.inode ip) → 1 < (s.itable ip).ref) :
    Wp (iput ip) (fun _ t => Sound sb stray pins t ∧ Stable s t ∧ t.disk.node =
      if (s.itable ip).ref = 1 ∧ (s.itable ip).valid = true ∧ (s.itable ip).copy.nlink = 0
      then upd s.disk.node (s.itable ip).inum .free else s.disk.node) (fun e _ => e.Fair) s := by
  unfold iput
  refine .bind (.of_ok rfl (.ite (fun hlast => ?_) fun hmore => .of_ok rfl ⟨?_,
    .setInode fun _ _ => ⟨rfl, id⟩, by rw [if_neg hmore]; rfl⟩))
  · obtain ⟨hone, hvalid, hnlink⟩ := hlast
    refine .bind (((ifree_wp hs hip href hvalid).and (ifree_keeps ip s)).mono
      (fun _ t ht => .of_ok rfl ⟨?_, fun iq _ hr => ?_, ?_⟩) fun _ _ he => he.1)
    rotate_left
    · have hrefs := ht.2
      simp only [State.refs, Prod.mk.injEq] at hrefs
      have href' : (t.itable ip).ref = (s.itable ip).ref := congrFun hrefs.1 ip
      have hiq : iq ≠ ip := by
        rintro rfl
        simp only [upd_self, href', hone] at hr
        omega
      simp only [upd_of_ne _ _ hiq, ht.1.around.2.2.2 iq hiq]
      exact ⟨trivial, id⟩
    · rw [if_pos ⟨hone, hvalid, hnlink⟩]
      exact ht.1.node
    have hrefs := ht.2
    refine ht.1.sound hs hip href (fun h => ?_) (fun f hf h => ?_) hrefs ?_
    · have := hpin h
      omega
    · have := hfile f hf h
      omega
    · simp only [State.refs, Prod.mk.injEq] at hrefs
      have href : (t.itable ip).ref = (s.itable ip).ref := congrFun hrefs.1 ip
      simp only [href, hone]
      rfl
  · refine hs.setInode _ (fun _ iq hiq hq heq => hs.table.unique iq hiq ip hip hq href heq)
      (fun _ => hs.table.inum_lt ip hip href)
      (fun _ hv => ⟨hs.table.synced ip hip href hv, hs.table.allocated ip hip href hv⟩)
      (fun f hf hp => ⟨?_, (hs.table.opened f hf ip hp).2⟩)
      (fun _ h _ => h) (fun h => ⟨hip, ?_, (hs.pinned ip h).2.2⟩) fun _ hv hdead => ⟨?_, rfl, hv⟩
    · have := hfile f hf hp
      simp only
      omega
    · have := hpin h
      simp only
      omega
    · have hnlink := (hs.node_read hip href hv).2
      rw [hdead.2] at hnlink
      have : (s.itable ip).ref ≠ 1 := fun hone => hmore ⟨hone, hv, hnlink.symm⟩
      simp only
      omega

/-! ### New inodes, and their fields -/

structure Allocated (type : InodeType) (s : State) (ip inum : Nat) (t : State) : Prop where
  lt : ip < ninode
  inum_eq : (t.itable ip).inum = inum
  inum_pos : inum ≠ 0
  inum_lt : inum < s.sb.ninodes
  ref_pos : 0 < (t.itable ip).ref
  free : s.disk.node inum = .free
  node : t.disk.node = upd s.disk.node inum { type := type, nlink := 0, entries := [] }
  stable : Stable s t
  fresh : (∀ iq < ninode, 0 < (s.itable iq).ref → (s.itable iq).inum ≠ inum) → (t.itable ip).ref = 1

theorem ialloc_sound (hs : Sound sb stray pins s) {type : InodeType} (htype : type ≠ .free) :
    Wp (ialloc type) (fun r t => match r with
      | none => t = s
      | some ip => ∃ inum, Sound sb (insert inum stray) pins t ∧ Allocated type s ip inum t) (fun e _ => e.Fair) s := by
  unfold ialloc
  refine .get ?_
  split
  · exact .pure rfl
  · rename_i inum hfind
    obtain ⟨hlt, hpos, hfree⟩ := List.find?_range_some hfind
    have hnone : ∀ k, s.disk.slot (inum, k) = none := fun k => by
      simp [Image.slot, State.disk, hfree]
    have hint := hs.disk.replace inum { Dinode.empty with type := type } hnone
      (.inr fun _ _ => rfl) rfl
    have hsound : Sound sb (insert inum stray) pins
        { s with dinode := upd s.dinode inum { Dinode.empty with type := type } } := by
      refine ⟨hs.sb_eq, hint, ⟨hs.table.unique, hs.table.inum_lt, fun ip hip hr hv => ?_,
        hs.table.allocated, hs.table.opened⟩, hs.pinned, fun i hi hdead => ?_⟩
      · have hsync := hs.table.synced ip hip hr hv
        have hne : (s.itable ip).inum ≠ inum := fun h => by
          have halloc := hs.table.allocated ip hip hr hv
          rw [← hsync, h] at halloc
          exact halloc hfree
        exact (upd_of_ne _ _ hne).trans hsync
      · have hi := not_or.mp hi
        have hnode := s.disk.node_setNode_of_ne { Dinode.empty with type := type } hi.1
        exact hs.anchored i hi.2 (hnode ▸ hdead)
    refine .bind (.of_ok rfl (.bind ((iget_sound hsound (hs.sb_eq ▸ hlt)).imp fun ip t ht =>
      .pure ⟨inum, ht.1, ht.2.lt, ht.2.inum_eq, by omega, hlt, ht.2.ref_pos, ?_, ?_, ht.2.stable,
        ht.2.fresh⟩)))
    · simp [Image.node, State.disk, hfree]
    · rw [ht.2.disk]
      funext i
      by_cases hi : i = inum
      · subst hi
        simp [Image.node, State.disk, hlt, htype, Dinode.empty]
      · rw [upd_of_ne _ _ hi]
        exact s.disk.node_setNode_of_ne _ hi

theorem Image.node_setFields (img : Image) {i : Nat} (node : Dinode) (hi : i < img.sb.ninodes)
    (halloc : (img.dinode i).type ≠ .free) (htype : node.type = (img.dinode i).type)
    (hsize : node.size = (img.dinode i).size) (haddrs : node.addrs = (img.dinode i).addrs) :
    (img.setNode i node).node = upd img.node i { img.node i with nlink := node.nlink } := by
  funext i'
  by_cases heq : i' = i
  · subst heq
    have hself : (img.setNode i' node).dinode i' = node := upd_self _ _ _
    have hslot : (img.setNode i' node).slot = img.slot :=
      slot_setNode img (by rw [htype]) fun k _ => by rw [haddrs]
    have hentry : (img.setNode i' node).entry i' = img.entry i' := funext fun k =>
      entry_congr (Nat.le_refl _) fun j _ => byte_eq_of_slot hslot rfl i' j
    have hsb : (img.setNode i' node).sb = img.sb := rfl
    rw [upd_self]
    simp only [Image.node, hself, hentry, hsb, htype, hsize, if_pos (And.intro hi halloc)]
  · rw [upd_of_ne _ _ heq]
    exact img.node_setNode_of_ne _ heq

theorem setFields_wp (hs : Sound sb stray pins s) (hip : ip ∈ pins) {g : Dinode → Dinode}
    (htype : ∀ node, (g node).type = node.type) (hsize : ∀ node, (g node).size = node.size)
    (haddrs : ∀ node, (g node).addrs = node.addrs) :
    Wp (do modifyCopy ip g; iupdate ip) (fun _ t => Sound sb stray pins t ∧ Stable s t ∧
      t.disk.node = upd s.disk.node (s.itable ip).inum { s.disk.node (s.itable ip).inum with
        nlink := (g (s.itable ip).copy).nlink }) (fun e _ => e.Fair) s := by
  have hsync : s.disk.dinode (s.itable ip).inum = (s.itable ip).copy := hs.synced hip
  have hload := hs.loaded hip
  have hkeep : ∀ {γ : Type} {f : State → γ}, Untouched ip f →
      Keeps f (do modifyCopy ip g; iupdate ip) := fun hf =>
    .bind (modifyCopy_keeps hf _) fun _ => iupdate_keeps hf
  have hint : (s.disk.setNode (s.itable ip).inum (g (s.itable ip).copy)).Intact sb.Names ∅ :=
    hs.disk.setFields (by rw [htype, hsync]) (by rw [hsize, hsync]) (by rw [haddrs, hsync])
  have hnode := s.disk.node_setFields (g (s.itable ip).copy) hload.inum_lt
    (by rw [hsync]; exact hload.allocated) (by rw [htype, hsync]) (by rw [hsize, hsync])
    (by rw [haddrs, hsync])
  have hrun : Wp (do modifyCopy ip g; iupdate ip) (fun _ t => t.disk =
      s.disk.setNode (s.itable ip).inum (g (s.itable ip).copy) ∧ Synced ip t ∧
      (t.itable ip).copy.type = (s.itable ip).copy.type) (fun e _ => e.Fair) s := by
    refine .bind (.of_ok rfl ((iupdate_wp (by simpa using hload.inum_lt)).imp fun _ t ht => ?_))
    subst ht
    refine ⟨?_, by simp [Synced], by simp [htype]⟩
    simp only [State.disk, Image.setNode, upd_self]
  refine (hrun.and ((hkeep (refs_untouched ip) s).and (hkeep (around_untouched ip) s))).mono
    (fun _ t ht => ?_) fun _ _ he => he.1
  obtain ⟨⟨hdisk, hsync', htype'⟩, hrefs, haround⟩ := ht
  have hnode : t.disk.node = _ := hdisk ▸ hnode
  exact ⟨hs.change hip hrefs haround (hdisk ▸ hint) hsync' htype' fun i hi => by
    rw [hnode, upd_of_ne _ _ hi], stable_of_around haround, hnode⟩

/-! ### Contents -/

theorem Sound.changeKeeps {α : Type} {x : F α} (hs : Sound sb stray pins s) (hip : ip ∈ pins)
    {Q : α → State → Prop} (hrefs : Keeps State.refs x) (haround : Keeps (State.around ip) x)
    (hx : Wp x (fun r t => (t.disk.Intact sb.Names ∅ ∧ Synced ip t ∧
      (t.itable ip).copy.type = (s.itable ip).copy.type ∧
      ∀ i ≠ (s.itable ip).inum, t.disk.node i = s.disk.node i) ∧ Q r t) (fun e _ => e.Fair) s) :
    Wp x (fun r t => Sound sb stray pins t ∧ Stable s t ∧ Q r t) (fun e _ => e.Fair) s :=
  (hx.and ((hrefs s).and (haround s))).mono (fun _ _ ht =>
    ⟨hs.change hip ht.2.1 ht.2.2 ht.1.1.1 ht.1.1.2.1 ht.1.1.2.2.1 ht.1.1.2.2.2,
      stable_of_around ht.2.2, ht.1.2⟩) fun _ _ he => he.1

theorem Sound.entries (hs : Sound sb stray pins s) (hip : ip ∈ pins)
    (hdir : (s.itable ip).copy.type = .dir) : (s.disk.node (s.itable ip).inum).entries =
      (List.range ((s.itable ip).copy.size / direntSize)).map (s.disk.entry (s.itable ip).inum) := by
  have hsync : s.disk.dinode (s.itable ip).inum = (s.itable ip).copy := hs.synced hip
  rw [s.disk.node_dir (hs.loaded hip).inum_lt (by rw [hsync, hdir]), hsync]

theorem Sound.entry_lt (hs : Sound sb stray pins s) {i : Nat} {de : Dirent}
    (hde : de ∈ (s.disk.node i).entries) : de.inum < sb.ninodes := by
  unfold Image.node at hde
  split at hde
  · rename_i hi
    split at hde
    · rename_i hdir
      obtain ⟨k, hk, rfl⟩ := List.mem_map.mp hde
      have hk := List.mem_range.mp hk
      have hsize : direntSize * (k + 1) ≤ (s.disk.dinode i).size := by
        simp only [direntSize] at hk ⊢
        omega
      have hlt := hs.disk.entries i hi.1 hdir k hsize
      have hsb : s.disk.sb = sb := hs.sb_eq
      exact hsb ▸ hlt
    · cases hde
  · cases hde

theorem readDirent_sound {E : Stop → State → Prop} (hs : Sound sb stray pins s) (hip : ip ∈ pins)
    (hdir : (s.itable ip).copy.type = .dir) (k : Nat) :
    Wp (readDirent ip (direntSize * k)) (fun r t => t = s ∧
      r = (s.disk.node (s.itable ip).inum).entries[k]?) E s := by
  have hview := (hs.synced hip).view_eq
  refine (readDirent_wp (hview ▸ hs.disk) (hs.loaded hip) k).imp fun r t ht => ⟨ht.1, ?_⟩
  rw [ht.2, hs.entries hip hdir, hview, List.getElem?_map]
  by_cases hk : direntSize * (k + 1) ≤ (s.itable ip).copy.size
  · have hlt : k < (s.itable ip).copy.size / direntSize := by
      simp only [direntSize] at hk ⊢
      omega
    rw [if_pos hk, List.getElem?_range hlt]
    rfl
  · have hge : (s.itable ip).copy.size / direntSize ≤ k := by
      simp only [direntSize] at hk ⊢
      omega
    rw [if_neg hk, List.getElem?_eq_none (by simpa using hge)]
    rfl

theorem writeDirent_sound (hs : Sound sb stray pins s) (hip : ip ∈ pins)
    (hdir : (s.itable ip).copy.type = .dir) {k : Nat}
    (hk : k ≤ (s.disk.node (s.itable ip).inum).entries.length) {de : Dirent}
    (hde : de.stored.inum < sb.ninodes) :
    Wp (writeDirent ip (direntSize * k) de) (fun r t => Sound sb stray pins t ∧ Stable s t ∧
      t.disk.node = if r = direntSize then upd s.disk.node (s.itable ip).inum
        ((s.disk.node (s.itable ip).inum).setEntry k de.stored) else s.disk.node)
      (fun e _ => e.Fair) s := by
  have hsize : direntSize * k ≤ (s.itable ip).copy.size := by
    rw [hs.entries hip hdir, List.length_map, List.length_range] at hk
    simp only [direntSize] at hk ⊢
    omega
  refine hs.changeKeeps hip (writei_keeps (refs_untouched ip) _ _ _)
    (writei_keeps (around_untouched ip) _ _ _)
    ((writeDirent_wp hs.disk (hs.synced hip) (hs.loaded hip) hdir hsize _ (hs.sb_eq ▸ hde)).imp
      fun r t ht => ?_)
  rcases ht with ⟨hr, -, ht⟩ | ⟨hr, -, ht, -⟩
  · rw [if_pos hr]
    exact ⟨⟨ht.intact, ht.synced, ht.type, fun i hi => by rw [ht.node, upd_of_ne _ _ hi]⟩, ht.node⟩
  · rw [if_neg hr]
    exact ⟨⟨ht.intact, ht.synced, ht.type, fun i _ => by rw [ht.node]⟩, ht.node⟩

end Sound

end Xv6Mmap.Fs
