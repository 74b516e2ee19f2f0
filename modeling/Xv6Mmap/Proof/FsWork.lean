import Xv6Mmap.Proof.FsGraph
import Xv6Mmap.Proof.FsRefsRun
import Xv6Mmap.Proof.FsScan
import Xv6Mmap.Proof.FsSound

/-!
# A call at work

A call holds inodes that it got from the inode table, knows which nodes they stand for, and has read
some of them. What it does is followed on the directory graph. Nothing that a file or a current
directory points to goes away meanwhile.
-/

namespace Xv6Mmap.Fs

open Sequential

/-- The references `held`, and one for each hand. A hand is an index in the inode table with the number
of the inode that it stands for. -/
def holds (held : Ref → Int) : List (Nat × Nat) → Ref → Int
  | [] => held
  | hand :: hands => holds held hands + one (some (.inode hand.1))

/-- What stays the same while a call works on inodes. The nodes in `anchors` are pointed to by a file or
a current directory. -/
structure Setting where
  sb : Superblock
  stray : Set Nat
  anchors : Set Nat
  pointers : Ref → Int
  held : Ref → Int
  caller : Nat
  cwd : Nat
  held_nonneg : ∀ ip, 0 ≤ held (.inode ip)

/-- The call holds `hands`, has read `pins`, and the graph is `G`, up to nodes without links. -/
structure At (c : Setting) (hands : List (Nat × Nat)) (pins : List Nat) (G : Graph) (s : State) :
    Prop where
  holding : Holding (holds c.held hands) s
  sound : Sound c.sb c.stray pins s
  hands : ∀ hand ∈ hands, hand.1 < ninode ∧ (s.itable hand.1).inum = hand.2
  pointers : s.pointers = c.pointers
  anchored : ∀ i ∈ c.anchors, ∃ ip < ninode, 0 < c.pointers (.inode ip) ∧ (s.itable ip).inum = i
  cwds : ∀ q ip, (s.proc q).cwd = some ip → (s.disk.node (s.itable ip).inum).type ≠ .free
  caller : ∃ ip, (s.proc c.caller).cwd = some ip ∧ (s.itable ip).inum = c.cwd
  shed : G.Shed c.anchors s.disk.node

/-- The reasons to stop of a call: `bad` says what it takes to lock an inode that is free. -/
def Allowed (bad : Prop) (e : Stop) : Prop := e.Fair ∨ (e = .ilockNoType ∧ bad)

abbrev Runs {α : Type} (bad : Prop) (P : State → Prop) (x : F α) (Q : α → State → Prop) : Prop :=
  Triple (Allowed bad) P x Q

variable {c : Setting} {hands hands' : List (Nat × Nat)} {pins pins' : List Nat} {G G' : Graph}
  {s t : State} {ip i : Nat} {bad : Prop}

/-! ### Counting references -/

theorem holds_nonneg {held : Ref → Int} (hheld : ∀ ip, 0 ≤ held (.inode ip))
    (hands : List (Nat × Nat)) (ip : Nat) : 0 ≤ holds held hands (.inode ip) := by
  induction hands with
  | nil => exact hheld ip
  | cons hand hands ih =>
      have : 0 ≤ one (some (.inode hand.1)) (.inode ip) := by
        unfold one
        split <;> decide
      exact Int.add_nonneg ih this

theorem holds_pos {held : Ref → Int} (hheld : ∀ ip, 0 ≤ held (.inode ip))
    {hands : List (Nat × Nat)} (hhand : (ip, i) ∈ hands) : 0 < holds held hands (.inode ip) := by
  induction hands with
  | nil => cases hhand
  | cons hand hands ih =>
      have hrest := holds_nonneg hheld hands ip
      show 0 < holds held hands (.inode ip) + one (some (.inode hand.1)) (.inode ip)
      rcases List.mem_cons.mp hhand with rfl | hmem
      · rw [one_self]
        omega
      · have := ih hmem
        have : 0 ≤ one (some (.inode hand.1)) (.inode ip) := by
          unfold one
          split <;> decide
        omega

theorem holds_perm {held : Ref → Int} (hperm : hands.Perm hands') :
    holds held hands = holds held hands' := by
  induction hperm with
  | nil => rfl
  | cons hand _ ih => simp only [holds, ih]
  | swap hand hand' _ => exact add_right_comm _ _ _
  | trans _ _ ih ih' => rw [ih, ih']

theorem State.pointers_pos_of_cwd (hcwd : (s.proc i).cwd = some ip) (hi : i < nproc) :
    0 < s.pointers (.inode ip) := by
  have hmem : i ∈ (Finset.range nproc).filter fun p =>
      (s.proc p).cwd.map Ref.inode = some (.inode ip) := by
    simp [hi, hcwd]
  have := Finset.card_pos.mpr ⟨i, hmem⟩
  simp only [pointers]
  omega

theorem State.pointers_pos_of_file {f : Nat} (hf : f < nfile)
    (hpoints : (s.ftable f).pointsTo = some (.inode ip)) : 0 < s.pointers (.inode ip) := by
  have hmem : f ∈ (Finset.range nfile).filter fun f => (s.ftable f).pointsTo = some (.inode ip) := by
    simp [hf, hpoints]
  have := Finset.card_pos.mpr ⟨f, hmem⟩
  simp only [pointers]
  omega

namespace At

theorem hand (h : At c hands pins G s) (hhand : (ip, i) ∈ hands) :
    ip < ninode ∧ (s.itable ip).inum = i := h.hands (ip, i) hhand

theorem ref_eq (h : At c hands pins G s) (hip : ip < ninode) :
    (s.itable ip).ref = c.pointers (.inode ip) + holds c.held hands (.inode ip) := by
  rw [← h.pointers]
  exact h.holding.balanced.count (.inode ip) hip

theorem pointers_nonneg (h : At c hands pins G s) (r : Ref) : 0 ≤ c.pointers r := by
  rw [← h.pointers]
  exact s.pointers_nonneg r

theorem ref_pos_of_hand (h : At c hands pins G s) (hhand : (ip, i) ∈ hands) :
    0 < (s.itable ip).ref := by
  rw [h.ref_eq (h.hand hhand).1]
  have := holds_pos c.held_nonneg hhand
  have := h.pointers_nonneg (.inode ip)
  omega

theorem inum_lt (h : At c hands pins G s) (hhand : (ip, i) ∈ hands) : i < c.sb.ninodes := by
  obtain ⟨hip, hinum⟩ := h.hand hhand
  rw [← hinum, ← h.sound.sb_eq]
  exact h.sound.table.inum_lt ip hip (h.ref_pos_of_hand hhand)

theorem ref_pos_of_pointer (h : At c hands pins G s) (hip : ip < ninode)
    (hpos : 0 < c.pointers (.inode ip)) : 0 < (s.itable ip).ref := by
  rw [h.ref_eq hip]
  have := holds_nonneg c.held_nonneg hands ip
  omega

theorem cwd_pointer (h : At c hands pins G s) {q : Nat} (hcwd : (s.proc q).cwd = some ip) :
    ip < ninode ∧ 0 < c.pointers (.inode ip) := by
  obtain ⟨hq, hip⟩ := h.holding.balanced.cwd q ip hcwd
  exact ⟨hip, h.pointers ▸ s.pointers_pos_of_cwd hcwd hq⟩

/-! ### The graph -/

theorem node_eq (h : At c hands pins G s) (hhand : (ip, i) ∈ hands) (hpin : ip ∈ pins) :
    s.disk.node i = G i ∧ (G i).type ≠ .free ∧ (s.itable ip).copy.type = (G i).type ∧
      (s.itable ip).copy.nlink = (G i).nlink := by
  obtain ⟨hip, href, hvalid⟩ := h.sound.pinned ip hpin
  have hinum := (h.hand hhand).2
  have halloc := h.sound.table.allocated ip hip href hvalid
  obtain ⟨htype, hnlink⟩ := h.sound.node_read hip href hvalid
  rw [hinum] at htype hnlink
  have hnode : s.disk.node i = G i := h.shed.of_ne_free (by rw [htype]; exact halloc)
  rw [hnode] at htype hnlink
  exact ⟨hnode, htype ▸ halloc, htype.symm, hnlink.symm⟩

theorem advance (h : At c hands pins G s) (hholding : Holding (holds c.held hands') t)
    (hsound : Sound c.sb c.stray pins' t) (hstable : Stable s t) (hholders : t.holders = s.holders)
    (hhands : ∀ hand ∈ hands', hand ∈ hands ∨ (hand.1 < ninode ∧ (t.itable hand.1).inum = hand.2))
    (hshed : G'.Shed c.anchors t.disk.node)
    (hkept : ∀ iq < ninode, 0 < c.pointers (.inode iq) →
      (s.disk.node (s.itable iq).inum).type ≠ .free → (t.disk.node (s.itable iq).inum).type ≠ .free) :
    At c hands' pins' G' t := by
  simp only [State.holders, Prod.mk.injEq] at hholders
  obtain ⟨hftable, hproc⟩ := hholders
  have hpointers : t.pointers = c.pointers := by
    rw [← h.pointers]
    funext r
    simp only [State.pointers, hftable, hproc]
  have hrefs : ∀ iq < ninode, (t.itable iq).ref =
      c.pointers (.inode iq) + holds c.held hands' (.inode iq) := fun iq hiq => by
    rw [← hpointers]
    exact hholding.balanced.count (.inode iq) hiq
  -- what is pointed to stays where it is
  have hsame : ∀ iq < ninode, 0 < c.pointers (.inode iq) →
      (t.itable iq).inum = (s.itable iq).inum := fun iq hiq hpos => by
    refine (hstable iq (h.ref_pos_of_pointer hiq hpos) ?_).1
    rw [hrefs iq hiq]
    have := holds_nonneg c.held_nonneg hands' iq
    omega
  refine ⟨hholding, hsound, fun hand hmem => ?_, hpointers, fun j hj => ?_, fun q iq hcwd => ?_, ?_,
    hshed⟩
  · refine (hhands hand hmem).elim (fun hold => ?_) id
    obtain ⟨hlt, hinum⟩ := h.hands hand hold
    refine ⟨hlt, (hstable hand.1 (h.ref_pos_of_hand hold) ?_).1.trans hinum⟩
    rw [hrefs _ hlt]
    have := holds_pos c.held_nonneg hmem
    have := h.pointers_nonneg (.inode hand.1)
    omega
  · obtain ⟨iq, hiq, hpos, hinum⟩ := h.anchored j hj
    exact ⟨iq, hiq, hpos, (hsame iq hiq hpos).trans hinum⟩
  · rw [hproc] at hcwd
    obtain ⟨hiq, hpos⟩ := h.cwd_pointer hcwd
    rw [hsame iq hiq hpos]
    exact hkept iq hiq hpos (h.cwds q iq hcwd)
  · obtain ⟨iq, hcwd, hinum⟩ := h.caller
    obtain ⟨hiq, hpos⟩ := h.cwd_pointer hcwd
    exact ⟨iq, by rw [hproc, hcwd], (hsame iq hiq hpos).trans hinum⟩

theorem advance_same (h : At c hands pins G s) (hholding : Holding (holds c.held hands') t)
    (hsound : Sound c.sb c.stray pins' t) (hstable : Stable s t) (hholders : t.holders = s.holders)
    (hhands : ∀ hand ∈ hands', hand ∈ hands ∨ (hand.1 < ninode ∧ (t.itable hand.1).inum = hand.2))
    (hnode : t.disk.node = s.disk.node) : At c hands' pins' G t :=
  h.advance hholding hsound hstable hholders hhands (hnode ▸ h.shed) fun _ _ _ => by
    rw [hnode]
    exact id

theorem perm (h : At c hands pins G s) (hperm : hands.Perm hands') : At c hands' pins G s :=
  { h with
    holding := holds_perm hperm ▸ h.holding
    hands := fun hand hmem => h.hands hand (hperm.mem_iff.mpr hmem) }

theorem unpin (h : At c hands pins G s) (hpins : ∀ iq ∈ pins', iq ∈ pins) : At c hands pins' G s :=
  { h with sound := { h.sound with pinned := fun iq hiq => h.sound.pinned iq (hpins iq hiq) } }

end At

/-! ### The inode table -/

theorem getInode_at : Runs bad (At c hands pins G) (getInode ip) fun node s =>
    (ip ∈ pins → (ip, i) ∈ hands → node.inum = i ∧ node.copy.type = (G i).type ∧
      node.copy.nlink = (G i).nlink ∧ (G i).type ≠ .free) ∧ At c hands pins G s := fun _ h =>
  .of_ok rfl ⟨fun hpin hhand =>
    ⟨(h.hand hhand).2, (h.node_eq hhand hpin).2.2.1, (h.node_eq hhand hpin).2.2.2,
      (h.node_eq hhand hpin).2.1⟩, h⟩

theorem iget_at {inum : Nat} (hinum : inum < c.sb.ninodes) :
    Runs bad (At c hands pins G) (iget inum) fun ip => At c ((ip, inum) :: hands) pins G := fun s h =>
  ((iget_spec inum s h.holding).and ((iget_sound h.sound hinum).and (iget_holders inum s))).mono
    (fun ip t ⟨⟨hip, hholding⟩, ⟨hsound, hgot⟩, hholders⟩ =>
      h.advance_same hholding hsound hgot.stable hholders (fun hand hmem => by
        rcases List.mem_cons.mp hmem with rfl | hmem
        · exact .inr ⟨hip, hgot.inum_eq⟩
        · exact .inl hmem) (by rw [hgot.disk]))
    fun e _ he => .inl he.2.1

theorem idup_at {q : Nat} (hcwd : (s.proc q).cwd = some ip) (h : At c hands pins G s) :
    Wp (idup ip) (fun ip' => At c ((ip', (s.itable ip).inum) :: hands) pins G)
      (fun e _ => Allowed bad e) s := by
  obtain ⟨hip, hpos⟩ := h.cwd_pointer hcwd
  have href := h.ref_pos_of_pointer hip hpos
  refine ((idup_spec ip s h.holding).and ((idup_sound h.sound hip href).and
    (idup_holders ip s))).mono (fun ip' t ht => ?_) fun e _ he => .inl he.2.1
  obtain ⟨⟨rfl, hholding⟩, ⟨hsound, hstable, hdisk⟩, hholders⟩ := ht
  refine h.advance_same hholding hsound hstable hholders (fun hand hmem => ?_) (by rw [hdisk])
  rcases List.mem_cons.mp hmem with rfl | hmem
  · refine .inr ⟨hip, (hstable ip' href ?_).1⟩
    have hcount := hholding.balanced.count (.inode ip') hip
    have hnonneg := t.pointers_nonneg (.inode ip')
    have hholds := holds_pos c.held_nonneg hmem
    have hcount : (t.itable ip').ref = t.pointers (.inode ip') +
      holds c.held ((ip', (s.itable ip').inum) :: hands) (.inode ip') := hcount
    omega
  · exact .inl hmem

/-- `ilock` fails when the inode is free and has not been read. -/
theorem ilock_at (hhand : (ip, i) ∈ hands) :
    Runs bad (fun s => (s.disk.node i = .free → ip ∉ pins → bad) ∧ At c hands pins G s) (ilock ip)
      fun _ s => (G i).type ≠ .free ∧ At c hands (ip :: pins) G s := fun s ⟨hfree, h⟩ => by
  obtain ⟨hip, hinum⟩ := h.hand hhand
  refine ((Holding.keeps (ilock_keeps ip) s h.holding).and ((ilock_sound h.sound hip).and
    (keeps_holders (ilock_keeps ip) s))).mono (fun _ t ht => ?_) fun e _ he => ?_
  · obtain ⟨hholding, ⟨hsound, hstable, hdisk⟩, hholders⟩ := ht
    have hdone : At c hands (ip :: pins) G t :=
      h.advance_same hholding hsound hstable hholders (fun _ hmem => .inl hmem) (by rw [hdisk])
    exact ⟨(hdone.node_eq hhand (by simp)).2.1, hdone⟩
  · refine he.2.1.imp_right fun ⟨he, hvalid, hnode⟩ => ⟨he, hfree (hinum ▸ hnode) fun hpin => ?_⟩
    rw [(h.sound.pinned ip hpin).2.2] at hvalid
    cases hvalid

theorem ilock_found (hhand : (ip, i) ∈ hands) (hfound : G.Named i ∨ i = c.cwd)
    (hbad : G.Dangling c.anchors → bad) : Runs bad (At c hands pins G) (ilock ip)
      fun _ s => (G i).type ≠ .free ∧ At c hands (ip :: pins) G s :=
  (ilock_at hhand).pre fun s h => by
    refine ⟨fun hfree _ => ?_, h⟩
    rcases hfound with hnamed | rfl
    · refine hbad ⟨i, hnamed, ?_⟩
      rcases h.shed i with heq | ⟨hanchor, hnlink, -⟩
      · exact .inl (heq ▸ hfree)
      · exact .inr ⟨hanchor, hnlink⟩
    · obtain ⟨iq, hcwd, hinum⟩ := h.caller
      exact absurd (by rw [hinum, hfree]; rfl) (h.cwds _ iq hcwd)

theorem ilock_pinned (hhand : (ip, i) ∈ hands) (hpin : ip ∈ pins) :
    Runs bad (At c hands pins G) (ilock ip) fun _ => At c hands pins G :=
  ((ilock_at hhand).pre fun _ h => ⟨fun _ hnot => absurd hpin hnot, h⟩).post fun _ _ h =>
    h.2.unpin fun _ => .tail _

theorem iunlock_at (hhand : (ip, i) ∈ hands) :
    Runs bad (At c hands pins G) (iunlock ip) fun _ => At c hands pins G := fun s h => by
  obtain ⟨hip, -⟩ := h.hand hhand
  refine ((Holding.keeps (iunlock_keeps ip) s h.holding).and ((iunlock_sound h.sound hip).and
    (keeps_holders (iunlock_keeps ip) s))).mono (fun _ t ht => ?_) fun e _ he => .inl he.2.1
  obtain ⟨hholding, ⟨hsound, hstable, hdisk⟩, hholders⟩ := ht
  exact h.advance_same hholding hsound hstable hholders (fun _ hmem => .inl hmem) (by rw [hdisk])

/-- What a call has read stays in memory when it drops another hand. -/
def Covers (hands : List (Nat × Nat)) (pins : List Nat) : Prop := ∀ iq ∈ pins, ∃ j, (iq, j) ∈ hands

theorem Covers.cons (hcover : Covers hands pins) (ip i : Nat) :
    Covers ((ip, i) :: hands) (ip :: pins) := fun iq hiq => by
  rcases List.mem_cons.mp hiq with rfl | hiq
  · exact ⟨i, List.mem_cons_self⟩
  · exact (hcover iq hiq).imp fun _ => .tail _

/-- A hand is dropped. The node is freed if this was the last reference and it has no links. -/
theorem iput_wp (h : At c ((ip, i) :: hands) pins G s) (hpins : ∀ iq ∈ pins', iq ∈ pins)
    (hcover : Covers hands pins') :
    Wp (iput ip) (fun _ t => At c hands pins' G t ∧ (c.pointers (.inode ip) +
      holds c.held hands (.inode ip) = 0 → ip ∈ pins → (G i).nlink = 0 → t.disk.node i = .free))
      (fun e _ => Allowed bad e) s := by
  have hmem : (ip, i) ∈ (ip, i) :: hands := List.mem_cons_self
  obtain ⟨hip, hinum⟩ := h.hand hmem
  have href := h.ref_pos_of_hand hmem
  have hcount : (s.itable ip).ref =
      c.pointers (.inode ip) + (holds c.held hands (.inode ip) + 1) := by
    rw [h.ref_eq hip]
    simp [holds]
  have hheld := holds_nonneg c.held_nonneg hands ip
  have hpointer := h.pointers_nonneg (.inode ip)
  -- nothing else holds what is freed
  have hlast : (s.itable ip).ref = 1 → c.pointers (.inode ip) = 0 := fun hone => by omega
  have hother : (s.itable ip).ref = 1 → ∀ iq < ninode, 0 < c.pointers (.inode iq) →
      (s.itable iq).inum ≠ i := fun hone iq hiq hpos heq => by
    have := h.sound.table.unique iq hiq ip hip (h.ref_pos_of_pointer hiq hpos) href (by rw [heq, hinum])
    rw [this, hlast hone] at hpos
    omega
  have hsound : Sound c.sb c.stray pins' s := (h.unpin hpins).sound
  refine ((iput_drop ip s h.holding).and ((iput_sound hsound hip href (fun hpin => ?_)
    (fun f hf hpoints => ?_)).and (iput_holders ip s))).mono (fun _ t ht => ?_) fun e _ he => .inl he.2.1
  · obtain ⟨j, hj⟩ := hcover ip hpin
    have := holds_pos c.held_nonneg hj
    omega
  · have := h.pointers ▸ s.pointers_pos_of_file hf hpoints
    omega
  · obtain ⟨hholding, ⟨hsound', hstable, hnode⟩, hholders⟩ := ht
    rw [hinum] at hnode
    by_cases hfree : (s.itable ip).ref = 1 ∧ (s.itable ip).valid = true ∧ (s.itable ip).copy.nlink = 0
    · rw [if_pos hfree] at hnode
      obtain ⟨hone, hvalid, hnlink⟩ := hfree
      obtain ⟨htype, hnlink'⟩ := hsound.node_read hip href hvalid
      rw [hinum, hnlink] at hnlink'
      rw [hinum] at htype
      have hG : s.disk.node i = G i := h.shed.of_ne_free (by
        rw [htype]
        exact h.sound.table.allocated ip hip href hvalid)
      refine ⟨h.advance hholding hsound' hstable hholders (fun _ h => .inl (.tail _ h)) ?_ ?_,
        fun _ _ _ => by rw [hnode, upd_self]⟩
      · rw [hnode]
        refine h.shed.free (fun hanchor => ?_) (hG ▸ hnlink')
        obtain ⟨iq, hiq, hpos, heq⟩ := h.anchored i hanchor
        exact hother hone iq hiq hpos heq
      · intro iq hiq hpos hkept
        rw [hnode, upd_of_ne _ _ (hother hone iq hiq hpos)]
        exact hkept
    · rw [if_neg hfree] at hnode
      refine ⟨h.advance_same hholding hsound' hstable hholders (fun _ h => .inl (.tail _ h)) hnode,
        fun hzero hpin hdead => absurd ?_ hfree⟩
      obtain ⟨-, -, -, hnlink⟩ := h.node_eq hmem hpin
      exact ⟨by omega, (h.sound.pinned ip hpin).2.2, hnlink.trans hdead⟩

theorem iput_at (hpins : ∀ iq ∈ pins', iq ∈ pins) (hcover : Covers hands pins') :
    Runs bad (At c ((ip, i) :: hands) pins G) (iput ip) fun _ => At c hands pins' G := fun _ h =>
  (iput_wp h hpins hcover).imp fun _ _ ht => ht.1

theorem iunlockput_at (hpins : ∀ iq ∈ pins', iq ∈ pins) (hcover : Covers hands pins') :
    Runs bad (At c ((ip, i) :: hands) pins G) (iunlockput ip) fun _ => At c hands pins' G :=
  .bind (iunlock_at List.mem_cons_self) fun _ => iput_at hpins hcover

theorem iunlockput_second {iq j : Nat} (hpins : ∀ iq ∈ pins', iq ∈ pins)
    (hcover : Covers ((iq, j) :: hands) pins') :
    Runs bad (At c ((iq, j) :: (ip, i) :: hands) pins G) (iunlockput ip)
      fun _ => At c ((iq, j) :: hands) pins' G :=
  (iunlockput_at hpins hcover).pre fun _ h => h.perm (.swap _ _ _)

/-! ### Fields of an inode -/

/-- The numbers of a locked inode are changed and written back; `f` is what happens to the links. -/
theorem setFields_at (hhand : (ip, i) ∈ hands) (hpin : ip ∈ pins) {g : Dinode → Dinode}
    {f : Int → Int} (htype : ∀ node, (g node).type = node.type)
    (hsize : ∀ node, (g node).size = node.size) (haddrs : ∀ node, (g node).addrs = node.addrs)
    (hnlink : ∀ node, (g node).nlink = f node.nlink) :
    Runs bad (At c hands pins G) (do modifyCopy ip g; iupdate ip)
      fun _ => At c hands pins (G.setNlink i (f (G i).nlink)) := fun s h => by
  obtain ⟨hnode, hne, -, hlinks⟩ := h.node_eq hhand hpin
  have hinum := (h.hand hhand).2
  have hkeeps : Keeps State.refs (do modifyCopy ip g; iupdate ip) :=
    .bind (modifyCopy_keeps (refs_untouched ip) _) fun _ => iupdate_keeps (refs_untouched ip)
  refine ((Holding.keeps hkeeps s h.holding).and ((setFields_wp h.sound hpin htype hsize haddrs).and
    (keeps_holders hkeeps s))).mono (fun _ t ht => ?_) fun e _ he => .inl he.2.1
  obtain ⟨hholding, ⟨hsound, hstable, hdisk⟩, hholders⟩ := ht
  rw [hinum, hnode, hnlink, hlinks] at hdisk
  refine h.advance hholding hsound hstable hholders (fun _ hmem => .inl hmem)
    (hdisk ▸ h.shed.set i _) fun iq _ _ hkept => ?_
  rw [hdisk]
  by_cases hi : (s.itable iq).inum = i
  · rw [hi, upd_self]
    exact hne
  · rwa [upd_of_ne _ _ hi]

theorem addLink_at (hhand : (ip, i) ∈ hands) (hpin : ip ∈ pins) (d : Int) :
    Runs bad (At c hands pins G) (addLink ip d) fun _ => At c hands pins (G.addLinks i d) :=
  setFields_at hhand hpin (f := fun n => short (n + d)) (fun _ => rfl) (fun _ => rfl) (fun _ => rfl)
    fun _ => rfl

def Setting.straying (c : Setting) (i : Nat) : Setting := { c with stray := insert i c.stray }

theorem ialloc_at {type : InodeType} (htype : type ≠ .free) :
    Runs bad (At c hands pins G) (ialloc type) fun r s =>
      match r with
      | none => At c hands pins G s
      | some ip => ∃ i, (i ≠ 0 ∧ i < c.sb.ninodes ∧ G.Loose c.anchors i ∧
            ∀ hand ∈ hands, hand.1 ∈ pins → i ≠ hand.2) ∧
          (s.disk.node i).type ≠ .free ∧ At (c.straying i) ((ip, i) :: hands) pins
            (G.set i { type := type, nlink := 0, entries := [] }) s := fun s h => by
  refine ((ialloc_spec type s h.holding).and ((ialloc_sound h.sound htype).and
    (ialloc_holders type s))).mono (fun r t ht => ?_) fun e _ he => .inl he.2.1
  obtain ⟨hspec, hsound, hholders⟩ := ht
  cases r with
  | none => exact hsound ▸ h
  | some ip =>
      obtain ⟨hip, hholding⟩ := hspec
      obtain ⟨i, hsound, halloc⟩ := hsound
      refine ⟨i, ⟨halloc.inum_pos, h.sound.sb_eq ▸ halloc.inum_lt, ?_, fun hand hmem hpin hi => ?_⟩, ?_,
        ?_⟩
      · rcases h.shed i with heq | ⟨hanchor, hnlink, -⟩
        · exact .inl (heq ▸ halloc.free)
        · exact .inr ⟨hanchor, hnlink⟩
      · obtain ⟨hnode, hkind, -⟩ := h.node_eq hmem hpin
        rw [← hnode, ← hi, halloc.free] at hkind
        exact hkind rfl
      · rw [halloc.node, upd_self]
        exact htype
      have hstray : At (c.straying i) hands pins G s :=
        { h with sound := { h.sound with
            anchored := fun j hj hdead => h.sound.anchored j (fun hmem => hj (.inr hmem)) hdead } }
      refine hstray.advance hholding hsound halloc.stable hholders (fun hand hmem => ?_)
        (halloc.node ▸ h.shed.set i _) fun iq _ _ hkept => ?_
      · rcases List.mem_cons.mp hmem with rfl | hmem
        · exact .inr ⟨hip, halloc.inum_eq⟩
        · exact .inl hmem
      · rw [halloc.node]
        by_cases hi : (s.itable iq).inum = i
        · rw [hi, upd_self]
          exact htype
        · rwa [upd_of_ne _ _ hi]

theorem At.settle (h : At (c.straying i) hands pins G s) (hhand : (ip, i) ∈ hands) (hpin : ip ∈ pins) :
    At c hands pins G s := by
  have hanchored : ∀ j ∉ c.stray, (s.disk.node j).Dead → Anchor j s := fun j hj hdead => by
    by_cases hji : j = i
    · obtain ⟨hip, href, hvalid⟩ := h.sound.pinned ip hpin
      exact ⟨ip, hip, href, hji ▸ (h.hand hhand).2, hvalid⟩
    · exact h.sound.anchored j (fun hmem => hmem.elim hji hj) hdead
  exact { h with sound := { h.sound with anchored := hanchored } }

/-! ### Directories -/

theorem Graph.find_eq_some {G : Graph} {d k : Nat} {name : Name} (hfind : G.find d name = some k) :
    ∃ de, (G d).entries[k]? = some de ∧ de.Matches name ∧ G.target d k = de.inum := by
  obtain ⟨hk, hmatch, -⟩ := List.findIdx?_eq_some_iff_getElem.mp hfind
  have hget : (G d).entries[k]? = some (G d).entries[k] := List.getElem?_eq_getElem hk
  exact ⟨_, hget, of_decide_eq_true hmatch, by simp [Graph.target, hget]⟩

theorem Graph.named_of_find {G : Graph} {d k : Nat} {name : Name} (hfind : G.find d name = some k) :
    G.Named (G.target d k) := by
  obtain ⟨de, hget, hmatch, htarget⟩ := find_eq_some hfind
  rw [htarget]
  exact .inr ⟨hmatch.1, d, de, List.mem_of_getElem? hget, rfl⟩

theorem Graph.Shuns.find {G : Graph} {stray : Set Nat} {cwd d k : Nat} {name : Name}
    (h : G.Shuns stray cwd) (hd : d ∉ stray) (hfind : G.find d name = some k) :
    G.target d k ∉ stray := by
  obtain ⟨de, hget, hmatch, htarget⟩ := find_eq_some hfind
  rw [htarget]
  exact h.entry d hd de (List.mem_of_getElem? hget) hmatch.1

section Directory

variable {dp d : Nat} (hhand : (dp, d) ∈ hands) (hpin : dp ∈ pins)

include hhand hpin

theorem At.entry_eq (h : At c hands pins G s) (hdir : (G d).type = .dir) (k : Nat) :
    readDirent dp (direntSize * k) s = .ok (G d).entries[k]? s := by
  obtain ⟨hnode, -, htype, -⟩ := h.node_eq hhand hpin
  obtain ⟨r, t, hrun, rfl, hr⟩ :=
    (readDirent_sound (E := fun _ _ => False) h.sound hpin (htype.trans hdir) k).returns
  rw [hrun, hr, (h.hand hhand).2, hnode]

theorem At.entry_lt (h : At c hands pins G s) {de : Dirent} (hde : de ∈ (G d).entries) :
    de.inum < c.sb.ninodes := by
  rw [← (h.node_eq hhand hpin).1] at hde
  exact h.sound.entry_lt hde

theorem At.entries_length (h : At c hands pins G s) (hdir : (G d).type = .dir) :
    (G d).entries.length ≤ direntCount (s.itable dp).copy.size ∧
      ∀ n, (G d).entries.length ≤ n + direntCount ((s.itable dp).copy.size - n * direntSize) := by
  obtain ⟨hnode, -, htype, -⟩ := h.node_eq hhand hpin
  have hentries := h.sound.entries hpin (htype.trans hdir)
  rw [(h.hand hhand).2, hnode] at hentries
  rw [hentries, List.length_map, List.length_range]
  simp only [direntCount, direntSize]
  exact ⟨by omega, fun n => by omega⟩

/-- `dirlookup` takes the inode that the graph has under the name, if any. -/
theorem At.dirlookup_wp (h : At c hands pins G s) (name : Name)
    {Q : Option (Nat × Nat) → State → Prop} {E : Stop → State → Prop}
    (hstop : ∀ e, e = .dirlookupNotDir ∨ e = .dirlookupRead → E e s)
    (hnone : (G d).type = .dir → G.find d name = none → Q none s)
    (hsome : (G d).type = .dir → ∀ k, G.find d name = some k →
      Wp (iget (G.target d k)) (fun ip => Q (some (ip, direntSize * k))) E s) :
    Wp (dirlookup dp name) Q E s := by
  obtain ⟨-, -, htype, -⟩ := h.node_eq hhand hpin
  by_cases hdir : (G d).type = .dir
  swap
  · exact .bind (.of_ok rfl (.ite (fun _ => .bind (.of_error rfl (hstop _ (.inl rfl)))) fun hnot =>
      absurd (htype ▸ Decidable.not_not.mp hnot) hdir))
  have hrun := dirlookup_eq (At.entry_eq hhand hpin h hdir) (htype.trans hdir)
    (At.entries_length hhand hpin h hdir).1 name
  cases hfind : (G d).entries.findIdx? (Dirent.Matches name) with
  | none =>
      rw [hfind] at hrun
      dsimp only at hrun
      split at hrun
      · exact .of_ok hrun (hnone hdir hfind)
      · exact .of_error hrun (hstop _ (.inr rfl))
  | some k =>
      rw [hfind] at hrun
      exact .congr hrun (.bind ((hsome hdir k hfind).imp fun _ _ hq => .pure hq))

theorem dirlookup_at (name : Name) :
    Runs bad (At c hands pins G) (dirlookup dp name) fun r s => (G d).type = .dir ∧
      match r with
      | none => G.find d name = none ∧ At c hands pins G s
      | some (ip, off) => ∃ k, G.find d name = some k ∧ off = direntSize * k ∧
          At c ((ip, G.target d k) :: hands) pins G s := fun s h => by
  refine At.dirlookup_wp hhand hpin h name (fun e he => .inl ?_) (fun hdir hfind => ⟨hdir, hfind, h⟩)
    fun hdir k hfind => ?_
  · rcases he with rfl | rfl <;> decide
  · obtain ⟨de, hget, -, htarget⟩ := Graph.find_eq_some hfind
    have hlt := At.entry_lt hhand hpin h (List.mem_of_getElem? hget)
    exact (iget_at (htarget ▸ hlt) s h).imp fun ip t ht => ⟨hdir, k, hfind, rfl, ht⟩

/-- The loop of `dirlink` comes to an entry that can be written. -/
theorem At.emptyDirentFrom_wp (h : At c hands pins G s) (hdir : (G d).type = .dir) {n : Nat}
    (hlen : (G d).entries.length ≤ n) {Q : Nat → State → Prop} {E : Stop → State → Prop}
    (hstop : E .dirlinkRead s) (hvacant : ∀ k, G.Vacant d k → Q (direntSize * k) s) :
    Wp (emptyDirentFrom dp n 0) Q E s := by
  have hrun := emptyDirentFrom_eq (At.entry_eq hhand hpin h hdir) hlen
  cases hfind : (G d).entries.findIdx? (fun de => de.inum = 0) with
  | none =>
      rw [hfind] at hrun
      dsimp only at hrun
      split at hrun
      · obtain rfl : n = (G d).entries.length := by omega
        refine .of_ok hrun (hvacant _ ⟨Nat.le_refl _, fun de hde => ?_⟩)
        rw [List.getElem?_eq_none (Nat.le_refl _)] at hde
        cases hde
      · exact .of_error hrun hstop
  | some k =>
      rw [hfind] at hrun
      obtain ⟨hk, hzero, -⟩ := List.findIdx?_eq_some_iff_getElem.mp hfind
      refine .of_ok hrun (hvacant k ⟨Nat.le_of_lt hk, fun de hde => ?_⟩)
      rw [List.getElem?_eq_getElem hk, Option.some.injEq] at hde
      exact hde ▸ of_decide_eq_true hzero

/-- A directory that `isdirempty` calls empty has no entry in use but the first two. -/
theorem At.isdirempty_wp (h : At c hands pins G s) (hdir : (G d).type = .dir)
    {Q : Bool → State → Prop} {E : Stop → State → Prop} (hstop : E .isdiremptyReadi s)
    (hresult : ∀ r, (r = true → G.Bare d) → Q r s) : Wp (isdirempty dp) Q E s := by
  have hrun := isdiremptyFrom_eq (At.entry_eq hhand hpin h hdir)
    ((At.entries_length hhand hpin h hdir).2 2)
  refine .bind (.of_ok rfl ?_)
  cases hfind : ((G d).entries.drop 2).findIdx? (fun de => de.inum ≠ 0) with
  | some j =>
      rw [hfind] at hrun
      exact .of_ok hrun (hresult false nofun)
  | none =>
      rw [hfind] at hrun
      dsimp only at hrun
      split at hrun
      · refine .of_ok hrun (hresult true fun _ k de hk hde => ?_)
        have hmem : de ∈ (G d).entries.drop 2 := List.mem_of_getElem? (i := k - 2) (by
          rw [List.getElem?_drop, Nat.add_sub_cancel' hk, hde])
        simpa using List.findIdx?_eq_none_iff.mp hfind de hmem
      · exact .of_error hrun hstop

theorem writeDirent_at (hdir : (G d).type = .dir) {k : Nat} (hk : k ≤ (G d).entries.length)
    {de : Dirent} (hde : de.stored.inum < c.sb.ninodes) :
    Runs bad (At c hands pins G) (writeDirent dp (direntSize * k) de) fun r s =>
      At c hands pins (if r = direntSize then G.setEntry d k de.stored else G) s := fun s h => by
  obtain ⟨hnode, hne, htype, -⟩ := h.node_eq hhand hpin
  have hinum := (h.hand hhand).2
  have hkeeps : Keeps State.refs (writeDirent dp (direntSize * k) de) :=
    writei_keeps (refs_untouched dp) _ _ _
  refine ((Holding.keeps hkeeps s h.holding).and ((writeDirent_sound h.sound hpin (htype.trans hdir)
    (by rwa [hinum, hnode]) hde).and (keeps_holders hkeeps s))).mono (fun r t ht => ?_)
    fun e _ he => .inl he.2.1
  obtain ⟨hholding, ⟨hsound, hstable, hdisk⟩, hholders⟩ := ht
  rw [hinum, hnode] at hdisk
  by_cases hr : r = direntSize
  · rw [if_pos hr] at hdisk ⊢
    refine h.advance hholding hsound hstable hholders (fun _ hmem => .inl hmem)
      (hdisk ▸ h.shed.set d _) fun iq _ _ hkept => ?_
    rw [hdisk]
    by_cases hi : (s.itable iq).inum = d
    · rw [hi, upd_self]
      exact hne
    · rwa [upd_of_ne _ _ hi]
  · rw [if_neg hr] at hdisk ⊢
    exact h.advance_same hholding hsound hstable hholders (fun _ hmem => .inl hmem) hdisk

end Directory

end Xv6Mmap.Fs
