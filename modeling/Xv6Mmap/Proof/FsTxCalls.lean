import Xv6Mmap.Proof.FsTxWork

/-!
# The calls as transactions

Each call is followed step by step, with the inodes that it holds, the directory graph and the blocks
that it records.
-/

namespace Xv6Mmap.Fs.Tx

open Sequential

section Calls

variable {c : Setting} {hands : List (Nat × Nat)} {pins pins' : List Nat} {G : Graph}
  {tight bad : Prop} {K : List Block} {ip i dp d : Nat} (hsize : tight → c.sb.size ≤ bpb)

include hsize

/-! ### Inodes -/

theorem steps_of_inode {α : Type} {n : Nat} {x : B α} {y : F α} {Q : α → State → Prop}
    (hx : Records (OfInode ip) n x) (hsim : ∀ c, Sim x y c)
    (hy : Runs bad (At c hands pins G) y Q) (hhand : (ip, i) ∈ hands) (hK : inodeBlock i ∈ K) :
    Steps tight bad K n (At c hands pins G) x Q :=
  .of_records hx hsim hy fun s h => by
    have hinum : s.numbers.2 ip = i := (h.hand hhand).2
    rw [OfInode, hinum]
    exact ⟨fun ht => h.sound.sb_eq ▸ hsize ht, List.cons_subset.mpr ⟨hK, List.nil_subset _⟩⟩

theorem iput_steps (hK : inodeBlock i ∈ K) (hpins : ∀ iq ∈ pins', iq ∈ pins)
    (hcover : Covers hands pins') :
    Steps tight bad K 0 (At c ((ip, i) :: hands) pins G) (iput ip) fun _ => At c hands pins' G :=
  steps_of_inode hsize (iput_records ip) (iput_sim ip) (iput_at hpins hcover) List.mem_cons_self hK

theorem iunlockput_steps (hK : inodeBlock i ∈ K) (hpins : ∀ iq ∈ pins', iq ∈ pins)
    (hcover : Covers hands pins') :
    Steps tight bad K 0 (At c ((ip, i) :: hands) pins G) (iunlockput ip) fun _ => At c hands pins' G :=
  steps_of_inode hsize (iunlockput_records ip) (iunlockput_sim ip) (iunlockput_at hpins hcover)
    List.mem_cons_self hK

theorem iunlockput_second_steps {iq j : Nat} (hK : inodeBlock i ∈ K)
    (hpins : ∀ iq ∈ pins', iq ∈ pins) (hcover : Covers ((iq, j) :: hands) pins') :
    Steps tight bad K 0 (At c ((iq, j) :: (ip, i) :: hands) pins G) (iunlockput ip)
      fun _ => At c ((iq, j) :: hands) pins' G :=
  steps_of_inode hsize (iunlockput_records ip) (iunlockput_sim ip) (iunlockput_second hpins hcover)
    (List.mem_cons_of_mem _ List.mem_cons_self) hK

theorem addLink_steps (hhand : (ip, i) ∈ hands) (hpin : ip ∈ pins) (hK : inodeBlock i ∈ K) (n : Int) :
    Steps tight bad K 0 (At c hands pins G) (addLink ip n) fun _ => At c hands pins (G.addLinks i n) :=
  steps_of_inode hsize (addLink_records ip n) (addLink_sim ip n) (addLink_at hhand hpin n) hhand hK

theorem setFields_steps (hhand : (ip, i) ∈ hands) (hpin : ip ∈ pins) (hK : inodeBlock i ∈ K)
    {g : Dinode → Dinode} {f : Int → Int} (htype : ∀ node, (g node).type = node.type)
    (hnode : ∀ node, (g node).size = node.size) (haddrs : ∀ node, (g node).addrs = node.addrs)
    (hnlink : ∀ node, (g node).nlink = f node.nlink) :
    Steps tight bad K 0 (At c hands pins G) (do lift (modifyCopy ip g); iupdate ip)
      fun _ => At c hands pins (G.setNlink i (f (G i).nlink)) :=
  steps_of_inode hsize ((modifyCopy_records ip g).bind_zero fun _ => iupdate_records ip)
    (fun _ => .bind (.lift _) fun _ _ => iupdate_sim ip _)
    (setFields_at hhand hpin htype hnode haddrs hnlink) hhand hK

omit hsize in
theorem span_dirent (k : Nat) : span (direntSize * k) direntSize = 1 := by
  rw [span, if_neg (by decide)]
  simp only [direntSize, bsize]
  omega

/-! ### Directories -/

section Directory

variable (hhand : (dp, d) ∈ hands) (hpin : dp ∈ pins)

include hhand hpin

omit hsize in
theorem dirlookup_reads {s : State} (h : At c hands pins G s) (name : Name) :
    Reads (Fs.dirlookup dp name) s :=
  At.dirlookup_wp hhand hpin h name (fun _ _ => rfl) (fun _ _ => rfl) fun _ _ _ => iget_disk _ s

omit hsize in
theorem dirlookup_steps (name : Name) :
    Steps tight bad K 0 (At c hands pins G) (dirlookup dp name) fun r s => (G d).type = .dir ∧
      match r with
      | none => G.find d name = none ∧ At c hands pins G s
      | some (ip, off) => ∃ k, G.find d name = some k ∧ off = direntSize * k ∧
          At c ((ip, G.target d k) :: hands) pins G s :=
  .of_quiet (dirlookup_quiet dp name) (dirlookup_sim dp name) (dirlookup_at hhand hpin name)
    fun _ h => dirlookup_reads hhand hpin h name

omit hsize in
theorem isdirempty_steps (hdir : (G d).type = .dir) : Steps tight bad K 0 (At c hands pins G)
    (isdirempty dp) fun r s => (r = true → G.Bare d) ∧ At c hands pins G s :=
  .of_quiet (isdirempty_quiet dp) (isdirempty_sim dp)
    (fun _ h => At.isdirempty_wp hhand hpin h hdir (.inl (by decide)) fun _ hbare => ⟨hbare, h⟩)
    fun _ h => At.isdirempty_wp hhand hpin h hdir rfl fun _ _ => rfl

theorem writeDirent_steps (hdir : (G d).type = .dir) {k : Nat} (hk : k ≤ (G d).entries.length)
    {de : Dirent} (hde : de.stored.inum < c.sb.ninodes) (hK : inodeBlock d ∈ K) :
    Steps tight bad K 2 (At c hands pins G) (writeDirent dp (direntSize * k) de) fun r s =>
      At c hands pins (if r = direntSize then G.setEntry d k de.stored else G) s := by
  have hrec := writei_records dp (fun j => de.toBytes[j]?) (direntSize * k) direntSize
  rw [span_dirent] at hrec
  exact steps_of_inode hsize hrec (writei_sim dp _ _ _) (writeDirent_at hhand hpin hdir hk hde)
    hhand hK

omit hsize in
theorem getSize_steps (hdir : (G d).type = .dir) :
    Steps tight bad K 0 (At c hands pins G) (lift (getInode dp)) fun node s =>
      (G d).entries.length ≤ direntCount node.copy.size ∧ At c hands pins G s :=
  .lift fun _ h => .of_ok rfl ⟨(At.entries_length hhand hpin h hdir).1, h⟩

omit hsize in
theorem emptyDirentFrom_steps (hdir : (G d).type = .dir) {n : Nat}
    (hlen : (G d).entries.length ≤ n) :
    Steps tight bad K 0 (At c hands pins G) (emptyDirentFrom dp n 0) fun off s =>
      ∃ k, G.Vacant d k ∧ off = direntSize * k ∧ At c hands pins G s :=
  .of_quiet (emptyDirentFrom_quiet dp _ _) (emptyDirentFrom_sim dp _ _)
    (fun _ h => At.emptyDirentFrom_wp hhand hpin h hdir hlen (.inl (by decide)) fun k hvacant =>
      ⟨k, hvacant, rfl, h⟩)
    fun _ h => At.emptyDirentFrom_wp hhand hpin h hdir hlen rfl fun _ _ => rfl

/-- The name is there, or nothing can be written, or a vacant entry is filled in. -/
theorem dirlink_steps (hcover : Covers hands pins) (name : Name) {inum : Nat}
    (hinum : (entryFor inum name).inum < c.sb.ninodes)
    (hK : inodeBlock d ∈ K) :
    Steps tight bad K 2 (At c hands pins G) (dirlink dp name inum) fun r s =>
      (r = -1 ∧ At c hands pins G s) ∨ (r = 0 ∧ (G d).type = .dir ∧ G.find d name = none ∧
        ∃ k, G.Vacant d k ∧ At c hands pins (G.setEntry d k (entryFor inum name)) s) := by
  refine .zero_bind (dirlookup_steps hhand hpin name) fun r => .lift_pre fun hdir => ?_
  cases r with
  | some found =>
      obtain ⟨ip, off⟩ := found
      refine .exists_pre fun k => .lift_pre fun _ => .lift_pre fun _ => Steps.le ?_ (Nat.le_succ 1)
      -- the block of the inode found is one of the two
      refine Steps.forget (inodeBlock (G.target d k)) (n := 0) (.zero_bind
        (iput_steps hsize List.mem_cons_self (fun _ h => h) hcover) fun _ => .pure fun _ h => .inl ⟨rfl, h⟩)
  | none =>
      refine .lift_pre fun hfind => .zero_bind (getSize_steps hhand hpin hdir) fun node =>
        .lift_pre fun hlen => .zero_bind (emptyDirentFrom_steps hhand hpin hdir hlen) fun off =>
        .exists_pre fun k => .lift_pre fun hvacant => .lift_pre fun hoff => ?_
      subst hoff
      refine Steps.bind (m := 0) (writeDirent_steps hsize hhand hpin hdir hvacant.1 hinum hK) fun r =>
        .ite (fun hr => .pure fun s h => ?_) fun hr => .pure fun s h => ?_
      · rw [if_neg hr] at h
        exact .inl ⟨rfl, h⟩
      · rw [if_pos (not_not.mp hr)] at h
        exact .inr ⟨rfl, hdir, hfind, k, hvacant, h⟩

end Directory

/-! ### Paths -/

/-- A hand that does not hold the last reference to a node without links. -/
def Backed (c : Setting) (disk : Image) (hands : List (Nat × Nat)) (ip i : Nat) : Prop :=
  (disk.node i).Dead → 0 < c.pointers (.inode ip) + holds c.held hands (.inode ip)

omit hsize in
theorem iget_backed {s : State} (h : At c hands pins G s) {inum : Nat} (hstray : inum ∉ c.stray)
    (hinum : inum < c.sb.ninodes) :
    Wp (iget inum) (fun ip _ => Backed c s.disk hands ip inum) (fun _ _ => True) s := by
  refine ((iget_sound h.sound hinum).and (@iget_at c hands pins G True inum hinum s h)).mono
    (fun ip t ⟨⟨hsound, hgot⟩, ht⟩ hdead => ?_) fun _ _ _ => trivial
  obtain ⟨iq, hiq, hpos, heq, -⟩ := h.sound.anchored inum hstray hdead
  have hpos' : 0 < (t.itable iq).ref := by
    have hmore : 0 ≤ one (some (.inode ip)) (.inode iq) := by
      unfold one
      split <;> decide
    rw [h.ref_eq hiq] at hpos
    rw [ht.ref_eq hiq]
    show 0 < _ + (holds c.held hands (.inode iq) + one (some (.inode ip)) (.inode iq))
    omega
  have hsame : iq = ip := hsound.table.unique iq hiq ip hgot.lt hpos' hgot.ref_pos
    (by rw [(hgot.stable iq hpos hpos').1, heq, hgot.inum_eq])
  rw [← hsame, ← h.ref_eq hiq]
  exact hpos

section Walk

variable {disk : Image}

omit hsize in
/-- A hand is dropped on the way: nothing is freed. -/
theorem iput_still (hback : tight → Backed c disk hands ip i) (hpins : ∀ iq ∈ pins', iq ∈ pins)
    (hcover : Covers hands pins') :
    Steps tight bad K 0 (fun s => At c ((ip, i) :: hands) pins G s ∧ (tight → s.disk = disk)) (iput ip)
      fun _ s => At c hands pins' G s ∧ (tight → s.disk = disk) := fun t ⟨h, hdisk⟩ => by
  have hmore : tight → ¬ ((t.fs.itable ip).ref = 1 ∧ (t.fs.itable ip).valid = true ∧
      (t.fs.itable ip).copy.nlink = 0) := by
    rintro ht ⟨hone, hvalid, hnlink⟩
    have hmem : (ip, i) ∈ (ip, i) :: hands := List.mem_cons_self
    obtain ⟨hip, hinum⟩ := h.hand hmem
    have href := h.ref_pos_of_hand hmem
    obtain ⟨htype, hlinks⟩ := h.sound.node_read hip href hvalid
    have hdead : (disk.node i).Dead := by
      rw [← hdisk ht, ← hinum]
      exact ⟨htype ▸ h.sound.table.allocated ip hip href hvalid, hlinks.trans hnlink⟩
    have hpos := hback ht hdead
    have hcount : (t.fs.itable ip).ref =
        c.pointers (.inode ip) + (holds c.held hands (.inode ip) + 1) := by
      rw [h.ref_eq hip]
      simp [holds]
    omega
  have hkeep : tight → Wp (iput ip) (fun _ t' => t'.fs.disk = t.fs.disk ∧ t'.header = t.header)
      (fun _ _ => False) t := fun ht =>
    .bind (.of_ok rfl (.ite (fun hlast => absurd hlast (hmore ht)) fun _ => .of_ok rfl ⟨rfl, rfl⟩))
  refine (wp_and_of ((iput_sim ip t).wp (iput_at hpins hcover t.fs h)) hkeep).mono
    (fun _ t' ht => ⟨⟨ht.1, fun h' => (ht.2 h').1.trans (hdisk h')⟩, fun h' => .of_header (ht.2 h').2⟩)
    fun e t' he => ⟨he.1, fun h' => (he.2 h').elim⟩

omit hsize in
theorem iunlockput_still (hback : tight → Backed c disk hands ip i)
    (hpins : ∀ iq ∈ pins', iq ∈ pins) (hcover : Covers hands pins') :
    Steps tight bad K 0 (fun s => At c ((ip, i) :: hands) pins G s ∧ (tight → s.disk = disk))
      (iunlockput ip) fun _ s => At c hands pins' G s ∧ (tight → s.disk = disk) :=
  .zero_bind (.lift_still (iunlock_at List.mem_cons_self) (iunlock_disk ip)) fun _ =>
    iput_still hback hpins hcover

omit hsize in
theorem Backed.cons (hback : Backed c disk hands ip i) (hand : Nat × Nat) :
    Backed c disk (hand :: hands) ip i := fun hdead => by
  have hpos := hback hdead
  have hmore : 0 ≤ one (some (.inode hand.1)) (.inode ip) := by
    unfold one
    split <;> decide
  show 0 < _ + (holds c.held hands (.inode ip) + one (some (.inode hand.1)) (.inode ip))
  omega

omit hsize in
theorem Backed.other {s : State} {iq j : Nat} (hat : At c ((iq, j) :: (ip, i) :: hands) pins G s)
    (hback : Backed c disk ((ip, i) :: hands) iq (s.itable iq).inum)
    (hip : Backed c disk hands ip i) : Backed c disk hands iq j := fun hdead => by
  have hj : (s.itable iq).inum = j := (hat.hand List.mem_cons_self).2
  by_cases hiq : iq = ip
  · have hi : (s.itable ip).inum = i := (hat.hand (List.mem_cons_of_mem _ List.mem_cons_self)).2
    subst hiq
    rw [hi] at hj
    subst hj
    exact hip hdead
  · have hpos := hback (hj.symm ▸ hdead)
    have hzero : one (some (.inode ip)) (.inode iq) = 0 := one_of_ne fun h => hiq (by injection h)
    have hcount : holds c.held ((ip, i) :: hands) (.inode iq) =
        holds c.held hands (.inode iq) + one (some (.inode ip)) (.inode iq) := rfl
    omega

omit hsize in
theorem iunlockput_second_still {iq j : Nat} (hback : tight → Backed c disk hands ip i)
    (hcover : Covers hands pins) :
    Steps tight bad K 0 (fun s => At c ((iq, j) :: (ip, i) :: hands) (ip :: pins) G s ∧
      (tight → s.disk = disk)) (iunlockput ip)
      fun _ s => At c ((iq, j) :: hands) pins G s ∧ (tight → s.disk = disk) :=
  (iunlockput_still (fun ht => (hback ht).cons (iq, j)) (fun _ => .tail _) fun iq hiq =>
    (hcover iq hiq).imp fun _ => .tail _).pre fun _ h => ⟨h.1.perm (.swap _ _ _), h.2⟩

section Lookup

variable (hhand : (dp, d) ∈ hands) (hpin : dp ∈ pins)

include hhand hpin

omit hsize in
theorem dirlookup_still (hstray : tight → ∀ de ∈ (G d).entries, de.inum ≠ 0 → de.inum ∉ c.stray)
    (name : Name) :
    Steps tight bad K 0 (fun s => At c hands pins G s ∧ (tight → s.disk = disk)) (dirlookup dp name)
      fun r s => ((G d).type = .dir ∧ match r with
        | none => G.find d name = none ∧ At c hands pins G s
        | some (ip, off) => ∃ k, G.find d name = some k ∧ off = direntSize * k ∧
            At c ((ip, G.target d k) :: hands) pins G s) ∧ (tight → s.disk = disk) ∧
        ∀ ip off, r = some (ip, off) → tight → Backed c disk hands ip (s.itable ip).inum :=
  fun t ⟨h, hdisk⟩ => by
  have hback : tight → Wp (Fs.dirlookup dp name) (fun r t' => ∀ ip off, r = some (ip, off) →
      Backed c t.fs.disk hands ip (t'.itable ip).inum) (fun _ _ => True) t.fs := fun ht => by
    refine At.dirlookup_wp hhand hpin h name (fun _ _ => trivial) (fun _ _ _ _ hr => by cases hr)
      fun _ k hfind => ?_
    obtain ⟨de, hget, hmatch, htarget⟩ := Graph.find_eq_some hfind
    have hmem : de ∈ (G d).entries := List.mem_of_getElem? hget
    have hlt := At.entry_lt hhand hpin h hmem
    rw [htarget]
    refine ((iget_backed h (hstray ht de hmem hmatch.1) hlt).and (iget_sound h.sound hlt)).mono
      (fun ip t' hgot iq off hr => ?_) fun _ _ _ => trivial
    cases hr
    rw [hgot.2.2.inum_eq]
    exact hgot.1
  have hsim := dirlookup_sim dp name t
  refine (wp_and_of ((dirlookup_steps hhand hpin name t h).and
    (hsim.wp (dirlookup_reads hhand hpin h name))) fun ht => hsim.wp (hback ht)).mono (fun r t' h' => ?_)
    fun _ _ h' => h'.1.1
  obtain ⟨⟨⟨hpost, hgrew⟩, hsame⟩, hback⟩ := h'
  refine ⟨⟨hpost, fun ht => hsame.trans (hdisk ht), fun ip off hr ht => ?_⟩, hgrew⟩
  rw [← hdisk ht]
  exact hback ht ip off hr

end Lookup

def FoundAt (tight : Prop) (c : Setting) (hands : List (Nat × Nat)) (pins : List Nat) (G : Graph)
    (disk : Image) (result : Option (Nat × Name)) : Option (Nat × Name) → State → Prop
  | none, s => result = none ∧ At c hands pins G s ∧ (tight → s.disk = disk)
  | some (ip, name), s => ∃ i, result = some (i, name) ∧ (G.Named i ∨ i = c.cwd) ∧
      (tight → Backed c disk hands ip i) ∧ At c ((ip, i) :: hands) pins G s ∧ (tight → s.disk = disk)

omit hsize in
theorem getInode_steps (hhand : (ip, i) ∈ hands) (hpin : ip ∈ pins) :
    Steps tight bad K 0 (At c hands pins G) (lift (getInode ip)) fun node s =>
      (node.inum = i ∧ node.copy.type = (G i).type ∧ node.copy.nlink = (G i).nlink ∧
        i < c.sb.ninodes) ∧ At c hands pins G s :=
  .lift (getInode_at.post fun _ _ h => ⟨⟨(h.1 hpin hhand).1, (h.1 hpin hhand).2.1,
    (h.1 hpin hhand).2.2.1, h.2.inum_lt hhand⟩, h.2⟩)

omit hsize in
theorem namexFrom_steps (hshun : tight → G.Shuns c.stray c.cwd) (hbad : G.Dangling c.anchors → bad)
    (hcover : Covers hands pins) (parent : Bool) (rounds : Nat) {path : Path}
    (hfound : G.Named i ∨ i = c.cwd) (hi : tight → i ∉ c.stray)
    (hback : tight → Backed c disk hands ip i) :
    Steps tight bad K 0 (fun s => At c ((ip, i) :: hands) pins G s ∧ (tight → s.disk = disk))
      (namexFrom parent rounds ip path)
      (FoundAt tight c hands pins G disk (G.walk parent rounds i path)) := by
  induction rounds generalizing ip i path with
  | zero =>
      exact .zero_bind (iput_still hback (fun _ h => h) hcover) fun _ => .pure fun _ h => ⟨rfl, h⟩
  | succ rounds ih =>
      unfold namexFrom Graph.walk
      cases hskip : skipelem path with
      | none =>
          refine .ite (fun hp => ?_) fun hp => .pure fun s h => ⟨i, if_neg hp, hfound, hback, h⟩
          exact .zero_bind (iput_still hback (fun _ h => h) hcover) fun _ =>
            .pure fun _ h => ⟨if_pos hp, h⟩
      | some elem =>
          obtain ⟨name, rest⟩ := elem
          have hmem : (ip, i) ∈ (ip, i) :: hands := List.mem_cons_self
          refine .zero_bind (.lift_still (ilock_found hmem hfound hbad) (ilock_disk ip)) fun _ =>
            .pre (.zero_bind ((getInode_steps hmem List.mem_cons_self).still fun t _ => .of_ok rfl rfl)
              fun node => ?_) fun s h => ⟨h.1.2, h.2⟩
          refine .pre (R := fun s => node.copy.type = (G i).type ∧
            At c ((ip, i) :: hands) (ip :: pins) G s ∧ (tight → s.disk = disk)) (.lift_pre fun htype => ?_)
            fun s h => ⟨h.1.1.2.1, h.1.2, h.2⟩
          dsimp only
          rw [htype]
          by_cases hdir : (G i).type = .dir
          swap
          · rw [if_pos hdir, if_pos hdir]
            exact .zero_bind (iunlockput_still hback (fun _ => .tail _) hcover) fun _ =>
              .pure fun _ h => ⟨rfl, h⟩
          rw [if_neg (not_not.mpr hdir), if_neg (not_not.mpr hdir)]
          by_cases hlast : parent = true ∧ rest = []
          · rw [if_pos hlast, if_pos hlast]
            exact .zero_bind (.lift_still (iunlock_at hmem) (iunlock_disk ip)) fun _ =>
              .pure fun s h => ⟨i, rfl, hfound, hback, h.1.unpin fun _ => .tail _, h.2⟩
          rw [if_neg hlast, if_neg hlast]
          refine .zero_bind (dirlookup_still hmem List.mem_cons_self (fun ht => (hshun ht).entry i (hi ht))
            name) fun r => ?_
          cases r with
          | none =>
              refine .pre (R := fun s => G.find i name = none ∧
                At c ((ip, i) :: hands) (ip :: pins) G s ∧ (tight → s.disk = disk))
                (.lift_pre fun hfind => ?_) fun s h => ⟨h.1.2.1, h.1.2.2, h.2.1⟩
              rw [hfind]
              exact .zero_bind (iunlockput_still hback (fun _ => .tail _) hcover) fun _ =>
                .pure fun _ h => ⟨rfl, h⟩
          | some found =>
              obtain ⟨next, off⟩ := found
              refine .pre (R := fun s => ∃ k, G.find i name = some k ∧
                (tight → Backed c disk hands next (G.target i k)) ∧
                At c ((next, G.target i k) :: (ip, i) :: hands) (ip :: pins) G s ∧
                (tight → s.disk = disk)) (.exists_pre fun k => .lift_pre fun hfind =>
                .lift_pre fun hnext => ?_) fun s h => ?_
              · rw [hfind]
                exact .zero_bind (iunlockput_second_still hback hcover) fun _ =>
                  ih (.inl (Graph.named_of_find hfind)) (fun ht => (hshun ht).find (hi ht) hfind) hnext
              · obtain ⟨⟨-, k, hfind, -, hat⟩, hdisk, hfetch⟩ := h
                refine ⟨k, hfind, fun ht => ?_, hat, hdisk⟩
                exact .other hat (hfetch next off rfl ht) (hback ht)

omit hsize in
theorem namexStart_steps (hshun : tight → G.Shuns c.stray c.cwd) (hroot : rootino < c.sb.ninodes) (path : Path) :
    Steps tight bad K 0 (fun s => At c hands pins G s ∧ (tight → s.disk = disk))
      (lift (namexStart c.caller path)) fun ip s =>
        (tight → Backed c disk hands ip (if path.head? = some slash then rootino else c.cwd)) ∧
        At c ((ip, if path.head? = some slash then rootino else c.cwd) :: hands) pins G s ∧
        (tight → s.disk = disk) := fun t ⟨h, hdisk⟩ => by
  have hstart : Wp (namexStart c.caller path) (fun ip s =>
      (At c ((ip, if path.head? = some slash then rootino else c.cwd) :: hands) pins G s ∧
        s.disk = t.fs.disk) ∧ (tight → Backed c t.fs.disk hands ip
          (if path.head? = some slash then rootino else c.cwd)))
      (fun e _ => Allowed bad e) t.fs := by
    unfold namexStart
    by_cases hslash : path.head? = some slash
    · simp only [if_pos hslash]
      by_cases ht : tight
      · exact (((iget_at hroot t.fs h).and (iget_disk _ t.fs)).and
          (iget_backed h (hshun ht).root hroot)).mono (fun _ _ h => ⟨h.1, fun _ => h.2⟩) fun _ _ h => h.1.1
      · exact ((iget_at hroot t.fs h).and (iget_disk _ t.fs)).mono
          (fun _ _ h => ⟨h, fun ht' => absurd ht' ht⟩) fun _ _ h => h.1
    · simp only [if_neg hslash]
      obtain ⟨ip, hcwd, hinum⟩ := h.caller
      refine .get ?_
      rw [hcwd]
      refine ((idup_at hcwd h).and (.of_ok rfl ⟨rfl, rfl⟩ : Wp (idup ip) (fun ip' s => ip' = ip ∧
        s.disk = t.fs.disk) (fun _ _ => True) t.fs)).mono (fun ip' s hs => ?_) fun _ _ h => h.1
      obtain ⟨hat, rfl, hsame⟩ := hs
      rw [hinum] at hat
      have hpos := (h.cwd_pointer hcwd).2
      have hheld := holds_nonneg c.held_nonneg hands ip'
      exact ⟨⟨hat, hsame⟩, fun _ _ => by omega⟩
  refine (((Sim.lift _).wp hstart).and (lift_header _ t)).mono (fun ip t' h' => ?_) fun _ _ h' =>
    ⟨h'.1, fun _ => .of_header h'.2⟩
  obtain ⟨⟨⟨hat, hsame⟩, hback⟩, hheader⟩ := h'
  refine ⟨⟨fun ht => ?_, hat, fun ht => hsame.trans (hdisk ht)⟩, fun _ => .of_header hheader⟩
  rw [← hdisk ht]
  exact hback ht

omit hsize in
/-- A path is followed as on the graph, and nothing is recorded. -/
theorem namex_steps (hshun : tight → G.Shuns c.stray c.cwd) (hroot : rootino < c.sb.ninodes)
    (hbad : G.Dangling c.anchors → bad) (hcover : Covers hands pins) (path : Path) (parent : Bool) :
    Steps tight bad K 0 (At c hands pins G) (namex c.caller path parent) fun r s =>
      match r with
      | none => G.resolve c.cwd path parent = none ∧ At c hands pins G s
      | some (ip, name) => ∃ i, G.resolve c.cwd path parent = some (i, name) ∧
          (G.Named i ∨ i = c.cwd) ∧ At c ((ip, i) :: hands) pins G s := fun t h => by
  have hfound : G.Named (if path.head? = some slash then rootino else c.cwd) ∨
      (if path.head? = some slash then rootino else c.cwd) = c.cwd := by
    split
    · exact .inl (.inl rfl)
    · exact .inr rfl
  have hstart : tight → (if path.head? = some slash then rootino else c.cwd) ∉ c.stray := fun ht => by
    split
    · exact (hshun ht).root
    · exact (hshun ht).cwd
  have hwalk : Steps tight bad K 0 (fun s => At c hands pins G s ∧ (tight → s.disk = t.fs.disk))
      (namex c.caller path parent)
      (FoundAt tight c hands pins G t.fs.disk (G.resolve c.cwd path parent)) :=
    .zero_bind (namexStart_steps hshun hroot path) fun ip => .lift_pre fun hback =>
      namexFrom_steps hshun hbad hcover parent (path.length + 1) hfound hstart hback
  refine (hwalk t ⟨h, fun _ => rfl⟩).imp fun r t' hr => ⟨?_, hr.2⟩
  cases r with
  | none => exact ⟨hr.1.1, hr.1.2.1⟩
  | some found =>
      obtain ⟨i, hresult, hnamed, -, hat, -⟩ := hr.1
      exact ⟨i, hresult, hnamed, hat⟩

end Walk

/-! ### Links -/

section Paths

variable (hshun : tight → G.Shuns c.stray c.cwd) (hroot : rootino < c.sb.ninodes)

include hshun hroot

omit hsize in
theorem namei_steps (hbad : G.Dangling c.anchors → bad) (hcover : Covers hands pins) (path : Path) :
    Steps tight bad K 0 (At c hands pins G) (namei c.caller path) fun r s =>
      match r with
      | none => At c hands pins G s
      | some ip => ∃ i name, G.resolve c.cwd path false = some (i, name) ∧
          (G.Named i ∨ i = c.cwd) ∧ At c ((ip, i) :: hands) pins G s := by
  refine .zero_bind (namex_steps hshun hroot hbad hcover path false) fun r => .pure fun s h => ?_
  cases r with
  | none => exact h.2
  | some found =>
      obtain ⟨i, hresolve, hnamed, hat⟩ := h
      exact ⟨i, found.2, hresolve, hnamed, hat⟩

theorem linkName_steps (hbad : G.Dangling c.anchors → bad) (hcover : Covers hands pins) (new : Path)
    (hi : i < c.sb.ninodes) :
    Steps tight bad K 3 (At c hands pins G) (linkName c.caller new i) fun done s =>
      (done = false ∧ At c hands pins G s) ∨ (done = true ∧ ∃ d name k,
        G.resolve c.cwd new true = some (d, name) ∧ (G d).type = .dir ∧ G.find d name = none ∧
        G.Vacant d k ∧ At c hands pins (G.setEntry d k (entryFor i name)) s) := by
  refine .zero_bind (namex_steps hshun hroot hbad hcover new true) fun r => ?_
  cases r with
  | none => exact .pure fun s h => .inl ⟨rfl, h.2⟩
  | some found =>
      obtain ⟨dp, name⟩ := found
      refine .exists_pre fun d => .lift_pre fun hresolve => .lift_pre fun hnamed => ?_
      have hmem : (dp, d) ∈ (dp, d) :: hands := List.mem_cons_self
      refine Steps.forget (inodeBlock d) (n := 2) (.zero_bind (.lift (ilock_found hmem hnamed hbad)) fun _ =>
        .lift_pre fun _ => Steps.bind (m := 0) (dirlink_steps hsize hmem List.mem_cons_self
          (hcover.cons dp d) name (entryFor_lt hi name) List.mem_cons_self) fun r => .or_pre ?_ ?_)
      · refine .lift_pre fun hr => .zero_bind (iunlockput_steps hsize List.mem_cons_self
          (fun _ => .tail _) hcover) fun _ => .pure fun s h => .inl ⟨?_, h⟩
        rw [hr]
        rfl
      · refine .lift_pre fun hr => .lift_pre fun hdir => .lift_pre fun hfind => .exists_pre fun k =>
          .lift_pre fun hvacant => .zero_bind (iunlockput_steps hsize List.mem_cons_self
          (fun _ => .tail _) hcover) fun _ => .pure fun s h =>
          .inr ⟨?_, d, name, k, hresolve, hdir, hfind, hvacant, h⟩
        rw [hr]
        rfl

inductive Linked (cwd : Nat) (old new : Path) (G : Graph) : Graph → Prop
  | refused : Linked cwd old new G G
  | undone {i : Nat} : (G i).type ≠ .dir →
      Linked cwd old new G ((G.addLinks i 1).addLinks i (-1))
  | linked {i d k : Nat} {name name' : Name} : G.resolve cwd old false = some (i, name') →
      (G i).type ≠ .dir → (G.addLinks i 1).resolve cwd new true = some (d, name) →
      (G.addLinks i 1 d).type = .dir → (G.addLinks i 1).find d name = none →
      (G.addLinks i 1).Vacant d k → Linked cwd old new G (G.link d k i name)

theorem sysLink_steps (hbad : G.Dangling c.anchors → bad)
    (hbad' : ∀ i, (G i).type ≠ .dir → (G.addLinks i 1).Dangling c.anchors → bad)
    (old new : Option (List UInt8)) :
    Steps tight bad K 4 (At c [] [] G) (sysLink c.caller old new) fun _ s =>
      At c [] [] G s ∨ ∃ oldPath newPath G', argstr old = some oldPath ∧ argstr new = some newPath ∧
        Linked c.cwd oldPath newPath G G' ∧ At c [] [] G' s := by
  have hnil : Covers [] [] := fun _ h => by cases h
  unfold sysLink
  cases argstr old with
  | none => exact .pure fun _ h => .inl h
  | some old =>
  cases argstr new with
  | none => exact .pure fun _ h => .inl h
  | some new =>
      refine .zero_bind (namei_steps hshun hroot hbad hnil old) fun r => ?_
      cases r with
      | none => exact .pure fun _ h => .inl h
      | some ip =>
          refine .exists_pre fun i => .exists_pre fun name' => .lift_pre fun hresolve =>
            .lift_pre fun hnamed => Steps.forget (inodeBlock i) (n := 3) ?_
          have hmem : (ip, i) ∈ [(ip, i)] := List.mem_cons_self
          have hpin : ip ∈ [ip] := List.mem_cons_self
          refine .zero_bind (.lift (ilock_found hmem hnamed hbad)) fun _ => .lift_pre fun _ =>
            .zero_bind (getInode_steps hmem hpin) fun node => .lift_pre fun hnode =>
            .ite (fun _ => ?_) fun hfile => ?_
          · exact .zero_bind (iunlockput_steps hsize List.mem_cons_self (fun _ h => by cases h) hnil)
              fun _ => .pure fun _ h => .inl h
          · rw [hnode.2.1] at hfile
            rw [hnode.1]
            refine .zero_bind (addLink_steps hsize hmem hpin List.mem_cons_self 1) fun _ =>
              .zero_bind (.lift (iunlock_at hmem)) fun _ => Steps.bind (m := 0)
              (linkName_steps hsize (fun ht => (hshun ht).addLinks i 1) hroot (hbad' i hfile) (hnil.cons ip i) new
                hnode.2.2.2) fun done => .or_pre ?_ ?_
            · refine .lift_pre fun hdone => ?_
              rw [hdone]
              refine .zero_bind (.lift (ilock_pinned hmem hpin)) fun _ =>
                .zero_bind (addLink_steps hsize hmem hpin List.mem_cons_self (-1)) fun _ =>
                .zero_bind (iunlockput_steps hsize List.mem_cons_self (fun _ h => by cases h) hnil)
                fun _ => .pure fun _ h => .inr ⟨old, new, _, rfl, rfl, .undone hfile, h⟩
            · refine .lift_pre fun hdone => .exists_pre fun d => .exists_pre fun name =>
                .exists_pre fun k => .lift_pre fun hparent => .lift_pre fun hdir =>
                .lift_pre fun hfind => .lift_pre fun hvacant => ?_
              rw [hdone]
              exact .zero_bind (iput_steps hsize List.mem_cons_self (fun _ h => by cases h) hnil)
                fun _ => .pure fun _ h => .inr ⟨old, new, _, rfl, rfl,
                  .linked hresolve hfile hparent hdir hfind hvacant, h⟩

/-! ### Unlinking -/

omit hshun in
theorem unlinkEntry_steps (hdir : (G d).type = .dir) {k : Nat} (hk : k ≤ (G d).entries.length)
    (hKi : inodeBlock i ∈ K) (hKd : inodeBlock d ∈ K) :
    Steps tight bad K 2 (At c [(ip, i), (dp, d)] [ip, dp] G) (unlinkEntry dp ip (direntSize * k))
      fun _ => At c [] [] (G.unlink d k i) := by
  have hip : (ip, i) ∈ [(ip, i), (dp, d)] := List.mem_cons_self
  have hdp : (dp, d) ∈ [(ip, i), (dp, d)] := .tail _ List.mem_cons_self
  have hpip : ip ∈ [ip, dp] := List.mem_cons_self
  have hpdp : dp ∈ [ip, dp] := .tail _ List.mem_cons_self
  have hnil : Covers [] [] := fun _ h => by cases h
  have hempty : ({ inum := 0, name := [] } : Dirent).stored = { inum := 0, name := [] } :=
    stored_eq (by decide) empty_valid
  have hzero : ({ inum := 0, name := [] } : Dirent).stored.inum < c.sb.ninodes :=
    hempty ▸ (Nat.zero_le _).trans_lt hroot
  refine .zero_bind (getInode_steps hip hpip) fun node => .lift_pre fun hnode =>
    Steps.bind (m := 0) (writeDirent_steps hsize hdp hpdp hdir hk hzero hKd) fun r => ?_
  have hsub : ∀ iq ∈ [ip], iq ∈ [ip, dp] := fun iq h => List.mem_cons.mpr (.inl (List.mem_singleton.mp h))
  -- the rest works on the graph `G'` with the entry cleared
  have hrest : ∀ G', Steps tight bad K 0 (At c [(ip, i), (dp, d)] [ip, dp] G') (do
      iunlockput dp
      addLink ip (-1)
      iunlockput ip
      pure (0 : Int)) fun _ => At c [] [] (G'.addLinks i (-1)) := fun G' =>
    .zero_bind (iunlockput_second_steps hsize hKd hsub (hnil.cons ip i)) fun _ =>
      .zero_bind (addLink_steps hsize List.mem_cons_self List.mem_cons_self hKi (-1)) fun _ =>
      .zero_bind (iunlockput_steps hsize hKi (fun _ h => by cases h) hnil) fun _ => .pure fun _ h => h
  refine .guard (.inl (by decide)) fun hr => ?_
  rw [if_pos (not_not.mp hr), hempty, hnode.2.1, Graph.unlink]
  split
  · exact .zero_bind (addLink_steps hsize hdp hpdp hKd (-1)) fun _ => hrest _
  · exact hrest _

inductive Unlinked (cwd : Nat) (path : Path) (G : Graph) : Graph → Prop
  | refused : Unlinked cwd path G G
  | removed {d k : Nat} {name : Name} : G.resolve cwd path true = some (d, name) →
      namecmp name dot ≠ 0 → namecmp name dotdot ≠ 0 → (G d).type = .dir → G.find d name = some k →
      1 ≤ (G (G.target d k)).nlink → ((G (G.target d k)).type = .dir → G.Bare (G.target d k)) →
      Unlinked cwd path G (G.unlink d k (G.target d k))

omit hshun in
theorem unlinkFound_steps (hbad : G.Dangling c.anchors → bad) (hdir : (G d).type = .dir) {k : Nat}
    {name : Name} (hfind : G.find d name = some k) (hKi : inodeBlock (G.target d k) ∈ K)
    (hKd : inodeBlock d ∈ K) :
    Steps tight bad K 2 (At c [(ip, G.target d k), (dp, d)] [dp] G)
      (unlinkFound dp ip (direntSize * k)) fun _ s => At c [] [] G s ∨
        (1 ≤ (G (G.target d k)).nlink ∧
          ((G (G.target d k)).type = .dir → G.Bare (G.target d k)) ∧
          At c [] [] (G.unlink d k (G.target d k)) s) := by
  have hip : (ip, G.target d k) ∈ [(ip, G.target d k), (dp, d)] := List.mem_cons_self
  have hpip : ip ∈ [ip, dp] := List.mem_cons_self
  have hnil : Covers [] [] := fun _ h => by cases h
  have hk : k ≤ (G d).entries.length := by
    obtain ⟨de, hget, -⟩ := Graph.find_eq_some hfind
    exact (List.getElem?_eq_some_iff.mp hget).1.le
  refine .zero_bind (.lift (ilock_found hip (.inl (Graph.named_of_find hfind)) hbad)) fun _ =>
    .lift_pre fun _ => .zero_bind (getInode_steps hip hpip) fun node => .lift_pre fun hnode =>
    .guard (.inl (by decide)) fun hlinks => ?_
  rw [hnode.2.2.1, not_lt] at hlinks
  rw [hnode.2.1]
  have hrest : ∀ empty : Bool, (empty = true → (G (G.target d k)).type = .dir →
      G.Bare (G.target d k)) → Steps tight bad K 2 (At c [(ip, G.target d k), (dp, d)] [ip, dp] G)
      (if !empty then do
        iunlockput ip
        iunlockput dp
        pure (-1)
      else
        unlinkEntry dp ip (direntSize * k)) fun _ s => At c [] [] G s ∨
        (1 ≤ (G (G.target d k)).nlink ∧
          ((G (G.target d k)).type = .dir → G.Bare (G.target d k)) ∧
          At c [] [] (G.unlink d k (G.target d k)) s) := fun empty hbare => by
    have hsub : ∀ iq ∈ [dp], iq ∈ [ip, dp] := fun _ => .tail _
    refine .ite (fun _ => ?_) fun hempty => ?_
    · exact .zero_bind (iunlockput_steps hsize hKi hsub (hnil.cons dp d)) fun _ =>
        .zero_bind (iunlockput_steps hsize hKd (fun _ h => by cases h) hnil) fun _ =>
        .pure fun _ h => .inl h
    · have hbool : empty = true := by simpa using hempty
      exact (unlinkEntry_steps hsize hroot hdir hk hKi hKd).post fun _ s h =>
        .inr ⟨hlinks, hbare hbool, h⟩
  exact .ite (fun htype => .zero_bind (isdirempty_steps hip hpip htype) fun r => .lift_pre fun hbare =>
    hrest r fun hr _ => hbare hr) fun htype => hrest true fun _ htype' => absurd htype' htype

theorem sysUnlink_steps (hbad : G.Dangling c.anchors → bad) (path : Option (List UInt8)) :
    Steps tight bad K 4 (At c [] [] G) (sysUnlink c.caller path) fun _ s =>
      At c [] [] G s ∨ ∃ path' G', argstr path = some path' ∧ Unlinked c.cwd path' G G' ∧
        At c [] [] G' s := by
  have hnil : Covers [] [] := fun _ h => by cases h
  unfold sysUnlink
  cases argstr path with
  | none => exact .pure fun _ h => .inl h
  | some path =>
      refine .zero_bind (namex_steps hshun hroot hbad hnil path true) fun r => ?_
      cases r with
      | none => exact .pure fun _ h => .inl h.2
      | some found =>
          obtain ⟨dp, name⟩ := found
          refine .exists_pre fun d => .lift_pre fun hresolve => .lift_pre fun hnamed =>
            Steps.forget (inodeBlock d) (n := 3) ?_
          have hmem : (dp, d) ∈ [(dp, d)] := List.mem_cons_self
          have hpin : dp ∈ [dp] := List.mem_cons_self
          have hdone : Steps tight bad (inodeBlock d :: K) 3 (At c [(dp, d)] [dp] G) (do
              iunlockput dp
              pure (-1 : Int)) fun _ s => At c [] [] G s ∨ ∃ path' G', some path = some path' ∧
                Unlinked c.cwd path' G G' ∧ At c [] [] G' s :=
            .zero_bind (iunlockput_steps hsize List.mem_cons_self (fun _ h => by cases h) hnil) fun _ =>
              .pure fun _ h => .inl h
          refine .zero_bind (.lift (ilock_found hmem hnamed hbad)) fun _ => .lift_pre fun _ =>
            .ite (fun _ => hdone) fun hname => .zero_bind (dirlookup_steps hmem hpin name) fun r =>
            .lift_pre fun hdir => ?_
          cases r with
          | none => exact hdone.pre fun s h => h.2
          | some found =>
              obtain ⟨ip, off⟩ := found
              refine .exists_pre fun k => .lift_pre fun hfind => .lift_pre fun hoff => ?_
              subst hoff
              refine Steps.forget (inodeBlock (G.target d k)) (n := 2) ?_
              refine (unlinkFound_steps hsize hroot hbad hdir hfind List.mem_cons_self
                (.tail _ List.mem_cons_self)).post fun _ s h => h.imp_right fun h => ?_
              exact ⟨path, _, rfl, .removed hresolve (fun h => hname (.inl h))
                (fun h => hname (.inr h)) hdir hfind h.1 h.2.1, h.2.2⟩

end Paths

end Calls

end Xv6Mmap.Fs.Tx
