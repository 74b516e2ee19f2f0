import Xv6Mmap.Log
import Xv6Mmap.Proof.FsMkfs
import Xv6Mmap.Proof.FsTxCreate

/-!
# What fits into a transaction

Every transaction records at most `maxopblocks` blocks. The state is a consistent one: what is in
memory agrees with the disk, references are counted exactly, and an inode without links is in memory or
out of the reach of paths. Other calls may hold references meanwhile.
-/

namespace Xv6Mmap.Fs

open Sequential

def State.anchors (s : State) : Set Nat :=
  {i | ∃ ip < ninode, 0 < s.pointers (.inode ip) ∧ (s.itable ip).inum = i}

/-- A file system in order. Other calls hold the references `held`, and the inodes `orphans` can be
without links and not in memory. -/
structure Consistent (held : Ref → Int) (orphans : Set Nat) (s : State) : Prop where
  refs : Holding held s
  held_nonneg : ∀ ip, 0 ≤ held (.inode ip)
  sound : Sound s.sb orphans [] s
  cwds : ∀ p ip, (s.proc p).cwd = some ip → (s.disk.node (s.itable ip).inum).type ≠ .free
  root_lt : rootino < s.sb.ninodes

section Begin

variable {held : Ref → Int} {orphans : Set Nat} {s : State}

def Consistent.setting (hs : Consistent held orphans s) (p cwd : Nat) : Setting where
  sb := s.sb
  stray := orphans
  anchors := s.anchors
  pointers := s.pointers
  held := held
  caller := p
  cwd := cwd
  held_nonneg := hs.held_nonneg

theorem Consistent.at (hs : Consistent held orphans s) {p ip : Nat} (hcwd : (s.proc p).cwd = some ip) :
    At (hs.setting p (s.itable ip).inum) [] [] s.disk.node s where
  holding := hs.refs
  sound := hs.sound
  hands := fun _ h => by cases h
  pointers := rfl
  anchored := fun _ h => h
  cwds := hs.cwds
  caller := ⟨ip, hcwd, rfl⟩
  shed := .refl _

end Begin

namespace Tx

section Open

variable {c : Setting} {G : Graph} {t : Tx} {ip i : Nat}

theorem filealloc_numbers : Keeps State.numbers filealloc := by
  unfold filealloc
  refine .bind .get fun s => ?_
  split
  · exact .pure _
  · exact .bind (fun _ => .of_ok rfl rfl) fun _ => .pure _

theorem fdalloc_frame (p f : Nat) (s : State) :
    Wp (fdalloc p f) (fun _ t => t.numbers = s.numbers ∧ t.ftable = s.ftable) (fun _ _ => False) s := by
  refine .get ?_
  split
  · exact .pure ⟨rfl, rfl⟩
  · exact .bind (.of_ok rfl (.pure ⟨rfl, rfl⟩))

theorem fileclose_none {f : Nat} (htype : (t.fs.ftable f).type = .none) :
    Wp (fileclose f) (fun _ t' => t'.fs.numbers = t.fs.numbers ∧ t'.header = t.header)
      (fun _ t' => t'.fs.numbers = t.fs.numbers ∧ t'.header = t.header) t := by
  have hget : lift (getFile f) t = .ok (t.fs.ftable f) t := rfl
  refine .bind (.of_ok hget (.ite (fun hunused => ?_) fun _ => ?_))
  · exact .bind (.of_error rfl ⟨rfl, rfl⟩)
  -- the count goes down, and after the last reference there is nothing to give back
  refine .bind (.of_ok rfl (.ite (fun hlast => ?_) fun _ => .pure ⟨rfl, rfl⟩))
  refine .bind (.of_ok rfl ?_)
  rw [htype]
  exact .pure ⟨rfl, rfl⟩

/-- Nothing is recorded but the block of the inode and, when it is truncated, the bitmap. -/
theorem openFound_recorded (h : At c [(ip, i)] [ip] G t.fs) (hsize : t.fs.sb.size ≤ bpb)
    (p omode : Nat) :
    Wp (openFound p ip omode) (fun _ t' => Recorded [inodeBlock i] 0 t t')
      (fun _ t' => Recorded [inodeBlock i] 0 t t') t := by
  have hinum : t.fs.numbers.2 ip = i := (h.hand List.mem_cons_self).2
  -- what comes after the part that records nothing
  have hthen : ∀ {α : Type} {x : B α} {t' : Tx}, Records (OfInode ip) 0 x →
      t'.fs.numbers = t.fs.numbers → t'.header = t.header →
      Wp x (fun _ t'' => Recorded [inodeBlock i] 0 t t'')
        (fun _ t'' => Recorded [inodeBlock i] 0 t t'') t' := fun hx hnumbers hheader => by
    have hsame : Recorded [inodeBlock i] 0 t _ := ⟨hnumbers, .of_header hheader⟩
    have hrec := hx _ (hsame.size hsize)
    rw [hnumbers, OfInode, hinum] at hrec
    exact hrec.mono (fun _ _ h' => hsame.trans h') fun _ _ h' => hsame.trans h'
  have hdrop : Records (OfInode ip) 0 (do iunlockput ip; pure (-1 : Int)) :=
    (iunlockput_records ip).bind_zero fun _ => .pure _
  refine .bind (.of_ok rfl (.ite (fun _ => hthen hdrop rfl rfl) fun _ => .bind ?_))
  refine (((Sim.lift filealloc).wp ((filealloc_wp h.holding).and (filealloc_numbers t.fs))).and
    (lift_header filealloc t)).mono (fun f t' ht => ?_) fun _ t' ht => ⟨ht.1.2, .of_header ht.2⟩
  obtain ⟨⟨hfile, hnumbers⟩, hheader⟩ := ht
  cases f with
  | none => exact hthen hdrop hnumbers hheader
  | some f =>
      obtain ⟨-, -, htype, hfs, -⟩ := hfile
      have htype' : (t'.fs.ftable f).type = .none := by
        rw [hfs]
        simpa using htype
      refine .bind ((((Sim.lift (fdalloc p f)).wp (fdalloc_frame p f t'.fs)).and
        (lift_header (fdalloc p f) t')).mono (fun fd t'' ht' => ?_) fun _ _ h' => h'.1.elim)
      obtain ⟨⟨hnumbers', hftable⟩, hheader'⟩ := ht'
      have hnumbers := hnumbers'.trans hnumbers
      have hheader := hheader'.trans hheader
      cases fd with
      | none =>
          exact .bind ((fileclose_none (hftable ▸ htype')).mono (fun _ _ hc =>
            hthen hdrop (hc.1.trans hnumbers) (hc.2.trans hheader)) fun _ _ hc =>
            ⟨hc.1.trans hnumbers, .of_header (hc.2.trans hheader)⟩)
      | some fd =>
          have hlast : Records (OfInode ip) 0 (do lift (iunlock ip); pure (fd : Int)) :=
            .bind_zero (.lift (iunlock_numbers ip)) fun _ => .pure _
          refine .bind (.of_ok rfl (hthen ?_ hnumbers hheader))
          exact .ite ((itrunc_records ip).bind_zero fun _ => hlast) hlast

theorem sysOpen_grew (hshun : G.Shuns c.stray c.cwd) (hroot : rootino < c.sb.ninodes)
    (h : At c [] [] G t.fs) (hsize : c.sb.size ≤ bpb) (path : Option (List UInt8)) (omode : Nat) :
    Wp (sysOpen c.caller path omode) (fun _ t' => Grew [] 8 t t') (fun _ t' => Grew [] 8 t t') t := by
  unfold sysOpen
  cases argstr path with
  | none => exact .pure (.of_header rfl)
  | some path =>
      have hinode : StepsTo True True [] 7 (At c [] [] G) (openInode c.caller path omode) _ :=
        openInode_steps (fun _ => hsize) (fun _ => hshun) hroot (fun _ => trivial) path omode
      refine .bind ((hinode t h).mono (fun r t' hr => ?_) fun _ t' he => ?_)
      swap
      · obtain ⟨-, i, hgrew⟩ := he
        exact (hgrew trivial).forget
      obtain ⟨i, ⟨G', -, htaken⟩, hgrew⟩ := hr
      cases r with
      | none => exact .pure (hgrew trivial).forget
      | some ip =>
          have hat : At c [(ip, i)] [ip] G' t'.fs := htaken
          have hsize' : t'.fs.sb.size ≤ bpb := hat.sound.sb_eq ▸ hsize
          exact (openFound_recorded hat hsize' c.caller omode).mono
            (fun _ _ h' => ((hgrew trivial).trans h'.grew).forget) fun _ _ h' =>
            ((hgrew trivial).trans h'.grew).forget

end Open

/-! ### Writing -/

theorem span_le {off n : Nat} (hn : n ≤ writeMax) : span off n ≤ 4 := by
  unfold span
  split
  · exact Nat.zero_le _
  · simp only [writeMax, bsize] at *
    omega

/-- A round of `filewrite`: for each of four blocks the block and one on the way to it. -/
theorem writeChunk_grew (t : Tx) (hsize : t.fs.sb.size ≤ bpb) (f : Nat) (src : Nat → Option Nat)
    (n i : Nat) : Wp (writeChunk f src n i) (fun _ t' => Grew [] 9 t t') (fun _ t' => Grew [] 9 t t') t := by
  have hrest : Records (OfInode (t.fs.ftable f).ip) 8 (do
      lift (ilock (t.fs.ftable f).ip)
      let r ← writei (t.fs.ftable f).ip (fun k => src (i + k)) (t.fs.ftable f).off (min (n - i) writeMax)
      if 0 < r then lift (modifyFile f fun file => { file with off := file.off + r.toNat })
      lift (iunlock (t.fs.ftable f).ip)
      pure r) := by
    have hlast : ∀ r : Int, Records (OfInode (t.fs.ftable f).ip) 0
        (do lift (iunlock (t.fs.ftable f).ip); pure r) := fun r =>
      .bind_zero (.lift (iunlock_numbers _)) fun _ => .pure _
    have hspan : span (t.fs.ftable f).off (min (n - i) writeMax) ≤ 4 := span_le (min_le_right _ _)
    refine .zero_bind (.lift (ilock_numbers _)) fun _ => .bind_zero ((writei_records _ _ _ _).mono
      (fun _ => List.Subset.refl _) (Nat.mul_le_mul_left 2 hspan)) fun r => .ite ?_ (hlast r)
    exact .bind_zero (.lift fun _ => .of_ok rfl rfl) fun _ => hlast r
  exact .bind (.of_ok rfl ((hrest t hsize).mono (fun _ _ h => h.grew.forget) fun _ _ h => h.grew.forget))

/-! ### Every transaction -/

section Transaction

variable {held : Ref → Int} {orphans : Set Nat} {s : State} {p ip : Nat}

theorem section_grew (hs : Consistent held orphans s) (hcwd : (s.proc p).cwd = some ip)
    (horphans : Graph.Shuns s.disk.node orphans (s.itable ip).inum) (hsize : s.sb.size ≤ bpb)
    (sec : Section) : Wp (sec.run p) (fun _ t => Grew [] 9 { fs := s, header := [] } t)
      (fun _ t => Grew [] 9 { fs := s, header := [] } t) { fs := s, header := [] } := by
  have hat := hs.at hcwd
  have hsize' : True → (hs.setting p (s.itable ip).inum).sb.size ≤ bpb := fun _ => hsize
  have hshun : True → Graph.Shuns s.disk.node orphans (s.itable ip).inum := fun _ => horphans
  have hof : ∀ {α : Type} {n : Nat} {x : B α} {Q : α → State → Prop}, n ≤ 9 →
      Steps True True [] n (At (hs.setting p (s.itable ip).inum) [] [] s.disk.node) x Q →
      Wp (do let _ ← x) (fun _ t => Grew [] 9 { fs := s, header := [] } t)
        (fun _ t => Grew [] 9 { fs := s, header := [] } t) { fs := s, header := [] } := fun hn hx =>
    .bind ((hx _ hat).mono (fun _ _ h => .pure ((h.2 trivial).mono (List.Subset.refl _) hn)) fun _ _ h =>
      (h.2 trivial).mono (List.Subset.refl _) hn)
  cases sec with
  | write f src n i =>
      exact .bind ((writeChunk_grew _ hsize f src n i).mono (fun _ _ h => .pure h) fun _ _ h => h)
  | «open» path omode =>
      have hopen := sysOpen_grew (c := hs.setting p (s.itable ip).inum) (t := { fs := s, header := [] })
        horphans hs.root_lt hat hsize path omode
      exact .bind (hopen.mono (fun _ _ h => .pure (h.mono (List.Subset.refl _) (by decide))) fun _ _ h =>
        h.mono (List.Subset.refl _) (by decide))
  | mkdir path =>
      exact hof (by decide) (createDrop_steps hsize' hshun hs.root_lt (fun _ => trivial) (by decide)
        path 0 0)
  | mknod path major minor =>
      exact hof (by decide) (createDrop_steps hsize' hshun hs.root_lt (fun _ => trivial) (by decide)
        path major minor)
  | link old new =>
      exact hof (by decide) (sysLink_steps hsize' hshun hs.root_lt (fun _ => trivial)
        (fun _ _ _ => trivial) old new)
  | unlink path =>
      exact hof (by decide) (sysUnlink_steps hsize' hshun hs.root_lt (fun _ => trivial) path)
  | close iq =>
      exact (iput_records iq _ hsize).mono (fun _ _ h => h.grew.forget.mono (List.Subset.refl _) (by decide))
        fun _ _ h => h.grew.forget.mono (List.Subset.refl _) (by decide)

/-- No transaction records more blocks than it has reserved. -/
theorem transaction_fits (hs : Consistent held orphans s) (hcwd : (s.proc p).cwd = some ip)
    (horphans : Graph.Shuns s.disk.node orphans (s.itable ip).inum) (hbitmap : s.sb.size ≤ bpb)
    (sec : Section) : Wp (sec.run p) (fun _ t => t.header.toFinset.card ≤ maxopblocks)
      (fun _ t => t.header.toFinset.card ≤ maxopblocks) { fs := s, header := [] } :=
  (section_grew hs hcwd horphans hbitmap sec).mono (fun _ _ h => h.card_le rfl) fun _ _ h => h.card_le rfl

end Transaction

theorem boot_consistent : Consistent 0 ∅ mkfs.boot where
  refs := (boot_settled mkfs).exact_refs
  held_nonneg := fun _ => le_rfl
  sound := boot_sound
  cwds := fun p ip hcwd => by
    have hip : ip = 0 := by
      simp only [Image.boot] at hcwd
      split at hcwd
      · exact (Option.some.inj hcwd).symm
      · cases hcwd
    rw [hip]
    exact mkfs_root.1
  root_lt := by decide

theorem transaction_fits_mkdir : mkfs.boot.sb.size ≤ bpb ∧
    Wp (Section.run initproc (.mkdir (some [100]))) (fun _ t => t.header.toFinset.card ≤ maxopblocks)
      (fun _ t => t.header.toFinset.card ≤ maxopblocks) { fs := mkfs.boot, header := [] } :=
  ⟨by decide, @transaction_fits 0 ∅ mkfs.boot initproc 0 boot_consistent rfl
    ⟨id, id, fun _ _ _ _ _ => id⟩ (by decide) (.mkdir (some [100]))⟩

end Tx

end Xv6Mmap.Fs
