import Xv6Mmap.Proof.FsFrame

/-!
# References along paths

Each function of the file system is given the references it takes over from its caller and those it
hands back: here those that work on inodes, directories and paths.
-/

namespace Xv6Mmap.Fs

open Sequential

structure Holding (held : Ref → Int) (s : State) : Prop where
  balanced : Balanced held s
  pipes : PipesOk s

abbrev Spec {α : Type} (P : State → Prop) (x : F α) (Q : α → State → Prop) : Prop :=
  Triple (fun _ : Stop => True) P x Q

variable {held : Ref → Int}

theorem Holding.keeps {α : Type} {x : F α} (hx : Keeps State.refs x) :
    Spec (Holding held) x fun _ => Holding held :=
  .of_keeps hx (fun _ => trivial) fun s t hrefs hold => by
    refine ⟨hold.balanced.congr hrefs, hold.pipes.congr ?_ ?_ ?_⟩ <;>
      simp only [State.refs, Prod.mk.injEq] at hrefs <;> simp only [hrefs]

@[simp]
theorem one_self (r : Ref) : one (some r) r = 1 := by simp [one]

theorem one_of_ne {r r' : Ref} (hne : r' ≠ r) : one (some r) r' = 0 := by simp [one, Ne.symm hne]

@[simp]
theorem one_none (r : Ref) : one none r = 0 := by simp [one]

theorem add_one_none (held : Ref → Int) : held + one none = held := by
  funext r
  simp

theorem Holding.setRef {s : State} (hold : Holding held s) (ip : Nat) (node : Inode)
    {held' : Ref → Int} (hheld : ∀ r, held' r =
      held r + (node.ref - (s.itable ip).ref) * one (some (.inode ip)) r) :
    Holding held' { s with itable := upd s.itable ip node } := by
  refine ⟨hold.balanced.setRef ip node fun r => ?_, .congr (s := s) rfl rfl rfl hold.pipes⟩
  rw [hheld]
  by_cases hr : r = .inode ip
  · rw [if_pos hr, hr, one_self, Int.mul_one]
  · rw [if_neg hr, one_of_ne hr, Int.mul_zero]

theorem iget_spec (inum : Nat) : Spec (Holding held) (iget inum) fun ip s =>
    ip < ninode ∧ Holding (held + one (some (.inode ip))) s := fun s hold => by
  unfold iget
  refine .get ?_
  split
  · rename_i ip hfind
    have hip := (List.find?_range_some hfind).1
    exact .bind (.of_ok rfl (.pure ⟨hip, hold.setRef ip _ fun r => by simp⟩))
  · split
    · exact .of_error rfl trivial
    · rename_i ip hfind
      obtain ⟨hip, hzero⟩ := List.find?_range_some hfind
      exact .bind (.of_ok rfl (.pure ⟨hip, hold.setRef ip _ fun r => by simp [hzero]⟩))

theorem idup_spec (ip : Nat) : Spec (Holding held) (idup ip) fun ip' s =>
    ip' = ip ∧ Holding (held + one (some (.inode ip))) s := fun s hold =>
  .bind (.of_ok rfl (.pure ⟨rfl, hold.setRef ip _ fun r => by simp⟩))

theorem iput_spec (ip : Nat) :
    Spec (Holding held) (iput ip) fun _ => Holding (held - one (some (.inode ip))) := by
  unfold iput
  refine .bind (Holding.keeps (getInode_keeps _)) fun node => .when (fun _ => Holding.keeps (ifree_keeps _))
    fun _ s hold => ⟨hold.setRef ip _ fun r => ?_⟩
  simp only [Pi.sub_apply]
  omega

theorem iunlockput_spec (ip : Nat) :
    Spec (Holding held) (iunlockput ip) fun _ => Holding (held - one (some (.inode ip))) :=
  .bind (Holding.keeps (iunlock_keeps _)) fun _ => iput_spec ip

theorem iunlockput_drop (ip : Nat) :
    Spec (Holding (held + one (some (.inode ip)))) (iunlockput ip) fun _ => Holding held :=
  (iunlockput_spec ip).post fun _ _ h => by rwa [add_sub_cancel_right] at h

theorem iput_drop (ip : Nat) :
    Spec (Holding (held + one (some (.inode ip)))) (iput ip) fun _ => Holding held :=
  (iput_spec ip).post fun _ _ h => by rwa [add_sub_cancel_right] at h

theorem iunlockput_drop_second (dp ip : Nat) :
    Spec (Holding (held + one (some (.inode dp)) + one (some (.inode ip)))) (iunlockput dp)
      fun _ => Holding (held + one (some (.inode ip))) :=
  (iunlockput_drop dp).pre fun _ h => by rwa [add_right_comm] at h

theorem ialloc_spec (type : InodeType) : Spec (Holding held) (ialloc type) fun r s =>
    match r with
    | none => Holding held s
    | some ip => ip < ninode ∧ Holding (held + one (some (.inode ip))) s := by
  unfold ialloc
  refine .get fun s _ => ?_
  split
  · exact .pure fun _ h => h
  · exact .bind (Holding.keeps (.modify fun _ => rfl)) fun _ => .bind (iget_spec _) fun ip =>
      .pure fun _ h => h

/-! ### Directories and paths -/

theorem dirlookupFrom_spec (dp : Nat) (name : Name) (n off : Nat) :
    Spec (Holding held) (dirlookupFrom dp name n off) fun r s =>
      match r with
      | none => Holding held s
      | some (ip, _) => ip < ninode ∧ Holding (held + one (some (.inode ip))) s := by
  induction n generalizing off with
  | zero => exact .pure fun _ h => h
  | succ n ih =>
      refine .bind (Holding.keeps (readDirent_keeps (refs_untouched _) _)) fun de => ?_
      cases de with
      | none => exact fun _ _ => .of_error rfl trivial
      | some de =>
          exact .ite (fun _ => .bind (iget_spec _) fun ip => .pure fun _ h => h) fun _ => ih _

theorem dirlookup_spec (dp : Nat) (name : Name) : Spec (Holding held) (dirlookup dp name) fun r s =>
    match r with
    | none => Holding held s
    | some (ip, _) => ip < ninode ∧ Holding (held + one (some (.inode ip))) s := by
  unfold dirlookup
  exact .bind (Holding.keeps (getInode_keeps _)) fun _ => .when (fun _ => Holding.keeps (stop_keeps _)) fun _ =>
    dirlookupFrom_spec _ _ _ _

theorem dirlink_spec (dp : Nat) (name : Name) (inum : Nat) :
    Spec (Holding held) (dirlink dp name inum) fun _ => Holding held := by
  unfold dirlink
  refine .bind (dirlookup_spec _ _) fun r => ?_
  cases r with
  | none =>
      exact .bind (Holding.keeps (getInode_keeps _)) fun _ =>
        .bind (Holding.keeps (emptyDirentFrom_keeps (refs_untouched _) _ _)) fun _ =>
        .bind (Holding.keeps (writei_keeps (refs_untouched _) _ _ _)) fun _ => .ite (fun _ => .pure fun _ h => h)
        fun _ => .pure fun _ h => h
  | some found => exact .lift fun _ => .bind (iput_drop _) fun _ => .pure fun _ h => h

def Found (held : Ref → Int) (s : State) : Option (Nat × Name) → Prop
  | none => Holding held s
  | some (ip, _) => ip < ninode ∧ Holding (held + one (some (.inode ip))) s

theorem namexFrom_spec (parent : Bool) (rounds ip : Nat) (hip : ip < ninode) (path : Path) :
    Spec (Holding (held + one (some (.inode ip)))) (namexFrom parent rounds ip path)
      fun r s => Found held s r := by
  induction rounds generalizing ip path with
  | zero => exact .bind (iput_drop _) fun _ => .pure fun _ h => h
  | succ rounds ih =>
      have hdrop : Spec (Holding (held + one (some (.inode ip)))) (do iunlockput ip; pure none)
          fun r s => Found held s r :=
        .bind (iunlockput_drop _) fun _ => .pure fun _ h => h
      unfold namexFrom
      cases skipelem path with
      | none =>
          exact .ite (fun _ => .bind (iput_drop _) fun _ => .pure fun _ h => h) fun _ =>
            .pure fun _ h => ⟨hip, h⟩
      | some elem =>
          refine .bind (Holding.keeps (ilock_keeps _)) fun _ =>
            .bind (Holding.keeps (getInode_keeps _)) fun _ => .ite (fun _ => hdrop) fun _ =>
            .ite (fun _ => .bind (Holding.keeps (iunlock_keeps _)) fun _ =>
              .pure fun _ h => ⟨hip, h⟩) fun _ => .bind (dirlookup_spec _ _) fun r => ?_
          cases r with
          | none => exact hdrop
          | some found =>
              exact .lift fun hnext => .bind (iunlockput_drop_second _ _) fun _ => ih _ hnext _

theorem namex_spec (p : Nat) (path : Path) (parent : Bool) :
    Spec (Holding held) (namex p path parent) fun r s => Found held s r := by
  have hstart : Spec (Holding held) (namexStart p path) fun ip s =>
      ip < ninode ∧ Holding (held + one (some (.inode ip))) s := by
    refine .ite (fun _ => iget_spec _) fun _ => .get fun s hold => ?_
    cases hcwd : (s.proc p).cwd with
    | none => exact fun _ _ => .of_error rfl trivial
    | some ip =>
        refine (idup_spec ip).post fun ip' _ h => ?_
        obtain ⟨rfl, h⟩ := h
        exact ⟨(hold.balanced.cwd p _ hcwd).2, h⟩
  exact .bind hstart fun ip => .lift fun hip => namexFrom_spec _ _ _ hip _

def Got (held : Ref → Int) (s : State) : Option Nat → Prop
  | none => Holding held s
  | some ip => ip < ninode ∧ Holding (held + one (some (.inode ip))) s

theorem namei_spec (p : Nat) (path : Path) :
    Spec (Holding held) (namei p path) fun r s => Got held s r :=
  .bind (namex_spec p path false) fun r => .pure fun s h => by cases r <;> exact h

theorem addLink_keeps (ip : Nat) (d : Int) : Keeps State.refs (addLink ip d) :=
  .bind (modifyCopy_keeps (refs_untouched _) _) fun _ => iupdate_keeps (refs_untouched _)

theorem linkDots_spec (ip inum parent : Nat) :
    Spec (Holding held) (linkDots ip inum parent) fun _ => Holding held :=
  .bind (dirlink_spec _ _ _) fun _ => .ite (fun _ => .pure fun _ h => h) fun _ =>
    .bind (dirlink_spec _ _ _) fun _ => .pure fun _ h => h

theorem linkNewInode_spec (dp ip : Nat) (name : Name) (type : InodeType) :
    Spec (Holding held) (linkNewInode dp ip name type) fun _ => Holding held := by
  unfold linkNewInode
  exact .bind (Holding.keeps (getInode_keeps _)) fun _ => .bind (Holding.keeps (getInode_keeps _))
    fun _ => .branch (linkDots_spec _ _ _) (.pure fun _ h => h) fun _ =>
    .ite (fun _ => .bind (dirlink_spec _ _ _) fun _ => .pure fun _ h => h) fun _ => .pure fun _ h => h

theorem createIn_spec (dp : Nat) (name : Name) (type : InodeType) (major minor : Int) :
    Spec (Holding (held + one (some (.inode dp)))) (createIn dp name type major minor)
      fun r s => Got held s r := by
  unfold createIn
  refine .bind (ialloc_spec _) fun r => ?_
  cases r with
  | none => exact .bind (iunlockput_drop _) fun _ => .pure fun _ h => h
  | some ip =>
      exact .lift fun hip => .bind (Holding.keeps (ilock_keeps _)) fun _ =>
        .bind (Holding.keeps (modifyCopy_keeps (refs_untouched _) _)) fun _ =>
        .bind (Holding.keeps (iupdate_keeps (refs_untouched _))) fun _ => .bind (linkNewInode_spec _ _ _ _) fun _ =>
        .ite (fun _ => .when (fun _ => Holding.keeps (addLink_keeps _ _)) fun _ =>
          .bind (iunlockput_drop_second _ _) fun _ => .pure fun _ h => ⟨hip, h⟩) fun _ =>
        .bind (Holding.keeps (modifyCopy_keeps (refs_untouched _) _)) fun _ =>
        .bind (Holding.keeps (iupdate_keeps (refs_untouched _))) fun _ => .bind (iunlockput_drop _) fun _ =>
        .bind (iunlockput_drop _) fun _ => .pure fun _ h => h

theorem create_spec (p : Nat) (path : Path) (type : InodeType) (major minor : Int) :
    Spec (Holding held) (create p path type major minor) fun r s => Got held s r := by
  unfold create
  refine .bind (namex_spec p path true) fun r => ?_
  cases r with
  | none => exact .pure fun _ h => h
  | some found =>
      obtain ⟨dp, name⟩ := found
      refine .lift fun _ => .bind (Holding.keeps (ilock_keeps _)) fun _ =>
        .bind (dirlookup_spec _ _) fun r => ?_
      cases r with
      | some found =>
          exact .lift fun hip => .bind (iunlockput_drop_second _ _) fun _ =>
            .bind (Holding.keeps (ilock_keeps _)) fun _ => .bind (Holding.keeps (getInode_keeps _))
            fun _ => .ite (fun _ => .pure fun _ h => ⟨hip, h⟩) fun _ =>
            .bind (iunlockput_drop _) fun _ => .pure fun _ h => h
      | none => exact createIn_spec _ _ _ _ _

theorem openInode_spec (p : Nat) (path : Path) (omode : Nat) :
    Spec (Holding held) (openInode p path omode) fun r s => Got held s r := by
  refine .ite (fun _ => create_spec _ _ _ _ _) fun _ => .bind (namei_spec _ _) fun r => ?_
  cases r with
  | none => exact .pure fun _ h => h
  | some ip =>
      exact .lift fun hip => .bind (Holding.keeps (ilock_keeps _)) fun _ =>
        .bind (Holding.keeps (getInode_keeps _)) fun _ =>
        .ite (fun _ => .bind (iunlockput_drop _) fun _ => .pure fun _ h => h) fun _ =>
        .pure fun _ h => ⟨hip, h⟩

/-! ### Links -/

theorem linkName_spec (p : Nat) (new : Path) (inum : Nat) :
    Spec (Holding held) (linkName p new inum) fun _ => Holding held := by
  refine .bind (namex_spec _ _ _) fun r => ?_
  cases r with
  | none => exact .pure fun _ h => h
  | some found =>
      exact .lift fun _ => .bind (Holding.keeps (ilock_keeps _)) fun _ =>
        .bind (dirlink_spec _ _ _) fun _ => .bind (iunlockput_drop _) fun _ => .pure fun _ h => h

theorem sysLink_spec (p : Nat) (old new : Option (List UInt8)) :
    Spec (Holding held) (sysLink p old new) fun _ => Holding held := by
  unfold sysLink
  split
  · refine .bind (namei_spec _ _) fun r => ?_
    cases r with
    | none => exact .pure fun _ h => h
    | some ip =>
        exact .lift fun _ => .bind (Holding.keeps (ilock_keeps _)) fun _ =>
          .bind (Holding.keeps (getInode_keeps _)) fun _ =>
          .ite (fun _ => .bind (iunlockput_drop _) fun _ => .pure fun _ h => h) fun _ =>
          .bind (Holding.keeps (addLink_keeps _ _)) fun _ =>
          .bind (Holding.keeps (iunlock_keeps _)) fun _ => .bind (linkName_spec _ _ _) fun _ =>
          .ite (fun _ => .bind (iput_drop _) fun _ => .pure fun _ h => h) fun _ =>
          .bind (Holding.keeps (ilock_keeps _)) fun _ => .bind (Holding.keeps (addLink_keeps _ _))
          fun _ => .bind (iunlockput_drop _) fun _ => .pure fun _ h => h
  · exact .pure fun _ h => h

theorem unlinkFound_spec (dp ip off : Nat) :
    Spec (Holding (held + one (some (.inode dp)) + one (some (.inode ip))))
      (unlinkFound dp ip off) fun _ => Holding held := by
  unfold unlinkFound unlinkEntry
  exact .bind (Holding.keeps (ilock_keeps _)) fun _ => .bind (Holding.keeps (getInode_keeps _))
    fun _ => .when (fun _ => Holding.keeps (stop_keeps _)) fun _ =>
    .branch (Holding.keeps (isdirempty_keeps (refs_untouched _))) (.pure fun _ h => h) fun _ =>
    .ite (fun _ => .bind (iunlockput_drop _) fun _ => .bind (iunlockput_drop _) fun _ =>
      .pure fun _ h => h) fun _ =>
    .bind (Holding.keeps (getInode_keeps _)) fun _ =>
    .bind (Holding.keeps (writei_keeps (refs_untouched _) _ _ _)) fun _ =>
    .when (fun _ => Holding.keeps (stop_keeps _)) fun _ =>
    .when (fun _ => Holding.keeps (addLink_keeps _ _)) fun _ =>
    .bind (iunlockput_drop_second _ _) fun _ => .bind (Holding.keeps (addLink_keeps _ _)) fun _ =>
    .bind (iunlockput_drop _) fun _ => .pure fun _ h => h

theorem sysUnlink_spec (p : Nat) (path : Option (List UInt8)) :
    Spec (Holding held) (sysUnlink p path) fun _ => Holding held := by
  unfold sysUnlink
  split
  · exact .pure fun _ h => h
  · refine .bind (namex_spec _ _ _) fun r => ?_
    cases r with
    | none => exact .pure fun _ h => h
    | some found =>
        refine .lift fun _ => .bind (Holding.keeps (ilock_keeps _)) fun _ =>
          .ite (fun _ => .bind (iunlockput_drop _) fun _ => .pure fun _ h => h) fun _ =>
          .bind (dirlookup_spec _ _) fun r => ?_
        cases r with
        | none => exact .bind (iunlockput_drop _) fun _ => .pure fun _ h => h
        | some found => exact .lift fun _ => unlinkFound_spec _ _ _

theorem createDrop_spec (p : Nat) (path : Option (List UInt8)) (type : InodeType)
    (major minor : Int) : Spec (Holding held) (match argstr path with
      | none => pure (-1 : Int)
      | some path => do
        match ← create p path type major minor with
        | none => pure (-1)
        | some ip => do
          iunlockput ip
          pure 0) fun _ => Holding held := by
  split
  · exact .pure fun _ h => h
  · refine .bind (create_spec _ _ _ _ _) fun r => ?_
    cases r with
    | none => exact .pure fun _ h => h
    | some ip => exact .lift fun _ => .bind (iunlockput_drop _) fun _ => .pure fun _ h => h

theorem sysMkdir_spec (p : Nat) (path : Option (List UInt8)) :
    Spec (Holding held) (sysMkdir p path) fun _ => Holding held :=
  createDrop_spec p path .dir 0 0

theorem sysMknod_spec (p : Nat) (path : Option (List UInt8)) (major minor : Int) :
    Spec (Holding held) (sysMknod p path major minor) fun _ => Holding held :=
  createDrop_spec p path .device major minor

end Xv6Mmap.Fs
