import Xv6Mmap.Proof.FsRefs

/-!
# Who changes the descriptors and current directories

Files, inodes and pipes are looked up, made and dropped without touching any process. A system call
then changes its caller only; `fork` also fills in the child.
-/

namespace Xv6Mmap.Fs

open Sequential

theorem keeps_proc {α : Type} {x : F α} (hx : Keeps State.refs x) : Keeps State.proc x :=
  hx.of_part fun s t hrefs => by
    simp only [State.refs, Prod.mk.injEq] at hrefs
    exact hrefs.2.2.1

def State.holders (s : State) : (Nat → File) × (Nat → Holder) := (s.ftable, s.proc)

theorem keeps_holders {α : Type} {x : F α} (hx : Keeps State.refs x) : Keeps State.holders x :=
  hx.of_part fun s t hrefs => by
    simp only [State.refs, Prod.mk.injEq] at hrefs
    simp only [State.holders, hrefs]

theorem proc_of_holders {α : Type} {x : F α} (hx : Keeps State.holders x) : Keeps State.proc x :=
  hx.of_part fun _ _ h => congrArg Prod.snd h

theorem modifyInode_holders (ip : Nat) (g : Inode → Inode) :
    Keeps State.holders (modifyInode ip g) := fun _ => ⟨rfl⟩

theorem iget_holders (inum : Nat) : Keeps State.holders (iget inum) := by
  unfold iget
  refine .bind .get fun s => ?_
  split
  · exact .bind (modifyInode_holders _ _) fun _ => .pure _
  · split
    · exact stop_keeps _
    · exact .bind (modifyInode_holders _ _) fun _ => .pure _

theorem idup_holders (ip : Nat) : Keeps State.holders (idup ip) :=
  .bind (modifyInode_holders _ _) fun _ => .pure _

theorem ialloc_holders (type : InodeType) : Keeps State.holders (ialloc type) := by
  unfold ialloc
  refine .bind .get fun s => ?_
  split
  · exact .pure _
  · exact .bind (.modify fun _ => rfl) fun _ => .bind (iget_holders _) fun _ => .pure _

theorem iput_holders (ip : Nat) : Keeps State.holders (iput ip) := by
  unfold iput
  exact .bind (getInode_keeps _) fun _ => .when (keeps_holders (ifree_keeps _)) fun _ =>
    modifyInode_holders _ _

theorem modifyInode_proc (ip : Nat) (g : Inode → Inode) : Keeps State.proc (modifyInode ip g) :=
  proc_of_holders (modifyInode_holders ip g)

theorem iget_proc (inum : Nat) : Keeps State.proc (iget inum) := proc_of_holders (iget_holders inum)

theorem idup_proc (ip : Nat) : Keeps State.proc (idup ip) := proc_of_holders (idup_holders ip)

theorem ialloc_proc (type : InodeType) : Keeps State.proc (ialloc type) :=
  proc_of_holders (ialloc_holders type)

theorem iput_proc (ip : Nat) : Keeps State.proc (iput ip) := proc_of_holders (iput_holders ip)

theorem iunlockput_proc (ip : Nat) : Keeps State.proc (iunlockput ip) :=
  .bind (keeps_proc (iunlock_keeps _)) fun _ => iput_proc _

theorem dirlookupFrom_proc (dp : Nat) (name : Name) (n off : Nat) :
    Keeps State.proc (dirlookupFrom dp name n off) := by
  induction n generalizing off with
  | zero => exact .pure _
  | succ n ih =>
      refine .bind (keeps_proc (readDirent_keeps (refs_untouched _) _)) fun de => ?_
      cases de with
      | none => exact stop_keeps _
      | some de => exact .ite (.bind (iget_proc _) fun _ => .pure _) (ih _)

theorem dirlookup_proc (dp : Nat) (name : Name) : Keeps State.proc (dirlookup dp name) := by
  unfold dirlookup
  exact .bind (getInode_keeps _) fun _ => .when (stop_keeps _) fun _ => dirlookupFrom_proc _ _ _ _

theorem dirlink_proc (dp : Nat) (name : Name) (inum : Nat) :
    Keeps State.proc (dirlink dp name inum) := by
  unfold dirlink
  refine .bind (dirlookup_proc _ _) fun r => ?_
  cases r with
  | none =>
      exact .bind (getInode_keeps _) fun _ => .bind (keeps_proc (emptyDirentFrom_keeps (refs_untouched _) _ _))
        fun _ => .bind (keeps_proc (writei_keeps (refs_untouched _) _ _ _)) fun _ => .ite (.pure _) (.pure _)
  | some found => exact .bind (iput_proc _) fun _ => .pure _

theorem namexFrom_proc (parent : Bool) (rounds ip : Nat) (path : Path) :
    Keeps State.proc (namexFrom parent rounds ip path) := by
  induction rounds generalizing ip path with
  | zero => exact .bind (iput_proc _) fun _ => .pure _
  | succ rounds ih =>
      unfold namexFrom
      cases skipelem path with
      | none => exact .ite (.bind (iput_proc _) fun _ => .pure _) (.pure _)
      | some elem =>
          refine .bind (keeps_proc (ilock_keeps _)) fun _ => .bind (getInode_keeps _) fun _ =>
            .ite (.bind (iunlockput_proc _) fun _ => .pure _) <|
            .ite (.bind (keeps_proc (iunlock_keeps _)) fun _ => .pure _) <|
            .bind (dirlookup_proc _ _) fun r => ?_
          cases r with
          | none => exact .bind (iunlockput_proc _) fun _ => .pure _
          | some found => exact .bind (iunlockput_proc _) fun _ => ih _ _

theorem namex_proc (p : Nat) (path : Path) (parent : Bool) :
    Keeps State.proc (namex p path parent) := by
  have hstart : Keeps State.proc (namexStart p path) := by
    refine .ite (iget_proc _) <| .bind .get fun s => ?_
    cases (s.proc p).cwd with
    | none => exact stop_keeps _
    | some ip => exact idup_proc _
  exact .bind hstart fun _ => namexFrom_proc _ _ _ _

theorem namei_proc (p : Nat) (path : Path) : Keeps State.proc (namei p path) :=
  .bind (namex_proc _ _ _) fun _ => .pure _

theorem addLink_proc (ip : Nat) (d : Int) : Keeps State.proc (addLink ip d) :=
  .bind (modifyInode_proc _ _) fun _ => keeps_proc (iupdate_keeps (refs_untouched _))

theorem linkDots_proc (ip inum parent : Nat) : Keeps State.proc (linkDots ip inum parent) :=
  .bind (dirlink_proc _ _ _) fun _ => .ite (.pure _) <| .bind (dirlink_proc _ _ _) fun _ => .pure _

theorem linkNewInode_proc (dp ip : Nat) (name : Name) (type : InodeType) :
    Keeps State.proc (linkNewInode dp ip name type) := by
  unfold linkNewInode
  exact .bind (getInode_keeps _) fun _ => .bind (getInode_keeps _) fun _ =>
    .branch (linkDots_proc _ _ _) (.pure _) fun _ =>
    .ite (.bind (dirlink_proc _ _ _) fun _ => .pure _) (.pure _)

theorem createIn_proc (dp : Nat) (name : Name) (type : InodeType) (major minor : Int) :
    Keeps State.proc (createIn dp name type major minor) := by
  unfold createIn
  refine .bind (ialloc_proc _) fun r => ?_
  cases r with
  | none => exact .bind (iunlockput_proc _) fun _ => .pure _
  | some ip =>
      exact .bind (keeps_proc (ilock_keeps _)) fun _ => .bind (modifyInode_proc _ _) fun _ =>
        .bind (keeps_proc (iupdate_keeps (refs_untouched _))) fun _ => .bind (linkNewInode_proc _ _ _ _) fun _ =>
        .ite (.when (addLink_proc _ _) fun _ => .bind (iunlockput_proc _) fun _ => .pure _) <|
        .bind (modifyInode_proc _ _) fun _ => .bind (keeps_proc (iupdate_keeps (refs_untouched _))) fun _ =>
        .bind (iunlockput_proc _) fun _ => .bind (iunlockput_proc _) fun _ => .pure _

theorem create_proc (p : Nat) (path : Path) (type : InodeType) (major minor : Int) :
    Keeps State.proc (create p path type major minor) := by
  unfold create
  refine .bind (namex_proc _ _ _) fun r => ?_
  cases r with
  | none => exact .pure _
  | some found =>
      refine .bind (keeps_proc (ilock_keeps _)) fun _ => .bind (dirlookup_proc _ _) fun r => ?_
      cases r with
      | none => exact createIn_proc _ _ _ _ _
      | some found =>
          exact .bind (iunlockput_proc _) fun _ => .bind (keeps_proc (ilock_keeps _)) fun _ =>
            .bind (getInode_keeps _) fun _ => .ite (.pure _) <| .bind (iunlockput_proc _) fun _ =>
            .pure _

theorem openInode_proc (p : Nat) (path : Path) (omode : Nat) :
    Keeps State.proc (openInode p path omode) := by
  refine .ite (create_proc _ _ _ _ _) <| .bind (namei_proc _ _) fun r => ?_
  cases r with
  | none => exact .pure _
  | some ip =>
      exact .bind (keeps_proc (ilock_keeps _)) fun _ => .bind (getInode_keeps _) fun _ =>
        .ite (.bind (iunlockput_proc _) fun _ => .pure _) (.pure _)

theorem linkName_proc (p : Nat) (new : Path) (inum : Nat) : Keeps State.proc (linkName p new inum) := by
  refine .bind (namex_proc _ _ _) fun r => ?_
  cases r with
  | none => exact .pure _
  | some found =>
      exact .bind (keeps_proc (ilock_keeps _)) fun _ => .bind (dirlink_proc _ _ _) fun _ =>
        .bind (iunlockput_proc _) fun _ => .pure _

theorem sysLink_proc (p : Nat) (old new : Option (List UInt8)) :
    Keeps State.proc (sysLink p old new) := by
  unfold sysLink
  split
  · refine .bind (namei_proc _ _) fun r => ?_
    cases r with
    | none => exact .pure _
    | some ip =>
        exact .bind (keeps_proc (ilock_keeps _)) fun _ => .bind (getInode_keeps _) fun _ =>
          .ite (.bind (iunlockput_proc _) fun _ => .pure _) <| .bind (addLink_proc _ _) fun _ =>
          .bind (keeps_proc (iunlock_keeps _)) fun _ => .bind (linkName_proc _ _ _) fun _ =>
          .ite (.bind (iput_proc _) fun _ => .pure _) <| .bind (keeps_proc (ilock_keeps _)) fun _ =>
          .bind (addLink_proc _ _) fun _ => .bind (iunlockput_proc _) fun _ => .pure _
  · exact .pure _

theorem unlinkFound_proc (dp ip off : Nat) : Keeps State.proc (unlinkFound dp ip off) := by
  unfold unlinkFound unlinkEntry
  exact .bind (keeps_proc (ilock_keeps _)) fun _ => .bind (getInode_keeps _) fun _ =>
    .when (stop_keeps _) fun _ => .branch (keeps_proc (isdirempty_keeps (refs_untouched _))) (.pure _) fun _ =>
    .ite (.bind (iunlockput_proc _) fun _ => .bind (iunlockput_proc _) fun _ => .pure _) <|
    .bind (getInode_keeps _) fun _ => .bind (keeps_proc (writei_keeps (refs_untouched _) _ _ _)) fun _ =>
    .when (stop_keeps _) fun _ => .when (addLink_proc _ _) fun _ => .bind (iunlockput_proc _) fun _ =>
    .bind (addLink_proc _ _) fun _ => .bind (iunlockput_proc _) fun _ => .pure _

theorem sysUnlink_proc (p : Nat) (path : Option (List UInt8)) : Keeps State.proc (sysUnlink p path) := by
  unfold sysUnlink
  split
  · exact .pure _
  · refine .bind (namex_proc _ _ _) fun r => ?_
    cases r with
    | none => exact .pure _
    | some found =>
        refine .bind (keeps_proc (ilock_keeps _)) fun _ =>
          .ite (.bind (iunlockput_proc _) fun _ => .pure _) <| .bind (dirlookup_proc _ _) fun r => ?_
        cases r with
        | none => exact .bind (iunlockput_proc _) fun _ => .pure _
        | some found => exact unlinkFound_proc _ _ _

theorem createDrop_proc (p : Nat) (path : Option (List UInt8)) (type : InodeType)
    (major minor : Int) : Keeps State.proc (match argstr path with
      | none => pure (-1 : Int)
      | some path => do
        match ← create p path type major minor with
        | none => pure (-1)
        | some ip => do
          iunlockput ip
          pure 0) := by
  split
  · exact .pure _
  · refine .bind (create_proc _ _ _ _ _) fun r => ?_
    cases r with
    | none => exact .pure _
    | some ip => exact .bind (iunlockput_proc _) fun _ => .pure _

/-! ### The file table -/

theorem modifyFile_proc (f : Nat) (g : File → File) : Keeps State.proc (modifyFile f g) :=
  fun _ => ⟨rfl⟩

theorem filealloc_proc : Keeps State.proc filealloc := by
  unfold filealloc
  refine .bind .get fun s => ?_
  split
  · exact .pure _
  · exact .bind (modifyFile_proc _ _) fun _ => .pure _

theorem filedup_proc (f : Nat) : Keeps State.proc (filedup f) := by
  unfold filedup
  exact .bind (getFile_keeps _) fun _ => .when (stop_keeps _) fun _ => modifyFile_proc _ _

theorem pipeclose_proc (pi : Nat) (writable : Bool) : Keeps State.proc (pipeclose pi writable) := by
  have hfree : Keeps State.proc (kfreePipe pi) := fun s => by
    constructor
    cases hpipe : s.pipe pi <;> simp only [kfreePipe, hpipe]
  exact .bind (.modify fun _ => rfl) fun _ => .bind .get fun _ => .ite hfree (.pure _)

theorem fileclose_proc (f : Nat) : Keeps State.proc (fileclose f) := by
  unfold fileclose
  refine .bind (getFile_keeps _) fun file => .when (stop_keeps _) fun _ =>
    .bind (modifyFile_proc _ _) fun _ => .ite (.bind (modifyFile_proc _ _) fun _ => ?_) (.pure _)
  cases file.type with
  | none => exact .pure _
  | pipe => exact pipeclose_proc _ _
  | inode => exact iput_proc _
  | device => exact iput_proc _

theorem pipealloc_proc (page : Option Nat) : Keeps State.proc (pipealloc page) := by
  unfold pipealloc
  refine .bind filealloc_proc fun r => ?_
  cases r with
  | none => exact .pure _
  | some f0 =>
    refine .bind filealloc_proc fun r => ?_
    cases r with
    | none => exact .bind (fileclose_proc _) fun _ => .pure _
    | some f1 =>
      cases page with
      | none => exact .bind (fileclose_proc _) fun _ => .bind (fileclose_proc _) fun _ => .pure _
      | some pi =>
          exact .bind (.modify fun _ => rfl) fun _ => .bind (modifyFile_proc _ _) fun _ =>
            .bind (modifyFile_proc _ _) fun _ => .pure _

theorem fileread_proc (f : Nat) (dst : Nat → Bool) (n : Int) : Keeps State.proc (fileread f dst n) := by
  unfold fileread
  refine .bind (getFile_keeps _) fun file => .ite (.pure _) ?_
  cases file.type with
  | none => exact stop_keeps _
  | pipe => exact .pure _
  | device => exact .pure _
  | inode =>
      exact .bind (keeps_proc (ilock_keeps _)) fun _ => .bind (keeps_proc (readi_keeps (refs_untouched _) _ _ _))
        fun _ => .when (modifyFile_proc _ _) fun _ => .bind (keeps_proc (iunlock_keeps _)) fun _ =>
        .pure _

theorem filewriteFrom_proc (f : Nat) (src : Nat → Option Nat) (n rounds i : Nat) :
    Keeps State.proc (filewriteFrom f src n rounds i) := by
  induction rounds generalizing i with
  | zero => exact .pure _
  | succ rounds ih =>
      unfold filewriteFrom
      exact .ite (.bind (getFile_keeps _) fun _ => .bind (keeps_proc (ilock_keeps _)) fun _ =>
        .bind (keeps_proc (writei_keeps (refs_untouched _) _ _ _)) fun _ => .when (modifyFile_proc _ _) fun _ =>
        .bind (keeps_proc (iunlock_keeps _)) fun _ => .ite (.pure _) (ih _)) (.pure _)

theorem filewrite_proc (f : Nat) (src : Nat → Option Nat) (n : Int) :
    Keeps State.proc (filewrite f src n) := by
  unfold filewrite
  refine .bind (getFile_keeps _) fun file => .ite (.pure _) ?_
  cases file.type with
  | none => exact stop_keeps _
  | pipe => exact .pure _
  | device => exact .pure _
  | inode => exact .bind (filewriteFrom_proc _ _ _ _ _) fun _ => .pure _

theorem filestat_proc (f : Nat) : Keeps State.proc (filestat f) := by
  unfold filestat
  refine .bind (getFile_keeps _) fun file => ?_
  cases file.type with
  | none => exact .pure _
  | pipe => exact .pure _
  | inode => exact .bind (keeps_proc (ilock_keeps _)) fun _ => keeps_proc (iunlock_keeps _)
  | device => exact .bind (keeps_proc (ilock_keeps _)) fun _ => keeps_proc (iunlock_keeps _)

/-! ### The calls -/

def State.others (p : Nat) (s : State) : (Nat → Option Holder) × Bool :=
  (fun q => if q = p then none else some (s.proc q), (s.proc p).cwd.isSome)

theorem keeps_others {α : Type} {x : F α} (p : Nat) (hx : Keeps State.proc x) :
    Keeps (State.others p) x :=
  hx.of_part fun s t hproc => by simp only [State.others, hproc]

theorem setFd_others (p fd : Nat) (f : Option Nat) : Keeps (State.others p) (setFd p fd f) :=
  fun s => by
    refine .of_ok rfl (Prod.ext (funext fun q => ?_) (by simp [State.others]))
    by_cases hq : q = p
    · simp [State.others, hq]
    · simp [State.others, hq, upd_of_ne _ _ hq]

theorem argfd_keeps {γ : Type} {g : State → γ} (p : Nat) (fd : Int) : Keeps g (argfd p fd) :=
  fun _ => ⟨rfl⟩

theorem fdalloc_others (p f : Nat) : Keeps (State.others p) (fdalloc p f) := by
  unfold fdalloc
  refine .bind .get fun s => ?_
  split
  · exact .pure _
  · exact .bind (setFd_others _ _ _) fun _ => .pure _

theorem closeBoth_others (p rf wf : Nat) :
    Keeps (State.others p) (do fileclose rf; fileclose wf; pure (-1 : Int)) :=
  .bind (keeps_others p (fileclose_proc _)) fun _ =>
    .bind (keeps_others p (fileclose_proc _)) fun _ => .pure _

theorem sysPipe_others (p : Nat) (page : Option Nat) (copied : Bool) :
    Keeps (State.others p) (sysPipe p page copied) := by
  unfold sysPipe
  refine .bind (keeps_others p (pipealloc_proc _)) fun r => ?_
  cases r with
  | none => exact .pure _
  | some files =>
    refine .bind (fdalloc_others _ _) fun r => ?_
    cases r with
    | none => exact closeBoth_others _ _ _
    | some fd0 =>
      refine .bind (fdalloc_others _ _) fun r => ?_
      cases r with
      | none => exact .bind (setFd_others _ _ _) fun _ => closeBoth_others _ _ _
      | some fd1 =>
          exact .ite (.bind (setFd_others _ _ _) fun _ => .bind (setFd_others _ _ _) fun _ =>
            closeBoth_others _ _ _) (.pure _)

theorem sysDup_others (p : Nat) (fd : Int) : Keeps (State.others p) (sysDup p fd) := by
  unfold sysDup
  refine .bind (argfd_keeps _ _) fun r => ?_
  cases r with
  | none => exact .pure _
  | some f =>
    refine .bind (fdalloc_others _ _) fun r => ?_
    cases r with
    | none => exact .pure _
    | some fd => exact .bind (keeps_others p (filedup_proc _)) fun _ => .pure _

theorem sysRead_others (p : Nat) (fd : Int) (dst : Nat → Bool) (n : Int) :
    Keeps (State.others p) (sysRead p fd dst n) := by
  refine .bind (argfd_keeps _ _) fun r => ?_
  cases r with
  | none => exact .pure _
  | some f => exact keeps_others p (fileread_proc _ _ _)

theorem sysWrite_others (p : Nat) (fd : Int) (src : Nat → Option Nat) (n : Int) :
    Keeps (State.others p) (sysWrite p fd src n) := by
  refine .bind (argfd_keeps _ _) fun r => ?_
  cases r with
  | none => exact .pure _
  | some f => exact keeps_others p (filewrite_proc _ _ _)

theorem sysClose_others (p : Nat) (fd : Int) : Keeps (State.others p) (sysClose p fd) := by
  refine .bind (argfd_keeps _ _) fun r => ?_
  cases r with
  | none => exact .pure _
  | some f =>
      exact .bind (setFd_others _ _ _) fun _ => .bind (keeps_others p (fileclose_proc _)) fun _ =>
        .pure _

theorem sysFstat_others (p : Nat) (fd : Int) : Keeps (State.others p) (sysFstat p fd) := by
  refine .bind (argfd_keeps _ _) fun r => ?_
  cases r with
  | none => exact .pure _
  | some f => exact keeps_others p (filestat_proc _)

theorem sysOpen_others (p : Nat) (path : Option (List UInt8)) (omode : Nat) :
    Keeps (State.others p) (sysOpen p path omode) := by
  have hdrop : ∀ ip, Keeps (State.others p) (do iunlockput ip; pure (-1 : Int)) := fun ip =>
    .bind (keeps_others p (iunlockput_proc _)) fun _ => .pure _
  unfold sysOpen
  split
  · exact .pure _
  · refine .bind (keeps_others p (openInode_proc _ _ _)) fun r => ?_
    cases r with
    | none => exact .pure _
    | some ip =>
      refine .bind (getInode_keeps _) fun _ => .ite (hdrop _) <|
        .bind (keeps_others p filealloc_proc) fun r => ?_
      cases r with
      | none => exact hdrop _
      | some f =>
        refine .bind (fdalloc_others _ _) fun r => ?_
        cases r with
        | none => exact .bind (keeps_others p (fileclose_proc _)) fun _ => hdrop _
        | some fd =>
            exact .bind (keeps_others p (modifyFile_proc _ _)) fun _ =>
              .when (keeps_others p (keeps_proc (itrunc_keeps (refs_untouched _)))) fun _ =>
              .bind (keeps_others p (keeps_proc (iunlock_keeps _))) fun _ => .pure _

theorem sysExec_others (p : Nat) (path : Option (List UInt8)) (reads : List (Nat × Nat)) :
    Keeps (State.others p) (sysExec p path reads) := by
  have hreads : ∀ ip, Keeps State.proc (reads.forM fun range => do
      let _ ← readi ip (fun _ => true) range.1 range.2) := fun ip => by
    induction reads with
    | nil => exact .pure _
    | cons range reads ih =>
        exact .bind (keeps_proc (.bind (readi_keeps (refs_untouched _) _ _ _) fun _ => .pure _)) fun _ => ih
  unfold sysExec
  split
  · exact .pure _
  · refine .bind (keeps_others p (namei_proc _ _)) fun r => ?_
    cases r with
    | none => exact .pure _
    | some ip =>
        exact .bind (keeps_others p (keeps_proc (ilock_keeps _))) fun _ =>
          .bind (keeps_others p (hreads _)) fun _ => keeps_others p (iunlockput_proc _)

end Xv6Mmap.Fs
