import Xv6Mmap.FsTx
import Xv6Mmap.Proof.FsLog

/-!
# The calls and their transactions

What runs in a transaction does to the buffers what the call does to the file system, so all that is
known of the calls holds for transactions too.
-/

namespace Xv6Mmap.Fs.Tx

open Sequential

section Sim

variable {α : Type} {c : Tx}

theorem Sim.forUp {step n a : Nat} {body : Nat → B Unit} {body' : Nat → F Unit}
    (hbody : ∀ i c', Sim (body i) (body' i) c') (c : Tx) :
    Sim (Sequential.forUp step body n a) (Sequential.forUp step body' n a) c := by
  induction n generalizing a c with
  | zero => exact .pure ()
  | succ n ih => exact .bind (hbody a c) fun _ _ => ih _

theorem Sim.when {p : Prop} [Decidable p] {x : B PUnit} {y : F PUnit} {f : PUnit → B α}
    {g : PUnit → F α} (hx : Sim x y c) (hf : ∀ u c', Sim (f u) (g u) c') :
    Sim (if p then x >>= f else f ⟨⟩) (if p then y >>= g else g ⟨⟩) c :=
  .ite (.bind hx hf) (hf _ _)

end Sim

/-! ### Blocks and inodes -/

theorem bfree_sim (b : Nat) (c : Tx) : Sim (bfree b) (Fs.bfree b) c := (Sim.lift _).logged _

theorem ialloc_sim (type : InodeType) (c : Tx) : Sim (ialloc type) (Fs.ialloc type) c := by
  refine .get ?_
  cases (List.range c.fs.sb.ninodes).find? fun inum =>
      1 ≤ inum ∧ (c.fs.dinode inum).type = .free with
  | none => exact .pure none
  | some inum =>
      exact .bind (.lift _) fun _ _ => .log _ fun _ _ => .bind (.lift _) fun _ _ => .pure _

theorem itrunc_sim (ip : Nat) (c : Tx) : Sim (itrunc ip) (Fs.itrunc ip) c := by
  have hend : ∀ c', Sim (do
      lift (modifyCopy ip fun copy => { copy with size := 0 })
      iupdate ip) (do
      modifyCopy ip fun copy => { copy with size := 0 }
      Fs.iupdate ip) c' := fun c' => .bind (.lift _) fun _ _ => iupdate_sim _ _
  refine .bind (.forUp (fun i c' => .bind (.lift _) fun _ _ => ?_) c) fun _ c' =>
    .bind (.lift _) fun _ _ => .ite (.bind (.lift _) fun _ _ => ?_) (hend _)
  · exact .ite (.bind (bfree_sim _ _) fun _ _ => .lift _) (.pure ())
  · exact .bind (.forUp (fun _ _ => .ite (bfree_sim _ _) (.pure ())) _) fun _ _ =>
      .bind (bfree_sim _ _) fun _ _ => .bind (.lift _) fun _ _ => hend _

theorem ifree_sim (ip : Nat) (c : Tx) : Sim (ifree ip) (Fs.ifree ip) c :=
  .bind (.lift _) fun _ _ => .when (.lift _) fun _ _ => .bind (.lift _) fun _ _ =>
    .bind (itrunc_sim _ _) fun _ _ => .bind (.lift _) fun _ _ => .bind (iupdate_sim _ _) fun _ _ =>
    .bind (.lift _) fun _ _ => .lift _

theorem iput_sim (ip : Nat) (c : Tx) : Sim (iput ip) (Fs.iput ip) c :=
  .bind (.lift _) fun _ _ => .when (ifree_sim _ _) fun _ _ => .lift _

theorem iunlockput_sim (ip : Nat) (c : Tx) : Sim (iunlockput ip) (Fs.iunlockput ip) c :=
  .bind (.lift _) fun _ _ => iput_sim _ _

theorem iunlockput_pure_sim {α : Type} (ip : Nat) (a : α) (c : Tx) : Sim (do
    iunlockput ip
    pure a) (do
    Fs.iunlockput ip
    pure a) c :=
  .bind (iunlockput_sim _ _) fun _ _ => .pure a

/-! ### Directories and paths -/

theorem readiFrom_sim (ip : Nat) (dst : Nat → Bool) (n rounds tot off : Nat) (bytes : List Nat)
    (c : Tx) : Sim (readiFrom ip dst n rounds tot off bytes)
      (Fs.readiFrom ip dst n rounds tot off bytes) c := by
  induction rounds generalizing tot off bytes c with
  | zero => exact .pure _
  | succ rounds ih =>
      exact .ite (.bind (bmap_sim _ _ _) fun _ _ => .ite (.pure _) (.bind (.lift _) fun _ _ =>
        .ite (ih _ _ _ _) (.pure _))) (.pure _)

theorem readi_sim (ip : Nat) (dst : Nat → Bool) (off n : Nat) (c : Tx) :
    Sim (readi ip dst off n) (Fs.readi ip dst off n) c :=
  .bind (.lift _) fun _ _ => .ite (.pure _) (readiFrom_sim _ _ _ _ _ _ _ _)

theorem readDirent_sim (dp off : Nat) (c : Tx) : Sim (readDirent dp off) (Fs.readDirent dp off) c :=
  .bind (readi_sim _ _ _ _ _) fun _ _ => .ite (.pure _) (.pure _)

theorem dirlookupFrom_sim (dp : Nat) (name : Name) (n off : Nat) (c : Tx) :
    Sim (dirlookupFrom dp name n off) (Fs.dirlookupFrom dp name n off) c := by
  induction n generalizing off c with
  | zero => exact .pure _
  | succ n ih =>
      refine .bind (readDirent_sim _ _ _) fun r c' => ?_
      cases r with
      | none => exact .lift _
      | some de => exact .ite (.bind (.lift _) fun _ _ => .pure _) (ih _ _)

theorem dirlookup_sim (dp : Nat) (name : Name) (c : Tx) :
    Sim (dirlookup dp name) (Fs.dirlookup dp name) c :=
  .bind (.lift _) fun _ _ => .when (.lift _) fun _ _ => dirlookupFrom_sim _ _ _ _ _

theorem emptyDirentFrom_sim (dp n off : Nat) (c : Tx) :
    Sim (emptyDirentFrom dp n off) (Fs.emptyDirentFrom dp n off) c := by
  induction n generalizing off c with
  | zero => exact .pure _
  | succ n ih =>
      refine .bind (readDirent_sim _ _ _) fun r c' => ?_
      cases r with
      | none => exact .lift _
      | some de => exact .ite (.pure _) (ih _ _)

theorem dirlink_sim (dp : Nat) (name : Name) (inum : Nat) (c : Tx) :
    Sim (dirlink dp name inum) (Fs.dirlink dp name inum) c := by
  refine .bind (dirlookup_sim _ _ _) fun r c' => ?_
  cases r with
  | some found => exact .bind (iput_sim _ _) fun _ _ => .pure _
  | none =>
      exact .bind (.lift _) fun _ _ => .bind (emptyDirentFrom_sim _ _ _ _) fun _ _ =>
        .bind (writei_sim _ _ _ _ _) fun _ _ => .ite (.pure _) (.pure _)

theorem namexFrom_sim (parent : Bool) (rounds ip : Nat) (path : Path) (c : Tx) :
    Sim (namexFrom parent rounds ip path) (Fs.namexFrom parent rounds ip path) c := by
  induction rounds generalizing ip path c with
  | zero => exact .bind (iput_sim _ _) fun _ _ => .pure _
  | succ rounds ih =>
      unfold namexFrom Fs.namexFrom
      cases skipelem path with
      | none => exact .ite (.bind (iput_sim _ _) fun _ _ => .pure _) (.pure _)
      | some elem =>
          refine .bind (.lift _) fun _ _ => .bind (.lift _) fun _ _ =>
            .ite (iunlockput_pure_sim _ _ _) (.ite (.bind (.lift _) fun _ _ => .pure _)
              (.bind (dirlookup_sim _ _ _) fun r c' => ?_))
          cases r with
          | none => exact iunlockput_pure_sim _ _ _
          | some found => exact .bind (iunlockput_sim _ _) fun _ _ => ih _ _ _

theorem namex_sim (p : Nat) (path : Path) (parent : Bool) (c : Tx) :
    Sim (namex p path parent) (Fs.namex p path parent) c :=
  .bind (.lift _) fun _ _ => namexFrom_sim _ _ _ _ _

theorem namei_sim (p : Nat) (path : Path) (c : Tx) : Sim (namei p path) (Fs.namei p path) c :=
  .bind (namex_sim _ _ _ _) fun _ _ => .pure _

/-! ### Links -/

theorem addLink_sim (ip : Nat) (d : Int) (c : Tx) : Sim (addLink ip d) (Fs.addLink ip d) c :=
  .bind (.lift _) fun _ _ => iupdate_sim _ _

theorem linkName_sim (p : Nat) (new : Path) (inum : Nat) (c : Tx) :
    Sim (linkName p new inum) (Fs.linkName p new inum) c := by
  refine .bind (namex_sim _ _ _ _) fun r c' => ?_
  cases r with
  | none => exact .pure _
  | some found =>
      exact .bind (.lift _) fun _ _ => .bind (dirlink_sim _ _ _ _) fun _ _ =>
        iunlockput_pure_sim _ _ _

theorem sysLink_sim (p : Nat) (old new : Option (List UInt8)) (c : Tx) :
    Sim (sysLink p old new) (Fs.sysLink p old new) c := by
  unfold sysLink Fs.sysLink
  cases argstr old with
  | none => exact .pure _
  | some old =>
      cases argstr new with
      | none => exact .pure _
      | some new =>
          refine .bind (namei_sim _ _ _) fun r c' => ?_
          cases r with
          | none => exact .pure _
          | some ip =>
              exact .bind (.lift _) fun _ _ => .bind (.lift _) fun _ _ =>
                .ite (iunlockput_pure_sim _ _ _) (.bind (addLink_sim _ _ _) fun _ _ =>
                  .bind (.lift _) fun _ _ => .bind (linkName_sim _ _ _ _) fun _ _ =>
                  .ite (.bind (iput_sim _ _) fun _ _ => .pure _) (.bind (.lift _) fun _ _ =>
                    .bind (addLink_sim _ _ _) fun _ _ => iunlockput_pure_sim _ _ _))

theorem isdiremptyFrom_sim (dp n off : Nat) (c : Tx) :
    Sim (isdiremptyFrom dp n off) (Fs.isdiremptyFrom dp n off) c := by
  induction n generalizing off c with
  | zero => exact .pure _
  | succ n ih =>
      refine .bind (readDirent_sim _ _ _) fun r c' => ?_
      cases r with
      | none => exact .lift _
      | some de => exact .ite (.pure _) (ih _ _)

theorem isdirempty_sim (dp : Nat) (c : Tx) : Sim (isdirempty dp) (Fs.isdirempty dp) c :=
  .bind (.lift _) fun _ _ => isdiremptyFrom_sim _ _ _ _

theorem unlinkEntry_sim (dp ip off : Nat) (c : Tx) :
    Sim (unlinkEntry dp ip off) (Fs.unlinkEntry dp ip off) c :=
  .bind (.lift _) fun _ _ => .bind (writei_sim _ _ _ _ _) fun _ _ => .when (.lift _) fun _ _ =>
    .when (addLink_sim _ _ _) fun _ _ => .bind (iunlockput_sim _ _) fun _ _ =>
    .bind (addLink_sim _ _ _) fun _ _ => iunlockput_pure_sim _ _ _

theorem unlinkFound_sim (dp ip off : Nat) (c : Tx) :
    Sim (unlinkFound dp ip off) (Fs.unlinkFound dp ip off) c := by
  have hend : ∀ (empty : Bool) (c' : Tx), Sim (if !empty then do
        iunlockput ip
        iunlockput dp
        pure (-1)
      else unlinkEntry dp ip off) (if !empty then do
        Fs.iunlockput ip
        Fs.iunlockput dp
        pure (-1)
      else Fs.unlinkEntry dp ip off) c' := fun empty c' =>
    .ite (.bind (iunlockput_sim _ _) fun _ _ => iunlockput_pure_sim _ _ _) (unlinkEntry_sim _ _ _ _)
  exact .bind (.lift _) fun _ _ => .bind (.lift _) fun _ _ => .when (.lift _) fun _ _ =>
    .ite (.bind (isdirempty_sim _ _) hend) (.bind (.pure true) hend)

theorem sysUnlink_sim (p : Nat) (path : Option (List UInt8)) (c : Tx) :
    Sim (sysUnlink p path) (Fs.sysUnlink p path) c := by
  unfold sysUnlink Fs.sysUnlink
  cases argstr path with
  | none => exact .pure _
  | some path =>
      refine .bind (namex_sim _ _ _ _) fun r c' => ?_
      cases r with
      | none => exact .pure _
      | some found =>
          refine .bind (.lift _) fun _ _ => .ite (iunlockput_pure_sim _ _ _)
            (.bind (dirlookup_sim _ _ _) fun r c' => ?_)
          cases r with
          | none => exact iunlockput_pure_sim _ _ _
          | some found => exact unlinkFound_sim _ _ _ _

/-! ### Creating -/

theorem linkDots_sim (ip inum parent : Nat) (c : Tx) :
    Sim (linkDots ip inum parent) (Fs.linkDots ip inum parent) c :=
  .bind (dirlink_sim _ _ _ _) fun _ _ => .ite (.pure _) (.bind (dirlink_sim _ _ _ _) fun _ _ =>
    .pure _)

theorem linkNewInode_sim (dp ip : Nat) (name : Name) (type : InodeType) (c : Tx) :
    Sim (linkNewInode dp ip name type) (Fs.linkNewInode dp ip name type) c := by
  refine .bind (.lift _) fun node _ => .bind (.lift _) fun _ _ => ?_
  have hend : ∀ (dots : Bool) (c' : Tx), Sim (if dots then do
        let r ← dirlink dp name node.inum
        pure (decide (0 ≤ r))
      else pure false) (if dots then do
        let r ← Fs.dirlink dp name node.inum
        pure (decide (0 ≤ r))
      else pure false) c' := fun dots c' =>
    .ite (.bind (dirlink_sim _ _ _ _) fun _ _ => .pure _) (.pure _)
  exact .ite (.bind (linkDots_sim _ _ _ _) hend) (.bind (.pure true) hend)

theorem createIn_sim (dp : Nat) (name : Name) (type : InodeType) (major minor : Int) (c : Tx) :
    Sim (createIn dp name type major minor) (Fs.createIn dp name type major minor) c := by
  refine .bind (ialloc_sim _ _) fun r c' => ?_
  cases r with
  | none => exact iunlockput_pure_sim _ _ _
  | some ip =>
      exact .bind (.lift _) fun _ _ => .bind (.lift _) fun _ _ => .bind (iupdate_sim _ _) fun _ _ =>
        .bind (linkNewInode_sim _ _ _ _ _) fun _ _ => .ite
          (.when (addLink_sim _ _ _) fun _ _ => iunlockput_pure_sim _ _ _)
          (.bind (.lift _) fun _ _ => .bind (iupdate_sim _ _) fun _ _ =>
            .bind (iunlockput_sim _ _) fun _ _ => iunlockput_pure_sim _ _ _)

theorem create_sim (p : Nat) (path : Path) (type : InodeType) (major minor : Int) (c : Tx) :
    Sim (create p path type major minor) (Fs.create p path type major minor) c := by
  refine .bind (namex_sim _ _ _ _) fun r c' => ?_
  cases r with
  | none => exact .pure _
  | some found =>
      refine .bind (.lift _) fun _ _ => .bind (dirlookup_sim _ _ _) fun r c' => ?_
      cases r with
      | some found =>
          exact .bind (iunlockput_sim _ _) fun _ _ => .bind (.lift _) fun _ _ =>
            .bind (.lift _) fun _ _ => .ite (.pure _) (iunlockput_pure_sim _ _ _)
      | none => exact createIn_sim _ _ _ _ _ _

theorem openInode_sim (p : Nat) (path : Path) (omode : Nat) (c : Tx) :
    Sim (openInode p path omode) (Fs.openInode p path omode) c := by
  refine .ite (create_sim _ _ _ _ _ _) (.bind (namei_sim _ _ _) fun r c' => ?_)
  cases r with
  | none => exact .pure _
  | some ip =>
      exact .bind (.lift _) fun _ _ => .bind (.lift _) fun _ _ =>
        .ite (iunlockput_pure_sim _ _ _) (.pure _)

theorem fileclose_sim (f : Nat) (c : Tx) : Sim (fileclose f) (Fs.fileclose f) c := by
  refine .bind (.lift _) fun file _ => .when (.lift _) fun _ _ => .bind (.lift _) fun _ _ =>
    .ite (.bind (.lift _) fun _ _ => ?_) (.pure _)
  cases file.type with
  | none => exact .pure _
  | pipe => exact .lift _
  | inode => exact iput_sim _ _
  | device => exact iput_sim _ _

theorem sysOpen_sim (p : Nat) (path : Option (List UInt8)) (omode : Nat) (c : Tx) :
    Sim (sysOpen p path omode) (Fs.sysOpen p path omode) c := by
  unfold sysOpen Fs.sysOpen
  cases argstr path with
  | none => exact .pure _
  | some path =>
      refine .bind (openInode_sim _ _ _ _) fun r c' => ?_
      cases r with
      | none => exact .pure _
      | some ip =>
          refine .bind (.lift _) fun _ _ => .ite (iunlockput_pure_sim _ _ _)
            (.bind (.lift _) fun f c' => ?_)
          cases f with
          | none => exact iunlockput_pure_sim _ _ _
          | some f =>
              refine .bind (.lift _) fun fd c' => ?_
              cases fd with
              | none => exact .bind (fileclose_sim _ _) fun _ _ => iunlockput_pure_sim _ _ _
              | some fd =>
                  exact .bind (.lift _) fun _ _ => .when (itrunc_sim _ _) fun _ _ =>
                    .bind (.lift _) fun _ _ => .pure _

theorem createDrop_sim (p : Nat) (path : Option (List UInt8)) (type : InodeType) (major minor : Int)
    (c : Tx) : Sim (match argstr path with
      | none => pure (-1 : Int)
      | some path => do
        match ← create p path type major minor with
        | none => pure (-1)
        | some ip => do
          iunlockput ip
          pure 0) (match argstr path with
      | none => pure (-1 : Int)
      | some path => do
        match ← Fs.create p path type major minor with
        | none => pure (-1)
        | some ip => do
          Fs.iunlockput ip
          pure 0) c := by
  cases argstr path with
  | none => exact .pure _
  | some path =>
      refine .bind (create_sim _ _ _ _ _ _) fun r c' => ?_
      cases r with
      | none => exact .pure _
      | some ip => exact iunlockput_pure_sim _ _ _

theorem sysMkdir_sim (p : Nat) (path : Option (List UInt8)) (c : Tx) :
    Sim (sysMkdir p path) (Fs.sysMkdir p path) c := createDrop_sim p path .dir 0 0 c

theorem sysMknod_sim (p : Nat) (path : Option (List UInt8)) (major minor : Int) (c : Tx) :
    Sim (sysMknod p path major minor) (Fs.sysMknod p path major minor) c :=
  createDrop_sim p path .device major minor c

end Xv6Mmap.Fs.Tx
