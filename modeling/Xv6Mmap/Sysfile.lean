import Xv6Mmap.Fs

/-!
# Files, pipes and the system calls on them

`kernel/file.c`, `kernel/sysfile.c` and the part of `kernel/pipe.c` that opens and closes pipes, with
what `fork`, `exit` and `exec` do to files. The bytes that go through pipes and devices are not
modelled: reading and writing those changes nothing here.
-/

namespace Xv6Mmap.Fs

open Sequential (forUp)

/-! ### The file table -/

def getFile (f : Nat) : F File := fun s => .ok (s.ftable f) s

def modifyFile (f : Nat) (g : File → File) : F Unit := fun s =>
  .ok () { s with ftable := upd s.ftable f (g (s.ftable f)) }

def setFd (p fd : Nat) (f : Option Nat) : F Unit := fun s =>
  .ok () { s with proc := upd s.proc p { s.proc p with ofile := upd (s.proc p).ofile fd f } }

def setCwd (p : Nat) (ip : Option Nat) : F Unit := fun s =>
  .ok () { s with proc := upd s.proc p { s.proc p with cwd := ip } }

def filealloc : F (Option Nat) := do
  let s ← get
  match (List.range nfile).find? fun f => (s.ftable f).ref = 0 with
  | none => pure none
  | some f =>
    modifyFile f fun file => { file with ref := 1 }
    pure (some f)

def filedup (f : Nat) : F Unit := do
  let file ← getFile f
  if file.ref < 1 then stop .filedup
  modifyFile f fun file => { file with ref := file.ref + 1 }

def kfreePipe (pi : Nat) : F Unit := fun s =>
  match s.pipe pi with
  | none => .error .kfree s
  | some pipe => .ok () { s with pipe := upd s.pipe pi none, freed := s.freed ++ [pipe.birth] }

def Pipe.shut (pipe : Pipe) (writable : Bool) : Pipe :=
  if writable then { pipe with writeopen := false } else { pipe with readopen := false }

def pipeclose (pi : Nat) (writable : Bool) : F Unit := do
  modify fun s => { s with
    pipe := upd s.pipe pi ((s.pipe pi).map fun pipe => pipe.shut writable) }
  let s ← get
  if ((s.pipe pi).map fun pipe => pipe.readopen || pipe.writeopen) ≠ some true then kfreePipe pi

def fileclose (f : Nat) : F Unit := do
  let file ← getFile f
  if file.ref < 1 then stop .fileclose
  modifyFile f fun file => { file with ref := file.ref - 1 }
  if file.ref - 1 ≤ 0 then
    modifyFile f fun file => { file with ref := 0, type := .none }
    match file.type with
    | .pipe => pipeclose file.pipe file.writable
    | .inode | .device => iput file.ip
    | .none => pure ()

def fdalloc (p f : Nat) : F (Option Nat) := do
  let s ← get
  match (List.range nofile).find? fun fd => (s.proc p).ofile fd = none with
  | none => pure none
  | some fd =>
    setFd p fd (some f)
    pure (some fd)

def argfd (p : Nat) (fd : Int) : F (Option Nat) := fun s =>
  .ok (if fd < 0 ∨ nofile ≤ fd then none else (s.proc p).ofile fd.toNat) s

def maxpath : Nat := 128

def argstr (arg : Option (List UInt8)) : Option Path :=
  match arg with
  | none => none
  | some bytes =>
    let path := (bytes.map UInt8.toNat).takeWhile fun c => c ≠ 0
    if path.length < maxpath then some path else none

/-! ### Reading and writing files -/

def fileread (f : Nat) (dst : Nat → Bool) (n : Int) : F Int := do
  let file ← getFile f
  if !file.readable then
    pure (-1)
  else
    match file.type with
    | .pipe | .device => pure 0
    | .inode =>
      ilock file.ip
      let (r, _) ← readi file.ip dst file.off (n % 0x100000000).toNat
      if 0 < r then modifyFile f fun file => { file with off := file.off + r.toNat }
      iunlock file.ip
      pure r
    | .none => stop .fileread

def writeMax : Nat := (10 - 1 - 1 - 2) / 2 * bsize

def filewriteFrom (f : Nat) (src : Nat → Option Nat) (n : Nat) : Nat → Nat → F Nat
  | 0, i => pure i
  | rounds + 1, i =>
    if i < n then do
      let n1 := min (n - i) writeMax
      let file ← getFile f
      ilock file.ip
      let r ← writei file.ip (fun k => src (i + k)) file.off n1
      if 0 < r then modifyFile f fun file => { file with off := file.off + r.toNat }
      iunlock file.ip
      if r ≠ n1 then pure i else filewriteFrom f src n rounds (i + n1)
    else
      pure i

def filewrite (f : Nat) (src : Nat → Option Nat) (n : Int) : F Int := do
  let file ← getFile f
  if !file.writable then
    pure (-1)
  else
    match file.type with
    | .pipe | .device => pure n
    | .inode =>
      let i ← filewriteFrom f src n.toNat n.toNat 0
      pure (if (i : Int) = n then n else -1)
    | .none => stop .filewrite

def filestat (f : Nat) : F Unit := do
  let file ← getFile f
  match file.type with
  | .inode | .device =>
    ilock file.ip
    iunlock file.ip
  | .pipe | .none => pure ()

/-! ### Pipes -/

/-- `page` is what `kalloc` returns. -/
def pipealloc (page : Option Nat) : F (Option (Nat × Nat)) := do
  match ← filealloc with
  | none => pure none
  | some f0 =>
    match ← filealloc with
    | none =>
      fileclose f0
      pure none
    | some f1 =>
      match page with
      | none =>
        fileclose f0
        fileclose f1
        pure none
      | some pi =>
        modify fun s => { s with
          pipe := upd s.pipe pi (some { birth := s.births, readopen := true, writeopen := true })
          births := s.births + 1 }
        modifyFile f0 fun file =>
          { file with type := .pipe, readable := true, writable := false, pipe := pi }
        modifyFile f1 fun file =>
          { file with type := .pipe, readable := false, writable := true, pipe := pi }
        pure (some (f0, f1))

/-- `copied` says whether both descriptors can be copied to the user. -/
def sysPipe (p : Nat) (page : Option Nat) (copied : Bool) : F Int := do
  match ← pipealloc page with
  | none => pure (-1)
  | some (rf, wf) =>
    match ← fdalloc p rf with
    | none =>
      fileclose rf
      fileclose wf
      pure (-1)
    | some fd0 =>
      match ← fdalloc p wf with
      | none =>
        setFd p fd0 none
        fileclose rf
        fileclose wf
        pure (-1)
      | some fd1 =>
        if !copied then
          setFd p fd0 none
          setFd p fd1 none
          fileclose rf
          fileclose wf
          pure (-1)
        else
          pure 0

/-! ### Descriptors -/

def sysDup (p : Nat) (fd : Int) : F Int := do
  match ← argfd p fd with
  | none => pure (-1)
  | some f =>
    match ← fdalloc p f with
    | none => pure (-1)
    | some fd =>
      filedup f
      pure fd

def sysRead (p : Nat) (fd : Int) (dst : Nat → Bool) (n : Int) : F Int := do
  match ← argfd p fd with
  | none => pure (-1)
  | some f => fileread f dst n

def sysWrite (p : Nat) (fd : Int) (src : Nat → Option Nat) (n : Int) : F Int := do
  match ← argfd p fd with
  | none => pure (-1)
  | some f => filewrite f src n

def sysClose (p : Nat) (fd : Int) : F Int := do
  match ← argfd p fd with
  | none => pure (-1)
  | some f =>
    setFd p fd.toNat none
    fileclose f
    pure 0

def sysFstat (p : Nat) (fd : Int) : F Unit := do
  match ← argfd p fd with
  | none => pure ()
  | some f => filestat f

/-! ### Links -/

/-- The new name of the inode `inum`; whether it could be made. -/
def linkName (p : Nat) (new : Path) (inum : Nat) : F Bool := do
  match ← nameiparent p new with
  | none => pure false
  | some (dp, name) =>
    ilock dp
    let r ← dirlink dp name inum
    iunlockput dp
    pure (decide (0 ≤ r))

def addLink (ip : Nat) (d : Int) : F Unit := do
  modifyCopy ip fun copy => { copy with nlink := short (copy.nlink + d) }
  iupdate ip

def sysLink (p : Nat) (old new : Option (List UInt8)) : F Int := do
  match argstr old, argstr new with
  | some old, some new =>
    match ← namei p old with
    | none => pure (-1)
    | some ip =>
      ilock ip
      let node ← getInode ip
      if node.copy.type = .dir then
        iunlockput ip
        pure (-1)
      else
        addLink ip 1
        iunlock ip
        let done ← linkName p new node.inum
        if done then
          iput ip
          pure 0
        else
          ilock ip
          addLink ip (-1)
          iunlockput ip
          pure (-1)
  | _, _ => pure (-1)

def isdiremptyFrom (dp : Nat) : Nat → Nat → F Bool
  | 0, _ => pure true
  | n + 1, off => do
    match ← readDirent dp off with
    | none => stop .isdiremptyReadi
    | some de => if de.inum ≠ 0 then pure false else isdiremptyFrom dp n (off + direntSize)

def isdirempty (dp : Nat) : F Bool := do
  let node ← getInode dp
  isdiremptyFrom dp (direntCount (node.copy.size - 2 * direntSize)) (2 * direntSize)

def dot : Name := [46]

def dotdot : Name := [46, 46]

def unlinkEntry (dp ip off : Nat) : F Int := do
  let node ← getInode ip
  let r ← writeDirent dp off { inum := 0, name := [] }
  if r ≠ direntSize then stop .unlinkWritei
  if node.copy.type = .dir then addLink dp (-1)
  iunlockput dp
  addLink ip (-1)
  iunlockput ip
  pure 0

/-- `dp` is locked, and `ip` was found in it at `off`. -/
def unlinkFound (dp ip off : Nat) : F Int := do
  ilock ip
  let node ← getInode ip
  if node.copy.nlink < 1 then stop .unlinkNlink
  let empty ← if node.copy.type = .dir then isdirempty ip else pure true
  if !empty then
    iunlockput ip
    iunlockput dp
    pure (-1)
  else
    unlinkEntry dp ip off

def sysUnlink (p : Nat) (path : Option (List UInt8)) : F Int := do
  match argstr path with
  | none => pure (-1)
  | some path =>
    match ← nameiparent p path with
    | none => pure (-1)
    | some (dp, name) =>
      ilock dp
      if namecmp name dot = 0 ∨ namecmp name dotdot = 0 then
        iunlockput dp
        pure (-1)
      else
        match ← dirlookup dp name with
        | none =>
          iunlockput dp
          pure (-1)
        | some (ip, off) => unlinkFound dp ip off

/-! ### Creating -/

/-- The entries `.` and `..` of a new directory; whether they could be made. -/
def linkDots (ip inum parent : Nat) : F Bool := do
  let r ← dirlink ip dot inum
  if r < 0 then
    pure false
  else
    let r ← dirlink ip dotdot parent
    pure (decide (0 ≤ r))

def linkNewInode (dp ip : Nat) (name : Name) (type : InodeType) : F Bool := do
  let node ← getInode ip
  let parent ← getInode dp
  let dots ← if type = .dir then linkDots ip node.inum parent.inum else pure true
  if dots then
    let r ← dirlink dp name node.inum
    pure (decide (0 ≤ r))
  else
    pure false

/-- A new inode with the name `name` in `dp`, which is locked. -/
def createIn (dp : Nat) (name : Name) (type : InodeType) (major minor : Int) : F (Option Nat) := do
  match ← ialloc type with
  | none =>
    iunlockput dp
    pure none
  | some ip =>
    ilock ip
    modifyCopy ip fun copy => { copy with major := short major, minor := short minor, nlink := 1 }
    iupdate ip
    let done ← linkNewInode dp ip name type
    if done then
      if type = .dir then addLink dp 1
      iunlockput dp
      pure (some ip)
    else
      modifyCopy ip fun copy => { copy with nlink := 0 }
      iupdate ip
      iunlockput ip
      iunlockput dp
      pure none

/-- The inode comes back locked. -/
def create (p : Nat) (path : Path) (type : InodeType) (major minor : Int) : F (Option Nat) := do
  match ← nameiparent p path with
  | none => pure none
  | some (dp, name) =>
    ilock dp
    match ← dirlookup dp name with
    | some (ip, _) =>
      iunlockput dp
      ilock ip
      let node ← getInode ip
      if type = .file ∧ (node.copy.type = .file ∨ node.copy.type = .device) then
        pure (some ip)
      else
        iunlockput ip
        pure none
    | none => createIn dp name type major minor

def oWronly : Nat := 0x001

def oRdwr : Nat := 0x002

def oCreate : Nat := 0x200

def oTrunc : Nat := 0x400

def openInode (p : Nat) (path : Path) (omode : Nat) : F (Option Nat) := do
  if omode &&& oCreate ≠ 0 then
    create p path .file 0 0
  else
    match ← namei p path with
    | none => pure none
    | some ip =>
      ilock ip
      let node ← getInode ip
      if node.copy.type = .dir ∧ omode ≠ 0 then
        iunlockput ip
        pure none
      else
        pure (some ip)

def openFile (file : File) (ip : Nat) (copy : Dinode) (omode : Nat) : File :=
  let file := if copy.type = .device then { file with type := .device, major := copy.major }
    else { file with type := .inode, off := 0 }
  { file with
    ip := ip
    readable := omode &&& oWronly = 0
    writable := omode &&& oWronly ≠ 0 ∨ omode &&& oRdwr ≠ 0 }

def sysOpen (p : Nat) (path : Option (List UInt8)) (omode : Nat) : F Int := do
  match argstr path with
  | none => pure (-1)
  | some path =>
    match ← openInode p path omode with
    | none => pure (-1)
    | some ip =>
      let node ← getInode ip
      if node.copy.type = .device ∧ (node.copy.major < 0 ∨ ndev ≤ node.copy.major) then
        iunlockput ip
        pure (-1)
      else
        match ← filealloc with
        | none =>
          iunlockput ip
          pure (-1)
        | some f =>
          match ← fdalloc p f with
          | none =>
            fileclose f
            iunlockput ip
            pure (-1)
          | some fd =>
            modifyFile f fun file => openFile file ip node.copy omode
            if omode &&& oTrunc ≠ 0 ∧ node.copy.type = .file then itrunc ip
            iunlock ip
            pure fd

def sysMkdir (p : Nat) (path : Option (List UInt8)) : F Int := do
  match argstr path with
  | none => pure (-1)
  | some path =>
    match ← create p path .dir 0 0 with
    | none => pure (-1)
    | some ip =>
      iunlockput ip
      pure 0

def sysMknod (p : Nat) (path : Option (List UInt8)) (major minor : Int) : F Int := do
  match argstr path with
  | none => pure (-1)
  | some path =>
    match ← create p path .device major minor with
    | none => pure (-1)
    | some ip =>
      iunlockput ip
      pure 0

def sysChdir (p : Nat) (path : Option (List UInt8)) : F Int := do
  match argstr path with
  | none => pure (-1)
  | some path =>
    match ← namei p path with
    | none => pure (-1)
    | some ip =>
      ilock ip
      let node ← getInode ip
      if node.copy.type ≠ .dir then
        iunlockput ip
        pure (-1)
      else
        iunlock ip
        let s ← get
        match (s.proc p).cwd with
        | none => stop .wild
        | some cwd =>
          iput cwd
          setCwd p (some ip)
          pure 0

/-! ### `exec`, `fork` and `exit` -/

/-- What `exec` does to files: it looks the path up, reads some of the file and drops it. Which ranges
it reads depends on what it finds there and on memory. -/
def sysExec (p : Nat) (path : Option (List UInt8)) (reads : List (Nat × Nat)) : F Unit := do
  match argstr path with
  | none => pure ()
  | some path =>
    match ← namei p path with
    | none => pure ()
    | some ip =>
      ilock ip
      reads.forM fun range => do
        let _ ← readi ip (fun _ => true) range.1 range.2
      iunlockput ip

/-- What `fork` does to files, once the child has its memory. -/
def fork (p np : Nat) : F Unit := do
  forUp 1 (fun fd => do
    let s ← get
    match (s.proc p).ofile fd with
    | none => pure ()
    | some f =>
      filedup f
      setFd np fd (some f)) nofile 0
  let s ← get
  match (s.proc p).cwd with
  | none => stop .wild
  | some ip =>
    let ip ← idup ip
    setCwd np (some ip)

def initproc : Nat := 0

def exit (p : Nat) : F Unit := do
  if p = initproc then stop .initExiting
  forUp 1 (fun fd => do
    let s ← get
    match (s.proc p).ofile fd with
    | none => pure ()
    | some f =>
      fileclose f
      setFd p fd none) nofile 0
  let s ← get
  match (s.proc p).cwd with
  | none => stop .wild
  | some ip =>
    iput ip
    setCwd p none

/-! ### Runs -/

inductive Call where
  | open (path : Option (List UInt8)) (omode : Nat)
  | dup (fd : Int)
  | pipe (page : Option Nat) (copied : Bool)
  | close (fd : Int)
  | read (fd : Int) (dst : Nat → Bool) (n : Int)
  | write (fd : Int) (src : Nat → Option Nat) (n : Int)
  | fstat (fd : Int)
  | chdir (path : Option (List UInt8))
  | mkdir (path : Option (List UInt8))
  | mknod (path : Option (List UInt8)) (major minor : Int)
  | link (old new : Option (List UInt8))
  | unlink (path : Option (List UInt8))
  | exec (path : Option (List UInt8)) (reads : List (Nat × Nat))
  | fork (np : Nat)
  | exit

/-- A process that runs has a current directory; `kalloc` hands out pages that are free, and `fork`
slots that are. -/
def canRun (s : State) (p : Nat) : Call → Bool
  | .pipe (some page) _ => decide (p < nproc) && (s.proc p).cwd.isSome && (s.pipe page).isNone
  | .fork np => decide (p < nproc) && (s.proc p).cwd.isSome && decide (np < nproc) &&
      (s.proc np).cwd.isNone
  | _ => decide (p < nproc) && (s.proc p).cwd.isSome

def step (p : Nat) (call : Call) : F Unit := do
  let s ← get
  if canRun s p call then
    match call with
    | .open path omode => let _ ← sysOpen p path omode
    | .dup fd => let _ ← sysDup p fd
    | .pipe page copied => let _ ← sysPipe p page copied
    | .close fd => let _ ← sysClose p fd
    | .read fd dst n => let _ ← sysRead p fd dst n
    | .write fd src n => let _ ← sysWrite p fd src n
    | .fstat fd => sysFstat p fd
    | .chdir path => let _ ← sysChdir p path
    | .mkdir path => let _ ← sysMkdir p path
    | .mknod path major minor => let _ ← sysMknod p path major minor
    | .link old new => let _ ← sysLink p old new
    | .unlink path => let _ ← sysUnlink p path
    | .exec path reads => sysExec p path reads
    | .fork np => fork p np
    | .exit => exit p

def run : List (Nat × Call) → F Unit
  | [] => pure ()
  | (p, call) :: calls => do
    step p call
    run calls

/-! ### Boot -/

structure Image where
  sb : Superblock
  bitmap : Nat → Bool
  dinode : Nat → Dinode
  data : Nat → Bytes

/-- The file system when the first process starts: `userinit` has looked up the root, which is its
current directory. -/
def Image.boot (image : Image) : State :=
  { sb := image.sb
    bitmap := image.bitmap
    dinode := image.dinode
    data := image.data
    itable := fun ip =>
      { inum := if ip = 0 then rootino else 0
        ref := if ip = 0 then 1 else 0
        locked := false
        valid := false
        copy := .empty }
    ftable := fun _ =>
      { type := .none, ref := 0, readable := false, writable := false, pipe := 0, ip := 0, off := 0
        major := 0 }
    proc := fun p => { ofile := fun _ => none, cwd := if p = initproc then some 0 else none }
    pipe := fun _ => none
    births := 0
    freed := [] }

def Image.after (image : Image) (calls : List (Nat × Call)) : Option State :=
  match run calls image.boot with
  | .ok _ s => some s
  | .error _ _ => none

/-- The image that `mkfs` writes when it is given no files: two blocks for the boot sector and the
super block, the log, the inodes, the bitmap, and one block for the root directory. -/
def mkfs : Image :=
  { sb := { size := 2000, ninodes := 200, datastart := 46 }
    bitmap := fun b => decide (b < 47)
    dinode := fun inum =>
      if inum = rootino then
        { type := .dir, major := 0, minor := 0, nlink := 1, size := bsize
          addrs := fun k => if k = 0 then 46 else 0 }
      else .empty
    data := fun b j =>
      if b = 46 then
        (({ inum := rootino, name := dot } : Dirent).toBytes ++
          ({ inum := rootino, name := dotdot } : Dirent).toBytes).getD j 0
      else 0 }

end Xv6Mmap.Fs
