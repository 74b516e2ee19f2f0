import Xv6Mmap.FsLog
import Xv6Mmap.Sysfile

/-!
# The calls through the log

The rest of `kernel/fs.c`, and the calls of `kernel/sysfile.c` and `kernel/file.c` that change the disk,
with their calls of `log_write`: what runs between one `begin_op` and its `end_op`. Without the header
they are the functions of the modules on the file system and on system calls.
-/

namespace Xv6Mmap.Fs.Tx

open Sequential (forUp)

/-! ### Blocks and inodes -/

def bfree (b : Nat) : B Unit := do
  lift (Fs.bfree b)
  logWrite (.bitmap (b / bpb))

def ialloc (type : InodeType) : B (Option Nat) := do
  let c ← get
  match (List.range c.fs.sb.ninodes).find? fun inum => 1 ≤ inum ∧ (c.fs.dinode inum).type = .free with
  | none => pure none
  | some inum =>
    lift (modify fun s => { s with dinode := upd s.dinode inum { Dinode.empty with type := type } })
    logWrite (.inode (inum / ipb))
    let ip ← lift (iget inum)
    pure (some ip)

def itrunc (ip : Nat) : B Unit := do
  forUp 1 (fun i => do
    let node ← lift (getInode ip)
    if node.copy.addrs i ≠ 0 then
      bfree (node.copy.addrs i)
      lift (modifyCopy ip fun copy => { copy with addrs := upd copy.addrs i 0 })) ndirect 0
  let node ← lift (getInode ip)
  let addr := node.copy.addrs ndirect
  if addr ≠ 0 then
    let block ← lift (readBlock addr)
    forUp 1 (fun j => if word block j ≠ 0 then bfree (word block j) else pure ()) nindirect 0
    bfree addr
    lift (modifyCopy ip fun copy => { copy with addrs := upd copy.addrs ndirect 0 })
  lift (modifyCopy ip fun copy => { copy with size := 0 })
  iupdate ip

def ifree (ip : Nat) : B Unit := do
  let node ← lift (getInode ip)
  if node.locked then lift (stop .deadlock)
  lift (modifyInode ip fun node => { node with locked := true })
  itrunc ip
  lift (modifyCopy ip fun copy => { copy with type := .free })
  iupdate ip
  lift (modifyInode ip fun node => { node with valid := false })
  lift (modifyInode ip fun node => { node with locked := false })

def iput (ip : Nat) : B Unit := do
  let node ← lift (getInode ip)
  if node.ref = 1 ∧ node.valid ∧ node.copy.nlink = 0 then ifree ip
  lift (modifyInode ip fun node => { node with ref := node.ref - 1 })

def iunlockput (ip : Nat) : B Unit := do
  lift (iunlock ip)
  iput ip

/-! ### Directories and paths -/

def readiFrom (ip : Nat) (dst : Nat → Bool) (n : Nat) :
    Nat → Nat → Nat → List Nat → B (Int × List Nat)
  | 0, tot, _, bytes => pure (tot, bytes)
  | rounds + 1, tot, off, bytes =>
    if tot < n then do
      let addr ← bmap ip (off / bsize)
      if addr = 0 then
        pure (tot, bytes)
      else
        let block ← lift (readBlock addr)
        let m := min (n - tot) (bsize - off % bsize)
        if (List.range m).all fun k => dst (tot + k) then
          readiFrom ip dst n rounds (tot + m) (off + m)
            (bytes ++ (List.range m).map fun k => block (off % bsize + k))
        else
          pure (-1, bytes)
    else
      pure (tot, bytes)

def readi (ip : Nat) (dst : Nat → Bool) (off n : Nat) : B (Int × List Nat) := do
  let node ← lift (getInode ip)
  if node.copy.size < off ∨ 0x100000000 ≤ off + n then
    pure (0, [])
  else
    let n := if node.copy.size < off + n then node.copy.size - off else n
    readiFrom ip dst n n 0 off []

def readDirent (dp off : Nat) : B (Option Dirent) := do
  let (tot, bytes) ← readi dp (fun _ => true) off direntSize
  if tot ≠ direntSize then pure none else pure (some (.ofBytes bytes))

def writeDirent (dp off : Nat) (de : Dirent) : B Int :=
  writei dp (fun k => de.toBytes[k]?) off direntSize

def dirlookupFrom (dp : Nat) (name : Name) : Nat → Nat → B (Option (Nat × Nat))
  | 0, _ => pure none
  | n + 1, off => do
    match ← readDirent dp off with
    | none => lift (stop .dirlookupRead)
    | some de =>
      if de.inum ≠ 0 ∧ namecmp name de.name = 0 then
        let ip ← lift (iget de.inum)
        pure (some (ip, off))
      else
        dirlookupFrom dp name n (off + direntSize)

def dirlookup (dp : Nat) (name : Name) : B (Option (Nat × Nat)) := do
  let node ← lift (getInode dp)
  if node.copy.type ≠ .dir then lift (stop .dirlookupNotDir)
  dirlookupFrom dp name (direntCount node.copy.size) 0

def emptyDirentFrom (dp : Nat) : Nat → Nat → B Nat
  | 0, off => pure off
  | n + 1, off => do
    match ← readDirent dp off with
    | none => lift (stop .dirlinkRead)
    | some de => if de.inum = 0 then pure off else emptyDirentFrom dp n (off + direntSize)

def dirlink (dp : Nat) (name : Name) (inum : Nat) : B Int := do
  match ← dirlookup dp name with
  | some (ip, _) =>
    iput ip
    pure (-1)
  | none =>
    let node ← lift (getInode dp)
    let off ← emptyDirentFrom dp (direntCount node.copy.size) 0
    let r ← writeDirent dp off { inum := inum % 0x10000, name := name }
    if r ≠ direntSize then pure (-1) else pure 0

def namexFrom (nameiparent : Bool) : Nat → Nat → Path → B (Option (Nat × Name))
  | 0, ip, _ => do
    iput ip
    pure none
  | rounds + 1, ip, path =>
    match skipelem path with
    | none =>
      if nameiparent then do
        iput ip
        pure none
      else
        pure (some (ip, []))
    | some (name, path) => do
      lift (ilock ip)
      let node ← lift (getInode ip)
      if node.copy.type ≠ .dir then
        iunlockput ip
        pure none
      else if nameiparent ∧ path = [] then
        lift (iunlock ip)
        pure (some (ip, name))
      else
        match ← dirlookup ip name with
        | none =>
          iunlockput ip
          pure none
        | some (next, _) =>
          iunlockput ip
          namexFrom nameiparent rounds next path

def namex (p : Nat) (path : Path) (nameiparent : Bool) : B (Option (Nat × Name)) := do
  let ip ← lift (namexStart p path)
  namexFrom nameiparent (path.length + 1) ip path

def namei (p : Nat) (path : Path) : B (Option Nat) := do
  let r ← namex p path false
  pure (r.map Prod.fst)

def nameiparent (p : Nat) (path : Path) : B (Option (Nat × Name)) := namex p path true

/-! ### Links -/

def linkName (p : Nat) (new : Path) (inum : Nat) : B Bool := do
  match ← nameiparent p new with
  | none => pure false
  | some (dp, name) =>
    lift (ilock dp)
    let r ← dirlink dp name inum
    iunlockput dp
    pure (decide (0 ≤ r))

def addLink (ip : Nat) (d : Int) : B Unit := do
  lift (modifyCopy ip fun copy => { copy with nlink := short (copy.nlink + d) })
  iupdate ip

def sysLink (p : Nat) (old new : Option (List UInt8)) : B Int := do
  match argstr old, argstr new with
  | some old, some new =>
    match ← namei p old with
    | none => pure (-1)
    | some ip =>
      lift (ilock ip)
      let node ← lift (getInode ip)
      if node.copy.type = .dir then
        iunlockput ip
        pure (-1)
      else
        addLink ip 1
        lift (iunlock ip)
        let done ← linkName p new node.inum
        if done then
          iput ip
          pure 0
        else
          lift (ilock ip)
          addLink ip (-1)
          iunlockput ip
          pure (-1)
  | _, _ => pure (-1)

def isdiremptyFrom (dp : Nat) : Nat → Nat → B Bool
  | 0, _ => pure true
  | n + 1, off => do
    match ← readDirent dp off with
    | none => lift (stop .isdiremptyReadi)
    | some de => if de.inum ≠ 0 then pure false else isdiremptyFrom dp n (off + direntSize)

def isdirempty (dp : Nat) : B Bool := do
  let node ← lift (getInode dp)
  isdiremptyFrom dp (direntCount (node.copy.size - 2 * direntSize)) (2 * direntSize)

def unlinkEntry (dp ip off : Nat) : B Int := do
  let node ← lift (getInode ip)
  let r ← writeDirent dp off { inum := 0, name := [] }
  if r ≠ direntSize then lift (stop .unlinkWritei)
  if node.copy.type = .dir then addLink dp (-1)
  iunlockput dp
  addLink ip (-1)
  iunlockput ip
  pure 0

def unlinkFound (dp ip off : Nat) : B Int := do
  lift (ilock ip)
  let node ← lift (getInode ip)
  if node.copy.nlink < 1 then lift (stop .unlinkNlink)
  let empty ← if node.copy.type = .dir then isdirempty ip else pure true
  if !empty then
    iunlockput ip
    iunlockput dp
    pure (-1)
  else
    unlinkEntry dp ip off

def sysUnlink (p : Nat) (path : Option (List UInt8)) : B Int := do
  match argstr path with
  | none => pure (-1)
  | some path =>
    match ← nameiparent p path with
    | none => pure (-1)
    | some (dp, name) =>
      lift (ilock dp)
      if namecmp name dot = 0 ∨ namecmp name dotdot = 0 then
        iunlockput dp
        pure (-1)
      else
        match ← dirlookup dp name with
        | none =>
          iunlockput dp
          pure (-1)
        | some (ip, off) => unlinkFound dp ip off

/-! ### Creating -/

def linkDots (ip inum parent : Nat) : B Bool := do
  let r ← dirlink ip dot inum
  if r < 0 then
    pure false
  else
    let r ← dirlink ip dotdot parent
    pure (decide (0 ≤ r))

def linkNewInode (dp ip : Nat) (name : Name) (type : InodeType) : B Bool := do
  let node ← lift (getInode ip)
  let parent ← lift (getInode dp)
  let dots ← if type = .dir then linkDots ip node.inum parent.inum else pure true
  if dots then
    let r ← dirlink dp name node.inum
    pure (decide (0 ≤ r))
  else
    pure false

def createIn (dp : Nat) (name : Name) (type : InodeType) (major minor : Int) : B (Option Nat) := do
  match ← ialloc type with
  | none =>
    iunlockput dp
    pure none
  | some ip =>
    lift (ilock ip)
    lift (modifyCopy ip fun copy =>
      { copy with major := short major, minor := short minor, nlink := 1 })
    iupdate ip
    let done ← linkNewInode dp ip name type
    if done then
      if type = .dir then addLink dp 1
      iunlockput dp
      pure (some ip)
    else
      lift (modifyCopy ip fun copy => { copy with nlink := 0 })
      iupdate ip
      iunlockput ip
      iunlockput dp
      pure none

def create (p : Nat) (path : Path) (type : InodeType) (major minor : Int) : B (Option Nat) := do
  match ← nameiparent p path with
  | none => pure none
  | some (dp, name) =>
    lift (ilock dp)
    match ← dirlookup dp name with
    | some (ip, _) =>
      iunlockput dp
      lift (ilock ip)
      let node ← lift (getInode ip)
      if type = .file ∧ (node.copy.type = .file ∨ node.copy.type = .device) then
        pure (some ip)
      else
        iunlockput ip
        pure none
    | none => createIn dp name type major minor

def openInode (p : Nat) (path : Path) (omode : Nat) : B (Option Nat) := do
  if omode &&& oCreate ≠ 0 then
    create p path .file 0 0
  else
    match ← namei p path with
    | none => pure none
    | some ip =>
      lift (ilock ip)
      let node ← lift (getInode ip)
      if node.copy.type = .dir ∧ omode ≠ 0 then
        iunlockput ip
        pure none
      else
        pure (some ip)

def fileclose (f : Nat) : B Unit := do
  let file ← lift (getFile f)
  if file.ref < 1 then lift (stop .fileclose)
  lift (modifyFile f fun file => { file with ref := file.ref - 1 })
  if file.ref - 1 ≤ 0 then
    lift (modifyFile f fun file => { file with ref := 0, type := .none })
    match file.type with
    | .pipe => lift (pipeclose file.pipe file.writable)
    | .inode | .device => iput file.ip
    | .none => pure ()

def openFound (p ip omode : Nat) : B Int := do
  let node ← lift (getInode ip)
  if node.copy.type = .device ∧ (node.copy.major < 0 ∨ ndev ≤ node.copy.major) then
    iunlockput ip
    pure (-1)
  else
    match ← lift filealloc with
    | none =>
      iunlockput ip
      pure (-1)
    | some f =>
      match ← lift (fdalloc p f) with
      | none =>
        fileclose f
        iunlockput ip
        pure (-1)
      | some fd =>
        lift (modifyFile f fun file => openFile file ip node.copy omode)
        if omode &&& oTrunc ≠ 0 ∧ node.copy.type = .file then itrunc ip
        lift (iunlock ip)
        pure fd

def sysOpen (p : Nat) (path : Option (List UInt8)) (omode : Nat) : B Int := do
  match argstr path with
  | none => pure (-1)
  | some path =>
    match ← openInode p path omode with
    | none => pure (-1)
    | some ip => openFound p ip omode

def sysMkdir (p : Nat) (path : Option (List UInt8)) : B Int := do
  match argstr path with
  | none => pure (-1)
  | some path =>
    match ← create p path .dir 0 0 with
    | none => pure (-1)
    | some ip =>
      iunlockput ip
      pure 0

def sysMknod (p : Nat) (path : Option (List UInt8)) (major minor : Int) : B Int := do
  match argstr path with
  | none => pure (-1)
  | some path =>
    match ← create p path .device major minor with
    | none => pure (-1)
    | some ip =>
      iunlockput ip
      pure 0

/-! ### Transactions -/

/-- One round of the loop of `filewrite`, which has written `i` of `n` bytes. -/
def writeChunk (f : Nat) (src : Nat → Option Nat) (n i : Nat) : B Int := do
  let n1 := min (n - i) writeMax
  let file ← lift (getFile f)
  lift (ilock file.ip)
  let r ← writei file.ip (fun k => src (i + k)) file.off n1
  if 0 < r then lift (modifyFile f fun file => { file with off := file.off + r.toNat })
  lift (iunlock file.ip)
  pure r

/-- What runs in one transaction: a round of `filewrite`, a whole call, or the end of `fileclose`. -/
inductive Section where
  | write (f : Nat) (src : Nat → Option Nat) (n i : Nat)
  | open (path : Option (List UInt8)) (omode : Nat)
  | mkdir (path : Option (List UInt8))
  | mknod (path : Option (List UInt8)) (major minor : Int)
  | link (old new : Option (List UInt8))
  | unlink (path : Option (List UInt8))
  | close (ip : Nat)

def Section.run (p : Nat) : Section → B Unit
  | .write f src n i => do let _ ← writeChunk f src n i
  | .open path omode => do let _ ← sysOpen p path omode
  | .mkdir path => do let _ ← sysMkdir p path
  | .mknod path major minor => do let _ ← sysMknod p path major minor
  | .link old new => do let _ ← sysLink p old new
  | .unlink path => do let _ ← sysUnlink p path
  | .close ip => iput ip

end Xv6Mmap.Fs.Tx
