import Xv6Mmap.State
import Xv6Mmap.Lib.Wp

/-!
# The file system

`kernel/fs.c` on the one device there is. The super block, the bitmap, the on-disk inodes and the data
blocks are read and written through the buffer cache, whose content is what is modelled here; crashes
and the log are the subject of another module. A pointer to an in-memory inode is its index in the
inode table. System calls run one at a time, so a sleep lock that is taken twice is never released:
the caller sleeps for good.
-/

namespace Xv6Mmap.Fs

open Sequential (forUp)

/-! ### Sizes -/

def bsize : Nat := 1024

def ndirect : Nat := 12

def nindirect : Nat := 256

def maxfile : Nat := ndirect + nindirect

def dirsiz : Nat := 14

def direntSize : Nat := 16

def ninode : Nat := 50

def nfile : Nat := 100

def nofile : Nat := 16

def ndev : Nat := 10

def rootino : Nat := 1

/-- The conversion of an `int` to `short`. -/
def short (n : Int) : Int := (n + 0x8000) % 0x10000 - 0x8000

/-! ### The state -/

inductive InodeType where
  | free | dir | file | device
  deriving DecidableEq, Repr

structure Dinode where
  type : InodeType
  major : Int
  minor : Int
  nlink : Int
  size : Nat
  addrs : Nat → Nat

/-- `struct inode`: an entry of the inode table. `copy` stands for the fields copied from disk. -/
structure Inode where
  inum : Nat
  ref : Int
  locked : Bool
  valid : Bool
  copy : Dinode

inductive FdType where
  | none | pipe | inode | device
  deriving DecidableEq, Repr

structure File where
  type : FdType
  ref : Int
  readable : Bool
  writable : Bool
  pipe : Nat
  ip : Nat
  off : Nat
  major : Int

/-- `struct pipe`, without its bytes. `birth` numbers the pipes ever made and only observes. -/
structure Pipe where
  birth : Nat
  readopen : Bool
  writeopen : Bool
  deriving DecidableEq, Repr

/-- What a process holds of the file system. A process that runs has a current directory. -/
structure Holder where
  ofile : Nat → Option Nat
  cwd : Option Nat

structure Superblock where
  size : Nat
  ninodes : Nat
  datastart : Nat

abbrev Bytes := Nat → Nat

/-- The whole file system. `pipe` says what lives in a page handed out by `kalloc`; `births` counts
the pipes made and `freed` lists those whose page was freed, and both only observe. -/
structure State where
  sb : Superblock
  bitmap : Nat → Bool
  dinode : Nat → Dinode
  data : Nat → Bytes
  itable : Nat → Inode
  ftable : Nat → File
  proc : Nat → Holder
  pipe : Nat → Option Pipe
  births : Nat
  freed : List Nat

/-- Why a call did not come back: the messages of `panic`, a sleep that nobody ends, and an access to a
block or an inode outside the area of the disk it should lie in. -/
inductive Stop where
  | freeingFreeBlock | igetNoInodes | ilock | ilockNoType | iunlock | bmapOutOfRange
  | dirlookupNotDir | dirlookupRead | dirlinkRead | isdiremptyReadi | unlinkNlink | unlinkWritei
  | filedup | fileclose | fileread | filewrite | kfree | initExiting
  | deadlock | wild
  deriving DecidableEq, Repr

abbrev F := EStateM Stop State

def stop {α : Type} (e : Stop) : F α := fun s => .error e s

def getInode (ip : Nat) : F Inode := fun s => .ok (s.itable ip) s

def modifyInode (ip : Nat) (f : Inode → Inode) : F Unit := fun s =>
  .ok () { s with itable := upd s.itable ip (f (s.itable ip)) }

def modifyCopy (ip : Nat) (f : Dinode → Dinode) : F Unit :=
  modifyInode ip fun node => { node with copy := f node.copy }

/-! ### Blocks -/

def Superblock.isData (sb : Superblock) (b : Nat) : Bool :=
  decide (sb.datastart ≤ b) && decide (b < sb.size)

def readBlock (b : Nat) : F Bytes := fun s =>
  if s.sb.isData b then .ok (s.data b) s else .error .wild s

def modifyBlock (b : Nat) (f : Bytes → Bytes) : F Unit := fun s =>
  if s.sb.isData b then .ok () { s with data := upd s.data b (f (s.data b)) } else .error .wild s

def word (block : Bytes) (i : Nat) : Nat :=
  block (4 * i) + 0x100 * block (4 * i + 1) + 0x10000 * block (4 * i + 2) +
    0x1000000 * block (4 * i + 3)

def setWord (block : Bytes) (i w : Nat) : Bytes := fun j =>
  if j / 4 = i then w / 256 ^ (j % 4) % 256 else block j

def setBytes (block : Bytes) (o n : Nat) (byte : Nat → Nat) : Bytes := fun j =>
  if o ≤ j ∧ j < o + n then byte (j - o) % 256 else block j

def bzero (b : Nat) : F Unit := modifyBlock b fun _ _ => 0

def balloc : F Nat := do
  let s ← get
  match (List.range s.sb.size).find? fun b => !s.bitmap b with
  | some b =>
    modify fun s => { s with bitmap := upd s.bitmap b true }
    bzero b
    pure b
  | none => pure 0

def bfree (b : Nat) : F Unit := do
  let s ← get
  if !s.sb.isData b then stop .wild
  if !s.bitmap b then stop .freeingFreeBlock
  modify fun s => { s with bitmap := upd s.bitmap b false }

/-! ### Inodes -/

def iupdate (ip : Nat) : F Unit := do
  let node ← getInode ip
  let s ← get
  if s.sb.ninodes ≤ node.inum then stop .wild
  modify fun s => { s with dinode := upd s.dinode node.inum node.copy }

def iget (inum : Nat) : F Nat := do
  let s ← get
  match (List.range ninode).find? fun ip => 0 < (s.itable ip).ref ∧ (s.itable ip).inum = inum with
  | some ip =>
    modifyInode ip fun node => { node with ref := node.ref + 1 }
    pure ip
  | none =>
    match (List.range ninode).find? fun ip => (s.itable ip).ref = 0 with
    | none => stop .igetNoInodes
    | some ip =>
      modifyInode ip fun node => { node with inum := inum, ref := 1, valid := false }
      pure ip

def Dinode.empty : Dinode :=
  { type := .free, major := 0, minor := 0, nlink := 0, size := 0, addrs := fun _ => 0 }

def ialloc (type : InodeType) : F (Option Nat) := do
  let s ← get
  match (List.range s.sb.ninodes).find? fun inum => 1 ≤ inum ∧ (s.dinode inum).type = .free with
  | none => pure none
  | some inum =>
    modify fun s => { s with dinode := upd s.dinode inum { Dinode.empty with type := type } }
    let ip ← iget inum
    pure (some ip)

def idup (ip : Nat) : F Nat := do
  modifyInode ip fun node => { node with ref := node.ref + 1 }
  pure ip

def ilock (ip : Nat) : F Unit := do
  let node ← getInode ip
  if node.ref < 1 then stop .ilock
  if node.locked then stop .deadlock
  modifyInode ip fun node => { node with locked := true }
  if !node.valid then
    let s ← get
    if s.sb.ninodes ≤ node.inum then stop .wild
    modifyInode ip fun node => { node with copy := s.dinode node.inum, valid := true }
    if (s.dinode node.inum).type = .free then stop .ilockNoType

def iunlock (ip : Nat) : F Unit := do
  let node ← getInode ip
  if !node.locked ∨ node.ref < 1 then stop .iunlock
  modifyInode ip fun node => { node with locked := false }

/-- `addrs[k]` of the inode, allocated if there is no such block yet. -/
def bmapSlot (ip k : Nat) : F Nat := do
  let node ← getInode ip
  if node.copy.addrs k = 0 then
    let addr ← balloc
    if addr = 0 then
      pure 0
    else
      modifyCopy ip fun copy => { copy with addrs := upd copy.addrs k addr }
      pure addr
  else
    pure (node.copy.addrs k)

def bmap (ip bn : Nat) : F Nat := do
  if bn < ndirect then
    bmapSlot ip bn
  else
    let bn := bn - ndirect
    if bn < nindirect then
      let addr ← bmapSlot ip ndirect
      if addr = 0 then
        pure 0
      else
        let block ← readBlock addr
        if word block bn = 0 then
          let fresh ← balloc
          if fresh ≠ 0 then modifyBlock addr fun block => setWord block bn fresh
          pure fresh
        else
          pure (word block bn)
    else
      stop .bmapOutOfRange

def itrunc (ip : Nat) : F Unit := do
  forUp 1 (fun i => do
    let node ← getInode ip
    if node.copy.addrs i ≠ 0 then
      bfree (node.copy.addrs i)
      modifyCopy ip fun copy => { copy with addrs := upd copy.addrs i 0 }) ndirect 0
  let node ← getInode ip
  let addr := node.copy.addrs ndirect
  if addr ≠ 0 then
    let block ← readBlock addr
    forUp 1 (fun j => if word block j ≠ 0 then bfree (word block j) else pure ()) nindirect 0
    bfree addr
    modifyCopy ip fun copy => { copy with addrs := upd copy.addrs ndirect 0 }
  modifyCopy ip fun copy => { copy with size := 0 }
  iupdate ip

/-- The part of `iput` that frees the inode. -/
def ifree (ip : Nat) : F Unit := do
  let node ← getInode ip
  if node.locked then stop .deadlock
  modifyInode ip fun node => { node with locked := true }
  itrunc ip
  modifyCopy ip fun copy => { copy with type := .free }
  iupdate ip
  modifyInode ip fun node => { node with valid := false }
  modifyInode ip fun node => { node with locked := false }

def iput (ip : Nat) : F Unit := do
  let node ← getInode ip
  if node.ref = 1 ∧ node.valid ∧ node.copy.nlink = 0 then ifree ip
  modifyInode ip fun node => { node with ref := node.ref - 1 }

def iunlockput (ip : Nat) : F Unit := do
  iunlock ip
  iput ip

/-! ### Reading and writing -/

/-- The loop of `readi`; `dst` says which bytes of the destination can be written. Every round copies
at least one byte, so `n` rounds are enough. -/
def readiFrom (ip : Nat) (dst : Nat → Bool) (n : Nat) :
    Nat → Nat → Nat → List Nat → F (Int × List Nat)
  | 0, tot, _, bytes => pure (tot, bytes)
  | rounds + 1, tot, off, bytes =>
    if tot < n then do
      let addr ← bmap ip (off / bsize)
      if addr = 0 then
        pure (tot, bytes)
      else
        let block ← readBlock addr
        let m := min (n - tot) (bsize - off % bsize)
        if (List.range m).all fun k => dst (tot + k) then
          readiFrom ip dst n rounds (tot + m) (off + m)
            (bytes ++ (List.range m).map fun k => block (off % bsize + k))
        else
          pure (-1, bytes)
    else
      pure (tot, bytes)

/-- The value returned, and the bytes that were copied. -/
def readi (ip : Nat) (dst : Nat → Bool) (off n : Nat) : F (Int × List Nat) := do
  let node ← getInode ip
  if node.copy.size < off ∨ 0x100000000 ≤ off + n then
    pure (0, [])
  else
    let n := if node.copy.size < off + n then node.copy.size - off else n
    readiFrom ip dst n n 0 off []

/-- The bytes that `copyin` finds before the first one it cannot read. -/
def copied (src : Nat → Option Nat) (tot m : Nat) : Nat :=
  ((List.range m).takeWhile fun k => (src (tot + k)).isSome).length

def writeiFrom (ip : Nat) (src : Nat → Option Nat) (n : Nat) : Nat → Nat → Nat → F Nat
  | 0, tot, _ => pure tot
  | rounds + 1, tot, off =>
    if tot < n then do
      let addr ← bmap ip (off / bsize)
      if addr = 0 then
        pure tot
      else
        let m := min (n - tot) (bsize - off % bsize)
        let c := copied src tot m
        modifyBlock addr fun block =>
          setBytes block (off % bsize) c fun k => (src (tot + k)).getD 0
        if c < m then pure tot else writeiFrom ip src n rounds (tot + m) (off + m)
    else
      pure tot

def writei (ip : Nat) (src : Nat → Option Nat) (off n : Nat) : F Int := do
  let node ← getInode ip
  if node.copy.size < off ∨ 0x100000000 ≤ off + n then
    pure (-1)
  else if maxfile * bsize < off + n then
    pure (-1)
  else
    let tot ← writeiFrom ip src n n 0 off
    let node ← getInode ip
    if node.copy.size < off + tot then
      modifyCopy ip fun copy => { copy with size := off + tot }
    iupdate ip
    pure tot

/-! ### Directories -/

/-- A path element, without the zero byte that ends it in memory. -/
abbrev Name := List Nat

/-- `strncmp(p, q, n)`. Behind the bytes of a name comes a zero. -/
def strncmp : Nat → Name → Name → Int
  | 0, _, _ => 0
  | n + 1, p, q =>
    if p.headD 0 ≠ 0 ∧ p.headD 0 = q.headD 0 then strncmp n p.tail q.tail
    else (p.headD 0 : Int) - q.headD 0

def strncpy : Nat → Name → List Nat
  | 0, _ => []
  | n + 1, t =>
    if t.headD 0 = 0 then List.replicate (n + 1) 0 else t.headD 0 :: strncpy n t.tail

def namecmp (s t : Name) : Int := strncmp dirsiz s t

structure Dirent where
  inum : Nat
  name : Name
  deriving DecidableEq, Repr

/-- The name field holds `DIRSIZ` bytes; a shorter name ends at the first zero byte. -/
def Dirent.ofBytes (bytes : List Nat) : Dirent :=
  { inum := bytes.getD 0 0 + 0x100 * bytes.getD 1 0
    name := ((bytes.drop 2).take dirsiz).takeWhile fun c => c ≠ 0 }

def Dirent.toBytes (de : Dirent) : List Nat :=
  [de.inum % 256, de.inum / 256 % 256] ++ strncpy dirsiz de.name

def readDirent (dp off : Nat) : F (Option Dirent) := do
  let (tot, bytes) ← readi dp (fun _ => true) off direntSize
  if tot ≠ direntSize then pure none else pure (some (.ofBytes bytes))

def writeDirent (dp off : Nat) (de : Dirent) : F Int :=
  writei dp (fun k => de.toBytes[k]?) off direntSize

def direntCount (size : Nat) : Nat := (size + direntSize - 1) / direntSize

/-- `n` entries from `off` up. Returns the inode and the offset of the entry. -/
def dirlookupFrom (dp : Nat) (name : Name) : Nat → Nat → F (Option (Nat × Nat))
  | 0, _ => pure none
  | n + 1, off => do
    match ← readDirent dp off with
    | none => stop .dirlookupRead
    | some de =>
      if de.inum ≠ 0 ∧ namecmp name de.name = 0 then
        let ip ← iget de.inum
        pure (some (ip, off))
      else
        dirlookupFrom dp name n (off + direntSize)

def dirlookup (dp : Nat) (name : Name) : F (Option (Nat × Nat)) := do
  let node ← getInode dp
  if node.copy.type ≠ .dir then stop .dirlookupNotDir
  dirlookupFrom dp name (direntCount node.copy.size) 0

def emptyDirentFrom (dp : Nat) : Nat → Nat → F Nat
  | 0, off => pure off
  | n + 1, off => do
    match ← readDirent dp off with
    | none => stop .dirlinkRead
    | some de => if de.inum = 0 then pure off else emptyDirentFrom dp n (off + direntSize)

def dirlink (dp : Nat) (name : Name) (inum : Nat) : F Int := do
  match ← dirlookup dp name with
  | some (ip, _) =>
    iput ip
    pure (-1)
  | none =>
    let node ← getInode dp
    let off ← emptyDirentFrom dp (direntCount node.copy.size) 0
    let r ← writeDirent dp off { inum := inum % 0x10000, name := name }
    if r ≠ direntSize then pure (-1) else pure 0

/-! ### Paths -/

abbrev Path := List Nat

def slash : Nat := 47

def skipelem (path : Path) : Option (Name × Path) :=
  match path.dropWhile fun c => c = slash with
  | [] => none
  | c :: path =>
    let elem := (c :: path).takeWhile fun c => c ≠ slash
    some (elem.take dirsiz,
      ((c :: path).drop elem.length).dropWhile fun c => c = slash)

/-- The loop of `namex`. Every round uses up at least one byte of the path. -/
def namexFrom (nameiparent : Bool) : Nat → Nat → Path → F (Option (Nat × Name))
  | 0, ip, _ => do
    iput ip
    pure none
  | rounds + 1, ip, path =>
    match skipelem path with
    | none =>
      if nameiparent then do
        iput ip
        pure none
      else
        pure (some (ip, []))
    | some (name, path) => do
      ilock ip
      let node ← getInode ip
      if node.copy.type ≠ .dir then
        iunlockput ip
        pure none
      else if nameiparent ∧ path = [] then
        iunlock ip
        pure (some (ip, name))
      else
        match ← dirlookup ip name with
        | none =>
          iunlockput ip
          pure none
        | some (next, _) =>
          iunlockput ip
          namexFrom nameiparent rounds next path

def namexStart (p : Nat) (path : Path) : F Nat := do
  if path.head? = some slash then
    iget rootino
  else
    let s ← get
    match (s.proc p).cwd with
    | none => stop .wild
    | some ip => idup ip

/-- The inode, and with `nameiparent` the last element of the path. -/
def namex (p : Nat) (path : Path) (nameiparent : Bool) : F (Option (Nat × Name)) := do
  let ip ← namexStart p path
  namexFrom nameiparent (path.length + 1) ip path

def namei (p : Nat) (path : Path) : F (Option Nat) := do
  let r ← namex p path false
  pure (r.map Prod.fst)

def nameiparent (p : Nat) (path : Path) : F (Option (Nat × Name)) := namex p path true

end Xv6Mmap.Fs
