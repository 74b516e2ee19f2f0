import Xv6Mmap.Fs
import Xv6Mmap.Lib.Bytes

/-!
# mkfs

`mkfs/mkfs.c`: how the image of the file system is made on the host, byte by byte. The image is a file
of sectors; a read past its end is short, and `rsect` dies of it. Other reads, and all writes and seeks,
succeed. The structures on the disk are numbers in little-endian bytes, which is what `xshort` and
`xint` convert to and from.
-/

namespace Xv6Mmap.Mkfs

open Fs (bsize ndirect nindirect maxfile dirsiz rootino)
open Bytes (splice)
open Sequential (forUp)

/-! ### The layout -/

def fssize : Nat := 2000

def ninodes : Nat := 200

def ipb : Nat := 16

def nbitmap : Nat := fssize / (bsize * 8) + 1

def ninodeblocks : Nat := ninodes / ipb + 1

def nlog : Nat := 30

def nmeta : Nat := 2 + nlog + ninodeblocks + nbitmap

def inodestart : Nat := 2 + nlog

def bmapstart : Nat := 2 + nlog + ninodeblocks

def iblock (inum : Nat) : Nat := inum / ipb + inodestart

def tDir : Nat := 1

def tFile : Nat := 2

/-! ### The image -/

abbrev Block := Nat → UInt8

def zeroes : Block := fun _ => 0

/-- The image, as long as it is, and the global variables. -/
structure State where
  sectors : Nat
  block : Nat → Block
  freeinode : Nat
  freeblock : Nat

def State.start : State where
  sectors := 0
  block := fun _ => zeroes
  freeinode := 1
  freeblock := 0

inductive Exit where
  | read
  | noFile
  | abort
  deriving DecidableEq, Repr

abbrev M := EStateM Exit State

/-- The sector that `lseek` goes to. The offset is a `uint`. -/
def seek (sec : Nat) : Nat := sec * bsize % 0x100000000 / bsize

def wsect (sec : Nat) (buf : Block) : M Unit :=
  modify fun s =>
    { s with sectors := max s.sectors (seek sec + 1), block := upd s.block (seek sec) buf }

def rsect (sec : Nat) : M Block := do
  let s ← get
  if seek sec < s.sectors then pure (s.block (seek sec)) else throw .read

/-! ### Inodes -/

structure Dinode where
  type : Nat
  major : Nat
  minor : Nat
  nlink : Nat
  size : Nat
  addrs : Nat → Nat

def dinodeSize : Nat := 64

def Dinode.bytes (d : Dinode) : Block := fun j =>
  if j < 2 then Bytes.ofNat d.type j
  else if j < 4 then Bytes.ofNat d.major (j - 2)
  else if j < 6 then Bytes.ofNat d.minor (j - 4)
  else if j < 8 then Bytes.ofNat d.nlink (j - 6)
  else if j < 12 then Bytes.ofNat d.size (j - 8)
  else Bytes.ofNat (d.addrs ((j - 12) / 4)) ((j - 12) % 4)

def Dinode.ofBytes (p : Block) (off : Nat) : Dinode where
  type := Bytes.get p off 2
  major := Bytes.get p (off + 2) 2
  minor := Bytes.get p (off + 4) 2
  nlink := Bytes.get p (off + 6) 2
  size := Bytes.get p (off + 8) 4
  addrs := fun k => if k ≤ ndirect then Bytes.get p (off + (12 + 4 * k)) 4 else 0

def winode (inum : Nat) (ip : Dinode) : M Unit := do
  let buf ← rsect (iblock inum)
  wsect (iblock inum) (splice buf ip.bytes (inum % ipb * dinodeSize) dinodeSize)

def rinode (inum : Nat) : M Dinode := do
  let buf ← rsect (iblock inum)
  pure (.ofBytes buf (inum % ipb * dinodeSize))

def ialloc (type : Nat) : M Nat := do
  let inum := (← get).freeinode
  modify fun s => { s with freeinode := s.freeinode + 1 }
  winode inum { type := type, major := 0, minor := 0, nlink := 1, size := 0, addrs := fun _ => 0 }
  pure inum

/-- The loop of `balloc`. -/
def bitmapOf (used : Nat) : Block :=
  (List.range used).foldl
    (fun buf i => upd buf (i / 8) (buf (i / 8) ||| UInt8.ofNat (1 <<< (i % 8)))) zeroes

def balloc (used : Nat) : M Unit :=
  if used < bsize * 8 then wsect bmapstart (bitmapOf used) else throw .abort

/-! ### Appending -/

def takeBlock : M Nat := do
  let s ← get
  set { s with freeblock := s.freeblock + 1 }
  pure s.freeblock

/-- `if(xint(din.addrs[k]) == 0) din.addrs[k] = xint(freeblock++)`. -/
def direct (din : Dinode) (k : Nat) : M Dinode :=
  if din.addrs k = 0 then do
    let b ← takeBlock
    pure { din with addrs := upd din.addrs k b }
  else pure din

/-- The part of the loop of `iappend` that finds the block `x`, and allocates it when there is none. -/
def findBlock (din : Dinode) (fbn : Nat) : M (Dinode × Nat) :=
  if fbn < ndirect then do
    let din ← direct din fbn
    pure (din, din.addrs fbn)
  else do
    let din ← direct din ndirect
    let indirect ← rsect (din.addrs ndirect)
    if Bytes.get indirect (4 * (fbn - ndirect)) 4 = 0 then
      let b ← takeBlock
      wsect (din.addrs ndirect) (splice indirect (Bytes.ofNat b) (4 * (fbn - ndirect)) 4)
      pure (din, b)
    else pure (din, Bytes.get indirect (4 * (fbn - ndirect)) 4)

def pointer (p : List UInt8) : Block := fun j => p.getD j 0

theorem chunk_pos {off : Nat} {p : List UInt8} (hp : p ≠ []) :
    0 < min p.length ((off / bsize + 1) * bsize - off) := by
  have hlen := List.length_pos_iff.mpr hp
  simp only [bsize]
  omega

/-- The loop of `iappend`, with the bytes `p` still to be appended. -/
def iappendFrom (din : Dinode) (off : Nat) (p : List UInt8) : M (Dinode × Nat) :=
  if p = [] then pure (din, off)
  else do
    let fbn := off / bsize
    if maxfile ≤ fbn then throw .abort
    let (din, x) ← findBlock din fbn
    let n1 := min p.length ((fbn + 1) * bsize - off)
    let buf ← rsect x
    wsect x (splice buf (pointer p) (off - fbn * bsize) n1)
    iappendFrom din (off + n1) (p.drop n1)
termination_by p.length
decreasing_by
  have hpos : 0 < min p.length ((off / bsize + 1) * bsize - off) := chunk_pos ‹_›
  rw [List.length_drop]
  omega

def iappend (inum : Nat) (p : List UInt8) : M Unit := do
  let din ← rinode inum
  let (din, off) ← iappendFrom din din.size p
  winode inum { din with size := off }

/-! ### The program -/

/-- A file named on the command line, and what the host has under that name. -/
structure Input where
  path : List UInt8
  terminated : 0 ∉ path
  content : Option (List UInt8)

/-- The bytes of a `struct dirent`, with its name cut off or filled up as `strncpy` does. -/
def dirent (inum : Nat) (name : List UInt8) : List UInt8 :=
  [UInt8.ofNat inum, UInt8.ofNat (inum / 256)] ++ (name ++ List.replicate dirsiz 0).take dirsiz

def shortname (path : List UInt8) : List UInt8 :=
  if path.take 5 = [117, 115, 101, 114, 47] then path.drop 5 else path

def skip (name : List UInt8) : List UInt8 := if name.head? = some 95 then name.drop 1 else name

def copyFrom (inum : Nat) (content : List UInt8) : M Unit :=
  if content = [] then pure ()
  else do
    iappend inum (content.take bsize)
    copyFrom inum (content.drop bsize)
termination_by content.length
decreasing_by
  have hlen : 0 < content.length := List.length_pos_iff.mpr ‹_›
  simp only [List.length_drop, bsize]
  omega

def addFile (f : Input) : M Unit := do
  if 47 ∈ shortname f.path then throw .abort
  match f.content with
  | none => throw .noFile
  | some content =>
    let inum ← ialloc tFile
    iappend rootino (dirent inum (skip (shortname f.path)))
    copyFrom inum content

def superblock : Block := fun j =>
  if j < 32 then
    Bytes.ofNat ([0x10203040, fssize, fssize - nmeta, ninodes, nlog, 2, inodestart, bmapstart].getD
      (j / 4) 0) (j % 4)
  else 0

def main (files : List Input) : M Unit := do
  modify fun s => { s with freeblock := nmeta }
  forUp 1 (fun i => wsect i zeroes) fssize 0
  wsect 1 superblock
  let root ← ialloc tDir
  if root ≠ rootino then throw .abort
  iappend root (dirent root [46])
  iappend root (dirent root [46, 46])
  files.forM addFile
  let din ← rinode root
  winode root { din with size := (din.size / bsize + 1) * bsize }
  balloc (← get).freeblock

end Xv6Mmap.Mkfs
