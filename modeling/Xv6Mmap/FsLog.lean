import Xv6Mmap.Fs

/-!
# Writing through the log

The part of `kernel/fs.c` that `writei` uses, with its calls of `log_write`. The file system as it is in
the buffer cache comes together with the block numbers that the running transaction has recorded in the
header of the log; what is on the disk does not change before the transaction commits. That the log may
have no room for one more block is the subject of the module on the log.
-/

namespace Xv6Mmap.Fs

def bpb : Nat := bsize * 8

def ipb : Nat := 16

inductive Block where
  | bitmap (k : Nat)
  | inode (k : Nat)
  | data (b : Nat)
  deriving DecidableEq, Repr

/-- The file system in the buffer cache, and `log.lh.block`. -/
structure Tx where
  fs : State
  header : List Block

abbrev B := EStateM Stop Tx

namespace Tx

def lift {α : Type} (x : F α) : B α := fun c =>
  match x c.fs with
  | .ok a s => .ok a { c with fs := s }
  | .error e s => .error e { c with fs := s }

/-- The header with a block more: one that it has already is absorbed. -/
def record (header : List Block) (blk : Block) : List Block :=
  if blk ∈ header then header else header ++ [blk]

def logWrite (blk : Block) : B Unit := fun c => .ok () { c with header := record c.header blk }

def bzero (b : Nat) : B Unit := do
  lift (Fs.bzero b)
  logWrite (.data b)

def balloc : B Nat := do
  let c ← get
  match (List.range c.fs.sb.size).find? fun b => !c.fs.bitmap b with
  | some b =>
    lift (modify fun s => { s with bitmap := upd s.bitmap b true })
    logWrite (.bitmap (b / bpb))
    bzero b
    pure b
  | none => pure 0

def bmapSlot (ip k : Nat) : B Nat := do
  let node ← lift (getInode ip)
  if node.copy.addrs k = 0 then
    let addr ← balloc
    if addr = 0 then
      pure 0
    else
      lift (modifyCopy ip fun copy => { copy with addrs := upd copy.addrs k addr })
      pure addr
  else
    pure (node.copy.addrs k)

def bmapIndirect (addr j : Nat) : B Nat := do
  let block ← lift (readBlock addr)
  if word block j = 0 then
    let fresh ← balloc
    if fresh ≠ 0 then
      lift (modifyBlock addr fun block => setWord block j fresh)
      logWrite (.data addr)
    pure fresh
  else
    pure (word block j)

def bmap (ip bn : Nat) : B Nat := do
  if bn < ndirect then
    bmapSlot ip bn
  else
    let bn := bn - ndirect
    if bn < nindirect then
      let addr ← bmapSlot ip ndirect
      if addr = 0 then pure 0 else bmapIndirect addr bn
    else
      lift (stop .bmapOutOfRange)

def iupdate (ip : Nat) : B Unit := do
  let node ← lift (getInode ip)
  lift (Fs.iupdate ip)
  logWrite (.inode (node.inum / ipb))

/-- The loop of `writei`: a block is recorded when all its bytes have been copied. -/
def writeiFrom (ip : Nat) (src : Nat → Option Nat) (n : Nat) : Nat → Nat → Nat → B Nat
  | 0, tot, _ => pure tot
  | rounds + 1, tot, off =>
    if tot < n then do
      let addr ← bmap ip (off / bsize)
      if addr = 0 then
        pure tot
      else
        let m := min (n - tot) (bsize - off % bsize)
        let c := copied src tot m
        lift (modifyBlock addr fun block =>
          setBytes block (off % bsize) c fun k => (src (tot + k)).getD 0)
        if c < m then
          pure tot
        else
          logWrite (.data addr)
          writeiFrom ip src n rounds (tot + m) (off + m)
    else
      pure tot

def writei (ip : Nat) (src : Nat → Option Nat) (off n : Nat) : B Int := do
  let node ← lift (getInode ip)
  if node.copy.size < off ∨ 0x100000000 ≤ off + n then
    pure (-1)
  else if maxfile * bsize < off + n then
    pure (-1)
  else
    let tot ← writeiFrom ip src n n 0 off
    let node ← lift (getInode ip)
    if node.copy.size < off + tot then
      lift (modifyCopy ip fun copy => { copy with size := off + tot })
    iupdate ip
    pure tot

end Tx

end Xv6Mmap.Fs
