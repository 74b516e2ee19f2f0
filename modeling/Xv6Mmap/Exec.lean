import Xv6Mmap.Proc

/-!
# `exec`

`kernel/exec.c`. What `exec` sees of the file system is the content of the file that the path names,
or that there is none; `readi` returns the bytes of a range of it.
-/

namespace Xv6Mmap

/-- The bytes that `readi` copies: nothing past the end of the file, and nothing when `off` lies
beyond it or the range leaves 32 bits. -/
def readi (file : List Nat) (off n : Nat) : List Nat :=
  if file.length < off ∨ 0x100000000 ≤ off + n then [] else (file.drop off).take n

def field (bytes : List Nat) (off n : Nat) : Nat := wordOfBytes ((bytes.drop off).take n)

/-! ### ELF headers -/

def elfMagic : Nat := 0x464C457F

def elfProgLoad : Nat := 1

def elfhdrSize : Nat := 64

def proghdrSize : Nat := 56

structure Proghdr where
  type : Nat
  flags : Nat
  off : Nat
  vaddr : Nat
  filesz : Nat
  memsz : Nat

def Proghdr.ofBytes (bytes : List Nat) : Proghdr :=
  { type := field bytes 0 4
    flags := field bytes 4 4
    off := field bytes 8 8
    vaddr := field bytes 16 8
    filesz := field bytes 32 8
    memsz := field bytes 40 8 }

def flags2perm (flags : Nat) : Nat :=
  (if flags &&& 1 ≠ 0 then pteX else 0) ||| (if flags &&& 2 ≠ 0 then pteW else 0)

/-! ### Loading -/

/-- The loop of `loadseg`, `n` pages from `i` up. -/
def loadsegFrom (pagetable va : Nat) (file : List Nat) (offset sz : Nat) : Nat → Nat → K Int
  | 0, _ => pure 0
  | rounds + 1, i => do
    let pa ← walkaddr pagetable (uint64 (va + i))
    if pa = 0 then panic .loadseg
    let n := min (sz - i) pgsize
    let bytes := readi file ((offset + i) % 0x100000000) n
    storeBytes pa bytes
    if bytes.length ≠ n then
      pure (-1)
    else
      loadsegFrom pagetable va file offset sz rounds (i + pgsize)

def loadseg (pagetable va : Nat) (file : List Nat) (offset sz : Nat) : K Int :=
  loadsegFrom pagetable va file offset sz (pageCount pgsize sz) 0

/-- The outcome of a phase of `exec`: what the next one needs, or `goto bad` with the value that
the local variable `sz` has then. -/
inductive Phase (α : Type) where
  | next (value : α)
  | bad (sz : Nat)
deriving DecidableEq

/-- The program headers, `n` of them from offset `off` up. Returns the size of the image. -/
def execLoad (pagetable : Nat) (file : List Nat) : Nat → Nat → Nat → K (Phase Nat)
  | 0, _, sz => pure (.next sz)
  | n + 1, off, sz => do
    let bytes := readi file off proghdrSize
    if bytes.length ≠ proghdrSize then
      pure (.bad sz)
    else
      let ph := Proghdr.ofBytes bytes
      let off := (off + proghdrSize) % 0x100000000
      if ph.type ≠ elfProgLoad then
        execLoad pagetable file n off sz
      else if ph.memsz < ph.filesz ∨ uint64 (ph.vaddr + ph.memsz) < ph.vaddr ∨
          ph.vaddr % pgsize ≠ 0 then
        pure (.bad sz)
      else
        let sz1 ← uvmalloc pagetable sz (uint64 (ph.vaddr + ph.memsz)) (flags2perm ph.flags)
        if sz1 = 0 then
          pure (.bad sz)
        else
          let r ← loadseg pagetable ph.vaddr file (ph.off % 0x100000000) (ph.filesz % 0x100000000)
          if r < 0 then pure (.bad sz1) else execLoad pagetable file n off sz1

/-- The loop that pushes the argument strings. Returns the stack pointer and the pointers. -/
def execArgs (pagetable sz stackbase : Nat) :
    List (List Nat) → Nat → List Nat → K (Phase (Nat × List Nat))
  | [], sp, ustack => pure (.next (sp, ustack))
  | arg :: argv, sp, ustack => do
    if maxarg ≤ ustack.length then
      pure (.bad sz)
    else
      let sp := uint64 (sp + 0x10000000000000000 - (arg.length + 1))
      let sp := sp - sp % 16
      if sp < stackbase then
        pure (.bad sz)
      else
        let r ← copyout pagetable sp (arg ++ [0])
        if r < 0 then pure (.bad sz) else execArgs pagetable sz stackbase argv sp (ustack ++ [sp])

def bytesOfWord : Nat → Nat → List Nat
  | 0, _ => []
  | n + 1, w => w % 256 :: bytesOfWord n (w / 256)

/-- The stack: two pages, the lower one a guard; then the arguments and the array of pointers.
Returns the new size and the stack pointer. -/
def execStack (pagetable sz : Nat) (argv : List (List Nat)) : K (Phase (Nat × Nat)) := do
  let sz := pgroundup sz
  let sz1 ← uvmalloc pagetable sz (sz + 2 * pgsize) pteW
  if sz1 = 0 then
    pure (.bad sz)
  else
    let sz := sz1
    uvmclear pagetable (sz - 2 * pgsize)
    let stackbase := sz - pgsize
    match ← execArgs pagetable sz stackbase argv sz [] with
    | .bad sz => pure (.bad sz)
    | .next (sp, ustack) =>
      let ustack := ustack ++ [0]
      let sp := uint64 (sp + 0x10000000000000000 - 8 * ustack.length)
      let sp := sp - sp % 16
      if sp < stackbase then
        pure (.bad sz)
      else
        let r ← copyout pagetable sp (ustack.flatMap (bytesOfWord 8))
        if r < 0 then pure (.bad sz) else pure (.next (sz, sp))

def execImage (pagetable : Nat) (file : List Nat) (argv : List (List Nat)) :
    K (Phase (Nat × Nat)) := do
  let phoff := field file 32 8 % 0x100000000
  let phnum := field file 56 2
  match ← execLoad pagetable file phnum phoff 0 with
  | .bad sz => pure (.bad sz)
  | .next sz => execStack pagetable sz argv

/-- `file` is what `namei(path)` finds. -/
def exec (p : Nat) (file : Option (List Nat)) (argv : List (List Nat)) : K Int := do
  match file with
  | none => pure (-1)
  | some file =>
    if (readi file 0 elfhdrSize).length ≠ elfhdrSize then
      pure (-1)
    else if field file 0 4 ≠ elfMagic then
      pure (-1)
    else
      let pagetable ← procPagetable p
      if pagetable = 0 then
        pure (-1)
      else
        match ← execImage pagetable file argv with
        | .bad sz =>
          procFreepagetable pagetable sz p
          pure (-1)
        | .next (sz, sp) =>
          let proc ← getProc p
          storeWord (proc.trapframe + tfA1) sp
          modifyProc p fun proc => { proc with pagetable := pagetable, sz := sz }
          storeWord (proc.trapframe + tfEpc) (field file 24 8)
          storeWord (proc.trapframe + tfSp) sp
          procFreepagetable proc.pagetable proc.sz p
          pure argv.length

end Xv6Mmap
