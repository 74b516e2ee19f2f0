import Xv6Mmap.Sbrk

/-!
# The memory allocator of user programs

`malloc`, `free` and `morecore` of `user/umalloc.c`. Memory is seen as headers by their addresses: a
header is 16 bytes long, and the blocks of a heap never overlap. The address of the static header
`base` is a parameter, and so is `sbrk`, which runs on a kernel of type `κ`. The loops take a bound
on their rounds and stop with an error of their own when it is reached.
-/

namespace Xv6Mmap.Umalloc

structure Header where
  ptr : Nat
  size : Nat
  deriving DecidableEq, Repr

def headerSize : Nat := 16

structure User (κ : Type) where
  mem : Nat → Header
  freep : Nat
  kernel : κ

inductive Stop (ε : Type) where
  | loops
  | kernel (e : ε)

abbrev M (ε κ : Type) := EStateM (Stop ε) (User κ)

section Heap

variable {ε κ : Type}

def uint32 (n : Nat) : Nat := n % 0x100000000

/-- The conversion of a `uint64` to `int`. -/
def int32 (n : Nat) : Int := (n + 0x80000000) % 0x100000000 - 0x80000000

def load (a : Nat) : M ε κ Header := do
  pure ((← get).mem a)

def setPtr (a ptr : Nat) : M ε κ Unit :=
  modify fun u => { u with mem := upd u.mem a { u.mem a with ptr := ptr } }

def setSize (a size : Nat) : M ε κ Unit :=
  modify fun u => { u with mem := upd u.mem a { u.mem a with size := size } }

def setFreep (a : Nat) : M ε κ Unit := modify fun u => { u with freep := a }

def system {α : Type} (x : EStateM ε κ α) : M ε κ α := fun u =>
  match x u.kernel with
  | .ok a k => .ok a { u with kernel := k }
  | .error e k => .error (.kernel e) { u with kernel := k }

def freeFrom (bp : Nat) : Nat → Nat → M ε κ Nat
  | 0, _ => throw .loops
  | fuel + 1, p => do
    let next := (← load p).ptr
    if p < bp ∧ bp < next then
      pure p
    else if next ≤ p ∧ (p < bp ∨ bp < next) then
      pure p
    else
      freeFrom bp fuel next

/-- The first `if` of `free`: join to the block behind. -/
def joinAfter (p bp : Nat) : M ε κ Unit := do
  if bp + headerSize * (← load bp).size = (← load p).ptr then
    setSize bp (uint32 ((← load bp).size + (← load (← load p).ptr).size))
    setPtr bp (← load (← load p).ptr).ptr
  else
    setPtr bp (← load p).ptr

/-- The second `if` of `free`: join to the block before. -/
def joinBefore (p bp : Nat) : M ε κ Unit := do
  if p + headerSize * (← load p).size = bp then
    setSize p (uint32 ((← load p).size + (← load bp).size))
    setPtr p (← load bp).ptr
  else
    setPtr p bp

def free (fuel ap : Nat) : M ε κ Unit := do
  let bp := ap - headerSize
  let p ← freeFrom bp fuel (← get).freep
  joinAfter p bp
  joinBefore p bp
  setFreep p

variable (sbrk : Int → EStateM ε κ Nat)

def morecore (fuel nu : Nat) : M ε κ Nat := do
  let nu := if nu < 4096 then 4096 else nu
  let p ← system (sbrk (int32 (nu * headerSize)))
  if p = minusOne then
    pure 0
  else
    setSize p nu
    free fuel (p + headerSize)
    pure (← get).freep

/-- `nunits` as `malloc` computes it, in 64 bits because of `sizeof`. -/
def nunits (nbytes : Nat) : Nat :=
  uint32 (uint64 (nbytes + headerSize - 1) / headerSize + 1)

def take (nunits prevp p : Nat) : M ε κ Nat := do
  if (← load p).size = nunits then
    setPtr prevp (← load p).ptr
    setFreep prevp
    pure (p + headerSize)
  else
    setSize p ((← load p).size - nunits)
    let p := p + headerSize * (← load p).size
    setSize p nunits
    setFreep prevp
    pure (p + headerSize)

def mallocFrom (nunits : Nat) : Nat → Nat → Nat → M ε κ Nat
  | 0, _, _ => throw .loops
  | fuel + 1, prevp, p => do
    if nunits ≤ (← load p).size then
      take nunits prevp p
    else if p = (← get).freep then
      let p ← morecore sbrk fuel nunits
      if p = 0 then
        pure 0
      else
        mallocFrom nunits fuel p (← load p).ptr
    else
      mallocFrom nunits fuel p (← load p).ptr

def malloc (base fuel nbytes : Nat) : M ε κ Nat := do
  if (← get).freep = 0 then
    setFreep base
    setPtr base base
    setSize base 0
  let prevp := (← get).freep
  mallocFrom sbrk (nunits nbytes) fuel prevp (← load prevp).ptr

/-! ### Programs -/

/-- A program, with the pointers that it has got from `malloc` and not given back, and the numbers of
bytes that it asked for. -/
structure Program (κ : Type) where
  user : User κ
  live : List (Nat × Nat)

/-- Besides the calls of the allocator, a program writes to the memory that it has got. -/
inductive Call where
  | malloc (nbytes : Nat)
  | free (ap : Nat)
  | write (mem : Nat → Header)

/-- A header at `a` is out of reach of the program when it does not overlap the memory that the
program has got. -/
def Program.Guarded (s : Program κ) (a : Nat) : Prop :=
  ∀ r ∈ s.live, a + headerSize ≤ r.1 ∨ r.1 + r.2 ≤ a

/-- `free` is called on a pointer in use, and a program keeps to its memory. -/
def Program.Allowed (s : Program κ) : Call → Prop
  | .malloc nbytes => nbytes < 0x100000000
  | .free ap => ap ∈ s.live.map Prod.fst
  | .write mem => ∀ a, s.Guarded a → mem a = s.user.mem a

def call (base fuel : Nat) (s : Program κ) : Call → Option (Program κ)
  | .malloc nbytes =>
    match malloc sbrk base fuel nbytes s.user with
    | .ok p u => some { user := u, live := if p = 0 then s.live else s.live ++ [(p, nbytes)] }
    | .error _ _ => none
  | .free ap =>
    match (free fuel ap : M ε κ Unit) s.user with
    | .ok _ u => some { user := u, live := s.live.filter fun r => r.1 ≠ ap }
    | .error _ _ => none
  | .write mem => some { s with user := { s.user with mem := mem } }

inductive Run (base : Nat) (P : Program κ → Call → Prop) (start : Program κ) : Program κ → Prop where
  | start : Run base P start start
  | step {s t : Program κ} {c : Call} {fuel : Nat} : Run base P start s → s.Allowed c → P s c →
      call sbrk base fuel s c = some t → Run base P start t

end Heap

end Xv6Mmap.Umalloc
