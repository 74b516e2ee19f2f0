import Mathlib.Algebra.Order.BigOperators.Group.Finset
import Xv6Mmap.Lib.Wp
import Xv6Mmap.Mkfs

/-!
# The blocks that mkfs hands out

The blocks of an inode are numbered by slots: the direct ones, the indirect block, and those that the
indirect block names. `iappend` takes the slots of an inode one after the other, each with the next free
block, so that no block is taken twice and a block nobody has taken is still zero.
-/

namespace Xv6Mmap.Mkfs

open Sequential Fs Bytes
open Finset (range)

/-! ### Sectors -/

section Sectors

variable {α : Type} {s : State} {sec : Nat} {Q : Block → State → Prop} {E : Exit → State → Prop}

theorem seek_eq (hsec : sec ≤ 2 * fssize) : seek sec = sec := by
  have hlt : sec * bsize < 0x100000000 := by
    simp only [fssize, bsize] at hsec ⊢
    omega
  rw [seek, Nat.mod_eq_of_lt hlt, Nat.mul_div_cancel _ (by decide)]

theorem rsect_wp (hsectors : s.sectors = fssize) (hsec : sec ≤ 2 * fssize)
    (hread : sec < fssize → Q (s.block sec) s) (hend : fssize ≤ sec → E .read s) :
    Wp (rsect sec) Q E s := by
  refine .get ?_
  rw [seek_eq hsec, hsectors]
  exact .ite (fun hlt => .pure (hread hlt)) fun hge => .of_error rfl (hend (Nat.le_of_not_lt hge))

theorem wsect_wp {Q : Unit → State → Prop} (hsectors : s.sectors = fssize) (hsec : sec < fssize)
    {buf : Block} (hwrite : Q () { s with block := upd s.block sec buf }) :
    Wp (wsect sec buf) Q E s := by
  refine .of_ok rfl ?_
  have hmax : max s.sectors (seek sec + 1) = s.sectors := by
    rw [seek_eq (by omega), hsectors]
    omega
  dsimp only
  rw [hmax, seek_eq (by omega)]
  exact hwrite

end Sectors

/-! ### Inodes -/

section Inodes

variable {d : Dinode} {p : Block} {off i j : Nat} {s : State} {E : Exit → State → Prop}

def inodeRoom : Nat := ninodeblocks * ipb

def Dinode.empty : Dinode := { type := 0, major := 0, minor := 0, nlink := 0, size := 0, addrs := fun _ => 0 }

structure Dinode.Fits (d : Dinode) : Prop where
  type : d.type < 256 ^ 2
  major : d.major < 256 ^ 2
  minor : d.minor < 256 ^ 2
  nlink : d.nlink < 256 ^ 2
  size : d.size < 256 ^ 4
  addrs : ∀ k, d.addrs k < 256 ^ 4
  beyond : ∀ k, ndirect < k → d.addrs k = 0

theorem ofBytes_fits (p : Block) (off : Nat) : (Dinode.ofBytes p off).Fits where
  type := get_lt _ _ _
  major := get_lt _ _ _
  minor := get_lt _ _ _
  nlink := get_lt _ _ _
  size := get_lt _ _ _
  addrs := fun k => by
    simp only [Dinode.ofBytes]
    split
    · exact get_lt _ _ _
    · decide
  beyond := fun k hk => if_neg (by omega)

theorem bytes_addr (d : Dinode) (k o : Nat) (ho : o < 4) :
    d.bytes (12 + 4 * k + o) = ofNat (d.addrs k) o := by
  have hdiv : (12 + 4 * k + o - 12) / 4 = k := by omega
  have hmod : (12 + 4 * k + o - 12) % 4 = o := by omega
  rw [Dinode.bytes, if_neg (by omega), if_neg (by omega), if_neg (by omega), if_neg (by omega),
    if_neg (by omega), hdiv, hmod]

theorem get_bytes (p : Block) {a w v : Nat} (ha : a + w ≤ dinodeSize) (hv : v < 256 ^ w)
    (hbytes : ∀ o < w, d.bytes (a + o) = ofNat v o) :
    get (splice p d.bytes off dinodeSize) (off + a) w = v := by
  rw [get_splice_in d.bytes p ha, get_shift hbytes, get_ofNat, Nat.mod_eq_of_lt hv]

theorem ofBytes_splice (hd : d.Fits) (p : Block) (off : Nat) :
    Dinode.ofBytes (splice p d.bytes off dinodeSize) off = d := by
  have htype : get (splice p d.bytes off dinodeSize) (off + 0) 2 = d.type :=
    get_bytes p (by decide) hd.type fun o ho => by
      rw [Dinode.bytes, if_pos (by omega), Nat.zero_add]
  have hmajor : get (splice p d.bytes off dinodeSize) (off + 2) 2 = d.major :=
    get_bytes p (by decide) hd.major fun o ho => by
      rw [Dinode.bytes, if_neg (by omega), if_pos (by omega), Nat.add_sub_cancel_left]
  have hminor : get (splice p d.bytes off dinodeSize) (off + 4) 2 = d.minor :=
    get_bytes p (by decide) hd.minor fun o ho => by
      rw [Dinode.bytes, if_neg (by omega), if_neg (by omega), if_pos (by omega),
        Nat.add_sub_cancel_left]
  have hnlink : get (splice p d.bytes off dinodeSize) (off + 6) 2 = d.nlink :=
    get_bytes p (by decide) hd.nlink fun o ho => by
      rw [Dinode.bytes, if_neg (by omega), if_neg (by omega), if_neg (by omega), if_pos (by omega),
        Nat.add_sub_cancel_left]
  have hsize : get (splice p d.bytes off dinodeSize) (off + 8) 4 = d.size :=
    get_bytes p (by decide) hd.size fun o ho => by
      rw [Dinode.bytes, if_neg (by omega), if_neg (by omega), if_neg (by omega), if_neg (by omega),
        if_pos (by omega), Nat.add_sub_cancel_left]
  have haddrs : (fun k => if k ≤ ndirect then
      get (splice p d.bytes off dinodeSize) (off + (12 + 4 * k)) 4 else 0) = d.addrs := by
    funext k
    by_cases hk : k ≤ ndirect
    · rw [if_pos hk]
      refine get_bytes p ?_ (hd.addrs k) fun o ho => bytes_addr d k o ho
      simp only [ndirect, dinodeSize] at hk ⊢
      omega
    · rw [if_neg hk, hd.beyond k (by omega)]
  rw [Dinode.ofBytes]
  rw [Nat.add_zero] at htype
  rw [htype, hmajor, hminor, hnlink, hsize, haddrs]

theorem ofBytes_congr {q : Block} (hpq : ∀ j, off ≤ j → j < off + dinodeSize → p j = q j) :
    Dinode.ofBytes p off = Dinode.ofBytes q off := by
  have hget : ∀ a w, a + w ≤ dinodeSize → get p (off + a) w = get q (off + a) w := fun a w ha =>
    get_congr fun j hj hlt => hpq j (by omega) (by omega)
  have haddrs : (fun k => if k ≤ ndirect then get p (off + (12 + 4 * k)) 4 else 0) =
      fun k => if k ≤ ndirect then get q (off + (12 + 4 * k)) 4 else 0 := by
    funext k
    split
    · next hk =>
      refine hget _ _ ?_
      simp only [ndirect, dinodeSize] at hk ⊢
      omega
    · rfl
  have htype := hget 0 2 (by decide)
  rw [Nat.add_zero] at htype
  rw [Dinode.ofBytes, Dinode.ofBytes, haddrs, htype, hget 2 2 (by decide), hget 4 2 (by decide),
    hget 6 2 (by decide), hget 8 4 (by decide)]

def State.ino (s : State) (i : Nat) : Dinode :=
  if i < inodeRoom then .ofBytes (s.block (iblock i)) (i % ipb * dinodeSize) else .empty

theorem iblock_lt (hi : i < inodeRoom) : iblock i < bmapstart := by
  simp only [iblock, inodeRoom, bmapstart, inodestart, ninodeblocks, ninodes, ipb, nlog] at hi ⊢
  omega

theorem ino_congr {t : State} (hblock : ∀ b < bmapstart, t.block b = s.block b) : t.ino = s.ino := by
  funext i
  unfold State.ino
  split
  · next hi => rw [hblock _ (iblock_lt hi)]
  · rfl

theorem ino_fits (s : State) (i : Nat) : (s.ino i).Fits := by
  unfold State.ino
  split
  · exact ofBytes_fits _ _
  · exact ⟨by decide, by decide, by decide, by decide, by decide, fun _ => show 0 < _ by decide, fun _ _ => rfl⟩

theorem ino_write {t : State} (hi : i < inodeRoom) (hd : d.Fits)
    (ht : t.block = upd s.block (iblock i)
      (splice (s.block (iblock i)) d.bytes (i % ipb * dinodeSize) dinodeSize)) :
    t.ino = upd s.ino i d := by
  funext j
  by_cases hj : j = i
  · subst hj
    rw [upd_self, State.ino, if_pos hi, ht, upd_self]
    exact ofBytes_splice hd _ _
  · rw [upd_of_ne _ _ hj]
    unfold State.ino
    split
    · rw [ht]
      by_cases hb : iblock j = iblock i
      · rw [hb, upd_self]
        refine ofBytes_congr fun k hk hlt => splice_out _ _ ?_
        have hmod : j % ipb ≠ i % ipb := fun hmod => hj (by
          simp only [iblock, ipb] at hb hmod
          omega)
        simp only [dinodeSize] at hk hlt ⊢
        omega
      · rw [upd_of_ne _ _ hb]
    · rfl

theorem rinode_wp {Q : Dinode → State → Prop} (hsectors : s.sectors = fssize) (hi : i < inodeRoom)
    (hread : Q (s.ino i) s) : Wp (rinode i) Q E s := by
  have hlt : iblock i < fssize := (iblock_lt hi).trans (by decide)
  refine .bind (rsect_wp hsectors (by omega) (fun _ => .pure ?_) fun hge => absurd hge hlt.not_ge)
  rwa [State.ino, if_pos hi] at hread

structure Stored (s : State) (i : Nat) (d : Dinode) (t : State) : Prop where
  eq : t = { s with block := t.block }
  ino : t.ino = upd s.ino i d
  block : ∀ b, b < inodestart ∨ bmapstart ≤ b → t.block b = s.block b

theorem winode_wp (hsectors : s.sectors = fssize) (hi : i < inodeRoom) (hd : d.Fits) :
    Wp (winode i d) (fun _ t => Stored s i d t) E s := by
  have hb := iblock_lt hi
  have hlow : inodestart ≤ iblock i := Nat.le_add_left _ _
  have hlt : iblock i < fssize := hb.trans (by decide)
  refine .bind (rsect_wp hsectors (by omega) (fun _ => wsect_wp hsectors hlt ?_)
    fun hge => absurd hge hlt.not_ge)
  exact ⟨rfl, ino_write hi hd rfl, fun b hle => upd_of_ne _ _ (by omega)⟩

def Dinode.head (d : Dinode) : Nat × Nat × Nat × Nat := (d.type, d.major, d.minor, d.nlink)

end Inodes

/-! ### Slots -/

section Slots

variable {ino ino' : Nat → Dinode} {block block' : Nat → Block} {m : Nat → Nat} {c : Nat → List UInt8}
  {i k fb bn : Nat}

def entry (block : Nat → Block) (a k : Nat) : Nat :=
  if a ≠ 0 ∧ k ≤ maxfile then get (block a) (4 * (k - (ndirect + 1))) 4 else 0

/-- The block in a slot, or 0. Slot `ndirect` is the indirect block, and the slots after it are its
entries. -/
def Dinode.addr (d : Dinode) (block : Nat → Block) (k : Nat) : Nat :=
  if k ≤ ndirect then d.addrs k else entry block (d.addrs ndirect) k

def slotOf (bn : Nat) : Nat := if bn < ndirect then bn else bn + 1

theorem slotOf_ne (bn : Nat) : slotOf bn ≠ ndirect := by
  unfold slotOf
  split <;> omega

theorem slotOf_injective {bn bn' : Nat} (heq : slotOf bn = slotOf bn') : bn = bn' := by
  unfold slotOf at heq
  split at heq <;> split at heq <;> omega

theorem addr_direct (hk : k ≤ ndirect) (d : Dinode) : d.addr block k = d.addrs k := if_pos hk

theorem addr_indirect (hk : ¬ k ≤ ndirect) (d : Dinode) :
    d.addr block k = entry block (d.addrs ndirect) k := if_neg hk

theorem entry_zero (block : Nat → Block) (k : Nat) : entry block 0 k = 0 := if_neg fun h => h.1 rfl

theorem entry_fresh {a : Nat} (hfresh : ∀ j, block a j = 0) (k : Nat) : entry block a k = 0 := by
  unfold entry
  split
  · exact get_zero fun j _ _ => hfresh j
  · rfl

theorem entry_upd {a b : Nat} (hne : a ≠ 0 → a ≠ b) (buf : Block) (k : Nat) :
    entry (upd block b buf) a k = entry block a k := by
  by_cases ha : a = 0
  · rw [ha, entry_zero, entry_zero]
  · rw [entry, entry, upd_of_ne _ _ (hne ha)]

/-- Each inode has its first `m i` slots, no block is in two of them, and the blocks from `fb` on have
not been used. -/
structure Slots (ino : Nat → Dinode) (block : Nat → Block) (m : Nat → Nat) (fb : Nat) : Prop where
  used : ∀ i k, (ino i).addr block k ≠ 0 ↔ k < m i
  bound : ∀ i k, k < m i → nmeta ≤ (ino i).addr block k ∧ (ino i).addr block k < fb
  unique : ∀ i k i' k', k < m i → k' < m i' → (ino i).addr block k = (ino i').addr block k' →
    i = i' ∧ k = k'
  fresh : ∀ b, fb ≤ b → ∀ j, block b j = 0

/-- The blocks of the files hold what the files contain, and zeroes after that. -/
def Content (ino : Nat → Dinode) (block : Nat → Block) (m : Nat → Nat) (c : Nat → List UInt8) : Prop :=
  ∀ i bn, slotOf bn < m i → ∀ j < bsize,
    block ((ino i).addr block (slotOf bn)) j = (c i).getD (bn * bsize + j) 0

theorem Slots.take (hs : Slots ino block m fb) (hfb : nmeta ≤ fb) (hk : k = m i)
    (haddr : ∀ i' k', (ino' i').addr block' k' =
      if i' = i ∧ k' = k then fb else (ino i').addr block k')
    (hfresh : ∀ b, fb ≤ b → block' b = block b) :
    Slots ino' block' (upd m i (k + 1)) (fb + 1) := by
  have hpos : fb ≠ 0 := by
    have : 0 < nmeta := by decide
    omega
  have hm : ∀ i' k', k' < upd m i (k + 1) i' ↔ (i' = i ∧ k' = k) ∨ k' < m i' := fun i' k' => by
    by_cases hi : i' = i
    · subst hi
      rw [upd_self]
      omega
    · rw [upd_of_ne _ _ hi]
      omega
  have hnew : ∀ i' k', k' < m i' → ¬ (i' = i ∧ k' = k) := fun i' k' hlt ⟨hi, hk'⟩ => by
    rw [hi] at hlt
    omega
  refine ⟨fun i' k' => ?_, fun i' k' hlt => ?_, fun i1 k1 i2 k2 h1 h2 heq => ?_, fun b hb j => ?_⟩
  · rw [haddr, hm]
    split
    · next heq => simp [hpos, heq]
    · next hne => simpa [hne] using hs.used i' k'
  · rw [haddr]
    rcases (hm i' k').mp hlt with heq | hold
    · rw [if_pos heq]
      exact ⟨hfb, by omega⟩
    · rw [if_neg (hnew i' k' hold)]
      have hbound := hs.bound i' k' hold
      exact ⟨hbound.1, by omega⟩
  · rw [haddr, haddr] at heq
    rcases (hm i1 k1).mp h1 with h1 | h1 <;> rcases (hm i2 k2).mp h2 with h2 | h2
    · exact ⟨h1.1.trans h2.1.symm, h1.2.trans h2.2.symm⟩
    · rw [if_pos h1, if_neg (hnew i2 k2 h2)] at heq
      have hbound := hs.bound i2 k2 h2
      omega
    · rw [if_neg (hnew i1 k1 h1), if_pos h2] at heq
      have hbound := hs.bound i1 k1 h1
      omega
    · rw [if_neg (hnew i1 k1 h1), if_neg (hnew i2 k2 h2)] at heq
      exact hs.unique i1 k1 i2 k2 h1 h2 heq
  · rw [hfresh b (by omega)]
    exact hs.fresh b (by omega) j

theorem Content.take (hc : Content ino block m c) (hs : Slots ino block m fb) (hk : k = m i)
    (haddr : ∀ i' k', (ino' i').addr block' k' =
      if i' = i ∧ k' = k then fb else (ino i').addr block k')
    (hblock : ∀ i' bn, slotOf bn < m i' →
      block' ((ino i').addr block (slotOf bn)) = block ((ino i').addr block (slotOf bn)))
    (hfresh : block' fb = block fb)
    (hnew : ∀ bn, slotOf bn = k → (c i).length ≤ bn * bsize) :
    Content ino' block' (upd m i (k + 1)) c := by
  intro i' bn hlt j hj
  rw [haddr]
  split
  · next heq =>
    obtain ⟨rfl, hbn⟩ := heq
    have hlen := hnew bn hbn
    rw [hfresh, hs.fresh fb le_rfl, List.getD_eq_default _ _ (by omega)]
  · next hne =>
    have hold : slotOf bn < m i' := by
      by_cases hi : i' = i
      · subst hi
        rw [upd_self] at hlt
        have hbn : slotOf bn ≠ k := fun h => hne ⟨rfl, h⟩
        omega
      · rwa [upd_of_ne _ _ hi] at hlt
    rw [hblock i' bn hold]
    exact hc i' bn hold j hj

theorem addr_direct_upd {d : Dinode} {v : Nat} (hk : k ≤ ndirect)
    (hindirect : k = ndirect → d.addrs ndirect = 0 ∧ ∀ j, block v j = 0) (k' : Nat) :
    ({ d with addrs := upd d.addrs k v } : Dinode).addr block k' =
      if k' = k then v else d.addr block k' := by
  by_cases hk' : k' ≤ ndirect
  · rw [addr_direct hk', addr_direct hk']
    rfl
  · rw [if_neg (by omega), addr_indirect hk', addr_indirect hk']
    dsimp only
    by_cases hkn : k = ndirect
    · obtain ⟨hzero, hfresh⟩ := hindirect hkn
      rw [hzero, entry_zero, hkn, upd_self, entry_fresh hfresh]
    · rw [upd_of_ne _ _ (Ne.symm hkn)]

theorem Slots.addrs_ndirect (hs : Slots ino block m fb) (i : Nat) :
    (ino i).addrs ndirect ≠ 0 ↔ ndirect < m i := by
  rw [← hs.used i ndirect, addr_direct le_rfl]

theorem Slots.addrs_ndirect_ne (hs : Slots ino block m fb) (i' : Nat) (hk : k < m i)
    (hne : i' ≠ i ∨ ndirect ≠ k) (hpos : (ino i').addrs ndirect ≠ 0) :
    (ino i').addrs ndirect ≠ (ino i).addr block k := fun heq => by
  have hlt := (hs.addrs_ndirect i').mp hpos
  rw [← addr_direct le_rfl] at heq
  obtain ⟨hi, hslot⟩ := hs.unique i' ndirect i k hlt hk heq
  exact hne.elim (fun h => h hi) fun h => h hslot

theorem Slots.addr_indirect_upd (hs : Slots ino block m fb) {v : Nat} (hi : ndirect < m i)
    (hlow : ndirect < k) (hv : v < 256 ^ 4) (hhigh : k ≤ maxfile) (i' k' : Nat) :
    (ino i').addr (upd block ((ino i).addrs ndirect)
      (splice (block ((ino i).addrs ndirect)) (ofNat v) (4 * (k - (ndirect + 1))) 4)) k' =
      if i' = i ∧ k' = k then v else (ino i').addr block k' := by
  by_cases hk' : k' ≤ ndirect
  · rw [addr_direct hk', addr_direct hk', if_neg (by omega)]
  · rw [addr_indirect hk', addr_indirect hk']
    by_cases hi' : i' = i
    · subst hi'
      by_cases heq : k' = k
      · subst heq
        rw [entry, if_pos ⟨(hs.addrs_ndirect i').mpr hi, hhigh⟩, if_pos ⟨rfl, rfl⟩, upd_self,
          get_splice_ofNat _ hv]
      · rw [if_neg (show ¬ (i' = i' ∧ k' = k) from fun h => heq h.2), entry, entry, upd_self,
          get_splice_out (ofNat v) _ (by omega)]
    · rw [if_neg (show ¬ (i' = i ∧ k' = k) from fun h => hi' h.1)]
      refine entry_upd (fun hpos => ?_) _ _
      have hne := hs.addrs_ndirect_ne i' hi (.inl hi') hpos
      rwa [addr_direct le_rfl] at hne

theorem Slots.addr_data_upd (hs : Slots ino block m fb) (hbn : slotOf bn < m i) (buf : Block)
    (i' k' : Nat) :
    (ino i').addr (upd block ((ino i).addr block (slotOf bn)) buf) k' = (ino i').addr block k' := by
  by_cases hk' : k' ≤ ndirect
  · rw [addr_direct hk', addr_direct hk']
  · rw [addr_indirect hk', addr_indirect hk']
    exact entry_upd (hs.addrs_ndirect_ne i' hbn (.inr (slotOf_ne bn).symm)) _ _

theorem Slots.write (hs : Slots ino block m fb) (hbn : slotOf bn < m i) (buf : Block) :
    Slots ino (upd block ((ino i).addr block (slotOf bn)) buf) m fb := by
  have haddr := hs.addr_data_upd hbn buf
  refine ⟨fun i' k' => ?_, fun i' k' hlt => ?_, fun i1 k1 i2 k2 h1 h2 heq => ?_, fun b hb j => ?_⟩
  · rw [haddr]
    exact hs.used i' k'
  · rw [haddr]
    exact hs.bound i' k' hlt
  · rw [haddr, haddr] at heq
    exact hs.unique i1 k1 i2 k2 h1 h2 heq
  · have hbound := (hs.bound i _ hbn).2
    rw [upd_of_ne _ _ (by omega)]
    exact hs.fresh b hb j

theorem Slots.addr_congr (hs : Slots ino block m fb) (haddrs : ∀ i, (ino' i).addrs = (ino i).addrs)
    (hblock : ∀ b, nmeta ≤ b → block' b = block b) (i k : Nat) :
    (ino' i).addr block' k = (ino i).addr block k := by
  by_cases hk : k ≤ ndirect
  · rw [addr_direct hk, addr_direct hk, haddrs]
  · rw [addr_indirect hk, addr_indirect hk, haddrs]
    by_cases hpos : (ino i).addrs ndirect = 0
    · rw [hpos, entry_zero, entry_zero]
    · have hbound := (hs.bound i ndirect ((hs.addrs_ndirect i).mp hpos)).1
      rw [addr_direct le_rfl] at hbound
      rw [entry, entry, hblock _ hbound]

theorem Slots.congr (hs : Slots ino block m fb) (haddrs : ∀ i, (ino' i).addrs = (ino i).addrs)
    (hblock : ∀ b, nmeta ≤ b → block' b = block b) (hfb : nmeta ≤ fb) : Slots ino' block' m fb := by
  have haddr := hs.addr_congr haddrs hblock
  refine ⟨fun i k => ?_, fun i k hlt => ?_, fun i1 k1 i2 k2 h1 h2 heq => ?_, fun b hb j => ?_⟩
  · rw [haddr]
    exact hs.used i k
  · rw [haddr]
    exact hs.bound i k hlt
  · rw [haddr, haddr] at heq
    exact hs.unique i1 k1 i2 k2 h1 h2 heq
  · rw [hblock b (hfb.trans hb)]
    exact hs.fresh b hb j

theorem Content.congr (hc : Content ino block m c) (hs : Slots ino block m fb)
    (haddrs : ∀ i, (ino' i).addrs = (ino i).addrs) (hblock : ∀ b, nmeta ≤ b → block' b = block b) :
    Content ino' block' m c := fun i bn hlt j hj => by
  rw [hs.addr_congr haddrs hblock, hblock _ (hs.bound i _ hlt).1]
  exact hc i bn hlt j hj

theorem Content.write (hc : Content ino block m c) (hs : Slots ino block m fb)
    (hm : m i = slotOf bn + 1) {p : List UInt8} {o n1 : Nat}
    (hoff : (c i).length = bn * bsize + o) (hn1 : n1 ≤ p.length) :
    Content ino (upd block ((ino i).addr block (slotOf bn))
      (splice (block ((ino i).addr block (slotOf bn))) (pointer p) o n1)) m
      (upd c i (c i ++ p.take n1)) := by
  have hbn : slotOf bn < m i := by omega
  intro i' bn' hlt j hj
  rw [hs.addr_data_upd hbn]
  by_cases heq : i' = i ∧ bn' = bn
  · obtain ⟨rfl, rfl⟩ := heq
    have hold := hc i' bn' hbn j hj
    rw [upd_self, upd_self]
    rcases Nat.lt_or_ge j o with hlow | hlow
    · rw [splice_out _ _ (.inl hlow), hold, List.getD_append _ _ _ _ (by omega)]
    · rw [List.getD_append_right _ _ _ _ (by omega)]
      have hidx : bn' * bsize + j - (c i').length = j - o := by omega
      rw [hidx]
      rcases Nat.lt_or_ge j (o + n1) with hhigh | hhigh
      · obtain ⟨a, rfl⟩ := Nat.exists_eq_add_of_le hlow
        rw [splice_in _ _ (by omega), Nat.add_sub_cancel_left, pointer]
        simp only [List.getD_eq_getElem?_getD, List.getElem?_take_of_lt (show a < n1 by omega)]
      · rw [splice_out _ _ (.inr hhigh), hold, List.getD_eq_default _ _ (by omega),
          List.getD_eq_default _ _ (by rw [List.length_take]; omega)]
  · have hne : (ino i').addr block (slotOf bn') ≠ (ino i).addr block (slotOf bn) := fun h => by
      obtain ⟨hi, hslot⟩ := hs.unique i' _ i _ hlt hbn h
      exact heq ⟨hi, slotOf_injective hslot⟩
    rw [upd_of_ne _ _ hne, hc i' bn' hlt j hj]
    by_cases hi : i' = i
    · subst hi
      have hbn' : bn' < bn := by
        have hne : bn' ≠ bn := fun h => heq ⟨rfl, h⟩
        have hle : slotOf bn' ≤ slotOf bn := by omega
        unfold slotOf at hle
        split at hle <;> split at hle <;> omega
      rw [upd_self, List.getD_append]
      calc bn' * bsize + j < bn' * bsize + bsize := by omega
        _ = (bn' + 1) * bsize := by ring
        _ ≤ bn * bsize := Nat.mul_le_mul_right _ hbn'
        _ ≤ (c i').length := by omega
    · rw [upd_of_ne _ _ hi]

end Slots

/-! ### The number of slots -/

section Need

def need (len : Nat) : Nat :=
  if (len + bsize - 1) / bsize ≤ ndirect then (len + bsize - 1) / bsize
  else (len + bsize - 1) / bsize + 1

theorem need_mono {len len' : Nat} (hle : len ≤ len') : need len ≤ need len' := by
  have hdiv : (len + bsize - 1) / bsize ≤ (len' + bsize - 1) / bsize :=
    Nat.div_le_div_right (by omega)
  unfold need
  split <;> split <;> omega

theorem need_eq {len bn : Nat} (hlow : bn * bsize < len) (hhigh : len ≤ (bn + 1) * bsize) :
    need len = slotOf bn + 1 := by
  have hdiv : (len + bsize - 1) / bsize = bn + 1 := by
    simp only [bsize] at hlow hhigh ⊢
    omega
  rw [need, hdiv, slotOf]
  split <;> split <;> omega

theorem need_full (bn : Nat) : need (bn * bsize) = if bn ≤ ndirect then bn else bn + 1 := by
  have hdiv : (bn * bsize + bsize - 1) / bsize = bn := by
    simp only [bsize]
    omega
  rw [need, hdiv]

theorem slotOf_lt_need {len bn : Nat} : slotOf bn < need len ↔ bn * bsize < len := by
  have hdiv : bn < (len + bsize - 1) / bsize ↔ bn * bsize < len := by
    simp only [bsize]
    omega
  rw [← hdiv, need, slotOf]
  split <;> split <;> omega

def total (m : Nat → Nat) : Nat := ∑ i ∈ range inodeRoom, m i

theorem total_upd (m : Nat → Nat) {i : Nat} (hi : i < inodeRoom) (v : Nat) :
    total (upd m i v) + m i = total m + v := by
  have hmem : i ∈ range inodeRoom := Finset.mem_range.mpr hi
  have hrest : ∑ x ∈ (range inodeRoom).erase i, upd m i v x = ∑ x ∈ (range inodeRoom).erase i, m x :=
    Finset.sum_congr rfl fun x hx => upd_of_ne _ _ (Finset.ne_of_mem_erase hx)
  have hold := Finset.sum_erase_add (range inodeRoom) m hmem
  have hnew := Finset.sum_erase_add (range inodeRoom) (upd m i v) hmem
  rw [upd_self, hrest] at hnew
  unfold total
  omega

theorem total_mono {m m' : Nat → Nat} (hle : ∀ i, m i ≤ m' i) : total m ≤ total m' :=
  Finset.sum_le_sum fun i _ => hle i

end Need

/-! ### The block of an append -/

/-- In `iappend`, while the inode `i` is in memory as `din`: the inodes on the disk are those of `ino`,
the files have `m` slots and the content `c`. -/
structure Mid (ino : Nat → Dinode) (i : Nat) (din : Dinode) (m : Nat → Nat) (c : Nat → List UInt8)
    (s : State) : Prop where
  sectors : s.sectors = fssize
  inodes : s.ino = ino
  fits : din.Fits
  slots : Slots (upd ino i din) s.block m s.freeblock
  content : Content (upd ino i din) s.block m c
  total : s.freeblock = nmeta + total m
  super : s.block 1 = superblock

section Find

variable {ino : Nat → Dinode} {i k fbn : Nat} {din : Dinode} {m : Nat → Nat} {c : Nat → List UInt8}
  {s : State} {E : Exit → State → Prop}

theorem Mid.nmeta_le (hs : Mid ino i din m c s) : nmeta ≤ s.freeblock := by
  rw [hs.total]
  omega

theorem fits_addrs {b : Nat} (hd : din.Fits) (hk : k ≤ ndirect) (hb : b ≤ fssize) :
    ({ din with addrs := upd din.addrs k b } : Dinode).Fits where
  type := hd.type
  major := hd.major
  minor := hd.minor
  nlink := hd.nlink
  size := hd.size
  addrs := fun k' => by
    by_cases hk' : k' = k
    · rw [hk']
      refine (congrArg (· < 256 ^ 4) (upd_self _ _ _)).mpr (hb.trans_lt (by decide))
    · exact (congrArg (· < 256 ^ 4) (upd_of_ne _ _ hk')).mpr (hd.addrs k')
  beyond := fun k' hk' => (upd_of_ne _ _ (by omega)).trans (hd.beyond k' hk')

theorem Mid.total_upd (hs : Mid ino i din m c s) (hi : i < inodeRoom) (hk : k = m i) :
    s.freeblock + 1 = nmeta + Mkfs.total (upd m i (k + 1)) := by
  have htotal := Mkfs.total_upd m hi (k + 1)
  have := hs.total
  omega

theorem Mid.takeDirect (hs : Mid ino i din m c s) (hi : i < inodeRoom) (hroom : s.freeblock ≤ fssize)
    (hk : k ≤ ndirect) (hm : k = m i) (hnew : ∀ bn, slotOf bn = k → (c i).length ≤ bn * bsize) :
    Mid ino i { din with addrs := upd din.addrs k s.freeblock } (upd m i (k + 1)) c
      { s with freeblock := s.freeblock + 1 } := by
  have haddr : ∀ i' k', (upd ino i { din with addrs := upd din.addrs k s.freeblock } i').addr s.block k' =
      if i' = i ∧ k' = k then s.freeblock else (upd ino i din i').addr s.block k' := fun i' k' => by
    by_cases hi' : i' = i
    · subst hi'
      rw [upd_self, upd_self, addr_direct_upd hk]
      · simp only [true_and]
      · intro hkn
        refine ⟨?_, fun j => hs.slots.fresh _ le_rfl j⟩
        by_contra hne
        have hlt := (hs.slots.addrs_ndirect i').mp (by rwa [upd_self])
        omega
    · rw [if_neg fun h => hi' h.1, upd_of_ne _ _ hi', upd_of_ne _ _ hi']
  exact ⟨hs.sectors, hs.inodes, fits_addrs hs.fits hk hroom,
    hs.slots.take hs.nmeta_le hm haddr fun _ _ => rfl,
    hs.content.take hs.slots hm haddr (fun _ _ _ => rfl) rfl hnew, hs.total_upd hi hm, hs.super⟩

theorem direct_wp (hs : Mid ino i din m c s) (hi : i < inodeRoom) (hroom : s.freeblock ≤ fssize)
    (hk : k ≤ ndirect) (hle : k ≤ m i)
    (hnew : k = m i → ∀ bn, slotOf bn = k → (c i).length ≤ bn * bsize) :
    Wp (direct din k) (fun d t => Mid ino i d (upd m i (max (m i) (k + 1))) c t ∧
      (t.freeblock = s.freeblock ∨ t.freeblock = d.addrs k + 1)) E s := by
  have hused : din.addrs k ≠ 0 ↔ k < m i := by
    rw [← hs.slots.used i k, upd_self, addr_direct hk]
  refine .ite (fun hzero => ?_) fun hpos => .pure ?_
  · have hm : k = m i := by
      by_contra hne
      exact hused.mpr (by omega) hzero
    have hmax : max (m i) (k + 1) = k + 1 := by omega
    rw [hmax]
    refine .bind (.get (.bind (.of_ok rfl (.pure (.pure ⟨hs.takeDirect hi hroom hk hm (hnew hm), ?_⟩)))))
    exact .inr (congrArg (· + 1) (upd_self din.addrs k s.freeblock).symm)
  · have hmax : max (m i) (k + 1) = m i := by
      have hlt := hused.mp hpos
      omega
    rw [hmax, upd_eq_self _ _ rfl]
    exact ⟨hs, .inl rfl⟩

theorem ino_upd {b : Nat} (hb : nmeta ≤ b) (buf : Block) (fb : Nat) :
    State.ino { s with block := upd s.block b buf, freeblock := fb } = s.ino :=
  ino_congr fun b' hb' => upd_of_ne _ _ (by
    have : bmapstart < nmeta := by decide
    omega)

theorem super_upd {b : Nat} (hb : nmeta ≤ b) (buf : Block) : upd s.block b buf 1 = s.block 1 :=
  upd_of_ne _ _ (by
    have : 1 < nmeta := by decide
    omega)

theorem Mid.indirect (hs : Mid ino i din m c s) (hlt : ndirect < m i) :
    nmeta ≤ din.addrs ndirect ∧ din.addrs ndirect < s.freeblock := by
  have hbound := hs.slots.bound i ndirect hlt
  rwa [upd_self, addr_direct le_rfl] at hbound

def State.withEntry (s : State) (a k b : Nat) : State :=
  { s with block := upd s.block a (splice (s.block a) (ofNat b) (4 * (k - (ndirect + 1))) 4) }

theorem Mid.takeEntry (hs : Mid ino i din m c s) (hi : i < inodeRoom) (hroom : s.freeblock ≤ fssize + 1)
    (hlow : ndirect < k) (hhigh : k ≤ maxfile) (hm : k = m i)
    (hnew : ∀ bn, slotOf bn = k → (c i).length ≤ bn * bsize) :
    let t := { s with freeblock := s.freeblock + 1 }.withEntry (din.addrs ndirect) k s.freeblock
    Mid ino i din (upd m i (k + 1)) c t ∧ din.addr t.block k = s.freeblock := by
  have hbound := hs.indirect (by omega)
  have haddr := hs.slots.addr_indirect_upd (v := s.freeblock) (i := i) (by omega) hlow
    (hroom.trans_lt (by decide)) hhigh
  rw [upd_self] at haddr
  have hdata : ∀ i' bn, slotOf bn < m i' →
      (upd ino i din i').addr s.block (slotOf bn) ≠ din.addrs ndirect := fun i' bn hbn heq => by
    have hne := hs.slots.addrs_ndirect_ne i hbn (.inr (slotOf_ne bn).symm)
    rw [upd_self] at hne
    have hpos : 0 < nmeta := by decide
    exact hne (by omega) heq.symm
  have hself := haddr i k
  rw [upd_self, if_pos ⟨rfl, rfl⟩] at hself
  exact ⟨⟨hs.sectors, (ino_upd hbound.1 _ _).trans hs.inodes, hs.fits,
    hs.slots.take hs.nmeta_le hm haddr fun b hb => upd_of_ne _ _ (by omega),
    hs.content.take hs.slots hm haddr (fun i' bn hbn => upd_of_ne _ _ (hdata i' bn hbn))
      (upd_of_ne _ _ (by omega)) hnew, hs.total_upd hi hm, (super_upd hbound.1 _).trans hs.super⟩, hself⟩

theorem findEntry_wp (hs : Mid ino i din m c s) (hi : i < inodeRoom) (hroom : s.freeblock ≤ fssize + 1)
    (ha : din.addrs ndirect < fssize) (hlow : ndirect ≤ fbn) (hmax : fbn < maxfile)
    (hm : m i = fbn + 1 ∨ m i = fbn + 2)
    (hnew : fbn + 1 = m i → ∀ bn, slotOf bn = fbn + 1 → (c i).length ≤ bn * bsize) :
    Wp (if Bytes.get (s.block (din.addrs ndirect)) (4 * (fbn - ndirect)) 4 = 0 then do
        let b ← takeBlock
        wsect (din.addrs ndirect)
          (splice (s.block (din.addrs ndirect)) (Bytes.ofNat b) (4 * (fbn - ndirect)) 4)
        pure (din, b)
      else pure (din, Bytes.get (s.block (din.addrs ndirect)) (4 * (fbn - ndirect)) 4))
      (fun r t => Mid ino i r.1 (upd m i (fbn + 2)) c t ∧ r.2 = r.1.addr t.block (fbn + 1) ∧
        (t.freeblock = s.freeblock ∧ m i = fbn + 2 ∨ t.freeblock = r.2 + 1)) E s := by
  have hlt : ndirect < m i := by omega
  have hpos : din.addrs ndirect ≠ 0 := by
    have := (hs.indirect hlt).1
    have : 0 < nmeta := by decide
    omega
  have hentry : din.addr s.block (fbn + 1) =
      get (s.block (din.addrs ndirect)) (4 * (fbn - ndirect)) 4 := by
    rw [addr_indirect (by omega), entry, if_pos ⟨hpos, by omega⟩, Nat.add_sub_add_right]
  have hused := hs.slots.used i (fbn + 1)
  rw [upd_self, hentry] at hused
  refine .ite (fun hzero => ?_) fun hne => .pure ?_
  · have hm : fbn + 1 = m i := by
      by_contra hne
      exact hused.mpr (by omega) hzero
    have htake := hs.takeEntry hi hroom (by omega) (by omega) hm (hnew hm)
    rw [State.withEntry, Nat.add_sub_add_right] at htake
    refine .bind (.get (.bind (.of_ok rfl (.pure (.bind ?_)))))
    exact wsect_wp (s := { s with freeblock := s.freeblock + 1 }) hs.sectors ha
      (.pure ⟨htake.1, htake.2.symm, .inr rfl⟩)
  · have hm : m i = fbn + 2 := by
      have := hused.mp hne
      omega
    rw [upd_eq_self _ _ hm]
    exact ⟨hs, hentry.symm, .inl ⟨rfl, hm⟩⟩

theorem need_cases {off : Nat} (hfbn : fbn = off / bsize) :
    need off = slotOf fbn + 1 ∨
      off = fbn * bsize ∧ (need off = slotOf fbn ∨ fbn = ndirect ∧ need off = ndirect) := by
  by_cases hfull : off = fbn * bsize
  · have hneed := need_full fbn
    rw [← hfull] at hneed
    refine .inr ⟨hfull, ?_⟩
    rw [hneed, slotOf]
    split <;> split <;> omega
  · refine .inl (need_eq ?_ ?_) <;> simp only [bsize] at hfbn hfull ⊢ <;> omega

theorem findBlock_wp (hs : Mid ino i din m c s) (hi : i < inodeRoom) (hroom : s.freeblock ≤ fssize)
    (hm : m i = need (c i).length) (hfbn : fbn = (c i).length / bsize) (hmax : fbn < maxfile) :
    Wp (findBlock din fbn)
      (fun r t => Mid ino i r.1 (upd m i (slotOf fbn + 1)) c t ∧ r.2 = r.1.addr t.block (slotOf fbn) ∧
        (t.freeblock = s.freeblock ∨ t.freeblock = r.2 + 1))
      (fun _ _ => fssize < nmeta + total (upd m i (slotOf fbn + 1))) s := by
  have hcases := need_cases hfbn
  rw [← hm] at hcases
  have hnew : ∀ bn, m i ≤ slotOf bn → (c i).length ≤ bn * bsize := fun bn hbn => by
    by_contra hlt
    have := slotOf_lt_need.mpr (Nat.lt_of_not_le hlt)
    omega
  refine .ite (fun hlt => ?_) fun hge => ?_
  · have hslot : slotOf fbn = fbn := if_pos hlt
    refine .bind ((direct_wp hs hi hroom hlt.le (by omega) fun _ bn _ => hnew bn (by omega)).imp
      fun d t ht => .pure ?_)
    have hle : max (m i) (fbn + 1) = fbn + 1 := by omega
    rw [hle] at ht
    rw [hslot]
    exact ⟨ht.1, (addr_direct hlt.le d).symm, ht.2⟩
  · have hslot : slotOf fbn = fbn + 1 := if_neg hge
    rw [hslot] at hcases ⊢
    refine .bind ((direct_wp hs hi hroom le_rfl (by omega) fun _ bn _ => hnew bn (by omega)).imp
      fun d t ⟨ht, _⟩ => ?_)
    have hm1 : upd m i (max (m i) (ndirect + 1)) i = max (m i) (ndirect + 1) := upd_self _ _ _
    have hbound := ht.indirect (by omega)
    have hfb : t.freeblock ≤ fssize + 1 := by
      have h1 := Mkfs.total_upd m hi (max (m i) (ndirect + 1))
      have h2 := ht.total
      have h3 := hs.total
      omega
    refine .bind (rsect_wp ht.sectors (by omega) (fun hlt => ?_) fun heq => ?_)
    · have hentry := findEntry_wp (E := fun _ _ => fssize < nmeta + total (upd m i (fbn + 1 + 1)))
        ht hi hfb hlt (by omega) hmax (by omega) fun heq bn hbn => hnew bn (by omega)
      rw [upd_upd] at hentry
      refine hentry.imp fun r u ⟨hu, haddr, hfb'⟩ => ⟨hu, haddr, hfb'.imp_left fun ⟨heq, hm2⟩ => ?_⟩
      have hsame : upd m i (max (m i) (ndirect + 1)) = m := upd_eq_self _ _ (by omega)
      rw [heq, ht.total, hs.total, hsame]
    · have hle : total (upd m i (max (m i) (ndirect + 1))) ≤ total (upd m i (fbn + 1 + 1)) :=
        total_mono fun i' => by
          by_cases hi' : i' = i
          · rw [hi', upd_self, upd_self]
            omega
          · rw [upd_of_ne _ _ hi', upd_of_ne _ _ hi']
      have := ht.total
      omega

end Find

end Xv6Mmap.Mkfs
