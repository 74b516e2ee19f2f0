import Xv6Mmap.Lib.Pool
import Xv6Mmap.Lib.Slots
import Xv6Mmap.Sysfile

/-!
# Who owns the blocks of the disk

The block numbers of an inode are kept in slots: twelve direct ones, the indirect block, and the
entries of the indirect block. On an intact disk every data block that is marked in the bitmap sits in
one slot, every inode has the blocks below its size, and directories name inodes that exist.
-/

namespace Xv6Mmap.Fs

/-! ### Slots -/

def nslot : Nat := ndirect + 1 + nindirect

def Dinode.addr (data : Nat → Bytes) (node : Dinode) (k : Nat) : Nat :=
  if k ≤ ndirect then node.addrs k
  else if node.addrs ndirect = 0 then 0
  else word (data (node.addrs ndirect)) (k - (ndirect + 1))

/-- What the slot `x.2` of the inode `x.1` refers to. A free inode refers to nothing. -/
def Image.slot (img : Image) (x : Nat × Nat) : Option Nat :=
  if x.1 < img.sb.ninodes ∧ x.2 < nslot ∧ (img.dinode x.1).type ≠ .free ∧
      (img.dinode x.1).addr img.data x.2 ≠ 0 then
    some ((img.dinode x.1).addr img.data x.2)
  else none

def fileSlot (bn : Nat) : Nat := if bn < ndirect then bn else bn + 1

def Image.block (img : Image) (i bn : Nat) : Option Nat := img.slot (i, fileSlot bn)

/-- The blocks that have to be allocated before the slot `k` of the inode `i` refers to one. -/
def Image.missing (img : Image) (i k : Nat) : Nat :=
  (if img.slot (i, k) = none then 1 else 0) +
    if ndirect < k ∧ img.slot (i, ndirect) = none then 1 else 0

def Image.byte (img : Image) (i j : Nat) : Nat :=
  match img.block i (j / bsize) with
  | some b => img.data b (j % bsize)
  | none => 0

def Image.entry (img : Image) (i k : Nat) : Dirent :=
  .ofBytes ((List.range direntSize).map fun o => img.byte i (direntSize * k + o))

/-! ### Words -/

theorem word_zero (j : Nat) : word (fun _ => 0) j = 0 := rfl

theorem word_setWord_self (block : Bytes) (j : Nat) {w : Nat} (hw : w < 2 ^ 32) :
    word (setWord block j w) j = w := by
  have h0 : 4 * j / 4 = j := by omega
  have h1 : (4 * j + 1) / 4 = j := by omega
  have h2 : (4 * j + 2) / 4 = j := by omega
  have h3 : (4 * j + 3) / 4 = j := by omega
  have m0 : 4 * j % 4 = 0 := by omega
  have m1 : (4 * j + 1) % 4 = 1 := by omega
  have m2 : (4 * j + 2) % 4 = 2 := by omega
  have m3 : (4 * j + 3) % 4 = 3 := by omega
  simp only [word, setWord, h0, h1, h2, h3, m0, m1, m2, m3, if_true]
  omega

theorem word_setWord_of_ne (block : Bytes) {j j' : Nat} (w : Nat) (hne : j' ≠ j) :
    word (setWord block j w) j' = word block j' := by
  have h0 : 4 * j' / 4 = j' := by omega
  have h1 : (4 * j' + 1) / 4 = j' := by omega
  have h2 : (4 * j' + 2) / 4 = j' := by omega
  have h3 : (4 * j' + 3) / 4 = j' := by omega
  simp only [word, setWord, h0, h1, h2, h3, if_neg hne]

/-! ### Changing one thing -/

def Image.setBit (img : Image) (b : Nat) (v : Bool) : Image := { img with bitmap := upd img.bitmap b v }

def Image.setBlock (img : Image) (b : Nat) (bytes : Bytes) : Image :=
  { img with data := upd img.data b bytes }

def Image.setNode (img : Image) (i : Nat) (node : Dinode) : Image :=
  { img with dinode := upd img.dinode i node }

section Slots

variable {img : Image} {i : Nat}

theorem Image.slot_eq_some {x : Nat × Nat} {b : Nat} : img.slot x = some b ↔
    x.1 < img.sb.ninodes ∧ x.2 < nslot ∧ (img.dinode x.1).type ≠ .free ∧
      (img.dinode x.1).addr img.data x.2 = b ∧ b ≠ 0 := by
  unfold slot
  split
  · rename_i h
    simp only [Option.some.injEq]
    constructor
    · rintro rfl
      exact ⟨h.1, h.2.1, h.2.2.1, rfl, h.2.2.2⟩
    · exact fun h' => h'.2.2.2.1
  · rename_i h
    simp only [reduceCtorEq, false_iff]
    rintro ⟨h1, h2, h3, rfl, h5⟩
    exact h ⟨h1, h2, h3, h5⟩

theorem Image.slot_eq_none_of_addr {k : Nat} (haddr : (img.dinode i).addr img.data k = 0) :
    img.slot (i, k) = none := if_neg fun h => h.2.2.2 haddr

theorem Image.slot_indirect (hi : i < img.sb.ninodes)
    (htype : (img.dinode i).type ≠ .free) (haddr : (img.dinode i).addrs ndirect ≠ 0) :
    img.slot (i, ndirect) = some ((img.dinode i).addrs ndirect) :=
  slot_eq_some.mpr ⟨hi, by simp only [nslot]; omega, htype, by simp [Dinode.addr], haddr⟩

theorem Dinode.addr_congr {data data' : Nat → Bytes} {node node' : Dinode} {k : Nat}
    (haddrs : ∀ k ≤ ndirect, node'.addrs k = node.addrs k)
    (hdata : node.addrs ndirect ≠ 0 → data' (node.addrs ndirect) = data (node.addrs ndirect)) :
    node'.addr data' k = node.addr data k := by
  by_cases hk : k ≤ ndirect
  · simp only [addr, if_pos hk, haddrs k hk]
  · simp only [addr, if_neg hk, haddrs _ (Nat.le_refl _)]
    by_cases hzero : node.addrs ndirect = 0
    · rw [if_pos hzero, if_pos hzero]
    · rw [if_neg hzero, if_neg hzero, hdata hzero]

theorem Image.slot_congr {img' : Image} {i k : Nat} (hsb : img'.sb = img.sb)
    (htype : (img'.dinode i).type = .free ↔ (img.dinode i).type = .free)
    (haddr : i < img.sb.ninodes → (img.dinode i).type ≠ .free →
      (img'.dinode i).addr img'.data k = (img.dinode i).addr img.data k) :
    img'.slot (i, k) = img.slot (i, k) := by
  simp only [slot, hsb, ne_eq, htype]
  by_cases hi : i < img.sb.ninodes ∧ (img.dinode i).type ≠ .free
  · rw [haddr hi.1 hi.2]
  · rw [if_neg fun h => hi ⟨h.1, h.2.2.1⟩, if_neg fun h => hi ⟨h.1, h.2.2.1⟩]

theorem Image.slot_setBlock (img : Image) {b : Nat} (hb : ∀ i, img.slot (i, ndirect) ≠ some b) (bytes : Bytes) :
    (img.setBlock b bytes).slot = img.slot := by
  funext ⟨i, k⟩
  refine slot_congr rfl Iff.rfl fun hi htype => Dinode.addr_congr (fun _ _ => rfl) fun hzero => ?_
  exact upd_of_ne _ _ fun h => hb i (h ▸ slot_indirect hi htype hzero)

end Slots

/-! ### Intact disks -/

/-- The blocks in `loose` are marked in the bitmap, and nobody owns them; `ok` is what the entries of
directories have to satisfy. -/
structure Image.Intact (ok : Dirent → Prop) (loose : Set Nat) (img : Image) : Prop where
  datastart_pos : 0 < img.sb.datastart
  size_le : img.sb.size ≤ 2 ^ 32
  reserved : ∀ b < img.sb.datastart, img.bitmap b = true
  pool : Pool.Exact {b | img.sb.isData b = true} img.bitmap img.slot loose
  blocks : ∀ i < img.sb.ninodes, (img.dinode i).type ≠ .free →
    ∀ bn, bn * bsize < (img.dinode i).size → (img.block i bn).isSome
  size_le_max : ∀ i < img.sb.ninodes, (img.dinode i).size ≤ maxfile * bsize
  free_size : ∀ i < img.sb.ninodes, (img.dinode i).type = .free → (img.dinode i).size = 0
  entries : ∀ i < img.sb.ninodes, (img.dinode i).type = .dir → ∀ k,
    direntSize * (k + 1) ≤ (img.dinode i).size → ok (img.entry i k)

/-- Inodes got blocks, and nothing happened to the files. -/
structure Image.Grown (img img' : Image) : Prop where
  sb : img'.sb = img.sb
  type : ∀ i, (img'.dinode i).type = (img.dinode i).type
  nlink : ∀ i, (img'.dinode i).nlink = (img.dinode i).nlink
  size : ∀ i, (img'.dinode i).size = (img.dinode i).size
  slot : ∀ x b, img.slot x = some b → img'.slot x = some b
  data : ∀ i bn b, img.block i bn = some b → img'.data b = img.data b

namespace Image.Grown

variable {img img' img'' : Image}

theorem refl (img : Image) : Grown img img :=
  ⟨rfl, fun _ => rfl, fun _ => rfl, fun _ => rfl, fun _ _ h => h, fun _ _ _ _ => rfl⟩

theorem trans (h : Grown img img') (h' : Grown img' img'') : Grown img img'' where
  sb := h'.sb.trans h.sb
  type := fun i => (h'.type i).trans (h.type i)
  nlink := fun i => (h'.nlink i).trans (h.nlink i)
  size := fun i => (h'.size i).trans (h.size i)
  slot := fun x b hx => h'.slot x b (h.slot x b hx)
  data := fun i bn b hb => (h'.data i bn b (h.slot _ b hb)).trans (h.data i bn b hb)

theorem byte (h : Grown img img') {i j : Nat} (hblock : (img.block i (j / bsize)).isSome) :
    img'.byte i j = img.byte i j := by
  obtain ⟨b, hb⟩ := Option.isSome_iff_exists.mp hblock
  have hb' : img'.block i (j / bsize) = some b := h.slot _ b hb
  simp only [Image.byte, hb, hb', h.data i _ b hb]

end Image.Grown

theorem div_mul_lt {j n : Nat} (hj : j < n) : j / bsize * bsize < n := by
  have := Nat.div_mul_le_self j bsize
  omega

theorem Image.Intact.byte_eq {img img' : Image} {ok : Dirent → Prop} {loose : Set Nat} (hint : img.Intact ok loose)
    (h : img.Grown img') {i j : Nat} (hi : i < img.sb.ninodes)
    (hj : j < (img.dinode i).size) : img'.byte i j = img.byte i j := by
  by_cases htype : (img.dinode i).type = .free
  · rw [hint.free_size i hi htype] at hj
    omega
  · exact h.byte (hint.blocks i hi htype _ (div_mul_lt hj))

theorem Image.entry_congr {img img' : Image} {i k n : Nat} (hk : direntSize * (k + 1) ≤ n)
    (hbyte : ∀ j < n, img'.byte i j = img.byte i j) : img'.entry i k = img.entry i k := by
  simp only [entry]
  congr 1
  refine List.map_congr_left fun o ho => hbyte _ ?_
  have ho : o < direntSize := List.mem_range.mp ho
  have : direntSize * (k + 1) = direntSize * k + direntSize := Nat.mul_succ _ _
  omega

theorem Image.byte_eq_of_slot {img img' : Image} (hslot : img'.slot = img.slot)
    (hdata : img'.data = img.data) (i j : Nat) : img'.byte i j = img.byte i j := by
  simp only [byte, block, hslot, hdata]

theorem Image.Intact.grown {img img' : Image} {ok : Dirent → Prop} {loose loose' : Set Nat} (hint : img.Intact ok loose)
    (h : img.Grown img') (hreserved : ∀ b < img.sb.datastart, img'.bitmap b = true)
    (hpool : Pool.Exact {b | img.sb.isData b = true} img'.bitmap img'.slot loose') :
    img'.Intact ok loose' where
  datastart_pos := h.sb ▸ hint.datastart_pos
  size_le := h.sb ▸ hint.size_le
  reserved := h.sb ▸ hreserved
  pool := h.sb ▸ hpool
  blocks := fun i hi htype bn hbn => by
    rw [h.sb] at hi
    rw [h.type] at htype
    rw [h.size] at hbn
    obtain ⟨b, hb⟩ := Option.isSome_iff_exists.mp (hint.blocks i hi htype bn hbn)
    exact Option.isSome_iff_exists.mpr ⟨b, h.slot _ b hb⟩
  size_le_max := fun i hi => by
    rw [h.size]
    exact hint.size_le_max i (h.sb ▸ hi)
  free_size := fun i hi htype => by
    rw [h.type] at htype
    rw [h.size]
    exact hint.free_size i (h.sb ▸ hi) htype
  entries := fun i hi htype k hk => by
    rw [h.sb] at hi
    rw [h.type] at htype
    rw [h.size] at hk
    rw [entry_congr hk fun j hj => hint.byte_eq h hi hj]
    exact hint.entries i hi htype k hk

/-! ### Taking blocks and giving them to inodes -/

section Steps

variable {img : Image} {ok : Dirent → Prop} {loose : Set Nat}

theorem Image.Intact.not_slot_of_free (hint : img.Intact ok loose) {b : Nat}
    (hfree : img.bitmap b = false) (x : Nat × Nat) : img.slot x ≠ some b := fun hx => by
  have hused := (hint.pool.owned x b hx).2.1
  rw [hfree] at hused
  cases hused

theorem Image.Intact.take (hint : img.Intact ok loose) {b : Nat} (hb : img.sb.isData b = true)
    (hfree : img.bitmap b = false) (bytes : Bytes) :
    ((img.setBit b true).setBlock b bytes).Intact ok (insert b loose) ∧
      img.Grown ((img.setBit b true).setBlock b bytes) ∧
      ((img.setBit b true).setBlock b bytes).slot = img.slot := by
  have hslot : ((img.setBit b true).setBlock b bytes).slot = img.slot :=
    slot_setBlock (img.setBit b true) (fun i => hint.not_slot_of_free hfree (i, ndirect)) bytes
  have hgrown : img.Grown ((img.setBit b true).setBlock b bytes) := by
    refine ⟨rfl, fun _ => rfl, fun _ => rfl, fun _ => rfl, fun x c hx => ?_, fun i bn c hc => ?_⟩
    · rw [hslot, hx]
    · exact upd_of_ne _ _ fun h => hint.not_slot_of_free hfree _ (h ▸ hc)
  refine ⟨hint.grown hgrown (fun c hc => ?_) ?_, hgrown, hslot⟩
  · by_cases hcb : c = b
    · simp [setBit, setBlock, hcb]
    · simpa [setBit, setBlock, upd_of_ne _ _ hcb] using hint.reserved c hc
  · rw [hslot]
    exact hint.pool.take hb hfree (upd_self _ _ _) fun c hc => upd_of_ne _ _ hc

theorem fileSlot_ne (bn : Nat) : fileSlot bn ≠ ndirect := by
  unfold fileSlot
  split <;> omega

theorem Image.Intact.loose_pos (hint : img.Intact ok loose) {b : Nat} (hb : b ∈ loose) : b ≠ 0 := by
  have hdata : img.sb.isData b = true := (hint.pool.inUse b hb).1
  have hpos := hint.datastart_pos
  simp only [Superblock.isData, Bool.and_eq_true, decide_eq_true_eq] at hdata
  omega

theorem Image.Intact.loose_lt (hint : img.Intact ok loose) {b : Nat} (hb : b ∈ loose) : b < 2 ^ 32 := by
  have hdata : img.sb.isData b = true := (hint.pool.inUse b hb).1
  have hsize := hint.size_le
  simp only [Superblock.isData, Bool.and_eq_true, decide_eq_true_eq] at hdata
  omega

theorem Image.Intact.attach (hint : img.Intact ok loose) (img' : Image) {b i k : Nat} (hb : b ∈ loose)
    (hsb : img'.sb = img.sb) (hbitmap : img'.bitmap = img.bitmap)
    (htype : ∀ i, (img'.dinode i).type = (img.dinode i).type)
    (hnlink : ∀ i, (img'.dinode i).nlink = (img.dinode i).nlink)
    (hsize : ∀ i, (img'.dinode i).size = (img.dinode i).size)
    (hdata : ∀ i bn b, img.block i bn = some b → img'.data b = img.data b)
    (hempty : img.slot (i, k) = none) (hslot : img'.slot (i, k) = some b)
    (hother : ∀ y ≠ (i, k), img'.slot y = img.slot y) :
    img'.Intact ok (loose \ {b}) ∧ img.Grown img' := by
  have hgrown : img.Grown img' := by
    refine ⟨hsb, htype, hnlink, hsize, fun x c hx => ?_, hdata⟩
    have hne : x ≠ (i, k) := by
      rintro rfl
      rw [hempty] at hx
      cases hx
    rw [hother x hne, hx]
  refine ⟨hint.grown hgrown (fun c hc => ?_) ?_, hgrown⟩
  · rw [hbitmap]
    exact hint.reserved c hc
  · rw [hbitmap]
    exact hint.pool.attach hb hempty hslot hother

theorem Image.Intact.attachDirect (hint : img.Intact ok loose) {b i k : Nat} (hb : b ∈ loose)
    (hi : i < img.sb.ninodes) (htype : (img.dinode i).type ≠ .free) (hk : k ≤ ndirect)
    (hzero : (img.dinode i).addrs k = 0) (hclear : k = ndirect → img.data b = fun _ => 0) :
    let img' := img.setNode i { img.dinode i with addrs := upd (img.dinode i).addrs k b }
    img'.Intact ok (loose \ {b}) ∧ img.Grown img' ∧ img'.slot (i, k) = some b ∧
      ∀ y ≠ (i, k), img'.slot y = img.slot y := by
  intro img'
  have hnode : ∀ {α : Type} (field : Dinode → α),
      field { img.dinode i with addrs := upd (img.dinode i).addrs k b } = field (img.dinode i) →
      ∀ i', field (img'.dinode i') = field (img.dinode i') := by
    intro α field h i'
    by_cases hi' : i' = i
    · simp only [img', setNode, hi', upd_self, h]
    · simp only [img', setNode, upd_of_ne _ _ hi']
  have hslot : img'.slot (i, k) = some b := by
    refine slot_eq_some.mpr ⟨hi, by simp only [nslot]; omega, ?_, ?_, hint.loose_pos hb⟩
    · rw [hnode Dinode.type rfl]
      exact htype
    · simp [img', setNode, Dinode.addr, hk]
  have hother : ∀ y ≠ (i, k), img'.slot y = img.slot y := by
    rintro ⟨i', k'⟩ hne
    refine slot_congr rfl (by rw [hnode Dinode.type rfl]) fun _ _ => ?_
    by_cases hi' : i' = i
    · have hk' : k' ≠ k := fun h => hne (by rw [hi', h])
      simp only [img', setNode, hi', upd_self, Dinode.addr]
      by_cases hdirect : k' ≤ ndirect
      · rw [if_pos hdirect, if_pos hdirect, upd_of_ne _ _ hk']
      · rw [if_neg hdirect, if_neg hdirect]
        by_cases hind : ndirect = k
        · -- the new indirect block is empty
          subst hind
          rw [upd_self, if_neg (hint.loose_pos hb), if_pos hzero, hclear rfl, word_zero]
        · rw [upd_of_ne _ _ hind]
    · simp only [img', setNode, upd_of_ne _ _ hi']
  obtain ⟨hint', hgrown⟩ := hint.attach img' hb rfl rfl (hnode Dinode.type rfl)
    (hnode Dinode.nlink rfl) (hnode Dinode.size rfl) (fun _ _ _ _ => rfl)
    (by simp [slot, Dinode.addr, hk, hzero]) hslot hother
  exact ⟨hint', hgrown, hslot, hother⟩

theorem Image.Intact.attachIndirect (hint : img.Intact ok loose) {b i j : Nat} (hb : b ∈ loose)
    (hi : i < img.sb.ninodes) (htype : (img.dinode i).type ≠ .free) (hj : j < nindirect)
    (hind : (img.dinode i).addrs ndirect ≠ 0)
    (hzero : word (img.data ((img.dinode i).addrs ndirect)) j = 0) :
    let a := (img.dinode i).addrs ndirect
    let img' := img.setBlock a (setWord (img.data a) j b)
    img'.Intact ok (loose \ {b}) ∧ img.Grown img' ∧ img'.slot (i, ndirect + 1 + j) = some b ∧
      ∀ y ≠ (i, ndirect + 1 + j), img'.slot y = img.slot y := by
  intro a img'
  have ha : img.slot (i, ndirect) = some a := slot_indirect hi htype hind
  have hk : ¬ ndirect + 1 + j ≤ ndirect := by omega
  have hword : ndirect + 1 + j - (ndirect + 1) = j := by omega
  have hslot : img'.slot (i, ndirect + 1 + j) = some b := by
    refine slot_eq_some.mpr ⟨hi, by simp only [nslot]; omega, htype, ?_, hint.loose_pos hb⟩
    simp only [img', setBlock, Dinode.addr, if_neg hk, if_neg hind, hword, a, upd_self]
    exact word_setWord_self _ _ (hint.loose_lt hb)
  have hother : ∀ y ≠ (i, ndirect + 1 + j), img'.slot y = img.slot y := by
    rintro ⟨i', k'⟩ hne
    refine slot_congr rfl Iff.rfl fun hi' htype' => ?_
    by_cases heq : i' = i
    · subst heq
      simp only [img', setBlock, Dinode.addr]
      by_cases hdirect : k' ≤ ndirect
      · rw [if_pos hdirect, if_pos hdirect]
      · have hj' : k' - (ndirect + 1) ≠ j := fun h => hne (by rw [← h]; congr 1; omega)
        rw [if_neg hdirect, if_neg hdirect, if_neg hind, if_neg hind, upd_self,
          word_setWord_of_ne _ _ hj']
    · refine Dinode.addr_congr (fun _ _ => rfl) fun hzero' => upd_of_ne _ _ fun h => heq ?_
      have hind' := slot_indirect hi' htype' hzero'
      exact congrArg Prod.fst (hint.pool.unique _ _ a (h ▸ hind') ha)
  have hdata : ∀ i' bn c, img.block i' bn = some c → img'.data c = img.data c := fun i' bn c hc =>
    upd_of_ne _ _ fun h =>
      fileSlot_ne bn (congrArg Prod.snd (hint.pool.unique _ _ a (h ▸ hc) ha))
  obtain ⟨hint', hgrown⟩ := hint.attach img' hb rfl rfl (fun _ => rfl) (fun _ => rfl)
    (fun _ => rfl) hdata (by simp [slot, Dinode.addr, hk, hword, hind, hzero]) hslot hother
  exact ⟨hint', hgrown, hslot, hother⟩

/-! ### Changing one file -/

theorem Image.Intact.changeFile (hint : img.Intact ok loose) (img' : Image) (i : Nat)
    {loose' : Set Nat} (hsb : img'.sb = img.sb)
    (hreserved : ∀ b < img.sb.datastart, img'.bitmap b = true)
    (hpool : Pool.Exact {b | img.sb.isData b = true} img'.bitmap img'.slot loose')
    (hslot : ∀ i' ≠ i, ∀ k, img'.slot (i', k) = img.slot (i', k))
    (hnode : ∀ i' ≠ i, img'.dinode i' = img.dinode i')
    (hdata : ∀ i' ≠ i, ∀ bn b, img.block i' bn = some b → img'.data b = img.data b)
    (hblocks : i < img.sb.ninodes → (img'.dinode i).type ≠ .free → ∀ bn,
      bn * bsize < (img'.dinode i).size → (img'.block i bn).isSome)
    (hmax : i < img.sb.ninodes → (img'.dinode i).size ≤ maxfile * bsize)
    (hfree : i < img.sb.ninodes → (img'.dinode i).type = .free → (img'.dinode i).size = 0)
    (hentries : i < img.sb.ninodes → (img'.dinode i).type = .dir → ∀ k,
      direntSize * (k + 1) ≤ (img'.dinode i).size → ok (img'.entry i k)) :
    img'.Intact ok loose' where
  datastart_pos := hsb ▸ hint.datastart_pos
  size_le := hsb ▸ hint.size_le
  reserved := hsb ▸ hreserved
  pool := hsb ▸ hpool
  blocks := fun i' hi' htype bn hbn => by
    by_cases heq : i' = i
    · subst heq
      exact hblocks (hsb ▸ hi') htype bn hbn
    · rw [hnode i' heq] at htype hbn
      have hblock : img'.block i' bn = img.block i' bn := hslot i' heq _
      rw [hblock]
      exact hint.blocks i' (hsb ▸ hi') htype bn hbn
  size_le_max := fun i' hi' => by
    rw [hsb] at hi'
    by_cases heq : i' = i
    · subst heq
      exact hmax hi'
    · rw [hnode i' heq]
      exact hint.size_le_max i' hi'
  free_size := fun i' hi' htype => by
    rw [hsb] at hi'
    by_cases heq : i' = i
    · subst heq
      exact hfree hi' htype
    · rw [hnode i' heq] at htype ⊢
      exact hint.free_size i' hi' htype
  entries := fun i' hi' htype k hk => by
    rw [hsb] at hi'
    by_cases heq : i' = i
    · subst heq
      exact hentries hi' htype k hk
    · rw [hnode i' heq] at htype hk
      have hbyte : ∀ j < (img.dinode i').size, img'.byte i' j = img.byte i' j := by
        intro j hj
        have hfile : (img.dinode i').type ≠ .free := by rw [htype]; decide
        obtain ⟨b, hb⟩ := Option.isSome_iff_exists.mp (hint.blocks i' hi' hfile _ (div_mul_lt hj))
        have hb' : img'.block i' (j / bsize) = some b := (hslot i' heq _).trans hb
        simp only [byte, hb, hb', hdata i' heq _ b hb]
      rw [entry_congr hk hbyte]
      exact hint.entries i' hi' htype k hk

/-- Only the file `i` changes, and it keeps its blocks. -/
theorem Image.Intact.change (hint : img.Intact ok loose) (img' : Image) (i : Nat)
    (hsb : img'.sb = img.sb) (hbitmap : img'.bitmap = img.bitmap) (hslot : img'.slot = img.slot)
    (hnode : ∀ i' ≠ i, img'.dinode i' = img.dinode i')
    (hdata : ∀ i' ≠ i, ∀ bn b, img.block i' bn = some b → img'.data b = img.data b)
    (hblocks : i < img.sb.ninodes → (img'.dinode i).type ≠ .free → ∀ bn,
      bn * bsize < (img'.dinode i).size → (img.block i bn).isSome)
    (hmax : i < img.sb.ninodes → (img'.dinode i).size ≤ maxfile * bsize)
    (hfree : i < img.sb.ninodes → (img'.dinode i).type = .free → (img'.dinode i).size = 0)
    (hentries : i < img.sb.ninodes → (img'.dinode i).type = .dir → ∀ k,
      direntSize * (k + 1) ≤ (img'.dinode i).size → ok (img'.entry i k)) :
    img'.Intact ok loose :=
  hint.changeFile img' i hsb (hbitmap ▸ hint.reserved) (hbitmap ▸ hslot ▸ hint.pool)
    (fun _ _ _ => congrFun hslot _) hnode hdata
    (fun hi htype bn hbn => by
      have hblock : img'.block i bn = img.block i bn := congrFun hslot _
      rw [hblock]
      exact hblocks hi htype bn hbn) hmax hfree hentries

theorem Image.slot_setNode (img : Image) {i : Nat} {node : Dinode}
    (htype : node.type = .free ↔ (img.dinode i).type = .free)
    (haddrs : ∀ k ≤ ndirect, node.addrs k = (img.dinode i).addrs k) :
    (img.setNode i node).slot = img.slot := by
  funext ⟨i', k⟩
  by_cases hi : i' = i
  · subst hi
    refine slot_congr rfl (by simpa [setNode] using htype) fun _ _ => Dinode.addr_congr ?_ ?_
    · simpa [setNode] using haddrs
    · simp [setNode]
  · refine slot_congr rfl (by simp [setNode, upd_of_ne _ _ hi]) fun _ _ => Dinode.addr_congr ?_ ?_
    · simp [setNode, upd_of_ne _ _ hi]
    · simp [setNode]

theorem fileSlot_injective {bn bn' : Nat} (h : fileSlot bn = fileSlot bn') : bn = bn' := by
  unfold fileSlot at h
  split at h <;> split at h <;> omega

theorem Image.Intact.slot_write (hint : img.Intact ok loose) {i bn b : Nat}
    (hb : img.block i bn = some b) (bytes : Bytes) : (img.setBlock b bytes).slot = img.slot :=
  slot_setBlock img (fun _ h =>
    fileSlot_ne bn (congrArg Prod.snd (hint.pool.unique _ _ b hb h))) bytes

theorem Image.Intact.byte_write (hint : img.Intact ok loose) {i bn b : Nat}
    (hb : img.block i bn = some b) (bytes : Bytes) (i' j : Nat) :
    (img.setBlock b bytes).byte i' j =
      if i' = i ∧ j / bsize = bn then bytes (j % bsize) else img.byte i' j := by
  have hblock : (img.setBlock b bytes).block i' (j / bsize) = img.block i' (j / bsize) :=
    congrFun (hint.slot_write hb bytes) _
  by_cases hsame : i' = i ∧ j / bsize = bn
  · rw [if_pos hsame]
    obtain ⟨rfl, rfl⟩ := hsame
    simp only [byte, hblock, hb]
    exact congrFun (upd_self _ _ _) _
  · rw [if_neg hsame]
    simp only [byte, hblock]
    cases hc : img.block i' (j / bsize) with
    | none => rfl
    | some c =>
        have hcb : c ≠ b := fun h => by
          have heq := hint.pool.unique _ _ b (h ▸ hc) hb
          exact hsame ⟨congrArg Prod.fst heq, fileSlot_injective (congrArg Prod.snd heq)⟩
        simp only [setBlock, upd_of_ne _ _ hcb]

theorem Image.Intact.data_write (hint : img.Intact ok loose) {i bn b : Nat}
    (hb : img.block i bn = some b) (bytes : Bytes) {i' : Nat} (hne : i' ≠ i) (bn' c : Nat)
    (hc : img.block i' bn' = some c) : (img.setBlock b bytes).data c = img.data c :=
  upd_of_ne _ _ fun h => hne (congrArg Prod.fst (hint.pool.unique _ _ b (h ▸ hc) hb))

/-! ### Truncating and freeing -/

def Dinode.truncated (node : Dinode) : Dinode :=
  { node with addrs := fun k => if k ≤ ndirect then 0 else node.addrs k, size := 0 }

theorem Dinode.addr_eq_zero {node : Dinode} (hzero : ∀ k ≤ ndirect, node.addrs k = 0)
    (data : Nat → Bytes) (k : Nat) : node.addr data k = 0 := by
  unfold addr
  split
  · exact hzero k ‹_›
  · rw [if_pos (hzero _ (Nat.le_refl _))]

theorem Image.slot_eq_none {i : Nat} (hzero : ∀ k ≤ ndirect, (img.dinode i).addrs k = 0) (k : Nat) :
    img.slot (i, k) = none := by
  simp [slot, Dinode.addr_eq_zero hzero]

theorem Image.Intact.truncate (hint : img.Intact ok loose) {i : Nat} :
    (img.setNode i (img.dinode i).truncated).Intact ok
      (loose ∪ {b | ∃ k, img.slot (i, k) = some b}) := by
  have hzero : ∀ k, (img.setNode i (img.dinode i).truncated).slot (i, k) = none := fun k =>
    slot_eq_none (fun k hk => by simp [setNode, Dinode.truncated, hk]) k
  have hother : ∀ i' ≠ i, ∀ k, (img.setNode i (img.dinode i).truncated).slot (i', k) =
      img.slot (i', k) := fun i' hi' k => by
    have hnode : (img.setNode i (img.dinode i).truncated).dinode i' = img.dinode i' :=
      upd_of_ne _ _ hi'
    refine slot_congr rfl (by rw [hnode]) fun _ _ => ?_
    rw [hnode]
    rfl
  have hpool := hint.pool.detach (img.setNode i (img.dinode i).truncated).slot
    {x | x.1 = i} (fun x hx => by obtain ⟨i', k⟩ := x; cases hx; exact hzero k)
    fun x hx => hother x.1 hx x.2
  have hset : {b | ∃ x ∈ {x : Nat × Nat | x.1 = i}, img.slot x = some b} =
      {b | ∃ k, img.slot (i, k) = some b} := by
    ext b
    constructor
    · rintro ⟨⟨i', k⟩, rfl, h⟩
      exact ⟨k, h⟩
    · rintro ⟨k, h⟩
      exact ⟨(i, k), rfl, h⟩
  rw [hset] at hpool
  have hsize : ((img.setNode i (img.dinode i).truncated).dinode i).size = 0 := by
    simp [setNode, Dinode.truncated]
  refine hint.changeFile _ i rfl hint.reserved hpool hother (fun i' hi' => upd_of_ne _ _ hi')
    (fun _ _ _ _ _ => rfl) (fun _ _ bn hbn => ?_) (fun _ => ?_) (fun _ _ => hsize)
    fun _ _ k hk => ?_
  · rw [hsize] at hbn
    omega
  · rw [hsize]
    exact Nat.zero_le _
  · rw [hsize, direntSize] at hk
    omega

theorem Image.Intact.release (hint : img.Intact ok loose) {b : Nat} (hb : b ∈ loose) :
    (img.setBit b false).Intact ok (loose \ {b}) := by
  have hgrown : img.Grown (img.setBit b false) :=
    ⟨rfl, fun _ => rfl, fun _ => rfl, fun _ => rfl, fun _ _ h => h, fun _ _ _ _ => rfl⟩
  refine hint.grown hgrown (fun c hc => ?_)
    (hint.pool.release hb (upd_self _ _ _) fun c hc => upd_of_ne _ _ hc)
  have hdata : img.sb.isData b = true := (hint.pool.inUse b hb).1
  simp only [Superblock.isData, Bool.and_eq_true, decide_eq_true_eq] at hdata
  have hne : c ≠ b := by omega
  simpa [setBit, upd_of_ne _ _ hne] using hint.reserved c hc

theorem Image.Intact.replace (hint : img.Intact ok loose) (i : Nat) (node : Dinode)
    (hempty : ∀ k, img.slot (i, k) = none)
    (hzero : node.type = .free ∨ ∀ k ≤ ndirect, node.addrs k = 0) (hsize : node.size = 0) :
    (img.setNode i node).Intact ok loose := by
  have hself : (img.setNode i node).dinode i = node := upd_self _ _ _
  have hslot : (img.setNode i node).slot = img.slot := by
    funext ⟨i', k⟩
    by_cases hi : i' = i
    · subst hi
      rw [hempty]
      rcases hzero with hfree | hzero
      · simp [slot, hself, hfree]
      · exact slot_eq_none (by rw [hself]; exact hzero) k
    · have hnode : (img.setNode i node).dinode i' = img.dinode i' := upd_of_ne _ _ hi
      refine slot_congr rfl (by rw [hnode]) fun _ _ => ?_
      rw [hnode]
      rfl
  refine hint.change _ i rfl rfl hslot (fun i' hi' => upd_of_ne _ _ hi') (fun _ _ _ _ _ => rfl)
    (fun _ _ bn hbn => ?_) (fun _ => ?_) (fun _ _ => by rw [hself, hsize]) fun _ _ k hk => ?_
  · rw [hself, hsize] at hbn
    omega
  · rw [hself, hsize]
    exact Nat.zero_le _
  · rw [hself, hsize, direntSize] at hk
    omega

/-- The numbers of an inode change that are neither its type nor about its blocks. -/
theorem Image.Intact.setFields (hint : img.Intact ok loose) {i : Nat} {node : Dinode}
    (htype : node.type = (img.dinode i).type) (hsize : node.size = (img.dinode i).size)
    (haddrs : node.addrs = (img.dinode i).addrs) : (img.setNode i node).Intact ok loose := by
  have hself : (img.setNode i node).dinode i = node := upd_self _ _ _
  have hslot : (img.setNode i node).slot = img.slot :=
    slot_setNode img (by rw [htype]) fun k _ => by rw [haddrs]
  refine hint.change _ i rfl rfl hslot (fun i' hi' => upd_of_ne _ _ hi') (fun _ _ _ _ _ => rfl)
    (fun hi hfile bn hbn => ?_) (fun hi => ?_) (fun hi hfree => ?_) fun hi hdir k hk => ?_
  · rw [hself] at hfile hbn
    exact hint.blocks i hi (htype ▸ hfile) bn (hsize ▸ hbn)
  · rw [hself, hsize]
    exact hint.size_le_max i hi
  · rw [hself] at hfree ⊢
    rw [hsize]
    exact hint.free_size i hi (htype ▸ hfree)
  · rw [hself] at hdir hk
    rw [entry_congr hk fun j _ => byte_eq_of_slot hslot rfl i j]
    exact hint.entries i hi (htype ▸ hdir) k (hsize ▸ hk)

end Steps

/-! ### What the inodes are -/

/-- An inode as the directory tree has it: the content of files is left out. -/
structure Node where
  type : InodeType
  nlink : Int
  entries : List Dirent

def Node.free : Node := { type := .free, nlink := 0, entries := [] }

def Image.node (img : Image) (i : Nat) : Node :=
  if i < img.sb.ninodes ∧ (img.dinode i).type ≠ .free then
    { type := (img.dinode i).type
      nlink := (img.dinode i).nlink
      entries := if (img.dinode i).type = .dir then
          (List.range ((img.dinode i).size / direntSize)).map (img.entry i) else [] }
  else .free

section Nodes

variable {img img' : Image} {ok : Dirent → Prop} {loose : Set Nat}

theorem Image.node_congr {i : Nat} (hsb : img'.sb = img.sb)
    (htype : (img'.dinode i).type = (img.dinode i).type)
    (hnlink : (img'.dinode i).nlink = (img.dinode i).nlink)
    (hsize : (img.dinode i).type = .dir → (img'.dinode i).size = (img.dinode i).size)
    (hbyte : i < img.sb.ninodes → (img.dinode i).type = .dir → ∀ j < (img.dinode i).size,
      img'.byte i j = img.byte i j) : img'.node i = img.node i := by
  simp only [node, hsb, htype, hnlink]
  by_cases hi : i < img.sb.ninodes
  · by_cases hdir : (img.dinode i).type = .dir
    · have hentries : (List.range ((img'.dinode i).size / direntSize)).map (img'.entry i) =
          (List.range ((img.dinode i).size / direntSize)).map (img.entry i) := by
        rw [hsize hdir]
        refine List.map_congr_left fun k hk => entry_congr ?_ (hbyte hi hdir)
        have hk := List.mem_range.mp hk
        have := Nat.div_mul_le_self (img.dinode i).size direntSize
        calc direntSize * (k + 1) ≤ direntSize * ((img.dinode i).size / direntSize) :=
              Nat.mul_le_mul_left _ hk
          _ = (img.dinode i).size / direntSize * direntSize := Nat.mul_comm _ _
          _ ≤ (img.dinode i).size := this
      rw [hentries]
    · simp only [if_neg hdir]
  · simp only [hi, false_and, if_false]

theorem Image.Intact.node_grown (hint : img.Intact ok loose) (hgrown : img.Grown img') :
    img'.node = img.node := by
  funext i
  exact node_congr hgrown.sb (hgrown.type i) (hgrown.nlink i) (fun _ => hgrown.size i)
    fun hi _ j hj => hint.byte_eq hgrown hi hj

/-- A block of a file is written. The entries of a directory are left open. -/
theorem Image.Intact.write (hint : img.Intact ok loose) {i bn b : Nat} (hb : img.block i bn = some b)
    (hok : (img.dinode i).type = .dir → ∀ de, ok de) (bytes : Bytes) :
    (img.setBlock b bytes).Intact ok loose :=
  hint.change _ i rfl rfl (hint.slot_write hb bytes) (fun _ _ => rfl)
    (fun _ hne => hint.data_write hb bytes hne) (fun hi htype => hint.blocks i hi htype)
    (fun hi => hint.size_le_max i hi) (fun hi => hint.free_size i hi) fun _ hdir _ _ => hok hdir _

theorem Image.setNode_resize_slot (img : Image) (i n : Nat) :
    (img.setNode i { img.dinode i with size := n }).slot = img.slot :=
  slot_setNode img Iff.rfl fun _ _ => rfl

theorem Image.Intact.resize (hint : img.Intact ok loose) {i n : Nat}
    (hcov : ∀ bn, bn * bsize < n → (img.block i bn).isSome) (hn : n ≤ maxfile * bsize)
    (halloc : (img.dinode i).type ≠ .free) (hok : (img.dinode i).type = .dir → ∀ de, ok de) :
    (img.setNode i { img.dinode i with size := n }).Intact ok loose := by
  have hself : (img.setNode i { img.dinode i with size := n }).dinode i =
      { img.dinode i with size := n } := upd_self _ _ _
  refine hint.change _ i rfl rfl (setNode_resize_slot img i n) (fun i' hne => upd_of_ne _ _ hne)
    (fun _ _ _ _ _ => rfl) (fun _ _ bn hbn => ?_) (fun _ => ?_) (fun _ hfree => ?_)
    fun _ hdir _ _ => ?_
  · rw [hself] at hbn
    exact hcov bn hbn
  · rw [hself]
    exact hn
  · rw [hself] at hfree
    exact absurd hfree halloc
  · rw [hself] at hdir
    exact hok hdir _

/-! ### Directory entries -/

theorem dirent_in_block (k : Nat) {o : Nat} (ho : o < direntSize) :
    (direntSize * k + o) / bsize = direntSize * k / bsize ∧
      (direntSize * k + o) % bsize = direntSize * k % bsize + o := by
  simp only [direntSize, bsize] at ho ⊢
  omega

theorem dirent_apart {k k' o : Nat} (hne : k' ≠ k)
    (hblock : direntSize * k' / bsize = direntSize * k / bsize) (ho : o < direntSize) :
    ¬ (direntSize * k % bsize ≤ direntSize * k' % bsize + o ∧
      direntSize * k' % bsize + o < direntSize * k % bsize + direntSize) := by
  simp only [direntSize, bsize] at hblock ho ⊢
  omega

def storedDirent (bytes : Nat → Nat) : Dirent :=
  .ofBytes ((List.range direntSize).map fun o => bytes o % 256)

theorem Image.Intact.entry_write (hint : img.Intact ok loose) {i k b : Nat}
    (hb : img.block i (direntSize * k / bsize) = some b) (bytes : Nat → Nat) (i' k' : Nat) :
    (img.setBlock b (setBytes (img.data b) (direntSize * k % bsize) direntSize bytes)).entry i' k' =
      if i' = i ∧ k' = k then storedDirent bytes else img.entry i' k' := by
  have hbyte : ∀ o < direntSize, (img.setBlock b (setBytes (img.data b)
      (direntSize * k % bsize) direntSize bytes)).byte i' (direntSize * k' + o) =
      if i' = i ∧ k' = k then bytes o % 256 else img.byte i' (direntSize * k' + o) := by
    intro o ho
    obtain ⟨hdiv, hmod⟩ := dirent_in_block k' ho
    rw [hint.byte_write hb, hdiv, hmod]
    by_cases hi : i' = i
    · by_cases hk : k' = k
      · subst hk
        rw [if_pos ⟨hi, rfl⟩, if_pos ⟨hi, rfl⟩, setBytes, if_pos (by omega), Nat.add_sub_cancel_left]
      · rw [if_neg fun h : i' = i ∧ k' = k => hk h.2]
        by_cases hblock : direntSize * k' / bsize = direntSize * k / bsize
        · rw [if_pos ⟨hi, hblock⟩, setBytes, if_neg (dirent_apart hk hblock ho), byte, hdiv, hmod, hi,
            hblock, hb]
        · rw [if_neg fun h => hblock h.2]
    · rw [if_neg fun h => hi h.1, if_neg fun h => hi h.1]
  by_cases hsame : i' = i ∧ k' = k
  · rw [if_pos hsame]
    simp only [entry, storedDirent]
    congr 1
    refine List.map_congr_left fun o ho => ?_
    rw [hbyte o (List.mem_range.mp ho), if_pos hsame]
  · rw [if_neg hsame]
    simp only [entry]
    congr 1
    refine List.map_congr_left fun o ho => ?_
    rw [hbyte o (List.mem_range.mp ho), if_neg hsame]

def Node.setEntry (node : Node) (k : Nat) (de : Dirent) : Node :=
  { node with entries := Slots.put node.entries k de }

/-- Entry `k` of a directory, which lies in block `b`, is written, and the size brought up to it. -/
def Image.putEntry (img : Image) (i k b : Nat) (bytes : Nat → Nat) : Image :=
  (img.setBlock b (setBytes (img.data b) (direntSize * k % bsize) direntSize bytes)).setNode i
    { img.dinode i with size := max (img.dinode i).size (direntSize * (k + 1)) }

section PutEntry

variable {i k b : Nat} {bytes : Nat → Nat}

theorem Image.putEntry_dinode_self : (img.putEntry i k b bytes).dinode i =
    { img.dinode i with size := max (img.dinode i).size (direntSize * (k + 1)) } := upd_self _ _ _

theorem Image.putEntry_slot : (img.putEntry i k b bytes).slot = (img.setBlock b
    (setBytes (img.data b) (direntSize * k % bsize) direntSize bytes)).slot := by
  unfold putEntry
  exact slot_setNode _ Iff.rfl fun _ _ => rfl

theorem Image.Intact.slot_putEntry (hint : img.Intact ok loose)
    (hb : img.block i (direntSize * k / bsize) = some b) : (img.putEntry i k b bytes).slot = img.slot :=
  putEntry_slot.trans (hint.slot_write hb _)

theorem Image.Intact.entry_putEntry (hint : img.Intact ok loose)
    (hb : img.block i (direntSize * k / bsize) = some b) (i' k' : Nat) :
    (img.putEntry i k b bytes).entry i' k' =
      if i' = i ∧ k' = k then storedDirent bytes else img.entry i' k' := by
  rw [← hint.entry_write hb bytes]
  exact entry_congr (Nat.le_refl _) fun j _ => byte_eq_of_slot putEntry_slot rfl i' j

theorem Image.Intact.putEntry (hint : img.Intact ok loose) (hi : i < img.sb.ninodes)
    (hdir : (img.dinode i).type = .dir) (hk : direntSize * k ≤ (img.dinode i).size)
    (hmax : direntSize * (k + 1) ≤ maxfile * bsize)
    (hb : img.block i (direntSize * k / bsize) = some b)
    (hok : ok (storedDirent bytes)) : (img.putEntry i k b bytes).Intact ok loose := by
  have halloc : (img.dinode i).type ≠ .free := by rw [hdir]; decide
  refine hint.change _ i rfl rfl (hint.slot_putEntry hb) (fun i' hne => upd_of_ne _ _ hne)
    (fun i' hne => hint.data_write hb _ hne) (fun _ _ bn hbn => ?_) (fun _ => ?_) (fun _ hfree => ?_)
    fun _ _ k' hk' => ?_
  · rw [putEntry_dinode_self] at hbn
    by_cases hold : bn * bsize < (img.dinode i).size
    · exact hint.blocks i hi halloc bn hold
    · have heq : bn = direntSize * k / bsize := by
        simp only [bsize, direntSize] at hbn hold hk ⊢
        omega
      rw [heq, hb]
      rfl
  · rw [putEntry_dinode_self]
    exact Nat.max_le.mpr ⟨hint.size_le_max i hi, hmax⟩
  · rw [putEntry_dinode_self] at hfree
    exact absurd hfree halloc
  · rw [hint.entry_putEntry hb]
    by_cases heq : k' = k
    · rw [if_pos ⟨rfl, heq⟩]
      exact hok
    · rw [if_neg fun h => heq h.2]
      refine hint.entries i hi hdir k' ?_
      rw [putEntry_dinode_self] at hk'
      simp only [direntSize] at hk' hk ⊢
      omega

theorem Image.node_dir (img : Image) {i : Nat} (hi : i < img.sb.ninodes) (hdir : (img.dinode i).type = .dir) :
    img.node i = { type := .dir
                   nlink := (img.dinode i).nlink
                   entries := (List.range ((img.dinode i).size / direntSize)).map (img.entry i) } := by
  simp [node, hi, hdir]

theorem map_range_put (e : Nat → Dirent) (de : Dirent) {n k : Nat} (hk : k ≤ n) :
    (List.range (max n (k + 1))).map (fun k' => if k' = k then de else e k') =
      Slots.put ((List.range n).map e) k de := by
  rw [Slots.put, List.length_map, List.length_range]
  split
  · rename_i hlt
    rw [Nat.max_eq_left hlt]
    refine List.ext_getElem (by simp) fun j _ _ => ?_
    simp [List.getElem_set, eq_comm]
  · have heq : k = n := by omega
    rw [heq, Nat.max_eq_right (Nat.le_succ n), List.range_succ, List.map_append]
    congr 1
    · refine List.map_congr_left fun j hj => ?_
      have := List.mem_range.mp hj
      rw [if_neg (by omega)]
    · simp

theorem Image.Intact.node_putEntry (hint : img.Intact ok loose) (hi : i < img.sb.ninodes)
    (hdir : (img.dinode i).type = .dir) (hk : direntSize * k ≤ (img.dinode i).size)
    (hb : img.block i (direntSize * k / bsize) = some b) :
    (img.putEntry i k b bytes).node =
      upd img.node i ((img.node i).setEntry k (storedDirent bytes)) := by
  funext i'
  by_cases heq : i' = i
  · subst heq
    have hsize : max (img.dinode i').size (direntSize * (k + 1)) / direntSize =
        max ((img.dinode i').size / direntSize) (k + 1) := by
      simp only [direntSize]
      omega
    have hle : k ≤ (img.dinode i').size / direntSize := by
      simp only [direntSize] at hk ⊢
      omega
    rw [upd_self, node_dir (img.putEntry i' k b bytes) hi (by rw [putEntry_dinode_self, hdir]),
      node_dir img hi hdir, putEntry_dinode_self, Node.setEntry, hsize,
      ← map_range_put _ _ hle]
    congr 1
    refine List.map_congr_left fun k' _ => ?_
    simp [hint.entry_putEntry hb]
  · have hnode : (img.putEntry i k b bytes).dinode i' = img.dinode i' := upd_of_ne _ _ heq
    rw [upd_of_ne _ _ heq]
    refine node_congr rfl (by rw [hnode]) (by rw [hnode]) (fun _ => by rw [hnode]) fun _ _ j _ => ?_
    have hbyte : (img.putEntry i k b bytes).byte i' j = (img.setBlock b
        (setBytes (img.data b) (direntSize * k % bsize) direntSize bytes)).byte i' j :=
      byte_eq_of_slot putEntry_slot rfl i' j
    rw [hbyte, hint.byte_write hb, if_neg fun h => heq h.1]

end PutEntry

end Nodes

end Xv6Mmap.Fs
