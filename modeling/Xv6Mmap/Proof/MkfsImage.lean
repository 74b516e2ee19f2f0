import Xv6Mmap.Lib.Count
import Xv6Mmap.Proof.FsBlocks
import Xv6Mmap.Proof.FsName
import Xv6Mmap.Proof.Mkfs

/-!
# The image of mkfs as the kernel reads it

`kernel/fs.c` reads the super block, the bitmap, the inodes and the data blocks that `mkfs` wrote. As
long as no block of the root directory is missing, the disk is intact: every block that the bitmap marks
belongs to one inode, and the root directory names the files in their order.
-/

namespace Xv6Mmap.Mkfs

open Sequential Bytes
open Fs (bsize ndirect maxfile nslot dirsiz direntSize rootino InodeType Dirent Image Name key word)
open Finset (range)

/-! ### Decoding -/

def inodeType (n : Nat) : InodeType :=
  if n = 0 then .free else if n = tDir then .dir else if n = tFile then .file else .device

def Dinode.copy (d : Dinode) : Fs.Dinode where
  type := inodeType d.type
  major := Fs.short d.major
  minor := Fs.short d.minor
  nlink := Fs.short d.nlink
  size := d.size
  addrs := d.addrs

def State.image (s : State) : Image where
  sb := { size := get (s.block 1) 4 4
          ninodes := get (s.block 1) 12 4
          datastart := get (s.block 1) 28 4 + nbitmap }
  bitmap := s.marked
  dinode := fun i => (s.ino i).copy
  data := fun b j => if nmeta ≤ b ∧ j < bsize then (s.block b j).toNat else 0

theorem get_four (p : Block) (off : Nat) : get p off 4 = (p off).toNat + 0x100 * (p (off + 1)).toNat +
    0x10000 * (p (off + 2)).toNat + 0x1000000 * (p (off + 3)).toNat := by
  simp only [Bytes.get]
  ring

theorem image_word (s : State) {b i : Nat} (hb : nmeta ≤ b) (hi : i < Fs.nindirect) :
    word (s.image.data b) i = get (s.block b) (4 * i) 4 := by
  have hlt : ∀ o < 4, 4 * i + o < bsize := by
    intro o ho
    simp only [Fs.nindirect, bsize] at hi ⊢
    omega
  rw [get_four]
  simp only [word, State.image]
  rw [if_pos ⟨hb, hlt 0 (by decide)⟩, if_pos ⟨hb, hlt 1 (by decide)⟩, if_pos ⟨hb, hlt 2 (by decide)⟩,
    if_pos ⟨hb, hlt 3 (by decide)⟩]

/-! ### Inodes -/

section Inodes

variable {files : List Input} {s t : State} {i k : Nat}

theorem Final.image_sb (ht : Final files s t) :
    t.image.sb = { size := fssize, ninodes := ninodes, datastart := nmeta } := by
  have hsize : get superblock 4 4 = fssize := by decide +kernel
  have hinodes : get superblock 12 4 = ninodes := by decide +kernel
  have hbmap : get superblock 28 4 + nbitmap = nmeta := by decide +kernel
  simp only [State.image, ht.super, hsize, hinodes, hbmap]

theorem Final.head (ht : Final files s t) (i : Nat) : (t.ino i).head = heads (files.length + 2) i := by
  rw [← ht.inodes, ← ht.inv.head, ht.ino]
  by_cases hi : i = rootino
  · rw [hi, upd_self]
    rfl
  · rw [upd_of_ne _ _ hi]

theorem Final.image_type (ht : Final files s t) (i : Nat) : (t.image.dinode i).type =
    if 0 < i ∧ i < files.length + 2 then (if i = rootino then .dir else .file) else .free := by
  have htype : (t.ino i).type = (heads (files.length + 2) i).1 := congrArg Prod.fst (ht.head i)
  change inodeType (t.ino i).type = _
  rw [htype, heads]
  split
  · split <;> rfl
  · rfl

theorem Final.used_iff (ht : Final files s t) (i : Nat) :
    (t.image.dinode i).type ≠ .free ↔ 0 < i ∧ i < files.length + 2 := by
  rw [ht.image_type]
  split
  · next h => exact ⟨fun _ => h, fun _ => by split <;> decide⟩
  · next h => exact ⟨fun hne => absurd rfl hne, fun h' => absurd h' h⟩

theorem contents_zero (files : List Input) : contents files 0 = [] :=
  withFiles_old (by decide) (by decide)

theorem Final.contents_unused (ht : Final files s t) (hi : ¬ (0 < i ∧ i < files.length + 2)) :
    contents files i = [] := by
  by_cases hzero : i = 0
  · rw [hzero, contents_zero]
  · exact ht.inv.unused i (by rw [ht.inodes]; omega)

theorem Final.needs_pos (ht : Final files s t) (hk : k < needs (contents files) i) :
    0 < i ∧ i < files.length + 2 := by
  by_contra hi
  rw [needs, ht.contents_unused hi] at hk
  exact absurd hk (Nat.not_lt_zero k)

theorem need_le_nslot {len : Nat} (hlen : len ≤ maxfile * bsize) : need len ≤ nslot := by
  have hmono := need_mono hlen
  have hmax : need (maxfile * bsize) = nslot := by decide
  omega

theorem Final.image_addr (ht : Final files s t) (hi : i < inodeRoom) (hk : k < nslot) :
    (t.image.dinode i).addr t.image.data k = t.addr i k := by
  have haddrs : (t.image.dinode i).addrs = (t.dinode i).addrs := by
    rw [dinode_eq t hi]
    rfl
  unfold Fs.Dinode.addr State.addr Dinode.addr
  rw [haddrs]
  by_cases hdirect : k ≤ ndirect
  · rw [if_pos hdirect, if_pos hdirect]
  · rw [if_neg hdirect, if_neg hdirect]
    by_cases hzero : (t.dinode i).addrs ndirect = 0
    · rw [if_pos hzero, hzero, entry_zero]
    · have haddr := ht.addr hi ndirect
      rw [State.addr, addr_direct le_rfl] at haddr
      have hlt : ndirect < needs (contents files) i := by
        rw [← ht.inv.slots.used i, ← haddr]
        exact hzero
      have hlow := (ht.inv.slots.bound i ndirect hlt).1
      rw [← haddr] at hlow
      have hle : k ≤ maxfile := Nat.lt_succ_iff.mp hk
      have hindex : k - (ndirect + 1) < Fs.nindirect := by
        simp only [maxfile] at hle
        omega
      rw [if_neg hzero, image_word t hlow hindex, entry, if_pos ⟨hzero, hle⟩]

theorem Final.image_slot (ht : Final files s t) (hfiles : files.length < 199) {b : Nat} :
    t.image.slot (i, k) = some b ↔ k < needs (contents files) i ∧ (s.ino i).addr s.block k = b := by
  have hroom : i < files.length + 2 → i < inodeRoom := by
    intro hi
    have : inodeRoom = 208 := rfl
    omega
  rw [Image.slot_eq_some, ht.used_iff, ht.image_sb]
  constructor
  · rintro ⟨-, hk, ⟨-, hi⟩, haddr, hpos⟩
    rw [ht.image_addr (hroom hi) hk, ht.addr (hroom hi)] at haddr
    refine ⟨?_, haddr⟩
    rw [← ht.inv.slots.used i, haddr]
    exact hpos
  · rintro ⟨hk, haddr⟩
    have hi := ht.needs_pos hk
    have hslot : k < nslot := hk.trans_le (need_le_nslot (ht.inv.length i))
    have hpos := (ht.inv.slots.used i k).mpr hk
    refine ⟨?_, hslot, hi, ?_, haddr ▸ hpos⟩
    · have : ninodes = 200 := rfl
      dsimp only
      omega
    · rw [ht.image_addr (hroom hi.2) hslot, ht.addr (hroom hi.2), haddr]

theorem Final.image_pool (ht : Final files s t) (hfiles : files.length < 199) :
    Pool.Exact {b | t.image.sb.isData b = true} t.image.bitmap t.image.slot ∅ := by
  have hused : ∀ b, t.image.bitmap b = decide (b < s.freeblock) := by
    intro b
    change t.marked b = _
    rw [State.marked, ht.bitmap, bitmapOf_bit]
  have hdata : ∀ b, t.image.sb.isData b = true ↔ nmeta ≤ b ∧ b < fssize := by
    intro b
    rw [ht.image_sb, Fs.Superblock.isData, Bool.and_eq_true, decide_eq_true_iff, decide_eq_true_iff]
  refine ⟨?_, ?_, ?_, ?_⟩
  · rintro ⟨i, k⟩ b hslot
    obtain ⟨hk, haddr⟩ := (ht.image_slot hfiles).mp hslot
    obtain ⟨hlow, hhigh⟩ := haddr ▸ ht.inv.slots.bound i k hk
    refine ⟨(hdata b).mpr ⟨hlow, hhigh.trans_le ht.inv.room⟩, ?_, Set.notMem_empty b⟩
    rw [hused]
    exact decide_eq_true hhigh
  · rintro ⟨i, k⟩ ⟨i', k'⟩ b hslot hslot'
    obtain ⟨hk, haddr⟩ := (ht.image_slot hfiles).mp hslot
    obtain ⟨hk', haddr'⟩ := (ht.image_slot hfiles).mp hslot'
    obtain ⟨hi, hkk⟩ := ht.inv.slots.unique i k i' k' hk hk' (haddr.trans haddr'.symm)
    rw [hi, hkk]
  · intro b hb
    exact hb.elim
  · intro b hb hmark
    rw [hused] at hmark
    obtain ⟨i, k, hk, haddr⟩ := Finset.exists_of_card_slots
      (fun i _ k hk => ht.inv.slots.bound i k hk) ht.inv.slots.unique ht.inv.total ((hdata b).mp hb).1
      (of_decide_eq_true hmark)
    exact .inr ⟨(i, k), (ht.image_slot hfiles).mpr ⟨hk, haddr⟩⟩

end Inodes

/-! ### The root directory -/

/-- The name of a file as the kernel reads it. -/
def Input.name (f : Input) : Name := key ((skip (shortname f.path)).map UInt8.toNat)

def fileEntries : Nat → List Input → List Dirent
  | _, [] => []
  | n, f :: files => { inum := n, name := f.name } :: fileEntries (n + 1) files

def rootEntries (files : List Input) : List Dirent :=
  { inum := rootino, name := Fs.dot } :: { inum := rootino, name := Fs.dotdot } :: fileEntries 2 files

def decode : Nat → List UInt8 → List Dirent
  | 0, _ => []
  | n + 1, bytes =>
      .ofBytes ((bytes.take direntSize).map UInt8.toNat) :: decode n (bytes.drop direntSize)

section Directory

variable {files : List Input} {s t : State} {n : Nat}

theorem length_fileEntries (n : Nat) (files : List Input) :
    (fileEntries n files).length = files.length := by
  induction files generalizing n with
  | nil => rfl
  | cons f files ih => rw [fileEntries, List.length_cons, ih, List.length_cons]

theorem fileEntries_inum {de : Dirent} (hde : de ∈ fileEntries n files) :
    n ≤ de.inum ∧ de.inum < n + files.length := by
  induction files generalizing n with
  | nil => cases hde
  | cons f files ih =>
      rw [List.length_cons]
      rcases List.mem_cons.mp hde with rfl | hde
      · dsimp only
        omega
      · have hnext := ih hde
        omega

theorem rootEntries_inum {de : Dirent} (hde : de ∈ rootEntries files) :
    1 ≤ de.inum ∧ de.inum < files.length + 2 := by
  rcases List.mem_cons.mp hde with rfl | hde
  · exact ⟨le_rfl, by dsimp only [rootino]; omega⟩
  rcases List.mem_cons.mp hde with rfl | hde
  · exact ⟨le_rfl, by dsimp only [rootino]; omega⟩
  · have hfile := fileEntries_inum hde
    omega

theorem takeWhile_padded (n : Nat) (name : Name) :
    ((name ++ List.replicate n 0).take n).takeWhile (fun c => c ≠ 0) = Fs.cut n name := by
  induction n generalizing name with
  | zero => simp [Fs.cut]
  | succ n ih =>
      cases name with
      | nil => simp [Fs.cut, List.replicate_succ]
      | cons c name =>
          have hpad : (name ++ List.replicate (n + 1) 0).take n = (name ++ List.replicate n 0).take n := by
            rw [List.replicate_succ', ← List.append_assoc, List.take_append_of_le_length]
            rw [List.length_append, List.length_replicate]
            omega
          rw [List.cons_append, List.take_succ_cons, hpad, Fs.cut_cons, List.takeWhile_cons, ih]
          by_cases hc : c = 0 <;> simp [hc]

theorem ofBytes_dirent {inum : Nat} (hinum : inum < 0x10000) (name : List UInt8) :
    Dirent.ofBytes ((dirent inum name).map UInt8.toNat) =
      { inum := inum, name := key (name.map UInt8.toNat) } := by
  have hname : (((name ++ List.replicate dirsiz 0).take dirsiz).map UInt8.toNat) =
      (name.map UInt8.toNat ++ List.replicate dirsiz 0).take dirsiz := by
    rw [List.map_take, List.map_append, List.map_replicate]
    rfl
  have hlow : (UInt8.ofNat inum).toNat + 0x100 * (UInt8.ofNat (inum / 256)).toNat = inum := by
    rw [UInt8.toNat_ofNat', UInt8.toNat_ofNat']
    omega
  have hlen : (((name.map UInt8.toNat ++ List.replicate dirsiz 0).take dirsiz).take dirsiz) =
      (name.map UInt8.toNat ++ List.replicate dirsiz 0).take dirsiz := by
    rw [List.take_take, Nat.min_self]
  rw [dirent, List.map_append, hname, Dirent.ofBytes]
  simp only [List.map_cons, List.map_nil, List.cons_append, List.nil_append, List.getD_cons_zero,
    List.getD_cons_succ, List.drop_succ_cons, List.drop_zero, hlen, hlow, takeWhile_padded]
  rfl

theorem map_range_eq_decode (n : Nat) (bytes : List UInt8) : (List.range n).map (fun k =>
    Dirent.ofBytes (((bytes.drop (direntSize * k)).take direntSize).map UInt8.toNat)) = decode n bytes := by
  induction n generalizing bytes with
  | zero => rfl
  | succ n ih =>
      rw [List.range_succ_eq_map, List.map_cons, List.map_map, decode, ← ih]
      congr 1
      apply List.map_congr_left
      intro k _
      rw [Function.comp_apply, List.drop_drop, Nat.mul_succ, Nat.add_comm]

theorem decode_dirent {inum : Nat} (hinum : inum < 0x10000) (name rest : List UInt8) (n : Nat) :
    decode (n + 1) (dirent inum name ++ rest) =
      { inum := inum, name := key (name.map UInt8.toNat) } :: decode n rest := by
  rw [decode, List.take_left' (length_dirent inum name), List.drop_left' (length_dirent inum name),
    ofBytes_dirent hinum]

theorem decode_entries (hn : n + files.length ≤ 0x10000) (rest : List UInt8) (m : Nat) :
    decode (files.length + m) (entries n files ++ rest) = fileEntries n files ++ decode m rest := by
  induction files generalizing n with
  | nil => rw [List.length_nil, Nat.zero_add, entries, fileEntries, List.nil_append, List.nil_append]
  | cons f files ih =>
      rw [List.length_cons] at hn ⊢
      rw [Nat.add_right_comm, entries, Input.entry, List.append_assoc, decode_dirent (by omega),
        ih (by omega), fileEntries, List.cons_append, Input.name]

theorem decode_zeroes (n : Nat) : decode n (List.replicate (n * direntSize) 0) =
    List.replicate n { inum := 0, name := [] } := by
  induction n with
  | zero => rfl
  | succ n ih =>
      have hdrop : (n + 1) * direntSize - direntSize = n * direntSize := by
        rw [Nat.add_mul, Nat.one_mul, Nat.add_sub_cancel]
      have htake : min direntSize ((n + 1) * direntSize) = direntSize := by
        rw [Nat.add_mul, Nat.one_mul]
        omega
      have hzero : Dirent.ofBytes ((List.replicate direntSize (0 : UInt8)).map UInt8.toNat) =
          { inum := 0, name := [] } := by decide
      rw [decode, List.take_replicate, List.drop_replicate, hdrop, htake, hzero, ih,
        List.replicate_succ]

theorem decode_rootDir (hfiles : files.length < 199) (m : Nat) :
    decode (files.length + 2 + m) (rootDir files ++ List.replicate (m * direntSize) 0) =
      rootEntries files ++ List.replicate m { inum := 0, name := [] } := by
  have hlen : files.length + 2 + m = files.length + m + 1 + 1 := by omega
  rw [hlen, rootDir, List.append_assoc, List.append_assoc, decode_dirent (by decide),
    decode_dirent (by decide), decode_entries (by omega), decode_zeroes]
  rfl

/-! ### The disk -/

variable {i j : Nat}

theorem Final.image_byte (ht : Final files s t) (hfiles : files.length < 199)
    (hfull : ¬ 64 ∣ files.length + 2) (hi : i < files.length + 2) (hj : j < (t.dinode i).size) :
    t.image.byte i j = ((t.bytes i).getD j 0).toNat := by
  have hroom : i < inodeRoom := by
    have : inodeRoom = 208 := rfl
    omega
  have hlt : slotOf (j / bsize) < needs (contents files) i := by
    rw [← ht.need_size hfull hroom, slotOf_lt_need]
    exact (Nat.div_mul_le_self j bsize).trans_lt hj
  have hblock : t.image.block i (j / bsize) = some (t.addr i (slotOf (j / bsize))) :=
    (ht.image_slot hfiles).mpr ⟨hlt, (ht.addr hroom _).symm⟩
  have hlow : nmeta ≤ t.addr i (slotOf (j / bsize)) := by
    rw [ht.addr hroom]
    exact (ht.inv.slots.bound i _ hlt).1
  have hbyte : (t.bytes i).getD j 0 = t.block (t.addr i (slotOf (j / bsize))) (j % bsize) := by
    rw [State.bytes, List.getD_eq_getElem?_getD, List.getElem?_map, List.getElem?_range hj]
    rfl
  rw [Image.byte, hblock, hbyte]
  exact if_pos ⟨hlow, Nat.mod_lt j (by decide)⟩

theorem image_size (t : State) (hi : i < inodeRoom) :
    (t.image.dinode i).size = (t.dinode i).size := by
  rw [dinode_eq t hi]
  rfl

theorem Final.image_entry (ht : Final files s t) (hfiles : files.length < 199)
    (hfull : ¬ 64 ∣ files.length + 2) {k : Nat} (hk : direntSize * (k + 1) ≤ (t.dinode rootino).size) :
    t.image.entry rootino k =
      .ofBytes ((((t.bytes rootino).drop (direntSize * k)).take direntSize).map UInt8.toNat) := by
  have hlen : (t.bytes rootino).length = (t.dinode rootino).size := by
    rw [State.bytes, List.length_map, List.length_range]
  rw [Nat.mul_succ] at hk
  rw [Image.entry]
  congr 1
  apply List.ext_getElem
  · rw [List.length_map, List.length_map, List.length_take, List.length_drop, List.length_range]
    omega
  · intro o ho _
    have ho : o < direntSize := by simpa using ho
    rw [List.getElem_map, List.getElem_range, List.getElem_map, List.getElem_take, List.getElem_drop,
      ht.image_byte hfiles hfull (by dsimp only [rootino]; omega) (by omega),
      List.getD_eq_getElem _ _ (by omega)]

/-- The root directory has the entries of the files, and behind them unused ones. -/
theorem Final.image_root (ht : Final files s t) (hfiles : files.length < 199)
    (hfull : ¬ 64 ∣ files.length + 2) : ∃ unused, (t.image.node rootino).entries =
      rootEntries files ++ List.replicate unused { inum := 0, name := [] } ∧
        (t.dinode rootino).size = direntSize * (files.length + 2 + unused) := by
  obtain ⟨unused, hbytes⟩ := (ht.consistent hfiles hfull).root
  have hsize : (t.dinode rootino).size = direntSize * (files.length + 2 + unused) := by
    have hlen := congrArg List.length hbytes
    rw [State.bytes, List.length_map, List.length_range, List.length_append, length_rootDir,
      List.length_replicate] at hlen
    rw [hlen]
    ring
  have htype : (t.image.dinode rootino).type = .dir := by
    rw [ht.image_type, if_pos ⟨by decide, by dsimp only [rootino]; omega⟩, if_pos rfl]
  have hroot : rootino < t.image.sb.ninodes := by
    rw [ht.image_sb]
    decide
  refine ⟨unused, ?_, hsize⟩
  rw [Image.node_dir t.image hroot htype, image_size t (by decide), hsize,
    Nat.mul_div_cancel_left _ (by decide), ← decode_rootDir hfiles, ← map_range_eq_decode]
  apply List.map_congr_left
  intro k hk
  have hk : k < files.length + 2 + unused := List.mem_range.mp hk
  rw [ht.image_entry hfiles hfull (by rw [hsize]; exact Nat.mul_le_mul_left direntSize hk), hbytes]

theorem Final.image_intact (ht : Final files s t) (hfiles : files.length < 199)
    (hfull : ¬ 64 ∣ files.length + 2) {ok : Dirent → Prop} (hok : ∀ de, de.inum < ninodes → ok de) :
    t.image.Intact ok ∅ := by
  have hroom : ∀ i < t.image.sb.ninodes, i < inodeRoom := by
    intro i hi
    rw [ht.image_sb] at hi
    exact hi.trans (by decide)
  have hcontents : ∀ i, (contents files i).length ≤ maxfile * bsize := ht.inv.length
  refine ⟨?_, ?_, ?_, ht.image_pool hfiles, ?_, ?_, ?_, ?_⟩
  · rw [ht.image_sb]
    decide
  · rw [ht.image_sb]
    decide
  · intro b hb
    rw [ht.image_sb] at hb
    change t.marked b = true
    rw [State.marked, ht.bitmap, bitmapOf_bit, ht.inv.total]
    exact decide_eq_true (Nat.lt_add_right _ hb)
  · intro i hi _ bn hbn
    rw [image_size t (hroom i hi)] at hbn
    have hlt : slotOf bn < needs (contents files) i := by
      rw [← ht.need_size hfull (hroom i hi)]
      exact slotOf_lt_need.mpr hbn
    have hslot : t.image.block i bn = some _ := (ht.image_slot hfiles).mpr ⟨hlt, rfl⟩
    rw [hslot]
    rfl
  · intro i hi
    rw [image_size t (hroom i hi)]
    by_cases hroot : i = rootino
    · rw [hroot, ht.size_root]
      simp only [direntSize, bsize, maxfile, ndirect, Fs.nindirect]
      omega
    · rw [ht.size (hroom i hi) hroot]
      exact hcontents i
  · intro i hi hfree
    have hunused : ¬ (0 < i ∧ i < files.length + 2) := fun h => (ht.used_iff i).mpr h hfree
    have hroot : i ≠ rootino := by
      rintro rfl
      exact hunused ⟨by decide, by dsimp only [rootino]; omega⟩
    rw [image_size t (hroom i hi), ht.size (hroom i hi) hroot, ht.contents_unused hunused, List.length_nil]
  · intro i hi hdir k hk
    have hroot : i = rootino := by
      rw [ht.image_type] at hdir
      split at hdir
      · split at hdir
        · assumption
        · cases hdir
      · cases hdir
    subst hroot
    obtain ⟨unused, hentries, hsize⟩ := ht.image_root hfiles hfull
    rw [Image.node_dir t.image hi hdir] at hentries
    have hmem : t.image.entry rootino k ∈
        rootEntries files ++ List.replicate unused { inum := 0, name := [] } := by
      rw [← hentries]
      refine List.mem_map_of_mem (List.mem_range.mpr ?_)
      exact (Nat.le_div_iff_mul_le (by decide)).mpr ((Nat.mul_comm _ _).trans_le hk)
    apply hok
    rcases List.mem_append.mp hmem with hlive | hdead
    · have hinum := rootEntries_inum hlive
      have : ninodes = 200 := rfl
      omega
    · rw [List.eq_of_mem_replicate hdead]
      decide

end Directory

/-! ### The image without files -/

section Empty

variable {s t : State}

theorem needs_nil (i : Nat) : needs (contents []) i = if i = rootino then 1 else 0 := by
  by_cases hi : i = rootino
  · rw [if_pos hi, hi, needs, contents_root, length_rootDir]
    rfl
  · rw [if_neg hi, needs, contents, withFiles, rootOnly, upd_of_ne _ _ hi]
    rfl

theorem Final.freeblock_nil (ht : Final [] s t) : s.freeblock = 47 := by
  have htotal : total (needs (contents [])) = 1 := by decide +kernel
  rw [ht.inv.total, htotal]
  rfl

theorem Final.addrs_nil (ht : Final [] s t) (i k : Nat) :
    (t.ino i).addrs k = if i = rootino ∧ k = 0 then 46 else 0 := by
  have haddrs : (t.ino i).addrs = (s.ino i).addrs := by
    rw [ht.ino]
    by_cases hi : i = rootino
    · rw [hi, upd_self]
    · rw [upd_of_ne _ _ hi]
  by_cases hk : k ≤ ndirect
  · have hused := ht.inv.slots.used i k
    have hbound := ht.inv.slots.bound i k
    rw [addr_direct hk, ← haddrs, needs_nil] at hused hbound
    rw [ht.freeblock_nil] at hbound
    have hmeta : nmeta = 46 := rfl
    split
    · next h =>
        rw [if_pos h.1] at hbound
        omega
    · next h =>
        by_contra hne
        have hlt := hused.mp hne
        split at hlt
        · next hi => exact h ⟨hi, by omega⟩
        · omega
  · rw [(ino_fits t i).beyond k (by omega), if_neg (by omega)]

theorem Final.dinode_nil (ht : Final [] s t) (i : Nat) : t.image.dinode i = Fs.mkfs.dinode i := by
  have hhead := ht.head i
  rw [Dinode.head, heads] at hhead
  have haddrs : (t.ino i).addrs = fun k => if i = rootino ∧ k = 0 then 46 else 0 :=
    funext (ht.addrs_nil i)
  have hsize : (t.ino i).size = if i = rootino then bsize else 0 := by
    rw [ht.ino]
    by_cases hi : i = rootino
    · rw [hi, upd_self, if_pos rfl, contents_root, length_rootDir]
      rfl
    · rw [upd_of_ne _ _ hi, if_neg hi, ht.inv.size, contents, withFiles, rootOnly, upd_of_ne _ _ hi]
      rfl
  change (t.ino i).copy = Fs.mkfs.dinode i
  rw [Dinode.copy, haddrs, hsize]
  by_cases hi : i = rootino
  · subst hi
    rw [if_pos ⟨by decide, by decide⟩] at hhead
    obtain ⟨htype, hmajor, hminor, hnlink⟩ : _ ∧ _ ∧ _ ∧ _ := by simpa only [Prod.mk.injEq] using hhead
    rw [htype, hmajor, hminor, hnlink]
    simp only [true_and]
    rfl
  · have hunused : ¬ (0 < i ∧ i < ([] : List Input).length + 2) := by
      rw [List.length_nil]
      dsimp only [rootino] at hi
      omega
    rw [if_neg hunused] at hhead
    obtain ⟨htype, hmajor, hminor, hnlink⟩ : _ ∧ _ ∧ _ ∧ _ := by simpa only [Prod.mk.injEq] using hhead
    rw [htype, hmajor, hminor, hnlink]
    simp only [hi, false_and, if_false, Fs.mkfs]
    rfl

theorem Final.data_nil (ht : Final [] s t) (b j : Nat) : t.image.data b j = Fs.mkfs.data b j := by
  have hroot : Fs.mkfs.data 46 j = ((rootDir []).getD j 0).toNat := by
    have hbytes : ({ inum := rootino, name := Fs.dot } : Dirent).toBytes ++
        ({ inum := rootino, name := Fs.dotdot } : Dirent).toBytes = (rootDir []).map UInt8.toNat := by
      decide
    calc Fs.mkfs.data 46 j = (({ inum := rootino, name := Fs.dot } : Dirent).toBytes ++
          ({ inum := rootino, name := Fs.dotdot } : Dirent).toBytes).getD j 0 := rfl
      _ = ((rootDir []).map UInt8.toNat).getD j (UInt8.toNat 0) := by rw [hbytes, UInt8.toNat_zero]
      _ = ((rootDir []).getD j 0).toNat := List.getD_map _ _ _
  change (if nmeta ≤ b ∧ j < bsize then (t.block b j).toNat else 0) = _
  by_cases hb : b = 46
  · rw [hb, hroot]
    split
    · next h =>
        have hlt : slotOf 0 < needs (contents []) rootino := by decide +kernel
        have haddr : (s.ino rootino).addr s.block (slotOf 0) = 46 := by
          have hbound := ht.inv.slots.bound rootino (slotOf 0) hlt
          rw [ht.freeblock_nil] at hbound
          have : nmeta = 46 := rfl
          omega
        have hcontent := ht.inv.content rootino 0 hlt j h.2
        rw [haddr, Nat.zero_mul, Nat.zero_add, contents_root] at hcontent
        rw [ht.block 46 h.1, hcontent]
    · next h =>
        have hlen : (rootDir []).length ≤ j := by
          rw [length_rootDir]
          have hge : ¬ j < bsize := fun hj => h ⟨by decide, hj⟩
          simp only [bsize] at hge
          simp only [List.length_nil, direntSize]
          omega
        rw [List.getD_eq_default _ _ hlen]
        rfl
  · have hother : Fs.mkfs.data b j = 0 := by
      simp only [Fs.mkfs, if_neg hb]
    rw [hother]
    split
    · next h =>
        have hmeta : nmeta = 46 := rfl
        rw [ht.block b h.1, ht.inv.slots.fresh b (by rw [ht.freeblock_nil]; omega) j]
        rfl
    · rfl

/-- Without files, `mkfs` makes the image that the file system is started from elsewhere. -/
theorem image_nil : ∃ t, main [] .start = .ok () t ∧ t.image = Fs.mkfs := by
  obtain ⟨t, hrun, s, ht⟩ := main_ok [] (by decide) (by decide +kernel) (by simp)
  refine ⟨t, hrun, ?_⟩
  have hsb := ht.image_sb
  have hbitmap : t.image.bitmap = Fs.mkfs.bitmap := by
    funext b
    change t.marked b = decide (b < 47)
    rw [State.marked, ht.bitmap, bitmapOf_bit, ht.freeblock_nil]
  have hdinode : t.image.dinode = Fs.mkfs.dinode := funext ht.dinode_nil
  have hdata : t.image.data = Fs.mkfs.data := funext fun b => funext (ht.data_nil b)
  calc t.image = ⟨t.image.sb, t.image.bitmap, t.image.dinode, t.image.data⟩ := rfl
    _ = Fs.mkfs := by
      rw [hsb, hbitmap, hdinode, hdata]
      rfl

end Empty

end Xv6Mmap.Mkfs
