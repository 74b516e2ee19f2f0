import Xv6Mmap.Proof.FsBlocks

/-!
# What is in a file

The bytes of a file below its size, and what it means that some of them have been written while the
other bytes of the disk that belong to files are what they were.
-/

namespace Xv6Mmap.Fs

def Image.content (img : Image) (i : Nat) : List Nat :=
  (List.range (img.dinode i).size).map (img.byte i)

/-- Bytes of the file `i` have been written, those from `lo` up to `hi`. Blocks may have been added,
and the sizes are what they were. -/
structure Image.Filled (i lo hi : Nat) (new : Nat → Nat) (img img' : Image) : Prop where
  sb : img'.sb = img.sb
  type : ∀ i, (img'.dinode i).type = (img.dinode i).type
  nlink : ∀ i, (img'.dinode i).nlink = (img.dinode i).nlink
  size : ∀ i, (img'.dinode i).size = (img.dinode i).size
  block : ∀ i bn, (img.block i bn).isSome → (img'.block i bn).isSome
  written : ∀ j, lo ≤ j → j < hi → (img'.block i (j / bsize)).isSome ∧ img'.byte i j = new j
  kept : ∀ i' j, (img.block i' (j / bsize)).isSome → ¬ (i' = i ∧ lo ≤ j ∧ j < hi) →
    img'.byte i' j = img.byte i' j

section Filled

variable {img img' img'' : Image} {ok : Dirent → Prop} {loose : Set Nat} {i lo mid hi : Nat}
  {new : Nat → Nat}

theorem Image.Grown.filled (h : img.Grown img') (i lo : Nat) (new : Nat → Nat) :
    img.Filled i lo lo new img' where
  sb := h.sb
  type := h.type
  nlink := h.nlink
  size := h.size
  block := fun i bn hbn => by
    obtain ⟨b, hb⟩ := Option.isSome_iff_exists.mp hbn
    exact Option.isSome_iff_exists.mpr ⟨b, h.slot _ b hb⟩
  written := fun j hj hj' => by omega
  kept := fun i' j hblock _ => h.byte hblock

theorem Image.Filled.trans (h : img.Filled i lo mid new img') (h' : img'.Filled i mid hi new img'')
    (hlo : lo ≤ mid) (hmid : mid ≤ hi) : img.Filled i lo hi new img'' where
  sb := h'.sb.trans h.sb
  type := fun i => (h'.type i).trans (h.type i)
  nlink := fun i => (h'.nlink i).trans (h.nlink i)
  size := fun i => (h'.size i).trans (h.size i)
  block := fun i bn hbn => h'.block i bn (h.block i bn hbn)
  written := fun j hj hj' => by
    by_cases hjm : j < mid
    · obtain ⟨hblock, hbyte⟩ := h.written j hj hjm
      exact ⟨h'.block i _ hblock, (h'.kept i j hblock fun hin => by omega).trans hbyte⟩
    · exact h'.written j (by omega) hj'
  kept := fun i' j hblock hout => by
    rw [h'.kept i' j (h.block i' _ hblock) fun hin => hout ⟨hin.1, by omega, hin.2.2⟩,
      h.kept i' j hblock fun hin => hout ⟨hin.1, hin.2.1, by omega⟩]

theorem Image.Intact.filled_write (hint : img.Intact ok loose) {b c : Nat} (src : Nat → Nat)
    (hb : img.block i (lo / bsize) = some b) (hc : lo % bsize + c ≤ bsize)
    (hnew : ∀ k < c, new (lo + k) = src k % 256) :
    img.Filled i lo (lo + c) new
      (img.setBlock b (setBytes (img.data b) (lo % bsize) c src)) where
  sb := rfl
  type := fun _ => rfl
  nlink := fun _ => rfl
  size := fun _ => rfl
  block := fun i' bn h => by
    have hblock : (img.setBlock b (setBytes (img.data b) (lo % bsize) c src)).block i' bn =
        img.block i' bn := congrFun (hint.slot_write hb _) _
    rwa [hblock]
  written := fun j hj hj' => by
    obtain ⟨k, rfl⟩ := Nat.exists_eq_add_of_le hj
    have hdiv : (lo + k) / bsize = lo / bsize := by
      simp only [bsize] at hc ⊢
      omega
    have hmod : (lo + k) % bsize = lo % bsize + k := by
      simp only [bsize] at hc ⊢
      omega
    refine ⟨?_, ?_⟩
    · have hblock : (img.setBlock b (setBytes (img.data b) (lo % bsize) c src)).block i (lo / bsize) =
          img.block i (lo / bsize) := congrFun (hint.slot_write hb _) _
      rw [hdiv, hblock, hb]
      rfl
    · rw [hint.byte_write hb, if_pos ⟨rfl, hdiv⟩, hmod, setBytes, if_pos (by omega),
        Nat.add_sub_cancel_left, hnew k (by omega)]
  kept := fun i' j _ hout => by
    rw [hint.byte_write hb]
    split
    · rename_i hin
      obtain ⟨rfl, hdiv⟩ := hin
      have hj : ¬ (lo % bsize ≤ j % bsize ∧ j % bsize < lo % bsize + c) := fun h => by
        refine hout ⟨rfl, ?_⟩
        simp only [bsize] at hdiv h hc ⊢
        omega
      rw [setBytes, if_neg hj, byte, hdiv, hb]
    · rfl

theorem Image.Intact.kept_of_filled (hint : img.Intact ok loose) (h : img.Filled i lo hi new img')
    {i' j : Nat} (hi' : i' < img.sb.ninodes) (hj : j < (img.dinode i').size)
    (hout : ¬ (i' = i ∧ lo ≤ j ∧ j < hi)) : img'.byte i' j = img.byte i' j := by
  by_cases htype : (img.dinode i').type = .free
  · rw [hint.free_size i' hi' htype] at hj
    omega
  · exact h.kept i' j (hint.blocks i' hi' htype _ (div_mul_lt hj)) hout

end Filled

/-! ### Content -/

def overwrite (old : List Nat) (off : Nat) (bytes : List Nat) : List Nat :=
  old.take off ++ bytes ++ old.drop (off + bytes.length)

theorem overwrite_nil (old : List Nat) (off : Nat) : overwrite old off [] = old := by
  simp [overwrite]

theorem length_overwrite {old : List Nat} {off : Nat} (hoff : off ≤ old.length) (bytes : List Nat) :
    (overwrite old off bytes).length = max old.length (off + bytes.length) := by
  simp only [overwrite, List.length_append, List.length_take, List.length_drop]
  omega

theorem overwrite_overwrite {old : List Nat} {off : Nat} (hoff : off ≤ old.length)
    (bytes more : List Nat) :
    overwrite (overwrite old off bytes) (off + bytes.length) more =
      overwrite old off (bytes ++ more) := by
  have hlen : (old.take off ++ bytes).length = off + bytes.length := by
    rw [List.length_append, List.length_take, Nat.min_eq_left hoff]
  have hrest : off + bytes.length + (off + bytes.length + more.length - (off + bytes.length)) =
      off + (bytes.length + more.length) := by omega
  simp only [overwrite]
  rw [List.take_left' hlen, List.drop_append, hlen, List.drop_eq_nil_of_le (by omega),
    List.nil_append, List.drop_drop, List.length_append, hrest, List.append_assoc (old.take off)]

theorem overwrite_map_range (f g : Nat → Nat) {n off : Nat} (hoff : off ≤ n) (m : Nat) :
    overwrite ((List.range n).map f) off ((List.range m).map fun k => g (off + k)) =
      (List.range (max n (off + m))).map fun j => if off ≤ j ∧ j < off + m then g j else f j := by
  refine List.ext_getElem (by rw [length_overwrite (by simpa using hoff)]; simp) fun j hj hj' => ?_
  have hlen : ((List.range n).map f).length = n := by simp
  simp only [overwrite, List.getElem_append, List.length_append, List.length_take, List.length_map,
    List.length_range, Nat.min_eq_left hoff]
  by_cases hlow : j < off
  · rw [dif_pos (by omega), dif_pos hlow]
    simp [Nat.not_le_of_lt hlow]
  · by_cases hin : j < off + m
    · rw [dif_pos hin, dif_neg hlow]
      simp only [List.getElem_map, List.getElem_range]
      rw [if_pos (by omega), Nat.add_sub_cancel' (by omega)]
    · rw [dif_neg hin]
      simp only [List.getElem_drop, List.getElem_map, List.getElem_range]
      rw [if_neg (by omega)]
      congr 1
      omega

/-- `bytes` have been written into the file `i` from `off` up, and that is all. -/
structure Image.Rewritten (i off : Nat) (bytes : List Nat) (img img' : Image) : Prop where
  sb : img'.sb = img.sb
  content : img'.content i = overwrite (img.content i) off bytes
  others : ∀ i' < img.sb.ninodes, i' ≠ i → img'.content i' = img.content i'

theorem Image.length_content (img : Image) (i : Nat) : (img.content i).length = (img.dinode i).size := by
  simp [content]

theorem Image.content_congr {img img' : Image} {i : Nat}
    (hsize : (img'.dinode i).size = (img.dinode i).size)
    (hbyte : ∀ j < (img.dinode i).size, img'.byte i j = img.byte i j) :
    img'.content i = img.content i := by
  rw [content, content, hsize]
  exact List.map_congr_left fun j hj => hbyte j (List.mem_range.mp hj)

section Rewritten

variable {img img' img'' : Image} {ok : Dirent → Prop} {loose : Set Nat} {i off : Nat}
  {bytes more : List Nat}

theorem Image.Rewritten.trans (h : img.Rewritten i off bytes img')
    (h' : img'.Rewritten i (off + bytes.length) more img'') (hoff : off ≤ (img.dinode i).size) :
    img.Rewritten i off (bytes ++ more) img'' where
  sb := h'.sb.trans h.sb
  content := by
    rw [h'.content, h.content, overwrite_overwrite (by rwa [length_content])]
  others := fun i' hi' hne => (h'.others i' (h.sb ▸ hi') hne).trans (h.others i' hi' hne)

theorem Image.Rewritten.refl (img : Image) (i off : Nat) : img.Rewritten i off [] img :=
  ⟨rfl, (overwrite_nil _ _).symm, fun _ _ _ => rfl⟩

theorem Image.Intact.rewritten (hint : img.Intact ok loose) {n : Nat} {new : Nat → Nat}
    (hi : i < img.sb.ninodes) (hoff : off ≤ (img.dinode i).size)
    (hfill : img.Filled i off (off + n) new img') :
    img.Rewritten i off ((List.range n).map fun k => new (off + k))
      (img'.setNode i { img'.dinode i with size := max (img.dinode i).size (off + n) }) where
  sb := hfill.sb
  content := by
    have hself : (img'.setNode i { img'.dinode i with
        size := max (img.dinode i).size (off + n) }).dinode i = { img'.dinode i with
        size := max (img.dinode i).size (off + n) } := upd_self _ _ _
    rw [content, content, hself, overwrite_map_range _ _ hoff]
    refine List.map_congr_left fun j hj => ?_
    rw [byte_eq_of_slot (setNode_resize_slot img' i _) rfl]
    split
    · rename_i hin
      exact (hfill.written j hin.1 hin.2).2
    · rename_i hout
      have hj : j < max (img.dinode i).size (off + n) := List.mem_range.mp hj
      exact hint.kept_of_filled hfill hi (by omega) fun hin => hout hin.2
  others := fun i' hi' hne => by
    have hnode : (img'.setNode i { img'.dinode i with
        size := max (img.dinode i).size (off + n) }).dinode i' = img'.dinode i' := upd_of_ne _ _ hne
    refine content_congr (by rw [hnode, hfill.size]) fun j hj => ?_
    rw [byte_eq_of_slot (setNode_resize_slot img' i _) rfl]
    exact hint.kept_of_filled hfill hi' hj fun hin => hne hin.1

end Rewritten

end Xv6Mmap.Fs
