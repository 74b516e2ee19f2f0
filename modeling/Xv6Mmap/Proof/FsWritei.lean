import Xv6Mmap.Proof.FsInode

/-!
# Writing inodes

`writei` fills a range of the file and leaves the disk intact. In a directory, writing an entry is the
change of one entry.
-/

namespace Xv6Mmap.Fs

open Sequential

section Writing

variable {s : State} {ip : Nat} {ok : Dirent → Prop} {E : Stop → State → Prop}

def Synced (ip : Nat) (s : State) : Prop := s.dinode (s.itable ip).inum = (s.itable ip).copy

theorem Synced.view_eq (hsync : Synced ip s) : s.view ip = s.disk := by
  simp only [State.view, Image.setNode, State.disk]
  rw [upd_eq_self _ _ hsync]

theorem Mapped.copy {k r : Nat} {t : State} (hmap : Mapped ok ip k s r t) :
    (t.itable ip).copy.type = (s.itable ip).copy.type ∧
      (t.itable ip).copy.size = (s.itable ip).copy.size := by
  have hself := State.view_dinode_self t ip
  rw [hmap.inum] at hself
  exact ⟨by rw [← hself, hmap.grown.type, State.view_dinode_self],
    by rw [← hself, hmap.grown.size, State.view_dinode_self]⟩

/-- Bytes of the inode `ip` have been written, those from `lo` up to `hi`. -/
structure Filled (ok : Dirent → Prop) (ip lo hi : Nat) (new : Nat → Nat) (s t : State) : Prop where
  intact : (t.view ip).Intact ok ∅
  image : (s.view ip).Filled (s.itable ip).inum lo hi new (t.view ip)
  inum : (t.itable ip).inum = (s.itable ip).inum

section Filled

variable {t u : State} {lo mid hi : Nat} {new : Nat → Nat}

theorem Filled.sb (h : Filled ok ip lo hi new s t) : t.sb = s.sb := h.image.sb

theorem Filled.type (h : Filled ok ip lo hi new s t) :
    (t.itable ip).copy.type = (s.itable ip).copy.type := by
  rw [← State.view_dinode_self t, ← State.view_dinode_self s, h.inum, h.image.type]

theorem Filled.size (h : Filled ok ip lo hi new s t) :
    (t.itable ip).copy.size = (s.itable ip).copy.size := by
  rw [← State.view_dinode_self t, ← State.view_dinode_self s, h.inum, h.image.size]

theorem Filled.loaded (h : Filled ok ip lo hi new s t) (hload : Loaded ip s) : Loaded ip t :=
  hload.congr h.sb h.inum h.type

theorem Filled.trans (h : Filled ok ip lo mid new s t) (h' : Filled ok ip mid hi new t u)
    (hlo : lo ≤ mid) (hmid : mid ≤ hi) : Filled ok ip lo hi new s u :=
  ⟨h'.intact, h.image.trans (h.inum ▸ h'.image) hlo hmid, h'.inum.trans h.inum⟩

theorem Filled.refl (hint : (s.view ip).Intact ok ∅) : Filled ok ip lo lo new s s :=
  ⟨hint, (Image.Grown.refl _).filled _ _ _, rfl⟩

theorem Mapped.filled {k r : Nat} (hmap : Mapped ok ip k s r t) : Filled ok ip lo lo new s t :=
  ⟨hmap.intact, hmap.grown.filled _ _ _, hmap.inum⟩

theorem modifyBlock_wp (hint : (s.view ip).Intact ok ∅)
    (hok : (s.itable ip).copy.type = .dir → ∀ de, ok de) (new : Nat → Nat) {b : Nat} (c : Nat)
    (src : Nat → Nat) (hb : (s.view ip).block (s.itable ip).inum (lo / bsize) = some b) (hc : lo % bsize + c ≤ bsize)
    (hnew : ∀ k < c, new (lo + k) = src k % 256) :
    Wp (modifyBlock b fun block => setBytes block (lo % bsize) c src)
      (fun _ t => Filled ok ip lo (lo + c) new s t ∧ t.bitmap = s.bitmap) E s := by
  obtain ⟨hdata, -, -⟩ := hint.pool.owned _ b hb
  exact .of_ok (if_pos hdata) ⟨⟨hint.write hb (by rwa [State.view_dinode_self]) _,
    hint.filled_write src hb hc hnew, rfl⟩, rfl⟩

/-- The blocks of the inode below `n` are there. -/
def Covered (ip n : Nat) (s : State) : Prop :=
  ∀ bn, bn * bsize < n → ((s.view ip).block (s.itable ip).inum bn).isSome

theorem Covered.filled {n : Nat} (hcov : Covered ip n s) (h : Filled ok ip lo hi new s t) :
    Covered ip n t := fun bn hbn => h.inum ▸ h.image.block _ bn (hcov bn hbn)

theorem Covered.extend {off m : Nat} (hcov : Covered ip off s)
    (hblock : ((s.view ip).block (s.itable ip).inum (off / bsize)).isSome)
    (hm : m ≤ bsize - off % bsize) : Covered ip (off + m) s := fun bn hbn => by
  by_cases hoff : bn * bsize < off
  · exact hcov bn hoff
  · have heq : bn = off / bsize := by
      simp only [bsize] at hbn hoff hm ⊢
      omega
    rwa [heq]

end Filled

def chunk (base n tot : Nat) : Nat := min (n - tot) (bsize - (base + tot) % bsize)

theorem chunk_pos {base n tot : Nat} (h : tot < n) : 0 < chunk base n tot := by
  have : (base + tot) % bsize < bsize := Nat.mod_lt _ (by decide)
  simp only [chunk]
  omega

theorem add_chunk_le {base n tot : Nat} (h : tot ≤ n) : tot + chunk base n tot ≤ n := by
  simp only [chunk]
  omega

theorem chunk_end {base n tot : Nat} (h : tot ≤ n) :
    tot + chunk base n tot = n ∨ (base + (tot + chunk base n tot)) % bsize = 0 := by
  simp only [chunk, bsize]
  omega

/-- Why the loop of `writei` ended after `tot` bytes, and that the bytes of the file up to `hi` were
written: when the source cannot be read, the bytes that could be read are in the block. -/
inductive Ended (src : Nat → Option Nat) (base n tot hi : Nat) (t : State) : Prop where
  | done (htot : tot = n) (hhi : hi = base + n)
  | full (hhi : hi = base + tot) (hstart : tot = 0 ∨ (base + tot) % bsize = 0)
      (hfull : ∀ b < t.sb.size, t.bitmap b = true)
  | fault (hhi : hi = base + tot + copied src tot (chunk base n tot))
      (hstart : tot = 0 ∨ (base + tot) % bsize = 0)
      (hfault : copied src tot (chunk base n tot) < chunk base n tot)

theorem copied_le (src : Nat → Option Nat) (tot m : Nat) : copied src tot m ≤ m := by
  unfold copied
  calc _ ≤ (List.range m).length := (List.takeWhile_sublist _).length_le
    _ = m := List.length_range

theorem writeiFrom_wp (src : Nat → Option Nat) (tot : Nat) {base n rounds : Nat}
    (hint : (s.view ip).Intact ok ∅) (hload : Loaded ip s)
    (hok : (s.itable ip).copy.type = .dir → ∀ de, ok de) (hcov : Covered ip (base + tot) s)
    (htot : tot ≤ n) (hmax : base + n ≤ maxfile * bsize) (hrounds : n - tot ≤ rounds)
    (hstart : tot = n ∨ tot = 0 ∨ (base + tot) % bsize = 0) :
    Wp (writeiFrom ip src n rounds tot (base + tot)) (fun tot' t => tot ≤ tot' ∧ tot' ≤ n ∧
      Covered ip (base + tot') t ∧ ∃ hi, base + tot' ≤ hi ∧ Ended src base n tot' hi t ∧
        Filled ok ip (base + tot) hi (fun j => (src (j - base)).getD 0 % 256) s t)
      E s := by
  induction rounds generalizing s tot with
  | zero =>
      have htot : tot = n := by omega
      exact .pure ⟨Nat.le_refl _, by omega, hcov, base + tot, Nat.le_refl _, .done htot (by omega),
        .refl hint⟩
  | succ rounds ih =>
      refine .ite (fun hmore => ?_) fun hdone => .pure ⟨Nat.le_refl _, htot, hcov, base + tot,
        Nat.le_refl _, .done (by omega) (by omega), .refl hint⟩
      have hstart : tot = 0 ∨ (base + tot) % bsize = 0 := hstart.resolve_left (by omega)
      have hbn : (base + tot) / bsize < maxfile := by
        refine Nat.div_lt_of_lt_mul ?_
        rw [Nat.mul_comm]
        omega
      refine .bind ((bmap_wp hint hload hbn).imp fun r t hmap => ?_)
      have hgrown : Filled ok ip (base + tot) (base + tot) (fun j => (src (j - base)).getD 0 % 256)
        s t := hmap.filled
      by_cases hr : r = 0
      · rw [if_pos hr]
        exact .pure ⟨Nat.le_refl _, htot, hcov.filled hgrown, base + tot, Nat.le_refl _,
          .full rfl hstart (hmap.full hr), hgrown⟩
      · rw [if_neg hr]
        have hblock : (t.view ip).block (t.itable ip).inum ((base + tot) / bsize) = some r := by
          rw [hmap.inum]
          exact hmap.slot hr
        have hmod : (base + tot) % bsize < bsize := Nat.mod_lt _ (by decide)
        have hc := copied_le src tot (chunk base n tot)
        have hm : chunk base n tot ≤ bsize - (base + tot) % bsize := Nat.min_le_right _ _
        refine .bind ((modifyBlock_wp hmap.intact (by rw [hmap.copy.1]; exact hok)
          (fun j => (src (j - base)).getD 0 % 256) (copied src tot (chunk base n tot)) _ hblock
          (by omega) fun k _ => ?_).imp fun _ u hu => ?_)
        · simp only [Nat.add_assoc, Nat.add_sub_cancel_left]
        obtain ⟨hu, -⟩ := hu
        have hfill := hgrown.trans hu (Nat.le_refl _) (by omega)
        have hcov' : Covered ip (base + tot) u := hcov.filled hfill
        refine .ite (fun hfault => .pure ⟨Nat.le_refl _, htot, hcov', _, by omega,
          .fault rfl hstart hfault, hfill⟩) fun hall => ?_
        have hall : copied src tot (chunk base n tot) = chunk base n tot :=
          Nat.le_antisymm hc (Nat.le_of_not_lt hall)
        have hsome : ((u.view ip).block (u.itable ip).inum ((base + tot) / bsize)).isSome := by
          rw [hu.inum]
          exact hu.image.block _ _ (by rw [hblock]; rfl)
        have hcov'' := hcov'.extend hsome hm
        rw [hall] at hfill
        have hadd : base + tot + chunk base n tot = base + (tot + chunk base n tot) :=
          Nat.add_assoc _ _ _
        have hpos : 0 < chunk base n tot := chunk_pos hmore
        rw [hadd] at hfill hcov''
        change Wp (writeiFrom ip src n rounds (tot + chunk base n tot)
          (base + tot + chunk base n tot)) _ _ u
        rw [hadd]
        refine (ih _ hu.intact (hfill.loaded hload) (by rw [hfill.type]; exact hok) hcov''
          (add_chunk_le htot) (by omega) ((chunk_end htot).imp_right .inr)).imp fun tot' v hv => ?_
        obtain ⟨htot', hn, hcovv, hi, hhi, hend, hv⟩ := hv
        exact ⟨by omega, hn, hcovv, hi, hhi, hend, hfill.trans hv (by omega) (by omega)⟩

theorem iupdate_wp (hinum : (s.itable ip).inum < s.sb.ninodes) :
    Wp (iupdate ip) (fun _ t =>
      t = { s with dinode := upd s.dinode (s.itable ip).inum (s.itable ip).copy })
      E s := by
  unfold iupdate
  refine .bind (.of_ok rfl (.get ?_))
  rw [if_neg (Nat.not_le_of_lt hinum)]
  exact .of_ok rfl rfl

structure Updated (ok : Dirent → Prop) (ip : Nat) (s t : State) : Prop where
  intact : t.disk.Intact ok ∅
  node : t.disk.node = s.disk.node
  synced : Synced ip t
  sb : t.sb = s.sb
  inum : (t.itable ip).inum = (s.itable ip).inum
  type : (t.itable ip).copy.type = (s.itable ip).copy.type

/-- How `writei` ends: the size is brought up to `n`, and the inode written back. -/
theorem resize_wp (hload : Loaded ip s) (n : Nat) (r : Int) :
    Wp (do
      if (s.itable ip).copy.size < n then modifyCopy ip fun copy => { copy with size := n }
      iupdate ip
      pure r) (fun r' t => r' = r ∧ Synced ip t ∧ t.sb = s.sb ∧
        (t.itable ip).inum = (s.itable ip).inum ∧
        (t.itable ip).copy.type = (s.itable ip).copy.type ∧
        (t.itable ip).copy.size = max (s.itable ip).copy.size n ∧
        t.disk = (s.view ip).setNode (s.itable ip).inum
          { (s.itable ip).copy with size := max (s.itable ip).copy.size n })
      E s := by
  refine .ite (fun hgrow => .bind (.of_ok rfl ?_)) fun hsame => ?_
  · refine .bind ((iupdate_wp (by simpa using hload.inum_lt)).imp fun _ t ht => .pure ?_)
    subst ht
    rw [Nat.max_eq_right (Nat.le_of_lt hgrow)]
    refine ⟨rfl, by simp [Synced], rfl, by simp, by simp, by simp, ?_⟩
    simp only [State.disk, State.view, Image.setNode, upd_self, upd_upd]
  · refine .bind ((iupdate_wp hload.inum_lt).imp fun _ t ht => .pure ?_)
    subst ht
    rw [Nat.max_eq_left (Nat.le_of_not_lt hsame)]
    refine ⟨rfl, by simp [Synced], rfl, rfl, rfl, rfl, ?_⟩
    simp only [State.disk, State.view, Image.setNode, upd_upd]

/-- How `writei` leaves the inode `ip` when it has written `tot` bytes. -/
structure Written (ok : Dirent → Prop) (ip off n : Nat) (src : Nat → Option Nat) (s : State)
    (tot hi : Nat) (t : State) : Prop where
  tot_le : tot ≤ n
  le_hi : off + tot ≤ hi
  ended : Ended src off n tot hi t
  intact : t.disk.Intact ok ∅
  synced : Synced ip t
  inum : (t.itable ip).inum = (s.itable ip).inum
  image : ∃ img : Image, (s.view ip).Filled (s.itable ip).inum off hi
    (fun j => (src (j - off)).getD 0 % 256) img ∧
    t.disk = img.setNode (s.itable ip).inum { img.dinode (s.itable ip).inum with
      size := max (s.itable ip).copy.size (off + tot) }

theorem Ended.congr {src : Nat → Option Nat} {base n tot hi : Nat} {t u : State}
    (h : Ended src base n tot hi t) (hsb : u.sb = t.sb) (hbitmap : u.bitmap = t.bitmap) :
    Ended src base n tot hi u := by
  cases h with
  | done htot hhi => exact .done htot hhi
  | full hhi hstart hfull => exact .full hhi hstart (by rwa [hsb, hbitmap])
  | fault hhi hstart hfault => exact .fault hhi hstart hfault

def Writable (ip off n : Nat) (s : State) : Prop :=
  off ≤ (s.itable ip).copy.size ∧ off + n < 2 ^ 32 ∧ off + n ≤ maxfile * bsize

theorem Image.Intact.covered (hint : (s.view ip).Intact ok ∅) (hload : Loaded ip s) {n : Nat}
    (hn : n ≤ (s.itable ip).copy.size) : Covered ip n s := fun bn hbn =>
  hint.blocks _ hload.inum_lt (by rw [State.view_dinode_self]; exact hload.allocated) bn
    (by rw [State.view_dinode_self]; omega)

theorem writei_wp (hint : (s.view ip).Intact ok ∅) (hload : Loaded ip s)
    (hok : (s.itable ip).copy.type = .dir → ∀ de, ok de) (src : Nat → Option Nat) (off n : Nat) :
    Wp (writei ip src off n) (fun r t => (r = -1 ∧ t = s ∧ ¬ Writable ip off n s) ∨
      ∃ tot hi : Nat, r = tot ∧ Written ok ip off n src s tot hi t) E s := by
  unfold writei
  refine .bind (.of_ok rfl (.ite (fun hoff => .pure (.inl ⟨rfl, rfl, fun h => ?_⟩)) fun hoff =>
    .ite (fun hmax => .pure (.inl ⟨rfl, rfl, fun h => ?_⟩)) fun hmax => ?_))
  · obtain ⟨h1, h2, -⟩ := h
    omega
  · obtain ⟨-, -, h3⟩ := h
    omega
  refine .bind ((writeiFrom_wp src 0 hint hload hok (hint.covered hload (by omega))
    (Nat.zero_le n) (by omega) (Nat.le_refl _) (.inr (.inl rfl))).imp fun tot t ht =>
    .bind (.of_ok rfl ?_))
  obtain ⟨-, htot, hcov, hi, hhi, hend, hfill⟩ := ht
  have hload' := hfill.loaded hload
  have hself := State.view_dinode_self t ip
  have hcovered : Covered ip (max (t.itable ip).copy.size (off + tot)) t := fun bn hbn => by
    rcases Nat.lt_or_ge (bn * bsize) (off + tot) with h | h
    · exact hcov bn h
    · exact hfill.intact.covered hload' (Nat.le_refl _) bn (by omega)
  have hsize : (t.itable ip).copy.size ≤ maxfile * bsize := by
    rw [← hself]
    exact hfill.intact.size_le_max _ hload'.inum_lt
  have hresize := hfill.intact.resize (i := (t.itable ip).inum) hcovered
    (Nat.max_le.mpr ⟨hsize, by omega⟩) (by rw [hself]; exact hload'.allocated)
    (by rw [hself, hfill.type]; exact hok)
  refine (resize_wp hload' (off + tot) tot).imp fun r u hu => .inr ⟨tot, hi, hu.1, ?_⟩
  obtain ⟨-, hsync', hsb, hinum, -, -, hdisk⟩ := hu
  have hend' : Ended src off n tot hi u := hend.congr hsb (congrArg Image.bitmap hdisk)
  refine ⟨htot, hhi, hend', ?_, hsync', hinum.trans hfill.inum, t.view ip, hfill.image, ?_⟩
  · rw [hself] at hresize
    exact hdisk ▸ hresize
  · rw [hdisk, ← hfill.size, ← hfill.inum, hself]

/-! ### Directory entries -/

theorem toBytes_getElem? (de : Dirent) {k : Nat} (hk : k < direntSize) :
    ∃ c, de.toBytes[k]? = some c :=
  ⟨_, List.getElem?_eq_getElem (by rwa [length_toBytes])⟩

theorem copied_eq (src : Nat → Option Nat) (tot m : Nat) (hsrc : ∀ k < m, (src (tot + k)).isSome) :
    copied src tot m = m := by
  unfold copied
  rw [List.takeWhile_eq_self_iff.mpr fun k hk => hsrc k (List.mem_range.mp hk), List.length_range]

def Dirent.stored (de : Dirent) : Dirent := storedDirent fun k => de.toBytes[k]?.getD 0

theorem toBytes_lt {de : Dirent} (hname : ∀ c ∈ de.name, c < 256) : ∀ c ∈ de.toBytes, c < 256 := by
  intro c hc
  simp only [Dirent.toBytes, List.mem_append, List.mem_cons, List.not_mem_nil, or_false] at hc
  rcases hc with (rfl | rfl) | hc
  · exact Nat.mod_lt _ (by decide)
  · exact Nat.mod_lt _ (by decide)
  · rcases mem_strncpy hc with rfl | hc
    · decide
    · exact hname c hc

theorem stored_eq_key {de : Dirent} (hname : ∀ c ∈ de.name, c < 256) :
    de.stored = { inum := de.inum % 0x10000, name := key de.name } := by
  have hbytes : ((List.range direntSize).map fun k => de.toBytes[k]?.getD 0 % 256) = de.toBytes := by
    refine List.ext_getElem (by simp [length_toBytes]) fun k hk hk' => ?_
    simp only [List.getElem_map, List.getElem_range, List.getElem?_eq_getElem hk', Option.getD_some]
    exact Nat.mod_eq_of_lt (toBytes_lt hname _ (List.getElem_mem hk'))
  unfold Dirent.stored storedDirent
  rw [hbytes, Dirent.ofBytes, Dirent.toBytes]
  simp only [List.cons_append, List.nil_append, List.getD_cons_zero, List.getD_cons_succ,
    List.drop_succ_cons, List.drop_zero]
  rw [List.take_of_length_le (Nat.le_of_eq (length_strncpy _ _)), takeWhile_strncpy]
  congr 1
  omega

structure Entered (ok : Dirent → Prop) (ip k : Nat) (de : Dirent) (s t : State) : Prop where
  intact : t.disk.Intact ok ∅
  node : t.disk.node = upd s.disk.node (s.itable ip).inum
    ((s.disk.node (s.itable ip).inum).setEntry k de.stored)
  synced : Synced ip t
  sb : t.sb = s.sb
  inum : (t.itable ip).inum = (s.itable ip).inum
  type : (t.itable ip).copy.type = (s.itable ip).copy.type
  size : (t.itable ip).copy.size = max (s.itable ip).copy.size (direntSize * (k + 1))

/-- The entry `k` cannot be written: the directory cannot become that large, or there are not enough
free blocks. -/
def NoRoom (ip k : Nat) (s : State) : Prop :=
  maxfile * bsize < direntSize * (k + 1) ∨
    s.free < (s.view ip).missing (s.itable ip).inum (fileSlot (direntSize * k / bsize))

theorem writeiFrom_entry_wp (hint : (s.view ip).Intact ok ∅) (hload : Loaded ip s) {k : Nat}
    (hmax : direntSize * (k + 1) ≤ maxfile * bsize) {src : Nat → Option Nat}
    (hsrc : ∀ o < direntSize, (src o).isSome) :
    Wp (writeiFrom ip src direntSize direntSize 0 (direntSize * k)) (fun tot t =>
      (tot = 0 ∧ Mapped ok ip (fileSlot (direntSize * k / bsize)) s 0 t) ∨
      (tot = direntSize ∧ ∃ b u, Mapped ok ip (fileSlot (direntSize * k / bsize)) s b u ∧
        (u.view ip).block (u.itable ip).inum (direntSize * k / bsize) = some b ∧
        t = { u with data := upd u.data b (setBytes (u.data b) (direntSize * k % bsize) direntSize
          fun o => (src o).getD 0) })) E s := by
  have hm : min (direntSize - 0) (bsize - direntSize * k % bsize) = direntSize := by
    simp only [direntSize, bsize]
    omega
  have hbn : direntSize * k / bsize < maxfile := by
    have hcomm : bsize * maxfile = maxfile * bsize := Nat.mul_comm _ _
    have hsucc : direntSize * (k + 1) = direntSize * k + direntSize := Nat.mul_succ _ _
    have hpos : 0 < direntSize := by decide
    exact Nat.div_lt_of_lt_mul (by omega)
  change Wp (writeiFrom ip src direntSize (15 + 1) 0 (direntSize * k)) _ _ s
  unfold writeiFrom
  rw [if_pos (by decide)]
  refine .bind ((bmap_wp hint hload hbn).imp fun r u hmap => ?_)
  by_cases hr : r = 0
  · rw [if_pos hr]
    exact .pure (.inl ⟨rfl, hr ▸ hmap⟩)
  · have hslot := hmap.slot hr
    rw [← hmap.inum] at hslot
    obtain ⟨hdata, -, -⟩ := hmap.intact.pool.owned _ _ hslot
    simp only [if_neg hr, hm, copied_eq src 0 direntSize
      fun o ho => by rw [Nat.zero_add]; exact hsrc o ho, Nat.zero_add]
    refine .bind (.of_ok (if_pos hdata) ?_)
    rw [if_neg (Nat.lt_irrefl _)]
    unfold writeiFrom
    rw [if_neg (Nat.lt_irrefl _)]
    exact .pure (.inr ⟨rfl, r, u, hmap, hslot, rfl⟩)

theorem writeDirent_wp (hint : s.disk.Intact ok ∅) (hsync : Synced ip s) (hload : Loaded ip s)
    (hdir : (s.itable ip).copy.type = .dir) {k : Nat} (hk : direntSize * k ≤ (s.itable ip).copy.size)
    (de : Dirent) (hde : ok de.stored) :
    Wp (writeDirent ip (direntSize * k) de) (fun r t =>
      (r = direntSize ∧ ¬ NoRoom ip k s ∧ Entered ok ip k de s t) ∨
      (r ≠ direntSize ∧ NoRoom ip k s ∧ Updated ok ip s t ∧
        (t.itable ip).copy.size = (s.itable ip).copy.size)) E s := by
  have hstop : Updated ok ip s s := ⟨hint, rfl, hsync, rfl, rfl, rfl⟩
  rw [← hsync.view_eq] at hint
  unfold writeDirent writei
  have hsucc : direntSize * (k + 1) = direntSize * k + direntSize := Nat.mul_succ _ _
  have hlt := maxfile_lt
  refine .bind (.of_ok rfl (.ite (fun _ => .pure (.inr ⟨by decide, .inl (by omega), hstop, rfl⟩))
    fun hoff => .ite (fun _ => .pure (.inr ⟨by decide, .inl (by omega), hstop, rfl⟩)) fun hmax => ?_))
  refine .bind ((writeiFrom_entry_wp hint hload (by omega) fun o ho => ?_).imp fun tot t ht =>
    .bind (.of_ok rfl ?_))
  · obtain ⟨c, hc⟩ := toBytes_getElem? de ho
    rw [hc]
    rfl
  rcases ht with ⟨rfl, hmap⟩ | ⟨rfl, b, u, hmap, hb, rfl⟩
  · -- no block could be had
    have hself := State.view_dinode_self t ip
    have hmax : max (t.itable ip).copy.size (direntSize * k + 0) = (t.itable ip).copy.size :=
      Nat.max_eq_left (by rw [hmap.copy.2]; omega)
    refine (resize_wp (hmap.loaded hload) (direntSize * k + 0) _).imp fun r v hv => ?_
    obtain ⟨rfl, hsync', hsb, hinum, htype, hsize, hdisk⟩ := hv
    have hview : v.disk = t.view ip := by
      rw [hdisk, hmax]
      simp only [State.view, Image.setNode, upd_upd]
    refine .inr ⟨by decide, .inr (Nat.lt_of_not_le fun h => hmap.enough.mpr h rfl),
      ⟨hview ▸ hmap.intact, ?_, hsync', hsb.trans hmap.sb, hinum.trans hmap.inum,
        htype.trans hmap.copy.1⟩, ?_⟩
    · rw [hview, hint.node_grown hmap.grown, hsync.view_eq]
    · rw [hsize, hmax, hmap.copy.2]
  · have hself := State.view_dinode_self u ip
    have hload' := hmap.loaded hload
    have hdir' : ((u.view ip).dinode (u.itable ip).inum).type = .dir := by
      rw [hself, hmap.copy.1, hdir]
    have hk' : direntSize * k ≤ ((u.view ip).dinode (u.itable ip).inum).size := by
      rw [hself, hmap.copy.2]
      exact hk
    refine (resize_wp (s := { u with data := upd u.data b (setBytes (u.data b)
      (direntSize * k % bsize) direntSize fun o => de.toBytes[o]?.getD 0) })
      (hload'.congr rfl rfl rfl) (direntSize * k + direntSize) _).imp fun r v hv => ?_
    obtain ⟨rfl, hsync', hsb, hinum, htype, hsize, hdisk⟩ := hv
    have hput : v.disk = (u.view ip).putEntry (u.itable ip).inum k b
        fun o => de.toBytes[o]?.getD 0 := by
      rw [hdisk, Image.putEntry, hself, hsucc]
      rfl
    have hne : b ≠ 0 := (Image.slot_eq_some.mp hb).2.2.2.2
    have hroom : ¬ NoRoom ip k s := by
      rintro (h | h)
      · omega
      · exact absurd (hmap.enough.mp hne) (Nat.not_le_of_lt h)
    refine .inl ⟨rfl, hroom, ?_, ?_, hsync', hsb.trans hmap.sb, hinum.trans hmap.inum,
      htype.trans hmap.copy.1, by rw [hsize, hmap.copy.2, hsucc]⟩
    · rw [hput]
      exact hmap.intact.putEntry hload'.inum_lt hdir' hk' (by omega) hb hde
    · rw [hput, hmap.intact.node_putEntry hload'.inum_lt hdir' hk' hb, hint.node_grown hmap.grown, hmap.inum,
        hsync.view_eq]
      rfl

end Writing

end Xv6Mmap.Fs
