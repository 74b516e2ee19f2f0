import Xv6Mmap.Proof.FsFile
import Xv6Mmap.Proof.FsMkfs
import Xv6Mmap.Proof.FsScan

/-!
# Directories as finite maps

A directory is a table of entries in which the names in use differ, so it is a map from names to inode
numbers. `dirlookup` reads the map, `dirlink` inserts a name, and `sys_unlink` removes one by writing
zeros over its entry. The map is kept while other work is done on the file system, as long as that
leaves the directory alone.
-/

namespace Xv6Mmap.Fs

open Sequential

/-! ### The entries of a directory -/

/-- The inode `dp` is a directory in memory with the entries `es`. -/
structure DirAt (dp : Nat) (es : List Dirent) (s : State) : Prop where
  owned : s.disk.Owned
  synced : Synced dp s
  loaded : Loaded dp s
  ref : 0 < (s.itable dp).ref
  dir : (s.itable dp).copy.type = .dir
  size : (s.itable dp).copy.size = direntSize * es.length
  entries : (s.disk.node (s.itable dp).inum).entries = es

def Elsewhere (dp : Nat) (s t : State) : Prop := ∀ es, DirAt dp es s → DirAt dp es t

section DirAt

variable {s t u : State} {dp : Nat} {es : List Dirent}

theorem DirAt.congr (h : DirAt dp es s) (hdisk : t.disk = s.disk) (href : 0 < (t.itable dp).ref)
    (hinum : (t.itable dp).inum = (s.itable dp).inum)
    (hcopy : (t.itable dp).copy = (s.itable dp).copy) : DirAt dp es t where
  owned := hdisk ▸ h.owned
  synced := by
    have hdinode : t.dinode = s.dinode := congrArg Image.dinode hdisk
    rw [Synced, hdinode, hinum, hcopy]
    exact h.synced
  loaded := h.loaded.congr (congrArg Image.sb hdisk) hinum (by rw [hcopy])
  ref := href
  dir := by rw [hcopy, h.dir]
  size := by rw [hcopy, h.size]
  entries := by rw [hdisk, hinum, h.entries]

theorem DirAt.dinode_eq (h : DirAt dp es s) :
    s.disk.dinode (s.itable dp).inum = (s.itable dp).copy := h.synced

theorem DirAt.entry (h : DirAt dp es s) :
    es = (List.range es.length).map (s.disk.entry (s.itable dp).inum) := by
  have hentries := h.entries
  have hpos : 0 < direntSize := by decide
  rw [Image.node_dir _ h.loaded.inum_lt (by rw [h.dinode_eq, h.dir]), h.dinode_eq, h.size,
    Nat.mul_div_cancel_left _ hpos] at hentries
  exact hentries.symm

theorem DirAt.read (h : DirAt dp es s) (k : Nat) :
    readDirent dp (direntSize * k) s = .ok es[k]? s := by
  have hview := h.synced.view_eq
  have hint : (s.view dp).Intact (fun _ => True) ∅ := hview ▸ h.owned
  obtain ⟨r, t, hrun, rfl, hr⟩ := (readDirent_wp hint h.loaded k).returns
  rw [hrun, hr, hview, h.size]
  by_cases hk : k < es.length
  · have hle : direntSize * (k + 1) ≤ direntSize * es.length := Nat.mul_le_mul_left _ hk
    rw [if_pos hle]
    conv => rhs; rw [h.entry]
    simp [hk]
  · have hgt : ¬ direntSize * (k + 1) ≤ direntSize * es.length := by
      simp only [direntSize]
      omega
    rw [if_neg hgt, List.getElem?_eq_none (by omega)]

theorem direntCount_mul (n : Nat) : direntCount (direntSize * n) = n := by
  simp only [direntCount, direntSize]
  omega

theorem DirAt.dirlookup_eq (h : DirAt dp es s) (name : Name) : dirlookup dp name s =
    match es.findIdx? (Dirent.Matches name) with
    | some k => (do
        let ip ← iget ((es[k]?.map Dirent.inum).getD 0)
        pure (some (ip, direntSize * k))) s
    | none => .ok none s := by
  have hcount : direntCount (s.itable dp).copy.size = es.length := by rw [h.size, direntCount_mul]
  have hscan := Fs.dirlookup_eq h.read h.dir hcount.ge name
  rw [hcount, if_pos (Nat.le_refl _)] at hscan
  exact hscan

theorem DirAt.dirlookup_found (h : DirAt dp es s) {name : Name} {k : Nat}
    (hfind : es.findIdx? (Dirent.Matches name) = some k) (w : State) : dirlookup dp name s ≠ .ok none w := by
  rw [h.dirlookup_eq, hfind]
  dsimp only
  intro heq
  cases hget : iget ((es[k]?.map Dirent.inum).getD 0) s with
  | ok ip u =>
      rw [run_bind_ok hget] at heq
      cases heq
  | error e u =>
      rw [run_bind_error hget] at heq
      cases heq

theorem DirAt.room (h : DirAt dp es s) {k : Nat} (hk : k < es.length) : ¬ NoRoom dp k s := by
  have hview := h.synced.view_eq
  have hsize : (s.disk.dinode (s.itable dp).inum).size = direntSize * es.length := by
    rw [h.dinode_eq, h.size]
  have hmax := h.owned.size_le_max _ h.loaded.inum_lt
  have hle : direntSize * (k + 1) ≤ direntSize * es.length := Nat.mul_le_mul_left _ hk
  rintro (hbig | hfew)
  · omega
  · have hlt : direntSize * k < (s.disk.dinode (s.itable dp).inum).size := by
      rw [hsize]
      have : 0 < direntSize := by decide
      simp only [Nat.mul_succ] at hle
      omega
    obtain ⟨b, hb⟩ := Option.isSome_iff_exists.mp (h.owned.blocks _ h.loaded.inum_lt
      (by rw [h.dinode_eq]; exact h.loaded.allocated) _ (div_mul_lt hlt))
    have hslot : s.disk.slot ((s.itable dp).inum, fileSlot (direntSize * k / bsize)) = some b := hb
    have hind : ¬ (ndirect < fileSlot (direntSize * k / bsize) ∧
        s.disk.slot ((s.itable dp).inum, ndirect) = none) := by
      rintro ⟨hbehind, hnone⟩
      obtain ⟨j, hj⟩ := Nat.exists_eq_add_of_le (Nat.succ_le_of_lt hbehind)
      rw [hj, show ndirect.succ + j = ndirect + 1 + j from rfl, Image.slot_behind hnone] at hslot
      cases hslot
    rw [hview, Image.missing, hslot, if_neg hind, if_neg (by simp)] at hfew
    exact Nat.not_lt_zero _ hfew

theorem DirAt.write (h : DirAt dp es s) {k : Nat} (hk : k ≤ es.length) (de : Dirent) :
    (NoRoom dp k s ∧ ∃ (r : Int) (t : State), r ≠ direntSize ∧ writeDirent dp (direntSize * k) de s = .ok r t ∧
      DirAt dp es t) ∨
    (¬ NoRoom dp k s ∧ ∃ t, writeDirent dp (direntSize * k) de s = .ok direntSize t ∧
      DirAt dp (Slots.put es k de.stored) t) := by
  have hsize : direntSize * k ≤ (s.itable dp).copy.size := by
    rw [h.size]
    exact Nat.mul_le_mul_left _ hk
  obtain ⟨r, t, hrun, ht, hrefs⟩ := ((writeDirent_wp (E := fun _ _ => False)
    h.owned h.synced h.loaded h.dir hsize de trivial).and
    (writei_keeps (rest_untouched dp) _ _ _ s)).mono (fun _ _ ht => ht)
    (fun _ _ he => he.1) |>.returns
  have href : 0 < (t.itable dp).ref := by
    simp only [State.rest, Prod.mk.injEq] at hrefs
    rw [hrefs.1]
    exact h.ref
  rcases ht with ⟨rfl, hroom, ht⟩ | ⟨hr, hnoroom, ht, hsame⟩
  · refine .inr ⟨hroom, t, hrun, ht.intact, ht.synced, h.loaded.congr ht.sb ht.inum ht.type, href,
      ht.type.trans h.dir, ?_, ?_⟩
    · rw [ht.size, h.size, Slots.length_put hk]
      simp only [direntSize]
      omega
    · rw [ht.inum, ht.node, upd_self, Node.setEntry, h.entries]
  · exact .inl ⟨hnoroom, r, t, hr, hrun, ht.intact, ht.synced, h.loaded.congr ht.sb ht.inum ht.type,
      href, ht.type.trans h.dir, hsame.trans h.size, by rw [ht.inum, ht.node, h.entries]⟩

end DirAt

/-! ### References -/

structure Fetched (inum ip : Nat) (s t : State) : Prop where
  inum : (t.itable ip).inum = inum
  disk : t.disk = s.disk
  unread : (t.itable ip).valid = false ∨ (t.itable ip).ref ≠ 1
  ref : ∀ iq, (t.itable iq).ref = (s.itable iq).ref + if iq = ip then 1 else 0
  kept : ∀ iq, 0 < (s.itable iq).ref →
    (t.itable iq).inum = (s.itable iq).inum ∧ (t.itable iq).copy = (s.itable iq).copy

def TableFull (s : State) : Prop := ∀ ip < ninode, (s.itable ip).ref ≠ 0

section References

variable {s t u : State} {dp : Nat} {es : List Dirent}

theorem ref_upd (s : State) (ip : Nat) {node : Inode} (href : node.ref = (s.itable ip).ref + 1)
    (iq : Nat) : (upd s.itable ip node iq).ref = (s.itable iq).ref + if iq = ip then 1 else 0 := by
  by_cases hiq : iq = ip
  · rw [hiq, upd_self, if_pos rfl, href]
  · rw [upd_of_ne _ _ hiq, if_neg hiq, Int.add_zero]

theorem iget_fetched (inum : Nat) :
    Wp (iget inum) (fun ip t => Fetched inum ip s t) (fun e _ => e = .igetNoInodes ∧ TableFull s) s := by
  unfold iget
  refine .get ?_
  split
  · rename_i ip hfind
    obtain ⟨-, href, hinum⟩ := List.find?_range_some hfind
    refine .bind (.of_ok rfl (.pure ⟨by simp only [upd_self, hinum], rfl, .inr ?_, ref_upd s ip rfl,
      fun iq _ => ?_⟩))
    · simp only [upd_self]
      omega
    · by_cases hiq : iq = ip
      · rw [hiq]
        simp only [upd_self, and_self]
      · simp only [upd_of_ne _ _ hiq, and_self]
  · split
    · rename_i hnone
      exact .of_error rfl ⟨rfl, List.find?_range_none hnone⟩
    · rename_i ip hfind
      obtain ⟨-, href⟩ := List.find?_range_some hfind
      refine .bind (.of_ok rfl (.pure ⟨by simp only [upd_self], rfl, .inl (by simp only [upd_self]),
        ref_upd s ip (by rw [href]; rfl), fun iq hpos => ?_⟩))
      have hiq : iq ≠ ip := by
        rintro rfl
        omega
      simp only [upd_of_ne _ _ hiq, and_self]

theorem Fetched.elsewhere {inum ip : Nat} (h : Fetched inum ip s t) : Elsewhere dp s t :=
  fun _ hdir => by
    obtain ⟨hinum, hcopy⟩ := h.kept dp hdir.ref
    refine hdir.congr h.disk ?_ hinum hcopy
    rw [h.ref]
    have := hdir.ref
    split <;> omega

/-- A reference that was just taken is dropped again, and the inode is not freed by that. -/
theorem Fetched.iput {inum ip : Nat} (h : Fetched inum ip s t) (dp : Nat) :
    ∃ u, iput ip t = .ok () u ∧ Elsewhere dp s u := by
  have hkeep : ¬ ((t.itable ip).ref = 1 ∧ (t.itable ip).valid = true ∧
      (t.itable ip).copy.nlink = 0) := by
    rintro ⟨hone, hvalid, -⟩
    rcases h.unread with hunread | hunread
    · rw [hvalid] at hunread
      cases hunread
    · exact hunread hone
  refine ⟨{ t with itable := upd t.itable ip { t.itable ip with ref := (t.itable ip).ref - 1 } },
    ?_, fun es hdir => ?_⟩
  · unfold Fs.iput
    rw [run_bind_ok (show getInode ip t = .ok (t.itable ip) t from rfl), if_neg hkeep]
    rfl
  · obtain ⟨hinum, hcopy⟩ := h.kept dp hdir.ref
    have href := h.ref dp
    have hpos := hdir.ref
    by_cases hdp : dp = ip
    · subst hdp
      rw [if_pos rfl] at href
      refine hdir.congr h.disk ?_ ?_ ?_
      · simp only [upd_self]
        omega
      · simp only [upd_self, hinum]
      · simp only [upd_self, hcopy]
    · rw [if_neg hdp] at href
      refine hdir.congr h.disk ?_ ?_ ?_
      · simp only [upd_of_ne _ _ hdp]
        omega
      · simp only [upd_of_ne _ _ hdp, hinum]
      · simp only [upd_of_ne _ _ hdp, hcopy]

end References

/-! ### The map -/

/-- The entries are a table of the map `m`, and the first two are `.` and `..`. -/
structure Directory (es : List Dirent) (m : Name → Option Nat) : Prop where
  rep : Slots.Rep (fun de => de.inum ≠ 0) (fun de => key de.name) Dirent.inum es m
  first : ∃ inum, inum ≠ 0 ∧ es[0]? = some { inum := inum, name := dot }
  second : ∃ inum, inum ≠ 0 ∧ es[1]? = some { inum := inum, name := dotdot }

theorem key_dot : key dot = dot := by decide

theorem key_dotdot : key dotdot = dotdot := by decide

theorem findIdx?_eq_some {es : List Dirent} {name : Name} {k : Nat}
    (hfind : es.findIdx? (Dirent.Matches name) = some k) :
    ∃ de, es[k]? = some de ∧ de.Matches name := by
  obtain ⟨hk, hmatch, -⟩ := List.findIdx?_eq_some_iff_getElem.mp hfind
  exact ⟨_, List.getElem?_eq_getElem hk, of_decide_eq_true hmatch⟩

section Map

variable {s t : State} {dp : Nat} {es : List Dirent} {m : Name → Option Nat}

theorem dirlookup_map (h : DirAt dp es s) (hrep : Slots.Rep (fun de => de.inum ≠ 0)
      (fun de => key de.name) Dirent.inum es m) (name : Name) :
    match m (key name) with
    | none => dirlookup dp name s = .ok none s
    | some inum => ∃ k de, es[k]? = some de ∧ de.Matches name ∧ de.inum = inum ∧
        ((∃ ip t, dirlookup dp name s = .ok (some (ip, direntSize * k)) t ∧ Fetched inum ip s t) ∨
          ((∃ t, dirlookup dp name s = .error .igetNoInodes t) ∧ TableFull s)) := by
  have heq := h.dirlookup_eq name
  cases hfind : es.findIdx? (Dirent.Matches name) with
  | none =>
      have hnone : m (key name) = none := hrep.eq_none fun de hde hlive hkey =>
        of_decide_eq_false (List.findIdx?_eq_none_iff.mp hfind de hde) ⟨hlive, hkey⟩
      rw [hnone]
      rw [hfind] at heq
      exact heq
  | some k =>
      obtain ⟨de, hk, hmatch⟩ := findIdx?_eq_some hfind
      have hsome := hrep.eq_some hk hmatch.1
      rw [hmatch.2] at hsome
      rw [hsome]
      rw [hfind] at heq
      simp only [hk, Option.map_some, Option.getD_some] at heq
      refine ⟨k, de, hk, hmatch, rfl, ?_⟩
      have hwp := iget_fetched (s := s) de.inum
      cases hrun : iget de.inum s with
      | ok ip t => exact .inl ⟨ip, t, by rw [heq, run_bind_ok hrun]; rfl, hwp.ok hrun⟩
      | error e t =>
          obtain ⟨rfl, hfull⟩ := hwp.error hrun
          exact .inr ⟨⟨t, by rw [heq, run_bind_error hrun]⟩, hfull⟩

/-- No entry can be written: all are in use, and there is no room for one more. -/
def DirFull (dp : Nat) (es : List Dirent) (s : State) : Prop :=
  (∀ de ∈ es, de.inum ≠ 0) ∧ NoRoom dp es.length s

/-- The entry that `dirlink` writes, which is in use only if the directory has no other. -/
theorem emptyDirent_eq (h : DirAt dp es s) : ∃ k ≤ es.length,
    emptyDirentFrom dp (direntCount (s.itable dp).copy.size) 0 s = .ok (direntSize * k) s ∧
      (∀ de, es[k]? = some de → de.inum = 0) ∧ (NoRoom dp k s ↔ DirFull dp es s) := by
  rw [h.size, direntCount_mul, emptyDirentFrom_eq h.read (Nat.le_refl _)]
  cases hfind : es.findIdx? (fun de => de.inum = 0) with
  | none =>
      have hlive : ∀ de ∈ es, de.inum ≠ 0 := fun de hde =>
        of_decide_eq_false (List.findIdx?_eq_none_iff.mp hfind de hde)
      refine ⟨es.length, Nat.le_refl _, if_pos (Nat.le_refl _), ?_,
        ⟨fun hno => ⟨hlive, hno⟩, fun hfull => hfull.2⟩⟩
      intro de hde
      rw [List.getElem?_eq_none (Nat.le_refl _)] at hde
      cases hde
  | some k =>
      obtain ⟨hk, hzero, -⟩ := List.findIdx?_eq_some_iff_getElem.mp hfind
      have hzero : es[k].inum = 0 := of_decide_eq_true hzero
      refine ⟨k, Nat.le_of_lt hk, rfl, fun de hde => ?_,
        ⟨fun hno => absurd hno (h.room hk), fun hfull => ?_⟩⟩
      · rw [List.getElem?_eq_getElem hk, Option.some.injEq] at hde
        exact hde ▸ hzero
      · exact absurd hzero (hfull.1 _ (List.getElem_mem hk))

theorem dirlink_absent {name : Name} (habsent : dirlookup dp name s = .ok none s) (inum : Nat) {k : Nat}
    (hempty : emptyDirentFrom dp (direntCount (s.itable dp).copy.size) 0 s = .ok (direntSize * k) s)
    {r : Int} (hwrite : writeDirent dp (direntSize * k)
      { inum := inum % 0x10000, name := name } s = .ok r t) :
    dirlink dp name inum s = .ok (if r = direntSize then 0 else -1) t := by
  unfold dirlink
  rw [run_bind_ok habsent]
  show ((getInode dp >>= _) : F Int) s = _
  rw [run_bind_ok (show getInode dp s = .ok (s.itable dp) s from rfl), run_bind_ok hempty,
    run_bind_ok hwrite]
  by_cases hr : r = direntSize
  · rw [if_neg (by simpa using hr), if_pos hr]
    rfl
  · rw [if_pos hr, if_neg hr]
    rfl

theorem dirlink_map (h : DirAt dp es s) (hrep : Slots.Rep (fun de => de.inum ≠ 0)
      (fun de => key de.name) Dirent.inum es m) {name : Name} (hname : ∀ c ∈ name, c < 256) (inum : Nat)
    (hinum : inum < 0x10000) :
    (m (key name) = none ∧ ¬ DirFull dp es s ∧ ∃ t, dirlink dp name inum s = .ok 0 t ∧
      ∃ k ≤ es.length, (∀ de, es[k]? = some de → de.inum = 0) ∧
        DirAt dp (Slots.put es k { inum := inum, name := key name }) t) ∨
    ((m (key name) ≠ none ∨ DirFull dp es s) ∧ ∃ t, dirlink dp name inum s = .ok (-1) t ∧
      DirAt dp es t) ∨
    (m (key name) ≠ none ∧ TableFull s ∧ ∃ t, dirlink dp name inum s = .error .igetNoInodes t) := by
  have hlookup := dirlookup_map h hrep name
  cases hm : m (key name) with
  | none =>
      rw [hm] at hlookup
      obtain ⟨k, hk, hempty, hzero, hroom⟩ := emptyDirent_eq h
      have hstored : ({ inum := inum % 0x10000, name := name } : Dirent).stored =
          { inum := inum, name := key name } := by
        rw [stored_eq_key hname]
        simp only [Nat.mod_eq_of_lt hinum]
      rcases h.write hk { inum := inum % 0x10000, name := name } with
        ⟨hno, r, t, hr, hwrite, hdir⟩ | ⟨hyes, t, hwrite, hdir⟩
      · refine .inr (.inl ⟨.inr (hroom.mp hno), t, ?_, hdir⟩)
        rw [dirlink_absent hlookup inum hempty hwrite, if_neg hr]
      · refine .inl ⟨rfl, mt hroom.mpr hyes, t, ?_, k, hk, hzero, hstored ▸ hdir⟩
        rw [dirlink_absent hlookup inum hempty hwrite, if_pos rfl]
  | some inum' =>
      rw [hm] at hlookup
      obtain ⟨k, de, -, -, -, ⟨ip, t, hrun, hfetch⟩ | ⟨⟨t, hrun⟩, hfull⟩⟩ := hlookup
      · obtain ⟨u, hput, helse⟩ := hfetch.iput dp
        refine .inr (.inl ⟨.inl (by simp), u, ?_, helse es h⟩)
        unfold dirlink
        rw [run_bind_ok hrun]
        show ((iput ip >>= _) : F Int) t = _
        rw [run_bind_ok hput]
        rfl
      · refine .inr (.inr ⟨by simp, hfull, t, ?_⟩)
        unfold dirlink
        rw [run_bind_error hrun]

end Map

/-! ### Directories stay directories -/

section Directory

variable {es : List Dirent} {m : Name → Option Nat}

theorem put_dots {k : Nat} (hk : k ≤ es.length) (hone : 1 < k) (de : Dirent) :
    (Slots.put es k de)[0]? = es[0]? ∧ (Slots.put es k de)[1]? = es[1]? :=
  ⟨by rw [Slots.getElem?_put hk, if_neg (by omega)], by rw [Slots.getElem?_put hk, if_neg (by omega)]⟩

theorem Directory.insert (hd : Directory es m) {k : Nat} (hk : k ≤ es.length)
    (hfree : ∀ de, es[k]? = some de → de.inum = 0) {name : Name} (habsent : m (key name) = none)
    {inum : Nat} (hinum : inum ≠ 0) :
    Directory (Slots.put es k { inum := inum, name := key name })
      (Function.update m (key name) (some inum)) := by
  obtain ⟨self, hself, h0⟩ := hd.first
  obtain ⟨parent, hparent, h1⟩ := hd.second
  have hone : 1 < k := by
    have hk0 : k ≠ 0 := by
      rintro rfl
      exact hself (hfree _ h0)
    have hk1 : k ≠ 1 := by
      rintro rfl
      exact hparent (hfree _ h1)
    omega
  obtain ⟨hput0, hput1⟩ := put_dots hk hone { inum := inum, name := key name }
  have hrep := hd.rep.insert hk (fun de hde hlive => hlive (hfree de hde))
    (a := { inum := inum, name := key name }) hinum (by rw [key_key]; exact habsent)
  rw [key_key] at hrep
  exact ⟨hrep, ⟨self, hself, hput0.trans h0⟩, ⟨parent, hparent, hput1.trans h1⟩⟩

theorem Directory.erase (hd : Directory es m) {k : Nat} {de : Dirent} (hk : es[k]? = some de)
    (hlive : de.inum ≠ 0) (hdot : key de.name ≠ dot) (hdotdot : key de.name ≠ dotdot) :
    Directory (Slots.put es k { inum := 0, name := [] })
      (Function.update m (key de.name) none) := by
  obtain ⟨self, hself, h0⟩ := hd.first
  obtain ⟨parent, hparent, h1⟩ := hd.second
  have hone : 1 < k := by
    have hk0 : k ≠ 0 := by
      rintro rfl
      rw [h0, Option.some.injEq] at hk
      exact hdot (hk ▸ key_dot)
    have hk1 : k ≠ 1 := by
      rintro rfl
      rw [h1, Option.some.injEq] at hk
      exact hdotdot (hk ▸ key_dotdot)
    omega
  have hlt : k < es.length := (List.getElem?_eq_some_iff.mp hk).1
  obtain ⟨hput0, hput1⟩ := put_dots (Nat.le_of_lt hlt) hone { inum := 0, name := [] }
  exact ⟨hd.rep.erase hk hlive (fun h => h rfl), ⟨self, hself, hput0.trans h0⟩,
    ⟨parent, hparent, hput1.trans h1⟩⟩

theorem Directory.bare_iff (hd : Directory es m) : ((es.drop 2).all fun de => de.inum = 0) = true ↔
    ∀ name, key name ≠ dot → key name ≠ dotdot → m (key name) = none := by
  obtain ⟨self, hself, h0⟩ := hd.first
  obtain ⟨parent, hparent, h1⟩ := hd.second
  rw [List.all_eq_true]
  constructor
  · intro hall name hdot hdotdot
    refine Option.eq_none_iff_forall_ne_some.mpr fun v hv => ?_
    obtain ⟨j, de, hj, hlive, hkey, -⟩ := (hd.rep.iff _ v).mp hv
    match j with
    | 0 =>
        rw [h0, Option.some.injEq] at hj
        exact hdot (by rw [← hkey, ← hj, key_dot])
    | 1 =>
        rw [h1, Option.some.injEq] at hj
        exact hdotdot (by rw [← hkey, ← hj, key_dotdot])
    | j + 2 =>
        have hmem : de ∈ es.drop 2 := List.mem_of_getElem? (i := j) (by
          rw [List.getElem?_drop, Nat.add_comm]
          exact hj)
        exact hlive (of_decide_eq_true (hall de hmem))
  · intro hnone de hmem
    refine decide_eq_true (Decidable.byContradiction fun hlive => ?_)
    obtain ⟨j, hj⟩ := List.mem_iff_getElem?.mp hmem
    rw [List.getElem?_drop] at hj
    have hsome := hd.rep.eq_some hj hlive
    rw [hnone de.name (fun hdot => ?_) fun hdotdot => ?_] at hsome
    · cases hsome
    · have := hd.rep.unique _ _ _ _ hj h0 hlive hself (hdot.trans key_dot.symm)
      omega
    · have := hd.rep.unique _ _ _ _ hj h1 hlive hparent (hdotdot.trans key_dotdot.symm)
      omega

theorem isdirempty_eq {s : State} {dp : Nat} (h : DirAt dp es s) (hd : Directory es m) :
    isdirempty dp s = .ok ((es.drop 2).all fun de => de.inum = 0) s := by
  obtain ⟨parent, -, h1⟩ := hd.second
  have hlen : 1 < es.length := (List.getElem?_eq_some_iff.mp h1).1
  have hcount : direntCount ((s.itable dp).copy.size - 2 * direntSize) = es.length - 2 := by
    rw [h.size]
    simp only [direntCount, direntSize]
    omega
  unfold isdirempty
  rw [run_bind_ok (show getInode dp s = .ok (s.itable dp) s from rfl), hcount,
    isdiremptyFrom_eq h.read (by omega), if_pos (Nat.le_refl _)]
  cases hfind : (es.drop 2).findIdx? (fun de => de.inum ≠ 0) with
  | none =>
      refine congrArg (EStateM.Result.ok · s) (List.all_eq_true.mpr fun de hde => ?_).symm
      simpa using List.findIdx?_eq_none_iff.mp hfind de hde
  | some k =>
      obtain ⟨hk, hused, -⟩ := List.findIdx?_eq_some_iff_getElem.mp hfind
      refine congrArg (EStateM.Result.ok · s) (List.all_eq_false.mpr ⟨_, List.getElem_mem hk, ?_⟩).symm
      simpa using hused

end Directory

/-! ### The root directory -/

/-- The disk is `img`, and its root directory is in the entry `dp` of the inode table. -/
structure RootOpen (img : Image) (dp : Nat) (s : State) : Prop where
  disk : s.disk = img
  inum : (s.itable dp).inum = rootino
  ref : 0 < (s.itable dp).ref
  synced : Synced dp s

section Root

variable {files : List Mkfs.Input} {made : Mkfs.State} {s : State} {dp : Nat}

theorem RootOpen.dirAt (h : RootOpen made.image dp s) (hmain : Mkfs.main files .start = .ok () made)
    (hfiles : files.length < 199) (hfull : ¬ 64 ∣ files.length + 2) : ∃ unused,
    DirAt dp (Mkfs.rootEntries files ++ List.replicate unused { inum := 0, name := [] }) s := by
  obtain ⟨s', hfinal⟩ := Mkfs.main_final hfiles hmain
  obtain ⟨unused, hentries, hsize⟩ := hfinal.image_root hfiles hfull
  have hcopy : (s.itable dp).copy = made.image.dinode rootino := by
    rw [← h.synced, h.inum]
    exact congrArg (fun img => img.dinode rootino) h.disk
  have htype : (made.image.dinode rootino).type = .dir := by
    rw [hfinal.image_type, if_pos ⟨by decide, by dsimp only [rootino]; omega⟩, if_pos rfl]
  have hsb : s.sb = made.image.sb := congrArg Image.sb h.disk
  refine ⟨unused, ?_, h.synced, ⟨?_, ?_⟩, h.ref, ?_, ?_, ?_⟩
  · rw [h.disk]
    exact hfinal.image_intact hfiles hfull fun _ _ => trivial
  · rw [h.inum, hsb, hfinal.image_sb]
    decide
  · rw [hcopy, htype]
    decide
  · rw [hcopy, htype]
  · have hlen : (Mkfs.rootEntries files).length = files.length + 2 := by
      rw [Mkfs.rootEntries, List.length_cons, List.length_cons, Mkfs.length_fileEntries]
    rw [hcopy, Mkfs.image_size made (by decide), hsize, List.length_append, hlen, List.length_replicate]
  · rw [h.disk, h.inum, hentries]

theorem Directory.of_root (hnames : ((Mkfs.rootEntries files).map fun de => key de.name).Nodup)
    (unused : Nat) :
    Directory (Mkfs.rootEntries files ++ List.replicate unused { inum := 0, name := [] })
      fun k => ((Mkfs.rootEntries files).find? fun de => key de.name = k).map Dirent.inum := by
  have hlive : ∀ de ∈ Mkfs.rootEntries files, de.inum ≠ 0 := by
    intro de hde
    have hinum := Mkfs.rootEntries_inum hde
    omega
  have hdead : ∀ de ∈ List.replicate unused ({ inum := 0, name := [] } : Dirent), ¬ de.inum ≠ 0 := by
    intro de hde
    rw [List.eq_of_mem_replicate hde]
    simp
  exact ⟨.of_nodup hlive hdead hnames, ⟨rootino, by decide, rfl⟩, ⟨rootino, by decide, rfl⟩⟩

end Root

/-! ### Runs -/

/-- The states that a directory made by `create` or by `mkfs` comes to, with the map that the
insertions and removals that succeeded give. -/
inductive DirRun (dp : Nat) : State → (Name → Option Nat) → Prop where
  | create {self parent : Nat} {s t : State} (hself : 1 ≤ self ∧ self ≤ 65535)
      (hparent : 1 ≤ parent ∧ parent ≤ 65535) (hempty : DirAt dp [] s)
      (hdots : linkDots dp self parent s = .ok true t) :
      DirRun dp t (Function.update (Function.update (fun _ => none) dot (some self))
        dotdot (some parent))
  | mkfs {files : List Mkfs.Input} {made : Mkfs.State} {s : State}
      (hmain : Mkfs.main files .start = .ok () made) (hfiles : files.length < 199)
      (hfull : ¬ 64 ∣ files.length + 2)
      (hnames : ((Mkfs.rootEntries files).map fun de => key de.name).Nodup)
      (hroot : RootOpen made.image dp s) :
      DirRun dp s fun k => ((Mkfs.rootEntries files).find? fun de => key de.name = k).map Dirent.inum
  | link {s t : State} {m : Name → Option Nat} {name : Name} {inum : Nat} (hrun : DirRun dp s m)
      (hname : ∀ c ∈ name, c < 256) (hinum : 1 ≤ inum ∧ inum ≤ 65535)
      (hlink : dirlink dp name inum s = .ok 0 t) :
      DirRun dp t (Function.update m (key name) (some inum))
  | linkFails {s t : State} {m : Name → Option Nat} {name : Name} {inum : Nat} {r : Int}
      (hrun : DirRun dp s m) (hname : ∀ c ∈ name, c < 256) (hinum : 1 ≤ inum ∧ inum ≤ 65535)
      (hlink : dirlink dp name inum s = .ok r t) (hr : r ≠ 0) : DirRun dp t m
  | unlink {s t u v : State} {m : Name → Option Nat} {name : Name} {ip off : Nat}
      (hrun : DirRun dp s m) (hdot : namecmp name dot ≠ 0) (hdotdot : namecmp name dotdot ≠ 0)
      (hlookup : dirlookup dp name s = .ok (some (ip, off)) t) (helse : Elsewhere dp t u)
      (hwrite : writeDirent dp off { inum := 0, name := [] } u = .ok direntSize v) :
      DirRun dp v (Function.update m (key name) none)
  | other {s t : State} {m : Name → Option Nat} (hrun : DirRun dp s m) (helse : Elsewhere dp s t) :
      DirRun dp t m

theorem namecmp_ne_zero {name other : Name} (h : namecmp name other ≠ 0) : key name ≠ key other :=
  mt (namecmp_eq_zero name other).mpr h

section Runs

variable {s t : State} {dp : Nat} {es : List Dirent} {m : Name → Option Nat} {name : Name} {inum : Nat}

theorem dirlink_ret (h : DirAt dp es s) (hrep : Slots.Rep (fun de => de.inum ≠ 0)
      (fun de => key de.name) Dirent.inum es m) (hname : ∀ c ∈ name, c < 256)
    (hinum : inum ≤ 65535) {r : Int} (hlink : dirlink dp name inum s = .ok r t) :
    (r = -1 ∧ DirAt dp es t) ∨ (r = 0 ∧ m (key name) = none ∧ ∃ k ≤ es.length,
      (∀ de, es[k]? = some de → de.inum = 0) ∧
      DirAt dp (Slots.put es k { inum := inum, name := key name }) t) := by
  rcases dirlink_map h hrep hname inum (by omega) with
    ⟨habsent, -, t', hrun, hput⟩ | ⟨-, t', hrun, hdir⟩ | ⟨-, -, t', hrun⟩
  · rw [hlink] at hrun
    cases hrun
    exact .inr ⟨rfl, habsent, hput⟩
  · rw [hlink] at hrun
    cases hrun
    exact .inl ⟨rfl, hdir⟩
  · rw [hlink] at hrun
    cases hrun

theorem linkDots_directory {self parent : Nat} (hself : 1 ≤ self ∧ self ≤ 65535)
    (hparent : 1 ≤ parent ∧ parent ≤ 65535) (h : DirAt dp [] s)
    (hdots : linkDots dp self parent s = .ok true t) :
    ∃ es, DirAt dp es t ∧ Directory es (Function.update (Function.update (fun _ => none) dot
      (some self)) dotdot (some parent)) := by
  have hrep : Slots.Rep (fun de => de.inum ≠ 0) (fun de => key de.name) Dirent.inum
      ([] : List Dirent) fun _ => none := ⟨fun k v => by simp, by simp⟩
  unfold linkDots at hdots
  cases hrun : dirlink dp dot self s with
  | error e u =>
      rw [run_bind_error hrun] at hdots
      cases hdots
  | ok r u =>
      rw [run_bind_ok hrun, run_ite] at hdots
      rcases dirlink_ret h hrep (by decide) hself.2 hrun with ⟨rfl, -⟩ | ⟨rfl, -, k, hk, -, hdir⟩
      · cases hdots
      have hk : k = 0 := Nat.le_zero.mp hk
      subst hk
      rw [key_dot] at hdir
      have hrep' := hrep.insert (j := 0) (Nat.le_refl _) (by simp)
        (a := { inum := self, name := dot }) (show self ≠ 0 by omega) rfl
      simp only [key_dot] at hrep'
      rw [if_neg (by decide)] at hdots
      cases hrun' : dirlink dp dotdot parent u with
      | error e v =>
          rw [run_bind_error hrun'] at hdots
          cases hdots
      | ok r v =>
          rw [run_bind_ok hrun'] at hdots
          rcases dirlink_ret hdir hrep' (by decide) hparent.2 hrun' with
            ⟨rfl, -⟩ | ⟨rfl, habsent, k, hk, hfree, hdir'⟩
          · cases hdots
          cases hdots
          have hk : k = 1 := by
            have hk0 : k ≠ 0 := by
              rintro rfl
              have := hfree _ rfl
              simp only at this
              omega
            have hlen : k ≤ 1 := hk
            omega
          subst hk
          rw [key_dotdot] at hdir' habsent
          have hrep'' := hrep'.insert (j := 1) hk (by simp [Slots.put])
            (a := { inum := parent, name := dotdot }) (show parent ≠ 0 by omega)
            (by rw [key_dotdot]; exact habsent)
          simp only [key_dotdot] at hrep''
          exact ⟨_, hdir', hrep'', ⟨self, by omega, rfl⟩, ⟨parent, by omega, rfl⟩⟩

theorem DirRun.directory (hrun : DirRun dp s m) : ∃ es, DirAt dp es s ∧ Directory es m := by
  induction hrun with
  | create hself hparent hempty hdots => exact linkDots_directory hself hparent hempty hdots
  | mkfs hmain hfiles hfull hnames hroot =>
      obtain ⟨unused, hdir⟩ := hroot.dirAt hmain hfiles hfull
      exact ⟨_, hdir, .of_root hnames unused⟩
  | link hrun hname hinum hlink ih =>
      obtain ⟨es, hdir, hd⟩ := ih
      rcases dirlink_ret hdir hd.rep hname hinum.2 hlink with ⟨h, -⟩ | ⟨-, habsent, k, hk, hfree, hdir'⟩
      · cases h
      · exact ⟨_, hdir', hd.insert hk hfree habsent (by omega)⟩
  | linkFails hrun hname hinum hlink hr ih =>
      obtain ⟨es, hdir, hd⟩ := ih
      rcases dirlink_ret hdir hd.rep hname hinum.2 hlink with ⟨-, hdir'⟩ | ⟨h, -⟩
      · exact ⟨es, hdir', hd⟩
      · exact absurd h hr
  | @unlink s t u v m name ip off hrun hdot hdotdot hlookup helse hwrite ih =>
      obtain ⟨es, hdir, hd⟩ := ih
      have hmap := dirlookup_map hdir hd.rep name
      cases hm : m (key name) with
      | none =>
          rw [hm] at hmap
          rw [hlookup] at hmap
          cases hmap
      | some inum =>
          rw [hm] at hmap
          obtain ⟨k, de, hk, hmatch, -, ⟨ip', t', hrun', hfetch⟩ | ⟨⟨t', hrun'⟩, -⟩⟩ := hmap
          · rw [hlookup] at hrun'
            cases hrun'
            have hlt : k < es.length := (List.getElem?_eq_some_iff.mp hk).1
            have hdir' := helse es (hfetch.elsewhere es hdir)
            rcases hdir'.write (Nat.le_of_lt hlt) { inum := 0, name := [] } with
              ⟨hno, -⟩ | ⟨-, v', hwrite', hdir''⟩
            · exact absurd hno (hdir'.room hlt)
            · rw [hwrite] at hwrite'
              cases hwrite'
              have hstored : ({ inum := 0, name := [] } : Dirent).stored = { inum := 0, name := [] } := by
                decide
              rw [hstored] at hdir''
              have hdot' := namecmp_ne_zero hdot
              have hdotdot' := namecmp_ne_zero hdotdot
              rw [key_dot, ← hmatch.2] at hdot'
              rw [key_dotdot, ← hmatch.2] at hdotdot'
              exact ⟨_, hdir'', hmatch.2 ▸ hd.erase hk hmatch.1 hdot' hdotdot'⟩
          · rw [hlookup] at hrun'
            cases hrun'
  | other hrun helse ih =>
      obtain ⟨es, hdir, hd⟩ := ih
      exact ⟨es, helse es hdir, hd⟩

theorem unlink_writes (h : DirAt dp es s) (hd : Directory es m) {u : State} {ip off : Nat}
    (hlookup : dirlookup dp name s = .ok (some (ip, off)) t) (helse : Elsewhere dp t u) :
    ∃ v, writeDirent dp off { inum := 0, name := [] } u = .ok direntSize v := by
  have hmap := dirlookup_map h hd.rep name
  cases hm : m (key name) with
  | none =>
      rw [hm] at hmap
      rw [hlookup] at hmap
      cases hmap
  | some inum =>
      rw [hm] at hmap
      obtain ⟨k, de, hk, -, -, ⟨ip', t', hrun', hfetch⟩ | ⟨⟨t', hrun'⟩, -⟩⟩ := hmap
      · rw [hlookup] at hrun'
        cases hrun'
        have hlt : k < es.length := (List.getElem?_eq_some_iff.mp hk).1
        have hdir' := helse es (hfetch.elsewhere es h)
        rcases hdir'.write (Nat.le_of_lt hlt) { inum := 0, name := [] } with
          ⟨hno, -⟩ | ⟨-, v', hwrite', -⟩
        · exact absurd hno (hdir'.room hlt)
        · exact ⟨v', hwrite'⟩
      · rw [hlookup] at hrun'
        cases hrun'

/-- A directory is the map that the successful insertions and removals give. -/
theorem directory_map (hrun : DirRun dp s m) :
    ∃ es, DirAt dp es s ∧
      -- the first two entries
      (∃ self parent, self ≠ 0 ∧ parent ≠ 0 ∧ es[0]? = some { inum := self, name := dot } ∧
        es[1]? = some { inum := parent, name := dotdot }) ∧
      -- looking up a name
      (∀ name, match m (key name) with
        | none => dirlookup dp name s = .ok none s
        | some inum => ∃ k de, es[k]? = some de ∧ de.Matches name ∧ de.inum = inum ∧
            (∀ j de', es[j]? = some de' → de'.Matches name → j = k) ∧
            ((∃ ip t, dirlookup dp name s = .ok (some (ip, direntSize * k)) t ∧
                (t.itable ip).inum = inum ∧ Elsewhere dp s t) ∨
              ((∃ t, dirlookup dp name s = .error .igetNoInodes t) ∧ TableFull s))) ∧
      -- inserting a name
      (∀ name inum, (∀ c ∈ name, c < 256) → 1 ≤ inum → inum ≤ 65535 →
        (m (key name) = none ∧ ¬ DirFull dp es s ∧ ∃ t, dirlink dp name inum s = .ok 0 t) ∨
        ((m (key name) ≠ none ∨ DirFull dp es s) ∧ ∃ t, dirlink dp name inum s = .ok (-1) t) ∨
        (m (key name) ≠ none ∧ TableFull s ∧ ∃ t, dirlink dp name inum s = .error .igetNoInodes t)) ∧
      -- removing a name that was found
      (∀ name ip off t u, dirlookup dp name s = .ok (some (ip, off)) t → Elsewhere dp t u →
        ∃ v, writeDirent dp off { inum := 0, name := [] } u = .ok direntSize v) ∧
      -- whether there is any other name
      ∃ empty, isdirempty dp s = .ok empty s ∧
        (empty = true ↔ ∀ name, key name ≠ dot → key name ≠ dotdot → m (key name) = none) := by
  obtain ⟨es, hdir, hd⟩ := hrun.directory
  obtain ⟨self, hself, h0⟩ := hd.first
  obtain ⟨parent, hparent, h1⟩ := hd.second
  refine ⟨es, hdir, ⟨self, parent, hself, hparent, h0, h1⟩, fun name => ?_,
    fun name inum hname hpos hinum => ?_, fun name ip off t u hlookup helse =>
    unlink_writes hdir hd hlookup helse, _, isdirempty_eq hdir hd, hd.bare_iff⟩
  · have hmap := dirlookup_map hdir hd.rep name
    cases hm : m (key name) with
    | none =>
        rw [hm] at hmap
        exact hmap
    | some inum =>
        rw [hm] at hmap
        obtain ⟨k, de, hk, hmatch, heq, hout⟩ := hmap
        refine ⟨k, de, hk, hmatch, heq, fun j de' hj hmatch' => ?_, hout.imp_left ?_⟩
        · exact hd.rep.unique j k de' de hj hk hmatch'.1 hmatch.1 (hmatch'.2.trans hmatch.2.symm)
        · rintro ⟨ip, t, hrun', hfetch⟩
          exact ⟨ip, t, hrun', hfetch.inum, hfetch.elsewhere⟩
  · rcases dirlink_map hdir hd.rep hname inum (by omega) with
      ⟨habsent, hroom, t, hrun', -⟩ | ⟨hwhy, t, hrun', -⟩ | ⟨hthere, hfull, t, hrun'⟩
    · exact .inl ⟨habsent, hroom, t, hrun'⟩
    · exact .inr (.inl ⟨hwhy, t, hrun'⟩)
    · exact .inr (.inr ⟨hthere, hfull, t, hrun'⟩)

end Runs

def Image.openRoot (img : Image) : State :=
  { img.boot with
    itable := upd img.boot.itable 0 { inum := rootino, ref := 1, locked := true, valid := true,
                                      copy := img.dinode rootino } }

theorem openRoot_open (img : Image) : RootOpen img 0 img.openRoot := ⟨rfl, rfl, Int.one_pos, rfl⟩

/-- The map of the root directory when there are no files. -/
theorem directory_map_mkfsRoot : ∃ es, DirAt 0 es mkfs.openRoot ∧
    ∃ empty, isdirempty 0 mkfs.openRoot = .ok empty mkfs.openRoot ∧
      (empty = true ↔ ∀ name, key name ≠ dot → key name ≠ dotdot →
        ((Mkfs.rootEntries []).find? fun de => key de.name = key name).map Dirent.inum = none) := by
  obtain ⟨made, hmain, himage⟩ := Mkfs.image_nil
  have hroot : RootOpen made.image 0 mkfs.openRoot := himage ▸ openRoot_open mkfs
  obtain ⟨es, hdir, -, -, -, -, hempty⟩ :=
    directory_map (DirRun.mkfs hmain (by decide) (by decide) (by decide) hroot)
  exact ⟨es, hdir, hempty⟩

def cats : List Mkfs.Input :=
  [{ path := [99, 97, 116], terminated := by decide, content := some [] },
    { path := [95, 99, 97, 116], terminated := by decide, content := some [] }]

def catName : Name := [99, 97, 116]

/-- `mkfs fs.img cat _cat` writes two entries with the name `cat`. Looking it up finds the first one,
and after that entry was removed the name is still there. -/
theorem directory_twoCats : ∃ made, Mkfs.main cats .start = .ok () made ∧
    made.image.entry rootino 2 = { inum := 2, name := catName } ∧
    made.image.entry rootino 3 = { inum := 3, name := catName } ∧
    ∃ ip t v, dirlookup 0 catName made.image.openRoot = .ok (some (ip, 32)) t ∧
      writeDirent 0 32 { inum := 0, name := [] } t = .ok direntSize v ∧
      ∀ w, dirlookup 0 catName v ≠ .ok none w := by
  obtain ⟨made, hmain, -⟩ := Mkfs.main_ok cats (by decide) (by decide +kernel) (by decide)
  obtain ⟨unused, hdir⟩ := (openRoot_open made.image).dirAt hmain (by decide) (by decide)
  set es : List Dirent := Mkfs.rootEntries cats ++ List.replicate unused { inum := 0, name := [] }
  have hfirst : es.findIdx? (Dirent.Matches catName) = some 2 := rfl
  have hlen : 3 < es.length := by
    rw [List.length_append]
    exact Nat.lt_add_right _ (by decide)
  have hentry : ∀ k, k < es.length → es[k]? = some (made.image.entry rootino k) := by
    intro k hk
    rw [hdir.entry, List.getElem?_map, List.getElem?_range hk]
    rfl
  have hroom : ¬ TableFull made.image.openRoot := fun hfull => hfull 1 (by decide) rfl
  obtain ⟨ip, t, hget, hfetch⟩ := ((iget_fetched (s := made.image.openRoot) 2).mono (fun _ _ h => h)
    fun _ _ h => hroom h.2).returns
  have hlookup : dirlookup 0 catName made.image.openRoot = .ok (some (ip, 32)) t := by
    rw [hdir.dirlookup_eq, hfirst]
    exact run_bind_ok hget _
  have hdir' := hfetch.elsewhere _ hdir
  rcases hdir'.write (k := 2) (by omega) { inum := 0, name := [] } with ⟨hno, -⟩ | ⟨-, v, hwrite, hleft⟩
  · exact absurd hno (hdir'.room (by omega))
  · have hsecond : (Slots.put es 2 ({ inum := 0, name := [] } : Dirent).stored).findIdx?
        (Dirent.Matches catName) = some 3 := rfl
    exact ⟨made, hmain, (Option.some.inj (hentry 2 (by omega))).symm,
      (Option.some.inj (hentry 3 hlen)).symm, ip, t, v, hlookup, hwrite, hleft.dirlookup_found hsecond⟩

end Xv6Mmap.Fs
