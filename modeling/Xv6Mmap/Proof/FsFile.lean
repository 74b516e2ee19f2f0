import Xv6Mmap.Proof.FsSound

/-!
# The content of files

`writei` puts the bytes of its source over the content of one inode, `readi` reads slices of the
content, and `filewrite`, which writes a few blocks at a time, writes a prefix of its buffer.
-/

namespace Xv6Mmap.Fs

open Sequential

abbrev Image.Owned (img : Image) : Prop := img.Intact (fun _ => True) ∅

def Readable (src : Nat → Option Nat) (n : Nat) : Prop := ∀ k < n, ∃ c < 256, src k = some c

def bytesFrom (src : Nat → Option Nat) (i n : Nat) : List Nat :=
  (List.range n).map fun k => (src (i + k)).getD 0

theorem length_bytesFrom (src : Nat → Option Nat) (i n : Nat) : (bytesFrom src i n).length = n := by
  simp [bytesFrom]

theorem bytesFrom_add (src : Nat → Option Nat) (i m n : Nat) :
    bytesFrom src i (m + n) = bytesFrom src i m ++ bytesFrom src (i + m) n := by
  simp only [bytesFrom, List.range_add, List.map_append, List.map_map]
  congr 1
  exact List.map_congr_left fun k _ => by simp [Nat.add_assoc]

/-- What work on an inode leaves alone, apart from `around`. -/
def State.rest (ip : Nat) (s : State) : Int × Bool × (Nat → File) :=
  ((s.itable ip).ref, (s.itable ip).locked, s.ftable)

theorem rest_untouched (ip : Nat) : Untouched ip (State.rest ip) where
  data := fun _ _ => rfl
  bitmap := fun _ _ => rfl
  copy := fun s g => by simp only [State.rest, upd_self]
  dinode := fun _ _ => rfl

/-! ### Writing -/

section Writei

variable {s t : State} {ip off n : Nat} {src : Nat → Option Nat} {E : Stop → State → Prop}

structure Wrote (ip off n : Nat) (src : Nat → Option Nat) (s : State) (tot : Nat) (t : State) :
    Prop where
  tot_le : tot ≤ n
  short : tot < n → (∀ b < t.sb.size, t.bitmap b = true) ∧ (tot = 0 ∨ (off + tot) % bsize = 0)
  owned : t.disk.Owned
  synced : Synced ip t
  inum : (t.itable ip).inum = (s.itable ip).inum
  type : (t.itable ip).copy.type = (s.itable ip).copy.type
  size : (t.itable ip).copy.size = max (s.itable ip).copy.size (off + tot)
  rewritten : (s.view ip).Rewritten (s.itable ip).inum off (bytesFrom src 0 tot) t.disk
  dinode : ∀ i ≠ (s.itable ip).inum, t.dinode i = s.dinode i
  itable : ∀ iq ≠ ip, t.itable iq = s.itable iq
  valid : (t.itable ip).valid = (s.itable ip).valid
  rest : t.rest ip = s.rest ip

theorem Ended.short (hsrc : Readable src n) {base tot hi : Nat} (htot : tot ≤ n)
    (hend : Ended src base n tot hi t) : hi = base + tot ∧
      (tot < n → (∀ b < t.sb.size, t.bitmap b = true) ∧ (tot = 0 ∨ (base + tot) % bsize = 0)) := by
  cases hend with
  | done htot hhi => exact ⟨by omega, fun h => by omega⟩
  | full hhi hstart hfull => exact ⟨hhi, fun _ => ⟨hfull, hstart⟩⟩
  | fault hhi hstart hfault =>
      have hall : copied src tot (chunk base n tot) = chunk base n tot := copied_eq src tot _ fun k hk => by
        have hk' : tot + k < n := by
          simp only [chunk] at hk
          omega
        obtain ⟨c, -, hc⟩ := hsrc (tot + k) hk'
        rw [hc]
        rfl
      omega

theorem writei_wrote (hown : (s.view ip).Owned) (hload : Loaded ip s) (hw : Writable ip off n s)
    (hsrc : Readable src n) :
    Wp (writei ip src off n) (fun r t => ∃ tot : Nat, r = tot ∧ Wrote ip off n src s tot t) E s := by
  refine ((writei_wp hown hload (fun _ _ => trivial) src off n).and
    ((writei_keeps (around_untouched ip) src off n s).and
      (writei_keeps (rest_untouched ip) src off n s))).mono (fun r t ht => ?_) fun _ _ he => he.1
  obtain ⟨ht, haround, hrest⟩ := ht
  rcases ht with ⟨-, -, hbad⟩ | ⟨tot, hi, hr, ht⟩
  · exact absurd hw hbad
  obtain ⟨-, -, hvalid, hdinode, hitable⟩ := State.around_eq haround
  obtain ⟨hhi, hshort⟩ := ht.ended.short hsrc ht.tot_le
  obtain ⟨img, hfill, hdisk⟩ := ht.image
  have hself := State.view_dinode_self s ip
  have hcopy : (t.itable ip).copy = { img.dinode (s.itable ip).inum with
      size := max (s.itable ip).copy.size (off + tot) } := by
    have hsync : t.disk.dinode (t.itable ip).inum = (t.itable ip).copy := ht.synced
    rw [← hsync, hdisk, ht.inum]
    exact upd_self _ _ _
  refine ⟨tot, hr, ht.tot_le, hshort, ht.intact, ht.synced, ht.inum, ?_, ?_, ?_, hdinode, hitable,
    hvalid, hrest⟩
  · rw [hcopy, ← hself]
    exact hfill.type _
  · rw [hcopy]
  · rw [hhi] at hfill
    have hrewr := hown.rewritten hload.inum_lt (by rw [hself]; exact hw.1) hfill
    rw [hself, ← hdisk] at hrewr
    have hbytes : bytesFrom src 0 tot =
        (List.range tot).map fun k => (src (off + k - off)).getD 0 % 256 := by
      refine List.map_congr_left fun k hk => ?_
      have hk : k < tot := List.mem_range.mp hk
      obtain ⟨c, hc, heq⟩ := hsrc k (Nat.lt_of_lt_of_le hk ht.tot_le)
      rw [Nat.zero_add, Nat.add_sub_cancel_left, heq]
      exact (Nat.mod_eq_of_lt hc).symm
    rw [hbytes]
    exact hrewr

theorem writei_refused (hw : ¬ Writable ip off n s) :
    Wp (writei ip src off n) (fun r t => r = -1 ∧ t = s) E s := by
  unfold writei
  refine .bind (.of_ok rfl (.ite (fun _ => .pure ⟨rfl, rfl⟩) fun hoff => .ite (fun _ => .pure ⟨rfl, rfl⟩)
    fun hmax => absurd ?_ hw))
  simp only [Writable]
  omega

theorem Wrote.loaded {tot : Nat} (h : Wrote ip off n src s tot t) (hload : Loaded ip s) :
    Loaded ip t :=
  hload.congr h.rewritten.sb h.inum h.type

end Writei

/-! ### Reading -/

theorem slice_map_range (f : Nat → Nat) (size off n : Nat) :
    (((List.range size).map f).drop off).take n =
      (List.range (min n (size - off))).map fun k => f (off + k) := by
  refine List.ext_getElem (by simp) fun j hj hj' => ?_
  simp

/-- `readi` finds `bytes` in the inode `ip`, whatever range it is asked for. -/
def Reads (ip : Nat) (bytes : List Nat) (s : State) : Prop :=
  ∀ off n, off + n < 2 ^ 32 → readi ip (fun _ => true) off n s =
    .ok ((((bytes.drop off).take n).length : Int), (bytes.drop off).take n) s

theorem reads_content (s : State) (ip : Nat) (hown : (s.view ip).Owned) (hload : Loaded ip s) :
    Reads ip ((s.view ip).content (s.itable ip).inum) s := by
  intro off n hlt
  obtain ⟨r, t, hrun, rfl, hr⟩ := (readi_wp hown hload (fun _ => true) off n).returns
  rw [hrun, hr (fun _ => rfl) fun _ => hlt, Image.content, State.view_dinode_self, slice_map_range]
  simp

/-! ### Writing to an open file -/

structure Ready (ip : Nat) (s : State) : Prop where
  owned : s.disk.Owned
  inum_lt : (s.itable ip).inum < s.sb.ninodes
  ref : 0 < (s.itable ip).ref
  unlocked : (s.itable ip).locked = false
  allocated : (s.dinode (s.itable ip).inum).type ≠ .free
  synced : (s.itable ip).valid = true → Synced ip s

structure OpenFile (f : Nat) (s : State) : Prop where
  type : (s.ftable f).type = .inode
  writable : (s.ftable f).writable = true
  ready : Ready (s.ftable f).ip s

structure Held (ip : Nat) (s t : State) : Prop where
  disk : t.disk = s.disk
  inum : (t.itable ip).inum = (s.itable ip).inum
  synced : Synced ip t
  loaded : Loaded ip t
  valid : (t.itable ip).valid = true
  rest : t.rest ip = ((s.itable ip).ref, true, s.ftable)
  itable : ∀ iq ≠ ip, t.itable iq = s.itable iq

section FileWrite

variable {s t u : State} {f ip n : Nat} {src : Nat → Option Nat} {E : Stop → State → Prop}

theorem ilock_held (h : Ready ip s) : Wp (ilock ip) (fun _ t => Held ip s t) E s := by
  unfold ilock
  have href : ¬ (s.itable ip).ref < 1 := by
    have := h.ref
    omega
  refine .bind (.of_ok rfl ?_)
  rw [if_neg href, if_neg (by rw [h.unlocked]; decide)]
  refine .bind (.of_ok rfl (.ite (fun hvalid => .get ?_) fun hvalid => .pure ?_))
  · rw [if_neg (Nat.not_le_of_lt h.inum_lt)]
    refine .bind (.of_ok rfl ?_)
    rw [if_neg h.allocated]
    simp only [upd_upd, upd_self]
    exact .pure ⟨rfl, by simp only [upd_self], by simp only [Synced, upd_self],
      ⟨by simpa only [upd_self] using h.inum_lt, by simpa only [upd_self] using h.allocated⟩,
      by simp only [upd_self], by simp only [State.rest, upd_self], fun iq hiq => upd_of_ne _ _ hiq⟩
  · have hvalid : (s.itable ip).valid = true := by simpa using hvalid
    have hsync : s.dinode (s.itable ip).inum = (s.itable ip).copy := h.synced hvalid
    have halloc := h.allocated
    rw [hsync] at halloc
    exact ⟨rfl, by simp only [upd_self], by simpa only [Synced, upd_self] using hsync,
      ⟨by simpa only [upd_self] using h.inum_lt, by simpa only [upd_self] using halloc⟩,
      by simpa only [upd_self] using hvalid, by simp only [State.rest, upd_self],
      fun iq hiq => upd_of_ne _ _ hiq⟩

structure Appended (f : Nat) (bytes : List Nat) (s t : State) : Prop where
  opened : OpenFile f t
  ip : (t.ftable f).ip = (s.ftable f).ip
  off : (t.ftable f).off = (s.ftable f).off + bytes.length
  inum : (t.itable (s.ftable f).ip).inum = (s.itable (s.ftable f).ip).inum
  rewritten : s.disk.Rewritten (s.itable (s.ftable f).ip).inum (s.ftable f).off bytes t.disk
  dinode : ∀ i ≠ (s.itable (s.ftable f).ip).inum, t.dinode i = s.dinode i
  itable : ∀ iq ≠ (s.ftable f).ip, t.itable iq = s.itable iq
  ftable : ∀ g ≠ f, t.ftable g = s.ftable g

theorem Appended.trans {bytes more : List Nat} (h : Appended f bytes s t) (h' : Appended f more t u)
    (hoff : (s.ftable f).off ≤ (s.dinode (s.itable (s.ftable f).ip).inum).size) :
    Appended f (bytes ++ more) s u where
  opened := h'.opened
  ip := h'.ip.trans h.ip
  off := by rw [h'.off, h.off, List.length_append, Nat.add_assoc]
  inum := h.ip ▸ h'.inum.trans (h.ip ▸ h.inum)
  rewritten := h.rewritten.trans (by
    have hmore := h'.rewritten
    rwa [h.ip, h.inum, h.off] at hmore) hoff
  dinode := fun i hi => (h'.dinode i (by rwa [h.ip, h.inum])).trans (h.dinode i hi)
  itable := fun iq hiq => (h'.itable iq (by rwa [h.ip])).trans (h.itable iq hiq)
  ftable := fun g hg => (h'.ftable g hg).trans (h.ftable g hg)

structure Appending (f : Nat) (bytes : List Nat) (s t : State) : Prop where
  owned : t.disk.Owned
  synced : Synced (s.ftable f).ip t
  loaded : Loaded (s.ftable f).ip t
  held : (t.itable (s.ftable f).ip).ref = (s.itable (s.ftable f).ip).ref ∧
    (t.itable (s.ftable f).ip).locked = true
  file : t.ftable = upd s.ftable f { s.ftable f with off := (s.ftable f).off + bytes.length }
  inum : (t.itable (s.ftable f).ip).inum = (s.itable (s.ftable f).ip).inum
  rewritten : s.disk.Rewritten (s.itable (s.ftable f).ip).inum (s.ftable f).off bytes t.disk
  dinode : ∀ i ≠ (s.itable (s.ftable f).ip).inum, t.dinode i = s.dinode i
  itable : ∀ iq ≠ (s.ftable f).ip, t.itable iq = s.itable iq

structure Unlocked (ip : Nat) (s t : State) : Prop where
  disk : t.disk = s.disk
  copy : (t.itable ip).copy = (s.itable ip).copy

theorem iunlock_appended (hopen : OpenFile f s) {bytes : List Nat} (h : Appending f bytes s t) :
    Wp (iunlock (s.ftable f).ip) (fun _ u => Appended f bytes s u ∧ Unlocked (s.ftable f).ip t u)
      E t := by
  have href : ¬ (t.itable (s.ftable f).ip).ref < 1 := by
    have := hopen.ready.ref
    rw [h.held.1]
    omega
  have hfile : t.ftable f = { s.ftable f with off := (s.ftable f).off + bytes.length } := by
    rw [h.file, upd_self]
  unfold iunlock
  refine .bind (.of_ok rfl ?_)
  rw [if_neg (by simp [h.held.2, href])]
  refine .of_ok rfl ⟨⟨⟨?_, ?_, ?_⟩, ?_, ?_, ?_, h.rewritten, h.dinode, fun iq hiq => ?_,
    fun g hg => ?_⟩, rfl, by simp only [upd_self]⟩
  · simp only [hfile, hopen.type]
  · simp only [hfile, hopen.writable]
  · simp only [hfile]
    have halloc : (t.dinode (t.itable (s.ftable f).ip).inum).type ≠ .free := by
      rw [h.synced]
      exact h.loaded.allocated
    exact ⟨h.owned, by simpa only [upd_self] using h.loaded.inum_lt,
      by simp only [upd_self]; omega, by simp only [upd_self],
      by simpa only [upd_self] using halloc, fun _ => by simpa only [Synced, upd_self] using h.synced⟩
  · simp only [hfile]
  · simp only [hfile]
  · simp only [upd_self, h.inum]
  · simp only [upd_of_ne _ _ hiq, h.itable iq hiq]
  · simp only [h.file, upd_of_ne _ _ hg]

/-- Why a write to `f` ends early: the disk is full, the offset lies behind the end of the file, or the
next chunk would make the file too large. -/
def Stuck (f n : Nat) (t : State) : Prop :=
  (∀ b < t.sb.size, t.bitmap b = true) ∨
    (t.itable (t.ftable f).ip).copy.size < (t.ftable f).off ∨
    maxfile * bsize < (t.ftable f).off + min n writeMax

theorem Held.appending (hopen : OpenFile f s) (h : Held (s.ftable f).ip s t) :
    Appending f [] s t := by
  have hrest := h.rest
  simp only [State.rest, Prod.mk.injEq] at hrest
  exact ⟨h.disk ▸ hopen.ready.owned, h.synced, h.loaded, ⟨hrest.1, hrest.2.1⟩,
    by rw [hrest.2.2]; exact (upd_eq_self _ _ rfl).symm, h.inum, h.disk ▸ .refl _ _ _,
    fun i _ => congrFun (congrArg Image.dinode h.disk) i, h.itable⟩

theorem Held.wrote (h : Held (s.ftable f).ip s t) {tot : Nat}
    (hw : Wrote (s.ftable f).ip (s.ftable f).off n src t tot u) :
    Appending f (bytesFrom src 0 tot) s { u with
      ftable := upd u.ftable f { u.ftable f with off := (u.ftable f).off + tot } } := by
  have hrest := hw.rest.trans h.rest
  simp only [State.rest, Prod.mk.injEq] at hrest
  have hrewr := hw.rewritten
  rw [h.synced.view_eq, h.disk, h.inum] at hrewr
  refine ⟨hw.owned, hw.synced, (hw.loaded h.loaded).congr rfl rfl rfl, ⟨hrest.1, hrest.2.1⟩, ?_,
    hw.inum.trans h.inum, hrewr, fun i hi => ?_, fun iq hiq => ?_⟩
  · simp only [hrest.2.2, length_bytesFrom]
  · exact (hw.dinode i (by rwa [h.inum])).trans (congrFun (congrArg Image.dinode h.disk) i)
  · exact (hw.itable iq hiq).trans (h.itable iq hiq)

theorem moveOffset_wp {α : Type} {Q : α → State → Prop} {k : F α} {tot : Nat}
    (hk : Wp k Q E { t with
      ftable := upd t.ftable f { t.ftable f with off := (t.ftable f).off + tot } }) :
    Wp (if 0 < (tot : Int) then do
        modifyFile f fun file => { file with off := file.off + (tot : Int).toNat }
        k
      else k) Q E t := by
  refine .ite (fun _ => .bind (.of_ok rfl hk)) fun hzero => ?_
  have htot : tot = 0 := by omega
  have hsame : upd t.ftable f { t.ftable f with off := (t.ftable f).off + tot } = t.ftable :=
    upd_eq_self _ _ (by rw [htot]; rfl)
  rwa [hsame] at hk

theorem bytesFrom_shift (src : Nat → Option Nat) (i n : Nat) :
    bytesFrom (fun k => src (i + k)) 0 n = bytesFrom src i n := by
  simp [bytesFrom]

theorem filewriteFrom_wp (hopen : OpenFile f s) (hsrc : Readable src n) {rounds i : Nat} (hi : i ≤ n)
    (hrounds : n - i ≤ rounds) :
    Wp (filewriteFrom f src n rounds i) (fun j t => ∃ k, i ≤ k ∧ k ≤ n ∧ (j = n ↔ k = n) ∧
      Appended f (bytesFrom src i (k - i)) s t ∧ (k < n → Stuck f (n - k) t)) E s := by
  have hstop : Appended f (bytesFrom src i (i - i)) s s := by
    rw [Nat.sub_self]
    exact ⟨hopen, rfl, rfl, rfl, .refl _ _ _, fun _ _ => rfl, fun _ _ => rfl, fun _ _ => rfl⟩
  induction rounds generalizing s i with
  | zero =>
      have hi : i = n := by omega
      exact .pure ⟨i, Nat.le_refl _, by omega, Iff.rfl, hstop, fun h => by omega⟩
  | succ rounds ih =>
      refine .ite (fun hmore => ?_) fun hdone => .pure ⟨i, Nat.le_refl _, hi, Iff.rfl, hstop,
        fun h => absurd h hdone⟩
      have hpos : 0 < writeMax := by decide
      refine .bind (.of_ok rfl (.bind ((ilock_held hopen.ready).imp fun _ t ht => ?_)))
      have hsrc' : Readable (fun k => src (i + k)) (min (n - i) writeMax) := fun k hk =>
        hsrc (i + k) (by omega)
      by_cases hw : Writable (s.ftable f).ip (s.ftable f).off (min (n - i) writeMax) t
      · have hown : (t.view (s.ftable f).ip).Owned := by
          rw [ht.synced.view_eq, ht.disk]
          exact hopen.ready.owned
        refine .bind ((writei_wrote hown ht.loaded hw hsrc').imp fun r u hu => ?_)
        obtain ⟨tot, rfl, hu⟩ := hu
        refine moveOffset_wp (.bind ((iunlock_appended hopen (ht.wrote hu)).imp fun _ v hv => ?_))
        obtain ⟨hv, hunlock⟩ := hv
        rw [bytesFrom_shift] at hv
        have htot := hu.tot_le
        refine .ite (fun hshort => .pure ⟨i + tot, by omega, by omega, by omega, ?_, fun _ => .inl ?_⟩)
          fun hall => ?_
        · rwa [Nat.add_sub_cancel_left]
        · obtain ⟨hfull, -⟩ := hu.short (by omega)
          rw [show v.sb = u.sb from congrArg Image.sb hunlock.disk,
            show v.bitmap = u.bitmap from congrArg Image.bitmap hunlock.disk]
          exact hfull
        · have hall : tot = min (n - i) writeMax := by omega
          subst hall
          refine (ih hv.opened (by omega) (by omega) ?_).imp fun j w hw' => ?_
          · rw [Nat.sub_self]
            exact ⟨hv.opened, rfl, rfl, rfl, .refl _ _ _, fun _ _ => rfl, fun _ _ => rfl, fun _ _ => rfl⟩
          · obtain ⟨k, hik, hkn, hj, happ, hstuck⟩ := hw'
            refine ⟨k, by omega, hkn, hj, ?_, hstuck⟩
            have hsplit : k - i = min (n - i) writeMax + (k - (i + min (n - i) writeMax)) := by omega
            rw [hsplit, bytesFrom_add]
            refine hv.trans happ ?_
            have hsize : (t.dinode (t.itable (s.ftable f).ip).inum).size =
                (t.itable (s.ftable f).ip).copy.size := congrArg Dinode.size ht.synced
            rw [← ht.inum, ← show t.dinode = s.dinode from congrArg Image.dinode ht.disk, hsize]
            exact hw.1
      · refine .bind ((writei_refused hw).imp fun r u hu => ?_)
        obtain ⟨rfl, rfl⟩ := hu
        rw [if_neg (by decide)]
        refine .bind ((iunlock_appended hopen (ht.appending hopen)).imp fun _ v hv => ?_)
        obtain ⟨hv, hunlock⟩ := hv
        rw [if_pos (by omega)]
        refine .pure ⟨i, Nat.le_refl _, hi, Iff.rfl, by rwa [Nat.sub_self], fun _ => .inr ?_⟩
        rw [hv.ip, hv.off, hunlock.copy]
        have hlt := maxfile_lt
        simp only [Writable] at hw
        simp only [List.length_nil]
        omega

theorem filewrite_wp (hopen : OpenFile f s) {n : Int} (hsrc : Readable src n.toNat) :
    Wp (filewrite f src n) (fun r t => ∃ k : Nat, k ≤ n.toNat ∧ r = (if (k : Int) = n then n else -1) ∧
      Appended f (bytesFrom src 0 k) s t ∧ (k < n.toNat → Stuck f (n.toNat - k) t)) E s := by
  unfold filewrite
  refine .bind (.of_ok rfl ?_)
  rw [if_neg (by simp [hopen.writable]), hopen.type]
  refine .bind ((filewriteFrom_wp hopen hsrc (Nat.zero_le _) (Nat.le_refl _)).imp fun j t ht => .pure ?_)
  obtain ⟨k, -, hk, hj, happ, hstuck⟩ := ht
  have hiff : (j : Int) = n ↔ (k : Int) = n := by omega
  exact ⟨k, hk, by simp only [hiff], happ, hstuck⟩

end FileWrite

/-! ### The content law -/

theorem Image.content_setNode_of_ne (img : Image) {i i' : Nat} (node : Dinode) (hne : i' ≠ i) :
    (img.setNode i node).content i' = img.content i' := by
  have hnode : (img.setNode i node).dinode i' = img.dinode i' := upd_of_ne _ _ hne
  have hblock : ∀ bn, (img.setNode i node).block i' bn = img.block i' bn := fun bn =>
    slot_congr rfl (by rw [hnode]) fun _ _ => by rw [hnode]; rfl
  refine content_congr (by rw [hnode]) fun j _ => ?_
  simp only [byte, hblock]
  rfl

/-- `writei` replaces a range of the content by a prefix of the source, which is shorter than asked for
only if the disk is full; and `filewrite` writes a prefix of its buffer at the offset of the file. -/
theorem file_content :
    (∀ (s : State) (ip off n : Nat) (src : Nat → Option Nat), (s.view ip).Owned → Loaded ip s →
      Writable ip off n s → Readable src n →
      ∃ (tot : Nat) (t : State), writei ip src off n s = .ok (tot : Int) t ∧ tot ≤ n ∧
        (t.itable ip).copy.size = max (s.itable ip).copy.size (off + tot) ∧
        Reads ip (overwrite ((s.view ip).content (s.itable ip).inum) off (bytesFrom src 0 tot)) t ∧
        (∀ i < s.sb.ninodes, i ≠ (s.itable ip).inum →
          t.dinode i = s.dinode i ∧ t.disk.content i = s.disk.content i) ∧
        (∀ iq, (s.itable iq).inum ≠ (s.itable ip).inum → Loaded iq s → Synced iq s →
          Reads iq (s.disk.content (s.itable iq).inum) t) ∧
        (tot < n → (∀ b < t.sb.size, t.bitmap b = true) ∧ (tot = 0 ∨ (off + tot) % bsize = 0))) ∧
    (∀ (s : State) (f : Nat) (src : Nat → Option Nat) (n : Int), OpenFile f s →
      Readable src n.toNat →
      ∃ (k : Nat) (t : State), k ≤ n.toNat ∧
        filewrite f src n s = .ok (if (k : Int) = n then n else -1) t ∧
        Appended f (bytesFrom src 0 k) s t ∧ (k < n.toNat → Stuck f (n.toNat - k) t)) := by
  refine ⟨fun s ip off n src hown hload hw hsrc => ?_, fun s f src n hopen hsrc => ?_⟩
  · obtain ⟨r, t, hrun, tot, rfl, ht⟩ := (writei_wrote hown hload hw hsrc).returns
    have hothers : ∀ i < s.sb.ninodes, i ≠ (s.itable ip).inum → t.disk.content i = s.disk.content i :=
      fun i hi hne => (ht.rewritten.others i hi hne).trans (s.disk.content_setNode_of_ne _ hne)
    refine ⟨tot, t, hrun, ht.tot_le, ht.size, ?_, fun i hi hne => ⟨ht.dinode i hne, hothers i hi hne⟩,
      fun iq hne hload' hsync => ?_, ht.short⟩
    · have hread := reads_content t ip (ht.synced.view_eq ▸ ht.owned) (ht.loaded hload)
      rwa [ht.synced.view_eq, ht.inum, ht.rewritten.content] at hread
    · have hiq : iq ≠ ip := fun h => hne (h ▸ rfl)
      have hnode := ht.itable iq hiq
      have hsync' : Synced iq t := by
        rw [Synced, hnode, ht.dinode _ hne]
        exact hsync
      have hread := reads_content t iq (hsync'.view_eq ▸ ht.owned)
        (hload'.congr ht.rewritten.sb (by rw [hnode]) (by rw [hnode]))
      rwa [hsync'.view_eq, hnode, hothers _ hload'.inum_lt hne] at hread
  · obtain ⟨r, t, hrun, k, hk, rfl, happ, hstuck⟩ := (filewrite_wp hopen hsrc).returns
    exact ⟨k, t, hk, hrun, happ, hstuck⟩

/-- A disk with three data blocks and one empty file, which is open. -/
def oneFile : State where
  sb := { size := 4, ninodes := 2, datastart := 1 }
  bitmap := fun b => decide (b < 1)
  dinode := fun i => if i = 1 then { Dinode.empty with type := .file, nlink := 1 } else .empty
  data := fun _ _ => 0
  itable := fun ip => { inum := 1, ref := if ip = 0 then 1 else 0, locked := false, valid := true,
                        copy := { Dinode.empty with type := .file, nlink := 1 } }
  ftable := fun _ => { type := .inode, ref := 1, readable := true, writable := true, pipe := 0, ip := 0,
                       off := 0, major := 0 }
  proc := fun _ => { ofile := fun _ => none, cwd := none }
  pipe := fun _ => none
  births := 0
  freed := []

theorem oneFile_addrs (i k : Nat) : (oneFile.disk.dinode i).addrs k = 0 := by
  simp only [State.disk, oneFile]
  split <;> rfl

theorem oneFile_size (i : Nat) : (oneFile.disk.dinode i).size = 0 := by
  simp only [State.disk, oneFile]
  split <;> rfl

theorem oneFile_owned : oneFile.disk.Owned := by
  have hslot : ∀ x, oneFile.disk.slot x = none := fun x =>
    Image.slot_eq_none (fun k _ => oneFile_addrs x.1 k) x.2
  refine ⟨by decide, by decide, fun b hb => decide_eq_true hb, ⟨fun x b hx => ?_, fun x y b hx => ?_,
    fun b hb => hb.elim, fun b hb hused => ?_⟩, fun i _ _ bn hbn => ?_, fun i _ => ?_,
    fun i _ _ => oneFile_size i, fun _ _ _ _ _ => trivial⟩
  · rw [hslot] at hx
    cases hx
  · rw [hslot] at hx
    cases hx
  · have hb : oneFile.sb.isData b = true := hb
    have hused : b < 1 := of_decide_eq_true hused
    simp only [Superblock.isData, oneFile, Bool.and_eq_true, decide_eq_true_eq] at hb
    omega
  · rw [oneFile_size] at hbn
    omega
  · rw [oneFile_size]
    exact Nat.zero_le _

/-- Two blocks and a bit are written to the file, through the inode and through the open file. -/
theorem file_content_oneFile :
    (∃ (tot : Nat) (t : State), writei 0 (fun k => some (k % 256)) 0 2050 oneFile = .ok (tot : Int) t ∧
      Reads 0 (overwrite ((oneFile.view 0).content 1) 0 (bytesFrom (fun k => some (k % 256)) 0 tot)) t) ∧
    ∃ (k : Nat) (t : State), k ≤ 5000 ∧
      filewrite 0 (fun k => some (k % 256)) 5000 oneFile = .ok (if (k : Int) = 5000 then 5000 else -1) t ∧
      Appended 0 (bytesFrom (fun k => some (k % 256)) 0 k) oneFile t := by
  have hsync : Synced 0 oneFile := rfl
  have hload : Loaded 0 oneFile := ⟨by decide, by decide⟩
  have hsrc : ∀ n, Readable (fun k => some (k % 256)) n := fun n k _ =>
    ⟨k % 256, Nat.mod_lt _ (by decide), rfl⟩
  refine ⟨?_, ?_⟩
  · obtain ⟨tot, t, hrun, -, -, hread, -⟩ := file_content.1 oneFile 0 0 2050 _
      (hsync.view_eq ▸ oneFile_owned) hload ⟨by decide, by decide, by decide⟩ (hsrc _)
    exact ⟨tot, t, hrun, hread⟩
  · obtain ⟨k, t, hk, hrun, happ, -⟩ := file_content.2 oneFile 0 _ 5000
      ⟨rfl, rfl, oneFile_owned, by decide, by decide, rfl, by decide, fun _ => hsync⟩ (hsrc _)
    exact ⟨k, t, hk, hrun, happ⟩

end Xv6Mmap.Fs
