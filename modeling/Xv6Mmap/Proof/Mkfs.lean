import Xv6Mmap.Lib.Keeps
import Xv6Mmap.Proof.MkfsSlots

/-!
# The image that mkfs makes

What was appended to an inode can be read back through its slots. So the image that is left at the end
holds the input files and the directory that names them, unless the last block of the directory is full
or there are more files than inodes.
-/

namespace Xv6Mmap.Mkfs

open Sequential Fs Bytes
open Finset (range)

/-! ### Appending -/

def needs (c : Nat → List UInt8) : Nat → Nat := fun i => need (c i).length

/-- The files do not fit on the disk, or one of them is too large. -/
def Over (c : Nat → List UInt8) : Prop :=
  fssize < nmeta + total (needs c) ∨ ∃ i < inodeRoom, maxfile * bsize < (c i).length

instance (c : Nat → List UInt8) : Decidable (Over c) :=
  inferInstanceAs (Decidable (_ ∨ ∃ i < inodeRoom, maxfile * bsize < (c i).length))

section Append

variable {ino : Nat → Dinode} {i : Nat} {din : Dinode} {c : Nat → List UInt8} {p : List UInt8}
  {s t : State} {E : Exit → State → Prop}

theorem needs_upd (c : Nat → List UInt8) (i : Nat) (l : List UInt8) :
    needs (upd c i l) = upd (needs c) i (need l.length) := by
  funext i'
  by_cases hi : i' = i
  · rw [hi, needs, upd_self, upd_self]
  · rw [needs, upd_of_ne _ _ hi, upd_of_ne _ _ hi, needs]

theorem total_needs_le {c' : Nat → List UInt8} (hle : ∀ i, (c i).length ≤ (c' i).length) :
    total (needs c) ≤ total (needs c') :=
  total_mono fun i => need_mono (hle i)

theorem Mid.write {fbn n1 : Nat} (ht : Mid ino i din (upd (needs c) i (slotOf fbn + 1)) c t)
    (hfbn : fbn = (c i).length / bsize) (hn1 : n1 = min p.length ((fbn + 1) * bsize - (c i).length))
    (hp : p ≠ []) :
    Mid ino i din (needs (upd c i (c i ++ p.take n1))) (upd c i (c i ++ p.take n1))
      { t with
        block := upd t.block (din.addr t.block (slotOf fbn))
          (splice (t.block (din.addr t.block (slotOf fbn))) (pointer p)
            ((c i).length - fbn * bsize) n1) } := by
  have hpos : 0 < p.length := List.length_pos_iff.mpr hp
  have hdiv : fbn * bsize ≤ (c i).length ∧ (c i).length < (fbn + 1) * bsize := by
    simp only [bsize] at hfbn ⊢
    omega
  have hlen : (c i ++ p.take n1).length = (c i).length + n1 := by
    rw [List.length_append, List.length_take]
    omega
  have hneed : needs (upd c i (c i ++ p.take n1)) = upd (needs c) i (slotOf fbn + 1) := by
    have hlow : fbn * bsize < (c i).length + n1 := by omega
    rw [needs_upd, hlen, need_eq hlow (by omega)]
  have hm : upd (needs c) i (slotOf fbn + 1) i = slotOf fbn + 1 := upd_self _ _ _
  have hlt : slotOf fbn < upd (needs c) i (slotOf fbn + 1) i := by omega
  have hle : n1 ≤ p.length := by omega
  have hslots := ht.slots.write hlt
  have hcontent := ht.content.write (o := (c i).length - fbn * bsize) ht.slots hm (by omega) hle
  have hbound := ht.slots.bound i (slotOf fbn) hlt
  rw [upd_self] at hslots hcontent hbound
  rw [hneed]
  exact ⟨ht.sectors, (ino_upd hbound.1 _ _).trans ht.inodes, ht.fits, hslots _, hcontent, ht.total,
    (super_upd hbound.1 _).trans ht.super⟩

theorem over_of_slot {fbn : Nat} (hfbn : fbn = (c i).length / bsize) (hp : p ≠ [])
    (hfull : fssize < nmeta + total (upd (needs c) i (slotOf fbn + 1))) :
    Over (upd c i (c i ++ p)) := by
  have hpos : 0 < p.length := List.length_pos_iff.mpr hp
  have hlt : slotOf fbn < need (c i ++ p).length := by
    rw [slotOf_lt_need, List.length_append]
    simp only [bsize] at hfbn ⊢
    omega
  have hle : total (upd (needs c) i (slotOf fbn + 1)) ≤ total (needs (upd c i (c i ++ p))) := by
    rw [needs_upd]
    refine total_mono fun i' => ?_
    by_cases hi : i' = i
    · rw [hi, upd_self, upd_self]
      exact hlt
    · rw [upd_of_ne _ _ hi, upd_of_ne _ _ hi]
  exact .inl (by omega)

theorem Mid.find_le {d : Dinode} {fbn x : Nat}
    (ht : Mid ino i d (upd (needs c) i (slotOf fbn + 1)) c t) (hs : Mid ino i din (needs c) c s)
    (hi : i < inodeRoom) (hroom : s.freeblock ≤ fssize) (hfbn : fbn = (c i).length / bsize)
    (hx : x < t.freeblock) : x ≤ 2 * fssize := by
  have hcases := need_cases hfbn
  have hslot : slotOf fbn ≤ need (c i).length + 1 := by
    have : slotOf ndirect = ndirect + 1 := rfl
    rcases hcases with h | ⟨-, h | ⟨h, h'⟩⟩
    · omega
    · omega
    · rw [h]
      omega
  have htotal := Mkfs.total_upd (needs c) hi (slotOf fbn + 1)
  have h1 := ht.total
  have h2 := hs.total
  have h3 : needs c i = need (c i).length := rfl
  have h4 : 1 < fssize := by decide
  omega

theorem iappendFrom_wp (hs : Mid ino i din (needs c) c s) (hi : i < inodeRoom)
    (hroom : s.freeblock ≤ fssize) (hlen : (c i).length ≤ maxfile * bsize) :
    Wp (iappendFrom din (c i).length p)
      (fun r t => Mid ino i r.1 (needs (upd c i (c i ++ p))) (upd c i (c i ++ p)) t ∧
        r.2 = (c i ++ p).length ∧ t.freeblock ≤ fssize ∧ (c i ++ p).length ≤ maxfile * bsize)
      (fun _ _ => Over (upd c i (c i ++ p))) s := by
  induction hn : p.length using Nat.strong_induction_on generalizing p c din s with
  | _ n ih =>
      rw [iappendFrom]
      refine .ite (fun hp => .pure ?_) fun hp => ?_
      · rw [hp, List.append_nil, upd_eq_self _ _ rfl]
        exact ⟨hs, rfl, hroom, hlen⟩
      · have hpos : 0 < p.length := List.length_pos_iff.mpr hp
        refine .ite (fun hge => .bind (.of_error rfl (.inr ⟨i, hi, ?_⟩))) fun hlt => ?_
        · rw [upd_self, List.length_append]
          have hle := (Nat.le_div_iff_mul_le (by decide)).mp hge
          exact Nat.lt_of_le_of_lt hle (Nat.lt_add_of_pos_right hpos)
        · refine .bind (((findBlock_wp hs hi hroom rfl rfl (by omega)).mono (fun r t ht => ?_)
            fun _ _ hfull => over_of_slot rfl hp hfull))
          obtain ⟨d, x⟩ := r
          obtain ⟨ht, hx, hfb⟩ := ht
          dsimp only at ht hx hfb ⊢
          have hbound := ht.slots.bound i (slotOf ((c i).length / bsize)) (by rw [upd_self]; omega)
          rw [upd_self, ← hx] at hbound
          have hx2 : x ≤ 2 * fssize := ht.find_le hs hi hroom rfl hbound.2
          refine .bind (rsect_wp ht.sectors hx2 (fun hx' => ?_) fun hge => ?_)
          · have hnext := ht.write rfl rfl hp
            rw [← hx] at hnext
            refine .bind (wsect_wp ht.sectors hx' ?_)
            generalize hn1 : min p.length (((c i).length / bsize + 1) * bsize - (c i).length) = n1 at hnext ⊢
            have hn1pos : 0 < n1 := hn1 ▸ chunk_pos hp
            have hc1 : (upd c i (c i ++ p.take n1) i).length = (c i).length + n1 := by
              rw [upd_self, List.length_append, List.length_take]
              omega
            have hend : (c i).length + n1 ≤ maxfile * bsize := by
              have hle := Nat.mul_le_mul_right bsize (Nat.lt_of_not_le hlt)
              have hlow : (c i).length < ((c i).length / bsize + 1) * bsize :=
                (Nat.div_lt_iff_lt_mul (by decide)).mp (Nat.lt_succ_self _)
              have hsub : n1 ≤ ((c i).length / bsize + 1) * bsize - (c i).length := hn1 ▸ min_le_right _ _
              exact (Nat.add_comm _ _).trans_le ((Nat.add_le_of_le_sub hlow.le hsub).trans hle)
            have hrest := ih (p.drop n1).length (by rw [List.length_drop]; omega) (p := p.drop n1) hnext
              (by dsimp only; omega) (hc1.trans_le hend) rfl
            rw [hc1, upd_self, upd_upd, List.append_assoc, List.take_append_drop] at hrest
            exact hrest
          · exact over_of_slot rfl hp (by have := ht.total; omega)

end Append

/-! ### What is kept -/

section Keeps

theorem keeps_throw {α : Type} (e : Exit) : Keeps State.freeinode (throw e : M α) := fun _ => .of_error rfl rfl

theorem keeps_rsect (sec : Nat) : Keeps State.freeinode (rsect sec) :=
  .bind .get fun _ => .ite (.pure _) (keeps_throw _)

theorem keeps_wsect (sec : Nat) (buf : Block) : Keeps State.freeinode (wsect sec buf) :=
  .modify fun _ => rfl

theorem keeps_winode (i : Nat) (d : Dinode) : Keeps State.freeinode (winode i d) :=
  .bind (keeps_rsect _) fun _ => keeps_wsect _ _

theorem keeps_rinode (i : Nat) : Keeps State.freeinode (rinode i) :=
  .bind (keeps_rsect _) fun _ => .pure _

theorem keeps_takeBlock : Keeps State.freeinode takeBlock := fun _ => ⟨rfl⟩

theorem keeps_direct (d : Dinode) (k : Nat) : Keeps State.freeinode (direct d k) :=
  .ite (.bind keeps_takeBlock fun _ => .pure _) (.pure _)

theorem keeps_findBlock (d : Dinode) (fbn : Nat) : Keeps State.freeinode (findBlock d fbn) :=
  .ite (.bind (keeps_direct _ _) fun _ => .pure _)
    (.bind (keeps_direct _ _) fun _ => .bind (keeps_rsect _) fun _ =>
      .ite (.bind keeps_takeBlock fun _ => .bind (keeps_wsect _ _) fun _ => .pure _) (.pure _))

theorem keeps_iappendFrom (d : Dinode) (off : Nat) (p : List UInt8) :
    Keeps State.freeinode (iappendFrom d off p) := by
  induction hn : p.length using Nat.strong_induction_on generalizing p d off with
  | _ n ih =>
      rw [iappendFrom]
      by_cases hp : p = []
      · rw [if_pos hp]
        exact .pure _
      · rw [if_neg hp]
        have hpos : 0 < min p.length ((off / bsize + 1) * bsize - off) := chunk_pos hp
        refine .when (keeps_throw _) fun _ => .bind (keeps_findBlock _ _) fun _ =>
          .bind (keeps_rsect _) fun _ => .bind (keeps_wsect _ _) fun _ => ih _ ?_ _ _ _ rfl
        rw [List.length_drop]
        omega

theorem keeps_iappend (i : Nat) (p : List UInt8) : Keeps State.freeinode (iappend i p) :=
  .bind (keeps_rinode _) fun _ => .bind (keeps_iappendFrom _ _ _) fun _ => keeps_winode _ _

theorem keeps_copyFrom (i : Nat) (content : List UInt8) :
    Keeps State.freeinode (copyFrom i content) := by
  induction hn : content.length using Nat.strong_induction_on generalizing content with
  | _ n ih =>
      rw [copyFrom]
      by_cases hc : content = []
      · rw [if_pos hc]
        exact .pure _
      · rw [if_neg hc]
        have hpos := List.length_pos_iff.mpr hc
        refine .bind (keeps_iappend _ _) fun _ => ih _ ?_ _ rfl
        simp only [List.length_drop, bsize]
        omega

theorem direct_head (d : Dinode) (k : Nat) (s : State) :
    Wp (direct d k) (fun r _ => r.head = d.head) (fun _ _ => True) s :=
  .ite (fun _ => .bind (.of_ok rfl (.pure rfl))) fun _ => .pure rfl

theorem findBlock_head (d : Dinode) (fbn : Nat) (s : State) :
    Wp (findBlock d fbn) (fun r _ => r.1.head = d.head) (fun _ _ => True) s := by
  refine .ite (fun _ => ?_) fun _ => ?_
  · exact .bind ((direct_head d fbn s).imp fun r _ hr => .pure hr)
  · refine .bind ((direct_head d ndirect s).imp fun r t hr => .bind ?_)
    refine (keeps_rsect _ t).mono (fun _ u _ => ?_) fun _ _ _ => trivial
    refine .ite (fun _ => ?_) fun _ => .pure hr
    exact .bind (.of_ok rfl (.bind (.of_ok rfl (.pure hr))))

theorem iappendFrom_head (d : Dinode) (off : Nat) (p : List UInt8) (s : State) :
    Wp (iappendFrom d off p) (fun r _ => r.1.head = d.head) (fun _ _ => True) s := by
  induction hn : p.length using Nat.strong_induction_on generalizing p d off s with
  | _ n ih =>
      rw [iappendFrom]
      refine .ite (fun _ => .pure rfl) fun hp => ?_
      have hpos : 0 < min p.length ((off / bsize + 1) * bsize - off) := chunk_pos hp
      refine .ite (fun _ => .bind (.of_error rfl trivial)) fun _ => ?_
      refine .bind ((findBlock_head d _ s).imp fun r t hr => .bind ?_)
      refine (keeps_rsect _ t).mono (fun _ u _ => .bind (.of_ok rfl ?_)) fun _ _ _ => trivial
      refine (ih _ ?_ _ _ _ _ rfl).imp fun r' _ hr' => hr'.trans hr
      rw [List.length_drop]
      omega

end Keeps

/-! ### Files -/

def heads (n i : Nat) : Nat × Nat × Nat × Nat :=
  if 0 < i ∧ i < n then (if i = rootino then tDir else tFile, 0, 0, 1) else (0, 0, 0, 0)

/-- Between the calls of `iappend`, the files have the content `c`. -/
structure Inv (c : Nat → List UInt8) (s : State) : Prop where
  sectors : s.sectors = fssize
  size : ∀ i, (s.ino i).size = (c i).length
  slots : Slots s.ino s.block (needs c) s.freeblock
  content : Content s.ino s.block (needs c) c
  total : s.freeblock = nmeta + total (needs c)
  room : s.freeblock ≤ fssize
  length : ∀ i, (c i).length ≤ maxfile * bsize
  unused : ∀ i, s.freeinode ≤ i → c i = []
  head : ∀ i, (s.ino i).head = heads s.freeinode i
  super : s.block 1 = superblock

section Files

variable {c : Nat → List UInt8} {i : Nat} {p : List UInt8} {s : State} {E : Exit → State → Prop}

theorem Inv.mid (hs : Inv c s) (i : Nat) : Mid s.ino i (s.ino i) (needs c) c s := by
  have heq : upd s.ino i (s.ino i) = s.ino := upd_eq_self _ _ rfl
  exact ⟨hs.sectors, rfl, ino_fits s i, heq.symm ▸ hs.slots, heq.symm ▸ hs.content, hs.total,
    hs.super⟩

theorem Mid.stored {ino : Nat → Dinode} {din : Dinode} {t : State} (hs : Mid ino i din (needs c) c s)
    (hsize : ∀ i' ≠ i, (ino i').size = (c i').length) (hroom : s.freeblock ≤ fssize)
    (hlen : ∀ i, (c i).length ≤ maxfile * bsize) (hunused : ∀ i, s.freeinode ≤ i → c i = [])
    (hhead : ∀ i', (upd ino i din i').head = heads s.freeinode i')
    (ht : Stored s i { din with size := (c i).length } t) : Inv c t := by
  have hino : t.ino = upd ino i { din with size := (c i).length } := by rw [ht.ino, hs.inodes]
  have haddrs : ∀ i', (t.ino i').addrs = (upd ino i din i').addrs := fun i' => by
    rw [hino]
    by_cases hi : i' = i
    · rw [hi, upd_self, upd_self]
    · rw [upd_of_ne _ _ hi, upd_of_ne _ _ hi]
  have hblock : ∀ b, nmeta ≤ b → t.block b = s.block b := fun b hb =>
    ht.block b (.inr (le_trans (by decide) hb))
  have hfree : t.freeblock = s.freeblock := by rw [ht.eq]
  refine ⟨?_, fun i' => ?_, ?_, hs.content.congr hs.slots haddrs hblock, ?_, ?_, hlen, ?_, fun i' => ?_,
    (ht.block 1 (.inl (by decide))).trans hs.super⟩
  · rw [ht.eq]
    exact hs.sectors
  · rw [hino]
    by_cases hi : i' = i
    · rw [hi, upd_self]
    · rw [upd_of_ne _ _ hi, hsize i' hi]
  · rw [hfree]
    exact hs.slots.congr haddrs hblock hs.nmeta_le
  · rw [hfree, hs.total]
  · rw [hfree]
    exact hroom
  · rw [ht.eq]
    exact hunused
  · have hhead' : (t.ino i').head = (upd ino i din i').head := by
      rw [hino]
      by_cases hi : i' = i
      · rw [hi, upd_self, upd_self]
        rfl
      · rw [upd_of_ne _ _ hi, upd_of_ne _ _ hi]
    rw [hhead', hhead, ht.eq]

theorem over_mono {c' : Nat → List UInt8} (hle : ∀ i, (c i).length ≤ (c' i).length) (hc : Over c) :
    Over c' := by
  rcases hc with hfull | ⟨i, hi, hlong⟩
  · exact .inl (hfull.trans_le (Nat.add_le_add_left (total_needs_le hle) _))
  · exact .inr ⟨i, hi, hlong.trans_le (hle i)⟩

theorem iappend_wp (hs : Inv c s) (hi : i < inodeRoom) (hused : i < s.freeinode) :
    Wp (iappend i p) (fun _ t => Inv (upd c i (c i ++ p)) t ∧ t.freeinode = s.freeinode)
      (fun _ _ => Over (upd c i (c i ++ p))) s := by
  have hkeep : Wp (iappend i p) (fun _ t => t.freeinode = s.freeinode) (fun _ _ => True) s :=
    (keeps_iappend i p s).mono (fun _ _ h => h) fun _ _ _ => trivial
  refine .mono (Wp.and ?_ hkeep) (fun _ _ h => h) fun _ _ h => h.1
  refine .bind (rinode_wp hs.sectors hi ?_)
  rw [hs.size i]
  have hfrom := ((iappendFrom_wp (p := p) (hs.mid i) hi hs.room (hs.length i)).and
    (keeps_iappendFrom (s.ino i) (c i).length p s)).and (iappendFrom_head (s.ino i) (c i).length p s)
  refine .bind (hfrom.mono (fun r t ⟨⟨⟨ht, hoff, hroom, hlen⟩, hfree⟩, hhead⟩ => ?_) fun _ _ h => h.1.1)
  obtain ⟨din, off⟩ := r
  dsimp only at ht hoff hfree hhead ⊢
  have hself : upd c i (c i ++ p) i = c i ++ p := upd_self _ _ _
  have hfits : ({ din with size := off } : Dinode).Fits :=
    ⟨ht.fits.type, ht.fits.major, ht.fits.minor, ht.fits.nlink,
      (hoff ▸ hlen).trans_lt (by decide), ht.fits.addrs, ht.fits.beyond⟩
  refine (winode_wp ht.sectors hi hfits).imp fun _ u hu => ?_
  rw [hoff, ← hself] at hu
  refine ht.stored (fun i' hi' => ?_) hroom (fun i' => ?_) (fun i' hi' => ?_) (fun i' => ?_) hu
  · rw [hs.size, upd_of_ne _ _ hi']
  · by_cases heq : i' = i
    · rw [heq, upd_self]
      exact hlen
    · rw [upd_of_ne _ _ heq]
      exact hs.length i'
  · have hle : s.freeinode ≤ i' := hfree ▸ hi'
    rw [upd_of_ne _ _ (by omega)]
    exact hs.unused i' hle
  · rw [hfree, ← hs.head]
    by_cases heq : i' = i
    · rw [heq, upd_self, hhead]
    · rw [upd_of_ne _ _ heq]

theorem ialloc_wp {type : Nat} (hs : Inv c s) (hlow : 0 < s.freeinode) (hi : s.freeinode < inodeRoom)
    (htype : type = if s.freeinode = rootino then tDir else tFile) :
    Wp (ialloc type) (fun r t => r = s.freeinode ∧ Inv c t ∧ t.freeinode = s.freeinode + 1) E s := by
  have hnone : c s.freeinode = [] := hs.unused _ le_rfl
  have hzero : (s.ino s.freeinode).addrs = fun _ => 0 := by
    funext k
    by_cases hk : k ≤ ndirect
    · by_contra hne
      rw [← addr_direct hk] at hne
      have hlt := (hs.slots.used s.freeinode k).mp hne
      rw [needs, hnone] at hlt
      exact absurd hlt (Nat.not_lt_zero k)
    · exact (ino_fits s s.freeinode).beyond k (by omega)
  let din : Dinode :=
    { type := type, major := 0, minor := 0, nlink := 1, size := 0, addrs := fun _ => 0 }
  have hpos : ∀ w, 0 < 256 ^ w := fun w => Nat.pow_pos (by decide)
  have hshort : type < 256 ^ 2 := by
    rw [htype]
    split <;> decide
  have hfits : din.Fits :=
    ⟨hshort, hpos 2, hpos 2, show 1 < 256 ^ 2 by decide, hpos 4, fun _ => hpos 4, fun _ _ => rfl⟩
  have haddrs : ∀ i, (upd s.ino s.freeinode din i).addrs = (s.ino i).addrs := fun i => by
    by_cases hi : i = s.freeinode
    · rw [hi, upd_self, hzero]
    · rw [upd_of_ne _ _ hi]
  have hmid : Mid s.ino s.freeinode din (needs c) c { s with freeinode := s.freeinode + 1 } :=
    ⟨hs.sectors, rfl, hfits, hs.slots.congr haddrs (fun _ _ => rfl) (hs.mid 0).nmeta_le,
      hs.content.congr hs.slots haddrs fun _ _ => rfl, hs.total, hs.super⟩
  have hhead : ∀ i, (upd s.ino s.freeinode din i).head = heads (s.freeinode + 1) i := fun i => by
    by_cases hi : i = s.freeinode
    · rw [hi, upd_self, heads, if_pos ⟨hlow, Nat.lt_succ_self _⟩, ← htype]
      rfl
    · rw [upd_of_ne _ _ hi, hs.head, heads, heads]
      congr 1
      exact propext (by omega)
  refine .get (.bind (.of_ok rfl (.bind ((winode_wp hmid.sectors hi hfits).imp fun _ t ht => .pure ?_))))
  refine ⟨rfl, hmid.stored (fun i' _ => hs.size i') hs.room hs.length
    (fun i' hi' => hs.unused i' (Nat.le_of_succ_le hi')) hhead ?_, by rw [ht.eq]⟩
  rw [hnone]
  exact ht

theorem copyFrom_wp (content : List UInt8) (hs : Inv c s) (hi : i < inodeRoom) (hused : i < s.freeinode) :
    Wp (copyFrom i content) (fun _ t => Inv (upd c i (c i ++ content)) t ∧ t.freeinode = s.freeinode)
      (fun _ _ => Over (upd c i (c i ++ content))) s := by
  induction hn : content.length using Nat.strong_induction_on generalizing content c s with
  | _ n ih =>
      rw [copyFrom]
      refine .ite (fun hc => .pure ?_) fun hc => ?_
      · rw [hc, List.append_nil, upd_eq_self _ _ rfl]
        exact ⟨hs, rfl⟩
      · refine .bind ((iappend_wp hs hi hused).mono (fun _ t ⟨ht, hfree⟩ => ?_) fun _ _ hover => ?_)
        · have hlen := List.length_pos_iff.mpr hc
          have hrest := ih (content.drop bsize).length
            (by simp only [List.length_drop, bsize]; omega) _ ht (hfree ▸ hused) rfl
          rw [upd_self, upd_upd, List.append_assoc, List.take_append_drop, hfree] at hrest
          exact hrest
        · refine over_mono (fun i' => ?_) hover
          by_cases hi' : i' = i
          · rw [hi', upd_self, upd_self, List.length_append, List.length_append, List.length_take]
            omega
          · rw [upd_of_ne _ _ hi', upd_of_ne _ _ hi']

end Files

/-! ### The program -/

def Input.entry (f : Input) (inum : Nat) : List UInt8 := dirent inum (skip (shortname f.path))

def withFile (c : Nat → List UInt8) (n : Nat) (f : Input) : Nat → List UInt8 :=
  upd (upd c rootino (c rootino ++ f.entry n)) n (f.content.getD [])

def withFiles (c : Nat → List UInt8) : Nat → List Input → Nat → List UInt8
  | _, [] => c
  | n, f :: files => withFiles (withFile c n f) (n + 1) files

def Input.Bad (f : Input) : Prop := 47 ∈ shortname f.path ∨ f.content = none

instance (f : Input) : Decidable f.Bad := inferInstanceAs (Decidable (_ ∨ _))

section Program

variable {c : Nat → List UInt8} {n : Nat} {f : Input} {files : List Input} {s : State}

theorem length_withFile (hnone : c n = []) (i : Nat) :
    (c i).length ≤ (withFile c n f i).length := by
  unfold withFile
  by_cases hi : i = n
  · rw [hi, hnone]
    exact Nat.zero_le _
  · rw [upd_of_ne _ _ hi]
    by_cases hroot : i = rootino
    · rw [hroot, upd_self, List.length_append]
      omega
    · rw [upd_of_ne _ _ hroot]

theorem withFile_unused (hnone : ∀ i, n ≤ i → c i = []) (hn : rootino < n) (i : Nat) (hi : n + 1 ≤ i) :
    withFile c n f i = [] := by
  rw [withFile, upd_of_ne _ _ (by omega), upd_of_ne _ _ (by omega), hnone i (by omega)]

theorem length_withFiles (hnone : ∀ i, n ≤ i → c i = []) (hn : rootino < n) (i : Nat) :
    (c i).length ≤ (withFiles c n files i).length := by
  induction files generalizing c n with
  | nil => exact le_rfl
  | cons f files ih =>
      exact (length_withFile (hnone n le_rfl) i).trans
        (ih (withFile_unused hnone hn) (hn.trans (Nat.lt_succ_self n)))

theorem addFile_wp (hs : Inv c s) (hroot : rootino < s.freeinode) (hi : s.freeinode < inodeRoom) :
    Wp (addFile f)
      (fun _ t => Inv (withFile c s.freeinode f) t ∧ t.freeinode = s.freeinode + 1 ∧ f.content ≠ none)
      (fun _ _ => Over (withFile c s.freeinode f) ∨ f.Bad) s := by
  refine .ite (fun hname => .bind (.of_error rfl (.inr (.inl hname)))) fun _ => ?_
  cases hcontent : f.content with
  | none => exact .of_error rfl (.inr (.inr hcontent))
  | some content =>
      have hnone : c s.freeinode = [] := hs.unused _ le_rfl
      have htype : tFile = if s.freeinode = rootino then tDir else tFile := (if_neg hroot.ne').symm
      refine .bind ((ialloc_wp hs (by omega) hi htype).imp fun r t ⟨hr, ht, hfree⟩ => ?_)
      rw [hr]
      refine .bind ((iappend_wp ht (by decide) (by omega)).mono (fun _ u ⟨hu, hfree'⟩ => ?_)
        fun _ _ hover => .inl ?_)
      · have hcopy := copyFrom_wp content hu hi (by omega)
        rw [upd_of_ne _ _ (show s.freeinode ≠ rootino by omega), hnone, List.nil_append] at hcopy
        have heq : upd (upd c rootino (c rootino ++ dirent s.freeinode (skip (shortname f.path))))
            s.freeinode content = withFile c s.freeinode f := by
          rw [withFile, hcontent, Input.entry, Option.getD_some]
        rw [heq] at hcopy
        exact hcopy.mono (fun _ v ⟨hv, hfree''⟩ => ⟨hv, by omega, by simp⟩) fun _ _ h => .inl h
      · refine over_mono (fun i => ?_) hover
        rw [withFile, Input.entry]
        by_cases hi : i = s.freeinode
        · rw [hi, upd_of_ne _ _ (show s.freeinode ≠ rootino by omega), hnone]
          exact Nat.zero_le _
        · rw [upd_of_ne _ _ hi]

theorem addFiles_wp (hs : Inv c s) (hn : s.freeinode = n) (hroot : rootino < n)
    (hroom : n + files.length ≤ inodeRoom) :
    Wp (files.forM addFile)
      (fun _ t => Inv (withFiles c n files) t ∧ t.freeinode = n + files.length ∧
        ∀ f ∈ files, f.content ≠ none)
      (fun _ _ => Over (withFiles c n files) ∨ ∃ f ∈ files, f.Bad) s := by
  induction files generalizing c n s with
  | nil => exact .pure ⟨hs, hn, by simp⟩
  | cons f files ih =>
      subst hn
      rw [List.length_cons] at hroom
      change Wp (addFile f >>= fun _ => files.forM addFile) _ _ _
      refine .bind ((addFile_wp hs hroot (by omega)).mono (fun _ t ⟨ht, hfree, hcontent⟩ => ?_)
        fun _ _ hbad => hbad.imp (fun hover => ?_) fun hf => ⟨f, by simp, hf⟩)
      · refine (ih ht hfree (by omega) (by omega)).mono (fun _ u ⟨hu, hfree', hall⟩ => ?_)
          fun _ _ hbad => hbad.imp_right fun ⟨g, hg, hbad⟩ => ⟨g, List.mem_cons_of_mem _ hg, hbad⟩
        exact ⟨hu, by rw [hfree', List.length_cons]; omega, List.forall_mem_cons.mpr ⟨hcontent, hall⟩⟩
      · have hle : ∀ i, (withFile c s.freeinode f i).length ≤
            (withFiles (withFile c s.freeinode f) (s.freeinode + 1) files i).length :=
          length_withFiles (withFile_unused hs.unused hroot) (hroot.trans (Nat.lt_succ_self _))
        exact over_mono hle hover

/-! ### The whole run -/

def rootOnly : Nat → List UInt8 :=
  upd (fun _ => []) rootino (dirent rootino [46] ++ dirent rootino [46, 46])

def contents (files : List Input) : Nat → List UInt8 := withFiles rootOnly 2 files

def State.blank : State where
  sectors := fssize
  block := fun _ => zeroes
  freeinode := 1
  freeblock := nmeta

theorem zero_wp {Q : Unit → State → Prop} {E : Exit → State → Prop} (hQ : Q () .blank) :
    Wp (forUp 1 (fun i => wsect i zeroes) fssize 0) Q E { State.start with freeblock := nmeta } := by
  refine Wp.forUp (fun i t => t = { State.blank with sectors := i }) rfl (fun i hi t ht => ?_)
    fun t ht => ?_
  · subst ht
    rw [Nat.mul_one, Nat.zero_add]
    refine .of_ok rfl ?_
    have hseek : seek i = i := seek_eq (by omega)
    have hmax : max i (i + 1) = i + 1 := by omega
    have hsame : upd State.blank.block i zeroes = State.blank.block := upd_eq_self _ _ rfl
    dsimp only
    rw [hseek, hmax, hsame]
  · rw [ht]
    exact hQ

theorem blank_inv : Inv (fun _ => []) { State.blank with block := upd (fun _ => zeroes) 1 superblock } := by
  set s : State := { State.blank with block := upd (fun _ => zeroes) 1 superblock }
  have hblock : ∀ b, b ≠ 1 → ∀ j, s.block b j = 0 := fun b hb j =>
    congrFun (upd_of_ne (fun _ => zeroes) superblock hb) j
  have hiblock : ∀ i, iblock i ≠ 1 := fun i => by
    have hle : inodestart ≤ iblock i := Nat.le_add_left _ _
    have hlt : 1 < inodestart := by decide
    omega
  have hsize : ∀ i, (s.ino i).size = 0 := fun i => by
    unfold State.ino
    split
    · exact get_zero fun j _ _ => hblock _ (hiblock i) j
    · rfl
  have haddrs : ∀ i k, (s.ino i).addrs k = 0 := fun i k => by
    unfold State.ino
    split
    · change (if k ≤ ndirect then _ else 0) = 0
      split
      · exact get_zero fun j _ _ => hblock _ (hiblock i) j
      · rfl
    · rfl
  have haddr : ∀ i k, (s.ino i).addr s.block k = 0 := fun i k => by
    by_cases hk : k ≤ ndirect
    · rw [addr_direct hk, haddrs]
    · rw [addr_indirect hk, haddrs, entry_zero]
  have hneeds : ∀ i, needs (fun _ => []) i = 0 := fun _ => show need 0 = 0 by decide
  have htotal : total (needs fun _ => []) = 0 := Finset.sum_eq_zero fun i _ => hneeds i
  refine ⟨rfl, hsize, ⟨fun i k => ?_, fun i k hlt => ?_, fun i k i' k' hlt => ?_, fun b hb j => ?_⟩,
    fun i bn hlt => ?_, ?_, by decide, fun _ => Nat.zero_le _, fun _ _ => rfl, fun i => ?_,
    upd_self (fun _ => zeroes) 1 superblock⟩
  · simp [haddr, hneeds]
  · exact absurd (hneeds i ▸ hlt) (Nat.not_lt_zero k)
  · exact absurd (hneeds i ▸ hlt) (Nat.not_lt_zero k)
  · refine hblock b ?_ j
    have hlt : 1 < nmeta := by decide
    have hb : nmeta ≤ b := hb
    omega
  · exact absurd (hneeds i ▸ hlt) (Nat.not_lt_zero _)
  · rw [htotal]
    rfl
  · rw [heads, if_neg fun h => absurd h.2 (Nat.not_lt.mpr h.1), State.ino]
    split
    · have hzero : ∀ off w, get (s.block (iblock i)) off w = 0 := fun off w =>
        get_zero fun j _ _ => hblock _ (hiblock i) j
      simp only [Dinode.head, Dinode.ofBytes, hzero]
    · rfl

/-- The image when `mkfs` exits with status 0: the size of the root directory is rounded up, and the
bitmap is there. -/
structure Final (files : List Input) (s t : State) : Prop where
  inv : Inv (contents files) s
  content : ∀ f ∈ files, f.content ≠ none
  inodes : s.freeinode = files.length + 2
  freeinode : t.freeinode = files.length + 2
  freeblock : t.freeblock = s.freeblock
  ino : t.ino = upd s.ino rootino
    { s.ino rootino with size := ((contents files rootino).length / bsize + 1) * bsize }
  block : ∀ b, nmeta ≤ b → t.block b = s.block b
  bitmap : t.block bmapstart = bitmapOf s.freeblock
  super : t.block 1 = superblock

theorem length_rootOnly (i : Nat) (p : List UInt8) (hp : p.length ≤ 32) :
    (upd (fun _ => []) rootino p i).length ≤ (rootOnly i).length := by
  unfold rootOnly
  by_cases hi : i = rootino
  · rw [hi, upd_self, upd_self]
    exact hp
  · rw [upd_of_ne _ _ hi, upd_of_ne _ _ hi]

theorem rootOnly_unused (i : Nat) (hi : 2 ≤ i) : rootOnly i = [] :=
  upd_of_ne _ _ (show i ≠ 1 by omega)

theorem rootOnly_eq : upd (upd (fun _ => []) rootino ([] ++ dirent rootino [46])) rootino
    (upd (fun _ => []) rootino ([] ++ dirent rootino [46]) rootino ++ dirent rootino [46, 46]) =
      rootOnly := by
  rw [upd_upd, upd_self, List.nil_append, rootOnly]

theorem finish_wp {E : Exit → State → Prop} (hs : Inv (contents files) s)
    (hfree : s.freeinode = files.length + 2) (hcontent : ∀ f ∈ files, f.content ≠ none)
    (hlen : (contents files rootino).length < bsize * bsize) :
    Wp (do
      let din ← rinode rootino
      winode rootino { din with size := (din.size / bsize + 1) * bsize }
      balloc (← get).freeblock) (fun _ t => Final files s t) E s := by
  refine .bind (rinode_wp hs.sectors (by decide) ?_)
  have hd := ino_fits s rootino
  have hsize : ((s.ino rootino).size / bsize + 1) * bsize < 256 ^ 4 := by
    rw [hs.size]
    simp only [bsize] at hlen ⊢
    omega
  have hfits : ({ s.ino rootino with size := ((s.ino rootino).size / bsize + 1) * bsize } : Dinode).Fits :=
    ⟨hd.type, hd.major, hd.minor, hd.nlink, hsize, hd.addrs, hd.beyond⟩
  refine .bind ((winode_wp hs.sectors (by decide) hfits).imp fun _ t ht => ?_)
  have hblocks : t.freeblock = s.freeblock := by rw [ht.eq]
  have hsectors : t.sectors = fssize := by rw [ht.eq, hs.sectors]
  have hroom : t.freeblock < bsize * 8 := (hblocks ▸ hs.room).trans_lt (by decide)
  refine .get ?_
  rw [balloc, if_pos hroom, hblocks]
  refine wsect_wp hsectors (by decide) ?_
  refine ⟨hs, hcontent, hfree, ?_, hblocks, ?_, fun b hb => ?_,
    upd_self t.block bmapstart (bitmapOf s.freeblock), ?_⟩
  · rw [← hfree, ht.eq]
  · rw [← hs.size, ← ht.ino]
    exact ino_congr fun b hb => upd_of_ne _ _ (by omega)
  · have hlt : bmapstart < nmeta := by decide
    exact (upd_of_ne _ _ (by omega)).trans (ht.block b (by omega))
  · have hne : 1 ≠ bmapstart := by decide
    exact (upd_of_ne t.block (bitmapOf s.freeblock) hne).trans ((ht.block 1 (.inl (by decide))).trans hs.super)

theorem main_wp (hfiles : files.length + 2 ≤ inodeRoom) :
    Wp (main files) (fun _ t => ∃ s, Final files s t)
      (fun _ _ => Over (contents files) ∨ ∃ f ∈ files, f.Bad) .start := by
  have hover : ∀ p : List UInt8, p.length ≤ 32 → Over (upd (fun _ => []) rootino p) →
      Over (contents files) := fun p hp =>
    over_mono fun i => (length_rootOnly i p hp).trans (length_withFiles rootOnly_unused (by decide) i)
  refine .bind (.of_ok rfl (.bind (zero_wp (.bind (wsect_wp rfl (by decide) ?_)))))
  refine .bind ((ialloc_wp blank_inv (by decide) (by decide) rfl).imp fun r t1 ⟨hr, h1, hfree1⟩ => ?_)
  have hr : r = rootino := hr
  have hfree1 : t1.freeinode = 2 := hfree1
  subst hr
  refine .ite (fun h => absurd rfl h) fun _ => ?_
  refine .bind ((iappend_wp h1 (by decide) (by omega)).mono (fun _ t2 ⟨h2, hfree2⟩ => ?_)
    fun _ _ h => .inl (hover _ (by decide) h))
  refine .bind ((iappend_wp h2 (by decide) (by omega)).mono (fun _ t3 ⟨h3, hfree3⟩ => ?_)
    fun _ _ h => .inl (hover (dirent rootino [46] ++ dirent rootino [46, 46]) (by decide) ?_))
  · rw [rootOnly_eq] at h3
    refine .bind ((addFiles_wp h3 (by omega) (by decide) (by omega)).imp
      fun _ t4 ⟨h4, hfree4, hall⟩ => ?_)
    refine (finish_wp h4 (by omega) hall ?_).imp fun _ t ht => ⟨t4, ht⟩
    exact (h4.length rootino).trans_lt (by decide)
  · rwa [rootOnly_eq] at h

end Program

/-! ### What is on the image -/

def entries : Nat → List Input → List UInt8
  | _, [] => []
  | n, f :: files => f.entry n ++ entries (n + 1) files

def rootDir (files : List Input) : List UInt8 :=
  dirent rootino [46] ++ dirent rootino [46, 46] ++ entries 2 files

section Contents

variable {c : Nat → List UInt8} {n i : Nat} {files : List Input}

theorem length_dirent (inum : Nat) (name : List UInt8) : (dirent inum name).length = direntSize := by
  simp [dirent, dirsiz, direntSize]

theorem length_entries (n : Nat) (files : List Input) :
    (entries n files).length = files.length * direntSize := by
  induction files generalizing n with
  | nil => exact (Nat.zero_mul _).symm
  | cons f files ih =>
      rw [entries, List.length_append, ih, Input.entry, length_dirent, List.length_cons]
      ring

theorem length_rootDir (files : List Input) :
    (rootDir files).length = (files.length + 2) * direntSize := by
  rw [rootDir, List.length_append, List.length_append, length_dirent, length_dirent, length_entries]
  ring

theorem withFiles_root (hn : rootino < n) : withFiles c n files rootino = c rootino ++ entries n files := by
  induction files generalizing c n with
  | nil => rw [withFiles, entries, List.append_nil]
  | cons f files ih =>
      rw [withFiles, ih (hn.trans (Nat.lt_succ_self n)), withFile, upd_of_ne _ _ hn.ne, upd_self, entries,
        List.append_assoc]

theorem withFiles_old (hi : i < n) (hroot : i ≠ rootino) : withFiles c n files i = c i := by
  induction files generalizing c n with
  | nil => rfl
  | cons f files ih =>
      rw [withFiles, ih (hi.trans (Nat.lt_succ_self n)), withFile, upd_of_ne _ _ hi.ne,
        upd_of_ne _ _ hroot]

theorem withFiles_new (hn : rootino < n) {k : Nat} {f : Input} (hf : files[k]? = some f) :
    withFiles c n files (n + k) = f.content.getD [] := by
  induction files generalizing c n k with
  | nil => simp at hf
  | cons g files ih =>
      cases k with
      | zero =>
          rw [List.getElem?_cons_zero, Option.some.injEq] at hf
          have hold : withFiles (withFile c n g) (n + 1) files n = withFile c n g n :=
            withFiles_old (Nat.lt_succ_self n) hn.ne'
          exact hold.trans (by rw [withFile, upd_self, hf])
      | succ k =>
          rw [List.getElem?_cons_succ] at hf
          have hnext := ih (c := withFile c n g) (hn.trans (Nat.lt_succ_self n)) hf
          rwa [Nat.succ_add, ← Nat.add_succ] at hnext

theorem contents_root (files : List Input) : contents files rootino = rootDir files := by
  rw [contents, withFiles_root (by decide), rootOnly, upd_self, rootDir]

theorem bitmapOf_bit (used b : Nat) : (bitmapOf used (b / 8)).toNat.testBit (b % 8) = decide (b < used) := by
  induction used with
  | zero => simp [bitmapOf, zeroes]
  | succ used ih =>
      have hnext : bitmapOf (used + 1) = upd (bitmapOf used) (used / 8)
          (bitmapOf used (used / 8) ||| UInt8.ofNat (1 <<< (used % 8))) := by
        rw [bitmapOf, List.range_succ, List.foldl_concat]
        rfl
      rw [hnext]
      by_cases hb : b / 8 = used / 8
      · rw [hb, upd_self, ← hb, UInt8.toNat_or, Nat.testBit_or, ih]
        have hbit : (UInt8.ofNat (1 <<< (used % 8))).toNat.testBit (b % 8) = decide (b = used) := by
          have hmod : 1 <<< (used % 8) < 256 := by
            rw [Nat.one_shiftLeft]
            exact Nat.pow_lt_pow_right (by decide) (Nat.mod_lt used (by decide)) |>.trans_eq rfl
          rw [UInt8.toNat_ofNat', Nat.mod_eq_of_lt hmod, Nat.one_shiftLeft, Nat.testBit_two_pow]
          exact decide_eq_decide.mpr (by omega)
        rw [hbit, ← Bool.decide_or]
        exact decide_eq_decide.mpr (by omega)
      · rw [upd_of_ne _ _ hb, ih]
        have hne : b ≠ used := fun h => hb (h ▸ rfl)
        exact decide_eq_decide.mpr (by omega)

end Contents

def State.dinode (s : State) (i : Nat) : Dinode := .ofBytes (s.block (iblock i)) (i % ipb * dinodeSize)

def State.addr (s : State) (i k : Nat) : Nat := (s.dinode i).addr s.block k

def State.bytes (s : State) (i : Nat) : List UInt8 :=
  (List.range (s.dinode i).size).map fun j => s.block (s.addr i (slotOf (j / bsize))) (j % bsize)

/-- The inode `i` was used, and its size calls for a block in slot `k`: a block of the file, or the
indirect block. -/
def State.Wants (s : State) (i k : Nat) : Prop :=
  0 < i ∧ i < s.freeinode ∧
    ((∃ bn, bn * bsize < (s.dinode i).size ∧ k = slotOf bn) ∨
      (k = ndirect ∧ ndirect * bsize < (s.dinode i).size))

def State.marked (s : State) (b : Nat) : Bool := (s.block bmapstart (b / 8)).toNat.testBit (b % 8)

/-- The image is a file system with the input files in its root directory. -/
structure Consistent (files : List Input) (s : State) : Prop where
  inodes : s.freeinode ≤ ninodes
  block : ∀ i k, s.Wants i k → nmeta ≤ s.addr i k ∧ s.addr i k < fssize
  distinct : ∀ i k i' k', s.Wants i k → s.Wants i' k' → s.addr i k = s.addr i' k' → i = i' ∧ k = k'
  bitmap : ∀ b < bsize * 8, s.marked b = true ↔ b < s.freeblock
  freeblock : s.freeblock ≤ fssize
  file : ∀ k f, files[k]? = some f → f.content = some (s.bytes (k + 2))
  root : ∃ n, s.bytes rootino = rootDir files ++ List.replicate (n * direntSize) 0

theorem need_gap {len : Nat} (hlt : ndirect < need len) : ndirect + 1 < need len := by
  unfold need at hlt ⊢
  split at hlt
  · omega
  · rw [if_neg (by assumption)]
    omega

theorem lt_need {len k : Nat} :
    k < need len ↔ (∃ bn, bn * bsize < len ∧ k = slotOf bn) ∨ (k = ndirect ∧ ndirect * bsize < len) := by
  have hself : slotOf ndirect = ndirect + 1 := rfl
  constructor
  · intro hk
    rcases Nat.lt_trichotomy k ndirect with hlt | heq | hgt
    · have hslot : slotOf k = k := if_pos hlt
      exact .inl ⟨k, slotOf_lt_need.mp (hslot.symm ▸ hk), hslot.symm⟩
    · exact .inr ⟨heq, slotOf_lt_need.mp (hself.symm ▸ need_gap (heq ▸ hk))⟩
    · have hslot : slotOf (k - 1) = k := by
        rw [slotOf, if_neg (by omega)]
        omega
      exact .inl ⟨k - 1, slotOf_lt_need.mp (hslot.symm ▸ hk), hslot.symm⟩
  · rintro (⟨bn, hbn, rfl⟩ | ⟨rfl, hlen⟩)
    · exact slotOf_lt_need.mpr hbn
    · have hlt := slotOf_lt_need.mpr hlen
      omega

theorem map_getD_range (l : List UInt8) {n : Nat} (hn : l.length ≤ n) :
    (List.range n).map (fun j => l.getD j 0) = l ++ List.replicate (n - l.length) 0 := by
  refine List.ext_getElem (by simp; omega) fun j hj _ => ?_
  simp only [List.getElem_map, List.getElem_range, List.getElem_append, List.getElem_replicate,
    List.getD_eq_getElem?_getD]
  split
  · next hlt => rw [List.getElem?_eq_getElem hlt, Option.getD_some]
  · next hge => rw [List.getElem?_eq_none (by omega), Option.getD_none]

section Result

variable {files : List Input} {s t : State} {i k : Nat}

theorem wants_iff : t.Wants i k ↔ 0 < i ∧ i < t.freeinode ∧ k < need (t.dinode i).size := by
  rw [State.Wants, lt_need]

theorem dinode_eq (t : State) (hi : i < inodeRoom) : t.dinode i = t.ino i := by
  rw [State.ino, if_pos hi, State.dinode]

theorem Final.addr (ht : Final files s t) (hi : i < inodeRoom) (k : Nat) :
    t.addr i k = (s.ino i).addr s.block k := by
  rw [State.addr, dinode_eq t hi]
  refine ht.inv.slots.addr_congr (fun i' => ?_) ht.block i k
  rw [ht.ino]
  by_cases hroot : i' = rootino
  · rw [hroot, upd_self]
  · rw [upd_of_ne _ _ hroot]

theorem Final.size (ht : Final files s t) (hi : i < inodeRoom) (hroot : i ≠ rootino) :
    (t.dinode i).size = (contents files i).length := by
  rw [dinode_eq t hi, ht.ino, upd_of_ne _ _ hroot, ht.inv.size]

theorem Final.size_root (ht : Final files s t) :
    (t.dinode rootino).size = ((files.length + 2) * direntSize / bsize + 1) * bsize := by
  rw [dinode_eq t (by decide), ht.ino, upd_self, contents_root, length_rootDir]

/-- The rounding leaves the number of blocks, unless the last block of the directory is full. -/
theorem need_size_root (hfull : ¬ 64 ∣ files.length + 2) :
    need (((files.length + 2) * direntSize / bsize + 1) * bsize) =
      need ((files.length + 2) * direntSize) := by
  have hlow : (files.length + 2) * direntSize / bsize * bsize < (files.length + 2) * direntSize := by
    simp only [direntSize, bsize]
    omega
  have hhigh : (files.length + 2) * direntSize ≤
      ((files.length + 2) * direntSize / bsize + 1) * bsize := by
    simp only [direntSize, bsize]
    omega
  rw [need_eq hlow hhigh, need_eq (Nat.mul_lt_mul_of_pos_right (Nat.lt_succ_self _) (by decide)) le_rfl]

theorem Final.need_size (ht : Final files s t) (hfull : ¬ 64 ∣ files.length + 2) (hi : i < inodeRoom) :
    need (t.dinode i).size = needs (contents files) i := by
  by_cases hroot : i = rootino
  · rw [hroot, ht.size_root, need_size_root hfull, needs, contents_root, length_rootDir]
  · rw [ht.size hi hroot, needs]

theorem Final.bytes (ht : Final files s t) (hfull : ¬ 64 ∣ files.length + 2) (hi : i < inodeRoom)
    (hlen : (contents files i).length ≤ (t.dinode i).size) :
    t.bytes i = contents files i ++
      List.replicate ((t.dinode i).size - (contents files i).length) 0 := by
  rw [← map_getD_range _ hlen]
  refine List.map_congr_left fun j hj => ?_
  have hlt : slotOf (j / bsize) < needs (contents files) i := by
    rw [← ht.need_size hfull hi, slotOf_lt_need]
    exact (Nat.div_mul_le_self j bsize).trans_lt (List.mem_range.mp hj)
  rw [ht.addr hi, ht.block _ (ht.inv.slots.bound i _ hlt).1,
    ht.inv.content i _ hlt _ (Nat.mod_lt j (by decide)), Nat.div_add_mod']

theorem Final.consistent (ht : Final files s t) (hfiles : files.length < 199)
    (hfull : ¬ 64 ∣ files.length + 2) : Consistent files t := by
  have hroom : ∀ i, i < t.freeinode → i < inodeRoom := fun i hi => by
    have : ninodes ≤ inodeRoom := by decide
    have : ninodes = 200 := rfl
    have := ht.freeinode
    omega
  refine ⟨?_, fun i k hw => ?_, fun i k i' k' hw hw' heq => ?_, fun b _ => ?_, ?_, fun k f hf => ?_, ?_⟩
  · rw [ht.freeinode]
    have : ninodes = 200 := rfl
    omega
  · obtain ⟨-, hi, hk⟩ := wants_iff.mp hw
    rw [ht.need_size hfull (hroom i hi)] at hk
    rw [ht.addr (hroom i hi)]
    have hbound := ht.inv.slots.bound i k hk
    exact ⟨hbound.1, hbound.2.trans_le ht.inv.room⟩
  · obtain ⟨-, hi, hk⟩ := wants_iff.mp hw
    obtain ⟨-, hi', hk'⟩ := wants_iff.mp hw'
    rw [ht.need_size hfull (hroom i hi)] at hk
    rw [ht.need_size hfull (hroom i' hi')] at hk'
    rw [ht.addr (hroom i hi), ht.addr (hroom i' hi')] at heq
    exact ht.inv.slots.unique i k i' k' hk hk' heq
  · rw [State.marked, ht.bitmap, bitmapOf_bit, ht.freeblock, decide_eq_true_iff]
  · rw [ht.freeblock]
    exact ht.inv.room
  · have hk : k < files.length := (List.getElem?_eq_some_iff.mp hf).1
    have hi : k + 2 < inodeRoom := hroom _ (by rw [ht.freeinode]; omega)
    have hsize := ht.size hi (show k + 2 ≠ 1 by omega)
    rw [ht.bytes hfull hi hsize.ge, hsize, Nat.sub_self, List.replicate_zero, List.append_nil, contents,
      Nat.add_comm, withFiles_new (by decide) hf]
    obtain ⟨content, hcontent⟩ := Option.ne_none_iff_exists'.mp
      (ht.content f (List.mem_of_getElem? hf))
    rw [hcontent, Option.getD_some]
  · have hlen : (contents files rootino).length ≤ (t.dinode rootino).size := by
      rw [contents_root, length_rootDir, ht.size_root]
      simp only [direntSize, bsize]
      omega
    rw [ht.bytes hfull (by decide) hlen, contents_root, length_rootDir, ht.size_root]
    refine ⟨((files.length + 2) * direntSize / bsize + 1) * 64 - (files.length + 2), ?_⟩
    congr 2
    simp only [direntSize, bsize]
    omega

theorem Final.not_consistent (ht : Final files s t) (hfull : 64 ∣ files.length + 2) :
    ¬ Consistent files t := fun hc => by
  obtain ⟨q, hq⟩ := hfull
  have hlen : (files.length + 2) * direntSize = q * bsize := by
    simp only [direntSize, bsize]
    omega
  have hsize : (t.dinode rootino).size = (q + 1) * bsize := by
    rw [ht.size_root, hlen, Nat.mul_div_cancel _ (by decide)]
  have hwants : t.Wants rootino (slotOf q) := by
    refine wants_iff.mpr ⟨by decide, ?_, slotOf_lt_need.mpr ?_⟩
    · rw [ht.freeinode]
      exact Nat.lt_add_left _ (by decide)
    · rw [hsize]
      exact Nat.mul_lt_mul_of_pos_right (Nat.lt_succ_self q) (by decide)
  have hbound := (hc.block rootino _ hwants).1
  have hused := (ht.inv.slots.used rootino (slotOf q)).mp (by
    rw [← ht.addr (by decide)]
    have : 0 < nmeta := by decide
    omega)
  rw [needs, contents_root, length_rootDir, hlen, slotOf_lt_need] at hused
  exact absurd hused (lt_irrefl _)

end Result

/-! ### The number of inodes -/

theorem ialloc_freeinode (type : Nat) (s : State) :
    Wp (ialloc type) (fun _ t => t.freeinode = s.freeinode + 1) (fun _ _ => True) s :=
  .get (.bind (.of_ok rfl (.bind ((keeps_winode _ _ _).mono (fun _ _ h => .pure h) fun _ _ _ => trivial))))

theorem addFiles_freeinode (files : List Input) (s : State) :
    Wp (files.forM addFile) (fun _ t => t.freeinode = s.freeinode + files.length) (fun _ _ => True) s := by
  induction files generalizing s with
  | nil => exact .pure rfl
  | cons f files ih =>
      change Wp (addFile f >>= fun _ => files.forM addFile) _ _ _
      have hfile : Wp (addFile f) (fun _ t => t.freeinode = s.freeinode + 1) (fun _ _ => True) s := by
        refine .ite (fun _ => .bind (.of_error rfl trivial)) fun _ => ?_
        cases f.content with
        | none => exact .of_error rfl trivial
        | some content =>
            refine .bind ((ialloc_freeinode _ s).imp fun r t ht => .bind ?_)
            refine (keeps_iappend _ _ t).mono (fun _ u hu => ?_) fun _ _ _ => trivial
            refine (keeps_copyFrom _ _ u).mono (fun _ v hv => ?_) fun _ _ _ => trivial
            rw [hv, hu, ht]
      refine .bind (hfile.imp fun _ t ht => (ih t).imp fun _ u hu => ?_)
      rw [hu, ht, List.length_cons]
      omega

theorem main_freeinode (files : List Input) :
    Wp (main files) (fun _ t => t.freeinode = files.length + 2) (fun _ _ => True) .start := by
  have hkeep : ∀ {α : Type} {x : M α}, Keeps State.freeinode x → ∀ s : State,
      Wp x (fun _ t => t.freeinode = s.freeinode) (fun _ _ => True) s := fun hx s =>
    (hx s).mono (fun _ _ h => h) fun _ _ _ => trivial
  refine .bind (.of_ok rfl (.bind ((hkeep (.forUp (fun i => keeps_wsect i zeroes) _ _) _).imp
    fun _ t1 h1 => .bind ((hkeep (keeps_wsect _ _) _).imp fun _ t2 h2 => .bind ?_))))
  refine (ialloc_freeinode _ t2).imp fun r t3 h3 => .ite (fun _ => .bind (.of_error rfl trivial)) fun _ => ?_
  refine .bind ((hkeep (keeps_iappend _ _) _).imp fun _ t4 h4 => .bind ?_)
  refine (hkeep (keeps_iappend _ _) _).imp fun _ t5 h5 => .bind ?_
  refine (addFiles_freeinode files t5).imp fun _ t6 h6 => ?_
  have hrest : Keeps State.freeinode (do
      let din ← rinode r
      winode r { din with size := (din.size / bsize + 1) * bsize }
      balloc (← get).freeblock) :=
    .bind (keeps_rinode _) fun _ => .bind (keeps_winode _ _) fun _ => .bind .get fun _ =>
      .ite (keeps_wsect _ _) (keeps_throw _)
  refine (hkeep hrest t6).imp fun _ t7 h7 => ?_
  have h0 : t1.freeinode = 1 := h1
  rw [h7, h6, h5, h4, h3, h2, h0]
  omega

theorem main_ok (files : List Input) (hfiles : files.length + 2 ≤ inodeRoom)
    (hfit : ¬ Over (contents files)) (hgood : ∀ f ∈ files, ¬ f.Bad) :
    ∃ s, main files .start = .ok () s ∧ ∃ s', Final files s' s := by
  have hwp : Wp (main files) (fun _ t => ∃ s, Final files s t) (fun _ _ => False) .start :=
    (main_wp hfiles).mono (fun _ _ h => h) fun _ _ h => h.elim hfit fun ⟨f, hf, hbad⟩ => hgood f hf hbad
  obtain ⟨⟨⟩, s, hrun, hs⟩ := hwp.returns
  exact ⟨s, hrun, hs⟩

theorem main_final {files : List Input} {s : State} (hfiles : files.length < 199)
    (hmain : main files .start = .ok () s) : ∃ s', Final files s' s := by
  have hroom : files.length + 2 ≤ inodeRoom := by
    have : inodeRoom = 208 := rfl
    omega
  exact (main_wp hroom).ok hmain

/-- `mkfs` makes a consistent image exactly when there are fewer than 199 files and the entries of the
root directory do not fill its last block. -/
theorem mkfs_consistent {files : List Input} {s : State} (hmain : main files .start = .ok () s) :
    Consistent files s ↔ files.length < 199 ∧ ¬ 64 ∣ files.length + 2 := by
  constructor
  · intro hc
    have hfree := (main_freeinode files).ok hmain
    have hlt : files.length < 199 := by
      have hle := hc.inodes
      have : ninodes = 200 := rfl
      omega
    obtain ⟨s', hs'⟩ := main_final hlt hmain
    exact ⟨hlt, fun hfull => hs'.not_consistent hfull hc⟩
  · rintro ⟨hlt, hfull⟩
    obtain ⟨s', hs'⟩ := main_final hlt hmain
    exact hs'.consistent hlt hfull

def emptyFile : Input := { path := [97], terminated := by decide, content := some [] }

/-- With 62 files the root directory has 64 entries, which fill its block. -/
theorem mkfs_full_directory : ∃ s, main (List.replicate 62 emptyFile) .start = .ok () s ∧
    ¬ Consistent (List.replicate 62 emptyFile) s := by
  obtain ⟨s, hrun, s', hs'⟩ := main_ok (List.replicate 62 emptyFile) (by decide)
    (by decide +kernel) fun f hf => by
      rw [List.eq_of_mem_replicate hf]
      decide
  exact ⟨s, hrun, hs'.not_consistent (by decide)⟩

def helloFile : Input :=
  { path := [117, 115, 101, 114, 47, 95, 104, 105], terminated := by decide, content := some [104, 105] }

theorem mkfs_consistent_hello : ∃ s, main [helloFile] .start = .ok () s ∧ Consistent [helloFile] s := by
  obtain ⟨s, hrun, -⟩ := main_ok [helloFile] (by decide) (by decide +kernel) (by decide)
  exact ⟨s, hrun, (mkfs_consistent hrun).mpr (by decide)⟩

end Xv6Mmap.Mkfs
