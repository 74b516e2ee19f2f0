import Xv6Mmap.Exec
import Xv6Mmap.Proof.FreePagetable
import Xv6Mmap.Proof.UserMem

/-!
# The new address space of `exec`

`proc_pagetable` and the loop over the program headers build an address space out of pages that were
free. Whatever the headers say, its user pages lie one after the other from address 0 on.
-/

namespace Xv6Mmap

open Sequential
open Radix (Shape)

/-- An address space with `n` user pages, and the entries `h` above them, has been built since `s`; its
tables and its frames are what has been taken from the allocator. -/
structure Image (s t : Kernel) (r : Nat) (T : Shape) (n : Nat) (h : Nat → Nat) : Prop where
  space : Space t r T n
  high : ∀ i, trapframe / 4096 ≤ i → SamePte (pteOf t.mem T i) (h i)
  lent : Lent s.kmem t.kmem (T.pages ∪ frames t.mem T 0 n)
  kept : ∀ q, ¬ s.kmem.Free q → ∀ j < 512, t.mem q j = s.mem q j
  proc : t.proc = s.proc

section Image

variable {s t u : Kernel} {r n p sz f : Nat} {T T' : Shape} {N : Set Nat} {h : Nat → Nat}

theorem Image.userSpace (himage : Image s t r T n h) : UserSpace t r T n h :=
  ⟨himage.space, himage.high, fun q hq => himage.lent.sole q (Or.inl hq)⟩

theorem Image.notMem (himage : Image s t r T n h) {q : Nat} (hq : ¬ s.kmem.Free q) : q ∉ T.pages :=
  fun hT => hq (himage.lent.free q (Or.inl hT))

theorem Image.frame_ne (himage : Image s t r T n h) {q i : Nat} (hq : ¬ s.kmem.Free q) (hi : i < n) :
    frameOf t.mem T i ≠ q := fun hi' =>
  hq (himage.lent.free q (Or.inr ⟨i, Nat.zero_le i, hi, hi'⟩))

/-! ### The page table -/

theorem Image.mapHigh (himage : Image s t r T 0 h) {i : Nat} (perm : Nat) (hi : trapframe / 4096 ≤ i)
    (hva : i * 4096 < maxva) (hinvalid : isValid (h i) = false) (hf : RamPage f)
    (hperm : perm ||| pteV < 1024) {E : Panic → Kernel → Prop} :
    Wp (mappages (r * 4096) (i * 4096) pgsize (f * 4096) perm) (fun res u => res < 0 ∨
      (¬ res < 0 ∧ ∃ T', Image s u r T' 0 (upd h i (f * 1024 + (perm ||| pteV))))) E t := by
  have hdiv : i * 4096 / 4096 = i := Nat.mul_div_cancel _ (by decide)
  have hword : pa2pte (f * 4096) ||| perm ||| pteV = f * 1024 + (perm ||| pteV) := by
    rw [Nat.lor_assoc]
    exact pa2pte_lor (by have := hf.2; omega) hperm
  have hunmapped : isValid (pteOf t.mem T (i * 4096 / 4096)) = false := by
    rw [hdiv, (himage.high i hi).1]
    exact hinvalid
  rw [mappages_one]
  refine (himage.space.table.mapPage_grow hva hunmapped (f * 4096) perm).imp ?_
  rintro res u ⟨T', N, hgrown, ⟨rfl, -⟩ | ⟨rfl, -, hpte⟩⟩
  · exact Or.inl (by decide)
  rw [hdiv, hword] at hpte
  have hother : ∀ k, k ≠ i → pteOf u.mem T' k = pteOf t.mem T k := fun k hk => by
    rw [hpte k, if_neg hk]
  refine Or.inr ⟨by decide, T', ⟨hgrown.table himage.space.table, ?_, fun k _ hk => ?_⟩,
    fun k hk => ?_, ?_, fun q hq j hj => ?_, hgrown.proc.trans himage.proc⟩
  · exact ⟨fun k _ hk => absurd hk (Nat.not_lt_zero k), fun k _ hk => absurd hk (Nat.not_lt_zero k),
      fun k _ hk => absurd hk (Nat.not_lt_zero k), fun k _ _ hk => absurd hk (Nat.not_lt_zero k)⟩
  · rw [hother k (by omega)]
    exact himage.space.rest k (Nat.zero_le k) hk
  · by_cases hki : k = i
    · rw [hki, upd_self, hpte i, if_pos rfl]
      exact .refl _
    · rw [upd_of_ne _ _ hki, hother k hki]
      exact himage.high k hk
  · refine (himage.lent.trans hgrown.lent).congr ?_
    rw [frames_self, frames_self, Set.union_empty, Set.union_empty, hgrown.pages]
  · rw [hgrown.mem q (himage.notMem hq) (hgrown.lent.not_mem (himage.lent.not_free hq))]
    exact himage.kept q hq j hj

theorem rootShape_pages (r : Nat) : (rootShape r).pages = {r} := by
  ext q
  constructor
  · rintro ⟨l, i, hq⟩
    exact (rootShape_eq_some hq).2.2
  · rintro rfl
    exact ⟨2, 0, if_pos ⟨rfl, rfl⟩⟩

theorem uvmcreate_image (hinv : s.kmem.Inv) {E : Panic → Kernel → Prop} :
    Wp uvmcreate (fun pagetable t => pagetable = 0 ∨ ∃ r, pagetable = r * 4096 ∧ pagetable ≠ 0 ∧
      Image s t r (rootShape r) 0 fun _ => 0) E s := by
  unfold uvmcreate
  refine .bind ((kalloc_lent hinv).imp ?_)
  rintro pa t ⟨hproc, ⟨rfl, -⟩ | ⟨r, rfl, -, hlent, hmem⟩⟩
  · exact .ite (fun h => absurd rfl h) fun _ => .pure (Or.inl rfl)
  have hsole := hlent.sole r rfl
  have hne := hsole.1.addr_ne_zero
  refine .ite (fun _ => .bind (hsole.1.ramPage.wp_zero (.pure ?_))) fun h => absurd hne h
  have hother : ∀ q, ¬ s.kmem.Free q → upd t.mem r (fun _ => 0) q = s.mem q := by
    intro q hq
    have hqr : q ≠ r := fun h => hq (h ▸ hlent.free r rfl)
    rw [upd_of_ne _ _ hqr, hmem, upd_of_ne _ _ hqr]
  refine Or.inr ⟨r, rfl, hne, .empty hlent.inv' (fun j _ => congrFun (upd_self ..) j) hsole,
    fun i _ => ?_, ?_, fun q hq j _ => congrFun (hother q hq) j, hproc⟩
  · rw [pteOf, Radix.entry_of_none (F := pteFormat) (rootShape_low r _)]
    exact .refl 0
  · rw [frames_self, Set.union_empty, rootShape_pages]
    exact hlent

/-- `proc_pagetable` fails, or returns a page table with no user pages. -/
theorem procPagetable_image (hinv : s.kmem.Inv) (hframe : (s.proc p).trapframe = f * 4096)
    (hf : RamPage f) : Wp (procPagetable p) (fun pagetable t => pagetable = 0 ∨ ∃ r T,
      pagetable = r * 4096 ∧ Image s t r T 0 (highEntry f)) (fun _ _ => True) s := by
  have hfail : ∀ (x : K Unit) (u : Kernel), Wp (x >>= fun _ => pure 0) (fun pagetable t =>
      pagetable = 0 ∨ ∃ r T, pagetable = r * 4096 ∧ Image s t r T 0 (highEntry f))
      (fun _ _ => True) u := fun x u => .bind ((Wp.any x u).imp fun _ _ _ => .pure (Or.inl rfl))
  have htrampoline : trampoline = (trapframe / 4096 + 1) * 4096 := by decide
  have htrapframe : trapframe = trapframe / 4096 * 4096 := by decide
  unfold procPagetable
  refine .bind ((uvmcreate_image hinv).imp ?_)
  rintro _ t (rfl | ⟨r, rfl, hne, himage⟩)
  · exact .ite (fun _ => .pure (Or.inl rfl)) fun h => absurd rfl h
  have hmap := himage.mapHigh (i := trapframe / 4096 + 1) (f := 0x80008)
    (E := fun _ _ => True) (pteR ||| pteX) (by omega) (by decide) rfl ⟨by decide, by decide⟩ (by decide)
  rw [← htrampoline] at hmap
  refine .ite (fun h => absurd h hne) fun _ => .bind (hmap.imp ?_)
  rintro res u (hres | ⟨hres, T, himage'⟩)
  · exact .ite (fun _ => hfail _ u) fun h => absurd hres h
  have hmap' := himage'.mapHigh (i := trapframe / 4096) (f := f)
    (E := fun _ _ => True) (pteR ||| pteW) le_rfl (by decide) (by rw [upd_of_ne _ _ (by omega)]; rfl) hf (by decide)
  rw [← htrapframe, ← hframe, ← himage'.proc] at hmap'
  refine .ite (fun h => absurd h hres) fun _ => .bind (.of_ok rfl (.bind (hmap'.imp ?_)))
  rintro res' v (hres' | ⟨hres', T', himage''⟩)
  · refine .ite (fun _ => .bind ((Wp.any _ v).mono (fun _ w _ => hfail _ w) fun _ _ _ => trivial))
      fun h => absurd hres' h
  refine .ite (fun h => absurd h hres') fun _ => .pure (Or.inr ⟨r, T', rfl, ?_⟩)
  have hhigh : upd (upd (fun _ => 0) (trapframe / 4096 + 1) (0x80008 * 1024 + (pteR ||| pteX ||| pteV)))
      (trapframe / 4096) (f * 1024 + (pteR ||| pteW ||| pteV)) = highEntry f := by
    funext i
    rfl
  rwa [hhigh] at himage''

/-! ### Segments -/

theorem Image.extend (himage : Image s t r T n h) {n' : Nat} {flags : Nat → Nat}
    {content : Nat → Nat → Nat} (hle : n ≤ n') (hspace : Space u r T' n')
    (hext : Extended t T n u T' n' N flags content) : Image s u r T' n' h where
  space := hspace
  high := by
    intro i hi
    have hlimit := lt_of_le_of_lt hspace.backed.le npages_lt_trapframe
    exact (hext.same i (by omega)).trans (himage.high i hi)
  lent := by
    have hold : ∀ i < n, frameOf u.mem T' i = frameOf t.mem T i := fun i hi => by
      rw [frameOf, (hext.same i (by omega)).2
        (isValid_of_isLeaf (himage.space.backed.leaf i (Nat.zero_le i) hi))]
    have hframes : frames u.mem T' 0 n' = frames t.mem T 0 n ∪ frames u.mem T' n n' := by
      ext x
      constructor
      · rintro ⟨i, -, hi, rfl⟩
        by_cases hin : i < n
        · exact Or.inl ⟨i, Nat.zero_le i, hin, (hold i hin).symm⟩
        · exact Or.inr ⟨i, by omega, hi, rfl⟩
      · rintro (⟨i, -, hi, rfl⟩ | ⟨i, -, hi, rfl⟩)
        · exact ⟨i, Nat.zero_le i, by omega, hold i hi⟩
        · exact ⟨i, Nat.zero_le i, hi, rfl⟩
    refine (himage.lent.trans hext.lent).congr ?_
    rw [hext.pages, hframes, Set.union_union_union_comm]
  kept := by
    intro q hq j hj
    rw [hext.mem q (himage.notMem hq) (himage.lent.not_free hq)]
    exact himage.kept q hq j hj
  proc := hext.proc.trans himage.proc

theorem pagesFor_mono {sz' : Nat} (hle : sz ≤ sz') (hsz : sz' < 0x8000000000) :
    pagesFor sz ≤ pagesFor sz' := by
  rw [pagesFor_eq (hle.trans_lt hsz), pagesFor_eq hsz]
  omega

theorem Image.uvmalloc_next {newsz perm flags : Nat} (himage : Image s t r T (pagesFor sz) h)
    (hsz : sz < 0x8000000000) (hperm : pteR ||| pteU ||| perm ||| pteV = flags) (hflags : flags < 1024)
    (hleaf : isLeaf flags = true) {E : Panic → Kernel → Prop} :
    Wp (uvmalloc (r * 4096) sz newsz perm) (fun res u => res = 0 ∨ (res < 0x8000000000 ∧
      ∃ T', Image s u r T' (pagesFor res) h)) E t := by
  by_cases hle : sz ≤ newsz
  swap
  · unfold uvmalloc
    rw [if_pos (by omega)]
    exact .pure (Or.inr ⟨hsz, T, himage⟩)
  refine (uvmalloc_spec himage.space hsz hle hperm hflags hleaf).imp ?_
  rintro res u ⟨T', N, ⟨rfl, -⟩ | ⟨rfl, -, hnew, hspace, hext⟩⟩
  · exact Or.inl rfl
  · exact Or.inr ⟨hnew, T', himage.extend (pagesFor_mono hle hnew) hspace hext⟩

theorem Image.write (himage : Image s t r T n h) {i : Nat} (hi : i < n) (hkmem : u.kmem = t.kmem)
    (hproc : u.proc = t.proc)
    (hmem : ∀ x, x ≠ frameOf t.mem T i → ∀ j < 512, u.mem x j = t.mem x j) : Image s u r T n h := by
  have hsame : ∀ x ∈ T.pages, ∀ j < 512, u.mem x j = t.mem x j := fun x hx =>
    hmem x fun h => himage.space.backed.apart i (Nat.zero_le i) hi (h ▸ hx)
  have hpte : ∀ k, pteOf u.mem T k = pteOf t.mem T k :=
    Radix.entry_frame_words (F := pteFormat) hsame
  have htable : Table u r T := by
    refine ⟨?_, himage.space.table.tree.frame_words hsame, himage.space.table.root, ?_⟩ <;> rw [hkmem]
    · exact himage.space.table.inv
    · exact himage.space.table.used
  refine ⟨himage.space.transfer htable (fun q hq hT => ⟨hkmem.symm ▸ hq, hT⟩) fun k => ?_,
    fun k hk => ?_, ?_, fun q hq j hj => ?_, hproc.trans himage.proc⟩
  · rw [hpte k]
    exact .refl _
  · rw [hpte k]
    exact himage.high k hk
  · rw [hkmem, show frames u.mem T 0 n = frames t.mem T 0 n by simp only [frames, frameOf, hpte]]
    exact himage.lent
  · rw [hmem q (himage.frame_ne hq hi).symm j hj]
    exact himage.kept q hq j hj

theorem highEntry_user (f i : Nat) : highEntry f i &&& pteU = 0 := by
  unfold highEntry
  split
  · rw [and_low _ (by decide), show (f * 1024 + 7) % 1024 = 7 by omega]
    rfl
  · split <;> rfl

theorem Image.walkaddr_user (himage : Image s t r T n (highEntry f)) (va : Nat)
    {E : Panic → Kernel → Prop} :
    Wp (walkaddr (r * 4096) va) (fun pa u => u = t ∧ (pa = 0 ∨ ∃ i < n,
      pa = frameOf t.mem T i * 4096)) E t := by
  have htable := himage.space.table
  have huser : ∀ i, isValid (pteOf t.mem T i) = true → pteOf t.mem T i &&& pteU ≠ 0 → i < n := by
    intro i hvalid huser
    by_contra hge
    by_cases hi : i < trapframe / 4096
    · cases (himage.space.rest i (by omega) hi).symm.trans hvalid
    · have hsame := himage.high i (by omega)
      rw [hsame.2 (hsame.1.symm.trans hvalid)] at huser
      exact huser (highEntry_user f i)
  have hram : ∀ i < n, RamPage (frameOf t.mem T i) := fun i hi =>
    (himage.space.backed.sole i (Nat.zero_le i) hi).1.ramPage
  have hpt : NoHuge t.mem r := by
    refine ⟨htable.ramPage htable.root, fun g hg hvalid => ?_, fun b hvalid => ?_,
      fun i hvalid hflag => ?_⟩
    · have hlink := htable.link htable.root hg
      rw [hvalid] at hlink
      rcases hlink with ⟨hinvalid, -⟩ | ⟨-, hlink, -, hpage⟩
      · cases hinvalid
      · exact ⟨hlink, hpage⟩
    · rcases htable.level1_cases b with ⟨hinvalid, -⟩ | ⟨hlink, hnode⟩
      · cases hinvalid.symm.trans hvalid
      · exact ⟨hlink, htable.ramPage hnode⟩
    · rw [← htable.pteOf_eq_level0] at hvalid hflag ⊢
      exact Or.inr (hram i (huser i hvalid hflag))
  refine .of_ok (walkaddr_read hpt va) ⟨rfl, ?_⟩
  rw [userFrame, ← htable.pteOf_eq_level0]
  split
  · next h =>
    have hi := huser _ h.2.1 h.2.2
    exact Or.inr ⟨_, hi, (hram _ hi).pte2pa⟩
  · exact Or.inl rfl

theorem length_readi_le (file : List Nat) (off n : Nat) : (readi file off n).length ≤ n := by
  rw [readi]
  split
  · exact Nat.zero_le n
  · exact List.length_take_le n _

theorem Image.loadseg_next (himage : Image s t r T n (highEntry f)) (va offset sz : Nat) (file : List Nat) :
    Wp (loadseg (r * 4096) va file offset sz) (fun _ u => Image s u r T n (highEntry f)) (fun _ _ => True) t := by
  unfold loadseg
  generalize pageCount pgsize sz = rounds
  suffices hloop : ∀ i, Wp (loadsegFrom (r * 4096) va file offset sz rounds i)
      (fun _ u => Image s u r T n (highEntry f)) (fun _ _ => True) t from hloop 0
  intro i
  induction rounds generalizing t i with
  | zero => exact .pure himage
  | succ rounds ih =>
      unfold loadsegFrom
      refine .bind ((himage.walkaddr_user _).imp ?_)
      rintro _ u ⟨rfl, rfl | ⟨k, hk, rfl⟩⟩
      · exact .ite (fun _ => ⟨trivial⟩) fun h => absurd rfl h
      have hpage := (himage.space.backed.sole k (Nat.zero_le k) hk).1
      refine .ite (fun h => absurd h hpage.addr_ne_zero) fun _ => ?_
      have hlen := length_readi_le file ((offset + i) % 0x100000000) (min (sz - i) pgsize)
      have hfit : 0 + (readi file ((offset + i) % 0x100000000) (min (sz - i) pgsize)).length ≤
          4096 := by
        rw [pgsize] at hlen ⊢
        omega
      refine .bind (.of_ok (if_pos (inRam_page hpage.ramPage.1 hpage.ramPage.2)) ?_)
      generalize readi file ((offset + i) % 0x100000000) (min (sz - i) pgsize) = bytes at hfit ⊢
      have hwritten : Image s { u with mem := u.mem.setBytes (frameOf u.mem T k * 4096) bytes } r T n
          (highEntry f) := by
        refine himage.write hk rfl rfl fun x hx j hj => ?_
        have hother := setBytes_of_ne u.mem hfit hx hj
        rwa [Nat.add_zero] at hother
      exact .ite (fun _ => .pure hwritten) fun _ => ih hwritten _

theorem isLeaf_flags2perm (flags : Nat) : pteR ||| pteU ||| flags2perm flags ||| pteV < 1024 ∧
    isLeaf (pteR ||| pteU ||| flags2perm flags ||| pteV) = true := by
  unfold flags2perm
  split <;> split <;> decide

/-- The program headers can ask for anything; what is left is an image, unless `exec` gives up. -/
theorem Image.execLoad_next (himage : Image s t r T (pagesFor sz) (highEntry f)) (hsz : sz < 0x8000000000)
    (file : List Nat) (count off : Nat) :
    Wp (execLoad (r * 4096) file count off sz) (fun phase u => ∀ sz', phase = .next sz' →
      sz' < 0x8000000000 ∧ ∃ T', Image s u r T' (pagesFor sz') (highEntry f)) (fun _ _ => True) t := by
  induction count generalizing t T off sz with
  | zero =>
      refine .pure fun sz' h => ?_
      cases h
      exact ⟨hsz, T, himage⟩
  | succ count ih =>
      have hbad : ∀ (x : Nat) (u : Kernel), ∀ sz', Phase.bad x = .next sz' →
          sz' < 0x8000000000 ∧ ∃ T', Image s u r T' (pagesFor sz') (highEntry f) := fun x u sz' h => by cases h
      unfold execLoad
      refine .ite (fun _ => .pure (hbad sz t)) fun _ => .ite (fun _ => ih himage hsz _) fun _ =>
        .ite (fun _ => .pure (hbad sz t)) fun _ => ?_
      obtain ⟨hflags, hleaf⟩ := isLeaf_flags2perm (Proghdr.ofBytes (readi file off proghdrSize)).flags
      refine .bind ((himage.uvmalloc_next hsz rfl hflags hleaf).imp ?_)
      rintro res u (rfl | ⟨hres, T', himage'⟩)
      · exact .ite (fun _ => .pure (hbad sz u)) fun h => absurd rfl h
      refine .ite (fun _ => .pure (hbad sz u)) fun _ => .bind ((himage'.loadseg_next _ _ _ _).imp ?_)
      rintro r' v hloaded
      exact .ite (fun _ => .pure (hbad res v)) fun _ => ih hloaded hres _

end Image

end Xv6Mmap
