import Xv6Mmap.Proof.ExecArgs

/-!
# `exec` gives a program its arguments

Once the stack has been set up, `exec` pushes the arguments, hands them to the process in its
trapframe, and frees the old address space; when they do not fit it frees the new one.
-/

namespace Xv6Mmap

open Sequential
open Radix (Shape)

/-- `exec` of `file` has come as far as the stack: in state `t` the new page table has an image of size
`sz`, the last two pages of which are the guard and the stack. -/
structure StackReady (p : Nat) (file : List Nat) (s : Kernel) (pagetable sz : Nat) (t : Kernel) :
    Prop where
  header : (readi file 0 elfhdrSize).length = elfhdrSize
  magic : field file 0 4 = elfMagic
  phases : ∃ image s₁ s₂ s₃, procPagetable p s = .ok pagetable s₁ ∧ pagetable ≠ 0 ∧
    execLoad pagetable file (field file 56 2) (field file 32 8 % 0x100000000) 0 s₁ =
      .ok (.next image) s₂ ∧
    uvmalloc pagetable (pgroundup image) (pgroundup image + 2 * pgsize) pteW s₂ = .ok sz s₃ ∧
    sz ≠ 0 ∧ uvmclear pagetable (sz - 2 * pgsize) s₃ = .ok () t

/-- Process `p` runs in the page table at `r` and finds its arguments at `sp`, which is what it gets as
second argument and as stack pointer. -/
structure Started (p r sz sp : Nat) (argv : List (List Nat)) (t : Kernel) : Prop where
  pagetable : (t.proc p).pagetable = r * 4096
  size : (t.proc p).sz = sz
  a1 : t.mem.word ((t.proc p).trapframe + tfA1) = sp
  stack : t.mem.word ((t.proc p).trapframe + tfSp) = sp
  block : ArgBlock t.mem r sz sp argv

/-- A process that may call `exec`: its trapframe is in page `f`, which is in use. -/
structure Caller (s : Kernel) (p f : Nat) : Prop where
  inv : s.kmem.Inv
  trapframe : (s.proc p).trapframe = f * 4096
  ram : RamPage f
  used : ¬ s.kmem.Free f

/-- The process has no regions, and an address space as `exec`, `fork` and `sbrk` leave it. -/
structure Plain (s : Kernel) (p f old : Nat) (O : Shape) : Prop where
  regions : ∀ k < 4, (s.proc p).mmapList (0 + k * 3) = 0
  root : (s.proc p).pagetable = old * 4096
  space : UserSpace s old O (pagesFor (s.proc p).sz) (highEntry f)
  apart : f ∉ O.pages ∪ frames s.mem O 0 (pagesFor (s.proc p).sz)

/-! ### Memory that is left alone -/

section Keep

variable {m m' : Mem} {s t : Kernel} {p r sz sp n q : Nat} {T : Shape} {argv : List (List Nat)}

theorem HasWord.congr {va w : Nat} (hword : HasWord m r va w)
    (hsame : ∀ k < 8, userByte m' r (va + k) = userByte m r (va + k)) : HasWord m' r va w :=
  ⟨hword.1, fun k hk => (hsame k hk).trans (hword.2 k hk)⟩

theorem HasString.congr {va : Nat} {str : List Nat} (hstring : HasString m r va str)
    (hsame : ∀ k ≤ str.length, userByte m' r (va + k) = userByte m r (va + k)) :
    HasString m' r va str := by
  obtain ⟨⟨hchars, hnul⟩, hbytes⟩ := hstring
  refine ⟨⟨fun j hj => ?_, (hsame _ le_rfl).trans hnul⟩, fun j hj => (hsame j hj.le).trans (hbytes j hj)⟩
  obtain ⟨c, hc, hbyte⟩ := hchars j hj
  exact ⟨c, hc, (hsame j hj.le).trans hbyte⟩

theorem ArgBlock.congr (hblock : ArgBlock m r sz sp argv)
    (hsame : ∀ va, sz - pgsize ≤ va → va < sz → userByte m' r va = userByte m r va) :
    ArgBlock m' r sz sp argv := by
  obtain ⟨haligned, habove, hbelow, ptr, hwords, hnull, hstrings, horder⟩ := hblock
  refine ⟨haligned, habove, hbelow, ptr, fun i hi => ?_, ?_, fun i hi => ?_, horder⟩
  · exact (hwords i hi).congr fun k hk => hsame _ (by omega) (by omega)
  · exact hnull.congr fun k hk => hsame _ (by omega) (by omega)
  · obtain ⟨halign, hstring, hlow, hhigh⟩ := hstrings i hi
    exact ⟨halign, hstring.congr fun k hk => hsame _ (by omega) (by omega), hlow, hhigh⟩

theorem UserPage.keep (hpage : UserPage s r T n q) (hinv : t.kmem.Inv)
    (hused : ∀ x ∈ T.pages, ¬ t.kmem.Free x)
    (hmem : ∀ x ∈ T.pages, ∀ j < 512, t.mem x j = s.mem x j) : UserPage t r T n q := by
  have hpte : ∀ i, pteOf t.mem T i = pteOf s.mem T i :=
    Radix.entry_frame_words (F := pteFormat) hmem
  refine ⟨⟨hinv, hpage.table.tree.frame_words hmem, hpage.table.root, fun x hx =>
    ⟨(hpage.table.used x hx).1, hused x hx⟩⟩, hpage.limit, ?_, ?_, ?_, hpage.ram, hpage.apart⟩
  · rw [hpte]
    exact hpage.valid
  · rw [hpte]
    exact hpage.user
  · rw [frameOf, hpte]
    exact hpage.frame

theorem ArgBlock.keep (hblock : ArgBlock s.mem r (n * 4096 + 4096) sp argv)
    (hpage : UserPage s r T n q) (hpage' : UserPage t r T n q) (hframe : t.mem q = s.mem q) :
    ArgBlock t.mem r (n * 4096 + 4096) sp argv := by
  refine hblock.congr fun va hlow hhigh => ?_
  rw [pgsize] at hlow
  obtain ⟨o, ho, rfl⟩ : ∃ o < 4096, va = n * 4096 + o := ⟨va - n * 4096, by omega, by omega⟩
  rw [hpage.userByte_eq ho, hpage'.userByte_eq ho, byte_page _ ho, byte_page _ ho, hframe]

theorem UserSpace.keep {h : Nat → Nat} (huser : UserSpace s r T n h) (hinv : t.kmem.Inv)
    (hsole : ∀ x, s.kmem.Sole x → t.kmem.Sole x)
    (hmem : ∀ x ∈ T.pages, ∀ j < 512, t.mem x j = s.mem x j) : UserSpace t r T n h := by
  have hpte : ∀ i, pteOf t.mem T i = pteOf s.mem T i :=
    Radix.entry_frame_words (F := pteFormat) hmem
  have hown : ∀ x ∈ T.pages, t.kmem.Sole x := fun x hx => hsole x (huser.own x hx)
  have htable : Table t r T := ⟨hinv, huser.space.table.tree.frame_words hmem, huser.space.table.root,
    fun x hx => ⟨(huser.space.table.used x hx).1, (hown x hx).not_free⟩⟩
  refine ⟨huser.space.of_low htable hsole fun i _ => hpte i, fun i hi => ?_, hown⟩
  rw [hpte i]
  exact huser.high i hi

end Keep

/-! ### The last steps -/

def execStart (p : Nat) (file : List Nat) (argv : List (List Nat)) (pagetable sz sp : Nat) : K Int := do
  let proc ← getProc p
  storeWord (proc.trapframe + tfA1) sp
  modifyProc p fun proc => { proc with pagetable := pagetable, sz := sz }
  storeWord (proc.trapframe + tfEpc) (field file 24 8)
  storeWord (proc.trapframe + tfSp) sp
  procFreepagetable proc.pagetable proc.sz p
  pure argv.length

def execFinish (p : Nat) (file : List Nat) (argv : List (List Nat)) (pagetable : Nat) :
    Phase (Nat × Nat) → K Int
  | .bad sz => do
    procFreepagetable pagetable sz p
    pure (-1)
  | .next (sz, sp) => execStart p file argv pagetable sz sp

section Finish

variable {s t t₀ : Kernel} {p f r pagetable sz sp : Nat} {file : List Nat} {argv : List (List Nat)}

theorem exec_eq {image : Nat} {s₁ s₂ s₃ : Kernel}
    (hheader : (readi file 0 elfhdrSize).length = elfhdrSize) (hmagic : field file 0 4 = elfMagic)
    (hcreate : procPagetable p s = .ok (r * 4096) s₁) (hne : r * 4096 ≠ 0)
    (hload : execLoad (r * 4096) file (field file 56 2) (field file 32 8 % 0x100000000) 0 s₁ =
      .ok (.next image) s₂)
    (halloc : uvmalloc (r * 4096) (pgroundup image) (pgroundup image + 2 * pgsize) pteW s₂ =
      .ok sz s₃) (hsz : sz ≠ 0) (hclear : uvmclear (r * 4096) (sz - 2 * pgsize) s₃ = .ok () t₀) :
    exec p (some file) argv s =
      (pushArgs (r * 4096) sz (sz - pgsize) argv >>= execFinish p file argv (r * 4096)) t₀ := by
  have himage : execImage (r * 4096) file argv s₁ = pushArgs (r * 4096) sz (sz - pgsize) argv t₀ := by
    unfold execImage
    rw [run_bind_ok hload]
    exact execStack_eq halloc hsz hclear
  unfold exec
  dsimp only
  rw [if_neg (not_not.mpr hheader), if_neg (not_not.mpr hmagic), run_bind_ok hcreate, if_neg hne]
  exact run_bind_congr himage _

def enter (p f pagetable sz sp entry : Nat) (t : Kernel) : Kernel :=
  { t with
    mem := upd t.mem f (upd (upd (upd (t.mem f) 15 sp) 3 entry) 6 sp)
    proc := upd t.proc p { t.proc p with pagetable := pagetable, sz := sz } }

theorem execStart_eq (hframe : (t.proc p).trapframe = f * 4096) (hf : RamPage f) :
    execStart p file argv pagetable sz sp t =
      (do procFreepagetable (t.proc p).pagetable (t.proc p).sz p; pure (argv.length : Int) : K Int)
        (enter p f pagetable sz sp (field file 24 8) t) := by
  have ha1 : f * 4096 + tfA1 = f * 4096 + 8 * 15 := rfl
  have hepc : f * 4096 + tfEpc = f * 4096 + 8 * 3 := rfl
  have hsp : f * 4096 + tfSp = f * 4096 + 8 * 6 := rfl
  have hslot : ∀ j < 512, inRam (f * 4096 + 8 * j) = true := fun j => hf.inRam_slot
  unfold execStart
  rw [run_getProc_bind, hframe, ha1, hepc, hsp, run_bind_ok (run_storeWord (hslot 15 (by decide)) _ _),
    run_modifyProc_bind, run_bind_ok (run_storeWord (hslot 3 (by decide)) _ _),
    run_bind_ok (run_storeWord (hslot 6 (by decide)) _ _), setWord_slot _ _ (by decide),
    setWord_slot _ _ (by decide), setWord_slot _ _ (by decide)]
  simp only [upd_self, upd_upd]
  rfl

theorem enter_mem {x : Nat} (hx : x ≠ f) (entry : Nat) :
    (enter p f pagetable sz sp entry t).mem x = t.mem x :=
  upd_of_ne _ _ hx

theorem enter_proc (entry : Nat) : (enter p f pagetable sz sp entry t).proc p =
    { t.proc p with pagetable := pagetable, sz := sz } :=
  upd_self ..

theorem Started.of_enter {n q : Nat} {T : Shape} (hframe : (t.proc p).trapframe = f * 4096)
    (hpage : UserPage t r T n q) (hblock : ArgBlock t.mem r (n * 4096 + 4096) sp argv)
    (hf : f ∉ T.pages) (hfq : f ≠ q) (entry : Nat) :
    Started p r (n * 4096 + 4096) sp argv
      (enter p f (r * 4096) (n * 4096 + 4096) sp entry t) ∧
      UserPage (enter p f (r * 4096) (n * 4096 + 4096) sp entry t) r T n q := by
  have hpage' : UserPage (enter p f (r * 4096) (n * 4096 + 4096) sp entry t) r T n q := by
    refine hpage.keep hpage.table.inv (fun x hx => (hpage.table.used x hx).2) fun x hx j _ => ?_
    rw [enter_mem (ne_of_mem_of_not_mem hx hf)]
  have hproc : (enter p f (r * 4096) (n * 4096 + 4096) sp entry t).proc p = _ := enter_proc entry
  have hword : ∀ j < 512, (enter p f (r * 4096) (n * 4096 + 4096) sp entry t).mem.word
      (((enter p f (r * 4096) (n * 4096 + 4096) sp entry t).proc p).trapframe + 8 * j) =
        upd (upd (upd (t.mem f) 15 sp) 3 entry) 6 sp j := by
    intro j hj
    rw [hproc]
    dsimp only
    rw [hframe, word_slot _ hj]
    exact congrFun (upd_self ..) j
  refine ⟨⟨by rw [hproc], by rw [hproc], hword 15 (by decide), hword 6 (by decide), ?_⟩, hpage'⟩
  exact hblock.keep hpage hpage' (enter_mem hfq.symm entry)

theorem Started.keep {n q : Nat} {T : Shape} (hstarted : Started p r (n * 4096 + 4096) sp argv s)
    (hframe : (s.proc p).trapframe = f * 4096) (hpage : UserPage s r T n q)
    (hproc : t.proc = s.proc) (hinv : t.kmem.Inv) (hused : ∀ x ∈ T.pages, ¬ t.kmem.Free x)
    (hmem : ∀ x ∈ T.pages, t.mem x = s.mem x) (hq : t.mem q = s.mem q) (hf : t.mem f = s.mem f) :
    Started p r (n * 4096 + 4096) sp argv t := by
  have hpage' := hpage.keep hinv hused fun x hx j _ => by rw [hmem x hx]
  have hword : ∀ j < 512, t.mem.word ((t.proc p).trapframe + 8 * j) =
      s.mem.word ((s.proc p).trapframe + 8 * j) := by
    intro j hj
    rw [hproc, hframe, word_slot _ hj, word_slot _ hj, hf]
  refine ⟨by rw [hproc]; exact hstarted.pagetable, by rw [hproc]; exact hstarted.size,
    (hword 15 (by decide)).trans hstarted.a1, (hword 6 (by decide)).trans hstarted.stack, ?_⟩
  exact hstarted.block.keep hpage hpage' hq

end Finish

/-! ### The whole call -/

section Exec

variable {s t₀ : Kernel} {p f pagetable sz : Nat} {file : List Nat} {argv : List (List Nat)}

/-- The address space in which the arguments are pushed, and what is left of `exec` then. -/
theorem StackReady.image (hready : StackReady p file s pagetable sz t₀) (hcaller : Caller s p f) :
    ∃ r n T q, pagetable = r * 4096 ∧ 1 ≤ n ∧ sz = n * 4096 + 4096 ∧
      Image s t₀ r T (n + 1) (highEntry f) ∧ UserPage t₀ r T n q ∧
      ∀ argv, exec p (some file) argv s = (pushArgs (r * 4096) (n * 4096 + 4096) (n * 4096) argv >>=
        execFinish p file argv (r * 4096)) t₀ := by
  obtain ⟨image, s₁, s₂, s₃, hcreate, hne, hload, halloc, hsz, hclear⟩ := hready.phases
  rcases (procPagetable_image hcaller.inv hcaller.trapframe hcaller.ram).ok hcreate with
    hzero | ⟨r, T, rfl, hempty⟩
  · exact absurd hzero hne
  obtain ⟨-, T₁, hloaded⟩ := (hempty.execLoad_next (by decide) file _ _).ok hload image rfl
  obtain ⟨rfl, u, T₂, q, hclear', himage, hpage⟩ := hloaded.stackPage halloc hsz
  obtain rfl : u = t₀ := by
    rw [hclear] at hclear'
    cases hclear'
    rfl
  refine ⟨r, pagesFor image + 1, T₂, q, rfl, Nat.le_add_left _ _, by omega, himage, hpage, fun argv => ?_⟩
  rw [exec_eq hready.header hready.magic hcreate hne hload halloc hsz hclear,
    show (pagesFor image + 2) * 4096 - pgsize = (pagesFor image + 1) * 4096 by rw [pgsize]; omega,
    show (pagesFor image + 2) * 4096 = (pagesFor image + 1) * 4096 + 4096 by omega]

/-- A process without regions gets an answer: the number of its arguments when they fit, and else -1. -/
structure Answered (s : Kernel) (p r sz : Nat) (file : List Nat) (argv : List (List Nat)) : Prop where
  started : Fits argv → ∃ sp t, exec p (some file) argv s = .ok argv.length t ∧
    Started p r sz sp argv t
  failed : ¬ Fits argv → ∃ t, exec p (some file) argv s = .ok (-1) t

theorem Plain.answer_started {old r n q sp : Nat} {O T : Shape} {t : Kernel}
    (hplain : Plain s p f old O) (hcaller : Caller s p f)
    (himage : Image s t r T (n + 1) (highEntry f)) (hpage : UserPage t r T n q) (entry : Nat)
    (hstarted : Started p r (n * 4096 + 4096) sp argv
      (enter p f (r * 4096) (n * 4096 + 4096) sp entry t))
    (hpage' : UserPage (enter p f (r * 4096) (n * 4096 + 4096) sp entry t) r T n q) :
    ∃ u, procFreepagetable (s.proc p).pagetable (s.proc p).sz p
        (enter p f (r * 4096) (n * 4096 + 4096) sp entry t) = .ok () u ∧
      Started p r (n * 4096 + 4096) sp argv u := by
  have hfO : f ∉ O.pages := fun h => hplain.apart (Or.inl h)
  have hused : ∀ x ∈ O.pages ∪ frames s.mem O 0 (pagesFor (s.proc p).sz), ¬ s.kmem.Free x := by
    rintro x (hx | ⟨i, hai, hi, rfl⟩)
    · exact (hplain.space.own x hx).not_free
    · exact (hplain.space.space.backed.sole i hai hi).not_free
  have hmem : ∀ x ∈ O.pages, ∀ j < 512,
      (enter p f (r * 4096) (n * 4096 + 4096) sp entry t).mem x j = s.mem x j := by
    intro x hx j hj
    rw [enter_mem (ne_of_mem_of_not_mem hx hfO)]
    exact himage.kept x (hused x (Or.inl hx)) j hj
  have hspace := hplain.space.keep hpage'.table.inv (fun x hx => himage.lent.sole_of_sole hx) hmem
  have hframes : frames (enter p f (r * 4096) (n * 4096 + 4096) sp entry t).mem O 0
      (pagesFor (s.proc p).sz) = frames s.mem O 0 (pagesFor (s.proc p).sz) := by
    simp only [frames, frameOf, pteOf, Radix.entry_frame_words (F := pteFormat) hmem]
  have hregions : ∀ k < 4,
      ((enter p f (r * 4096) (n * 4096 + 4096) sp entry t).proc p).mmapList (0 + k * 3) = 0 := by
    intro k hk
    rw [enter_proc, himage.proc]
    exact hplain.regions k hk
  obtain ⟨_, u, hrun, hfreed⟩ := (hspace.procFreepagetable_freed hregions
    (E := fun _ _ => False)).returns
  rw [hframes] at hfreed
  have hnew : ∀ x, s.kmem.Free x → x ∉ O.pages ∪ frames s.mem O 0 (pagesFor (s.proc p).sz) :=
    fun x hfree hx => hused x hx hfree
  have hT : ∀ x ∈ T.pages, x ∉ O.pages ∪ frames s.mem O 0 (pagesFor (s.proc p).sz) := fun x hx =>
    hnew x (himage.lent.free x (Or.inl hx))
  have hq : s.kmem.Free q :=
    himage.lent.free q (Or.inr ⟨n, Nat.zero_le n, Nat.lt_succ_self n, hpage.frame⟩)
  have hframe : ((enter p f (r * 4096) (n * 4096 + 4096) sp entry t).proc p).trapframe =
      f * 4096 := by
    rw [enter_proc, himage.proc]
    exact hcaller.trapframe
  refine ⟨u, by rw [hplain.root]; exact hrun, hstarted.keep hframe hpage' hfreed.proc
    hfreed.lent.inv (fun x hx h => ?_) (fun x hx => hfreed.mem x (hT x hx))
    (hfreed.mem q (hnew q hq)) (hfreed.mem f hplain.apart)⟩
  exact (hpage'.table.used x hx).2 ((hfreed.lent.other x (hT x hx)).1.mpr h)

theorem pagesFor_next {n : Nat} (hn : n * 4096 < maxva) : pagesFor (n * 4096 + 4096) = n + 1 := by
  have hsize : n * 4096 + 4096 ≤ maxva := offset_lt_maxva hn (o := 4095) (by decide)
  rw [pagesFor_eq (hsize.trans_lt (by decide))]
  omega

/-- Once the stack is set up, `exec` gives the program its arguments when they fit on the stack page,
and otherwise fails; it writes nothing but that page and the trapframe. -/
theorem exec_args (hcaller : Caller s p f) (hargc : argv.length < maxarg)
    (hargs : ∀ arg ∈ argv, arg.length < pgsize ∧ ∀ c ∈ arg, 0 < c ∧ c < 256)
    (hready : StackReady p file s pagetable sz t₀) : ∃ r t, pagetable = r * 4096 ∧
      (Fits argv → (∃ sp, Started p r sz sp argv t) ∧ exec p (some file) argv s =
        (do procFreepagetable (s.proc p).pagetable (s.proc p).sz p; pure (argv.length : Int) : K Int)
          t) ∧
      (¬ Fits argv → exec p (some file) argv s =
        (do procFreepagetable pagetable sz p; pure (-1) : K Int) t) ∧
      (∀ q, q ≠ level0 t₀.mem r (sz / pgsize - 1) / 1024 → q ≠ f → ∀ j < 512,
        t.mem q j = t₀.mem q j) ∧
      ∀ old O, Plain s p f old O → Answered s p r sz file argv := by
  obtain ⟨r, n, T, q, rfl, hn, rfl, himage, hpage, hexec⟩ := hready.image hcaller
  obtain ⟨out, t, hrun, hw, hok, hbad⟩ := pushArgs_spec hpage hn hargc hargs
  have hstack : level0 t₀.mem r ((n * 4096 + 4096) / pgsize - 1) / 1024 = q := by
    rw [show (n * 4096 + 4096) / pgsize - 1 = n by rw [pgsize]; omega,
      ← hpage.table.pteOf_eq_level0]
    exact hpage.frame
  have himage' : Image s t r T (n + 1) (highEntry f) :=
    himage.write (Nat.lt_succ_self n) hw.kmem hw.proc fun x hx => hw.other x (hpage.frame ▸ hx)
  have hpage' := hw.userPage hpage
  have hframe : (t.proc p).trapframe = f * 4096 := by
    rw [himage'.proc]
    exact hcaller.trapframe
  have hfq : f ≠ q := fun h => himage.frame_ne hcaller.used (Nat.lt_succ_self n) (h ▸ hpage.frame)
  by_cases hfits : Fits argv
  · obtain ⟨sp, rfl, hblock⟩ := hok hfits
    obtain ⟨hstarted, hcommitted⟩ := Started.of_enter hframe hpage' hblock
      (himage.notMem hcaller.used) hfq (field file 24 8)
    have hcall := (hexec argv).trans ((run_bind_ok hrun _).trans (execStart_eq hframe hcaller.ram))
    rw [himage'.proc] at hcall
    refine ⟨r, _, rfl, fun _ => ⟨⟨sp, hstarted⟩, hcall⟩, fun h => absurd hfits h, fun x hx hxf j hj => ?_,
      fun old O hplain => ⟨fun _ => ?_, fun h => absurd hfits h⟩⟩
    · rw [enter_mem hxf]
      exact hw.other x (hstack ▸ hx) j hj
    · obtain ⟨u, hfree, hstarted'⟩ :=
        hplain.answer_started hcaller himage' hpage' _ hstarted hcommitted
      exact ⟨sp, u, hcall.trans (run_bind_ok hfree _), hstarted'⟩
  · obtain rfl := hbad hfits
    have hcall := (hexec argv).trans (run_bind_ok hrun _)
    refine ⟨r, t, rfl, fun h => absurd h hfits, fun _ => hcall, fun x hx _ => hw.other x (hstack ▸ hx),
      fun old O hplain => ⟨fun h => absurd h hfits, fun _ => ?_⟩⟩
    have hpages := pagesFor_next hpage.limit
    have hregions : ∀ k < 4, (t.proc p).mmapList (0 + k * 3) = 0 := by
      rw [himage'.proc]
      exact hplain.regions
    obtain ⟨_, u, hfree, -⟩ := ((hpages.symm ▸ himage'.userSpace).procFreepagetable_freed hregions
      (E := fun _ _ => False)).returns
    exact ⟨u, hcall.trans (run_bind_ok hfree _)⟩

def adopt (p r : Nat) (t : Kernel) : Kernel :=
  { t with proc := upd t.proc p { t.proc p with pagetable := r * 4096, sz := 0 } }

theorem Image.plain {t : Kernel} {r : Nat} {T : Shape} (himage : Image s t r T 0 (highEntry f))
    (hcaller : Caller s p f) (hregions : ∀ k < 4, (s.proc p).mmapList (0 + k * 3) = 0) :
    Caller (adopt p r t) p f ∧ Plain (adopt p r t) p f r T := by
  have hproc : (adopt p r t).proc p = { s.proc p with pagetable := r * 4096, sz := 0 } := by
    rw [← himage.proc]
    exact upd_self ..
  have hzero : pagesFor ((adopt p r t).proc p).sz = 0 := by
    rw [hproc]
    exact (by decide : pagesFor 0 = 0)
  have huser := himage.userSpace
  have hspace : UserSpace (adopt p r t) r T 0 (highEntry f) := huser.keep
    huser.space.table.inv (fun _ h => h) fun _ _ _ _ => rfl
  refine ⟨⟨himage.space.table.inv, ?_, hcaller.ram, himage.lent.not_free hcaller.used⟩,
    ?_, by rw [hproc], by rwa [hzero], ?_⟩
  · rw [hproc]
    exact hcaller.trapframe
  · rw [hproc]
    exact hregions
  · rw [hzero, frames_self, Set.union_empty]
    exact himage.notMem hcaller.used

/-- The first page of the allocator is the trapframe of every process. -/
def newborn : Kernel :=
  { powerOn 0x800344d0 fun _ _ => 0 with
    kmem := (Kmem.initial 0x800344d0).takePage 0
    proc := fun _ => { Proc.empty with trapframe := 0x80200 * 4096 } }

theorem newborn_caller : Caller newborn 0 0x80200 := by
  have hindex : pageIndex 0x80200 = 0 := pageIndex_add 0
  have hsole : newborn.kmem.Sole 0x80200 := by
    refine ⟨⟨by decide, by decide⟩, ?_, ?_⟩ <;> rw [hindex] <;> rfl
  exact ⟨(Kmem.initial_inv (by decide)).takePage (by decide) (by decide) (by decide), rfl,
    hsole.1.ramPage, hsole.not_free⟩

def emptySpace : Kernel := adopt 0 0x80201 (final (procPagetable 0 newborn))

theorem emptySpace_plain : Caller emptySpace 0 0x80200 ∧
    ∃ O, Plain emptySpace 0 0x80200 0x80201 O := by
  have hcaller := newborn_caller
  have hcreate := run_of_value (show value (procPagetable 0 newborn) = some (0x80201 * 4096) by
    decide +kernel)
  rcases (procPagetable_image hcaller.inv hcaller.trapframe hcaller.ram).ok hcreate with
    hzero | ⟨r, T, hr, himage⟩
  · cases hzero
  obtain rfl : 0x80201 = r := by omega
  obtain ⟨hcaller', hplain⟩ := himage.plain hcaller fun _ _ => rfl
  exact ⟨hcaller', T, hplain⟩

def nop : List Nat :=
  -- the header: the program header at 64, one of them
  bytesOfWord 4 elfMagic ++ List.replicate 28 0 ++ bytesOfWord 8 64 ++ List.replicate 16 0 ++
  bytesOfWord 2 1 ++ List.replicate 6 0 ++
  -- the program header: loadable and executable, 4 bytes at 120, to address 0
  bytesOfWord 4 elfProgLoad ++ bytesOfWord 4 5 ++ bytesOfWord 8 120 ++ List.replicate 16 0 ++
  bytesOfWord 8 4 ++ bytesOfWord 8 4 ++ bytesOfWord 8 4096 ++
  [0x13, 0, 0, 0]

theorem emptySpace_ready : ∃ t, StackReady 0 nop emptySpace (0x80204 * 4096) 0x3000 t := by
  have hcreate := run_of_value (x := procPagetable 0) (s := emptySpace) (a := 0x80204 * 4096)
    (by decide +kernel)
  have hload := run_of_value (x := execLoad (0x80204 * 4096) nop 1 64 0)
    (s := final (procPagetable 0 emptySpace)) (a := .next 4) (by decide +kernel)
  have halloc := run_of_value
    (x := uvmalloc (0x80204 * 4096) (pgroundup 4) (pgroundup 4 + 2 * pgsize) pteW)
    (s := final (execLoad (0x80204 * 4096) nop 1 64 0 (final (procPagetable 0 emptySpace))))
    (a := 0x3000) (by decide +kernel)
  have hclear := run_of_value (x := uvmclear (0x80204 * 4096) (0x3000 - 2 * pgsize))
    (s := final (uvmalloc (0x80204 * 4096) (pgroundup 4) (pgroundup 4 + 2 * pgsize) pteW
      (final (execLoad (0x80204 * 4096) nop 1 64 0 (final (procPagetable 0 emptySpace))))))
    (a := ()) (by decide +kernel)
  exact ⟨_, by decide +kernel, by decide +kernel, 4, _, _, _, hcreate, by decide, hload, halloc,
    by decide, hclear⟩

/-- The argument "hi" fits, and one of 4095 bytes leaves no room for the array. -/
theorem exec_args_nop : (∃ sp t, exec 0 (some nop) [[104, 105]] emptySpace = .ok 1 t ∧
      Started 0 0x80204 0x3000 sp [[104, 105]] t) ∧
    ∃ t, exec 0 (some nop) [List.replicate 4095 97] emptySpace = .ok (-1) t := by
  obtain ⟨hcaller, O, hplain⟩ := emptySpace_plain
  obtain ⟨t₀, hready⟩ := emptySpace_ready
  have hlong : ∀ arg ∈ [List.replicate 4095 97], arg.length < pgsize ∧ ∀ c ∈ arg, 0 < c ∧ c < 256 := by
    intro arg harg
    obtain rfl := List.mem_singleton.mp harg
    refine ⟨by rw [List.length_replicate]; decide, fun c hc => ?_⟩
    rw [List.eq_of_mem_replicate hc]
    decide
  constructor
  · obtain ⟨r, -, hr, -, -, -, hanswer⟩ := exec_args hcaller (by decide)
      (show ∀ arg ∈ [[104, 105]], arg.length < pgsize ∧ ∀ c ∈ arg, 0 < c ∧ c < 256 by decide) hready
    obtain rfl : 0x80204 = r := by omega
    exact (hanswer 0x80201 O hplain).started (by decide)
  · obtain ⟨r, -, -, -, -, -, hanswer⟩ := exec_args hcaller (by decide) hlong hready
    refine (hanswer 0x80201 O hplain).failed ?_
    rw [Fits, argBlocks, List.length_replicate]
    decide

end Exec

end Xv6Mmap
