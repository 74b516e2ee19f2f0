import Xv6Mmap.Proof.Frame

/-!
# The region table

What `mmap_list` records in every process: disjoint intervals of whole pages between the end of
physical memory and the trapframe. Only `mmap`, `munmap`, `fork` and the freeing of a page table write
the table.
-/

namespace Xv6Mmap

open Sequential

@[ext]
structure Region where
  addr : Nat
  length : Nat
  flags : Nat
  deriving DecidableEq

namespace Region

def empty : Region := ⟨0, 0, 0⟩

def Contains (r : Region) (va : Nat) : Prop := r.addr ≤ va ∧ va < r.addr + r.length

def Disjoint (r r' : Region) : Prop := ∀ va, r.Contains va → ¬ r'.Contains va

structure Ok (r : Region) : Prop where
  aligned : r.addr % pgsize = 0
  length_pos : 0 < r.length
  length_le : r.length ≤ 64 * 1024 * 1024
  length_pages : r.length % pgsize = 0
  length_huge : r.flags &&& mapHugepage ≠ 0 → r.length % hugepgsize = 0
  low : phystop ≤ r.addr
  high : r.addr + r.length ≤ trapframe

end Region

def regionSlots : List Nat := [0, 3, 6, 9]

def Proc.region (proc : Proc) (i : Nat) : Region :=
  ⟨proc.mmapList i, proc.mmapList (i + 1), proc.mmapList (i + 2)⟩

def Proc.NoRegions (proc : Proc) : Prop := ∀ i ∈ regionSlots, proc.region i = .empty

structure RegionTable (proc : Proc) : Prop where
  slot : ∀ i ∈ regionSlots, proc.region i = .empty ∨ (proc.region i).Ok
  disjoint : ∀ i ∈ regionSlots, ∀ j ∈ regionSlots, i ≠ j → (proc.region i).Disjoint (proc.region j)

structure RegionInv (s : Kernel) : Prop where
  table : ∀ p, RegionTable (s.proc p)
  unused : ∀ p, (s.proc p).state = .unused → (s.proc p).NoRegions
  pageless : ∀ p, (s.proc p).pagetable = 0 → (s.proc p).NoRegions
  paged : ∀ p, (s.proc p).state = .runnable → (s.proc p).pagetable ≠ 0

namespace Region

theorem disjoint_empty_left (r : Region) : empty.Disjoint r := fun va hva => by
  obtain ⟨-, hlt⟩ := hva
  simp [empty] at hlt

theorem Disjoint.symm {r r' : Region} (hdisj : r.Disjoint r') : r'.Disjoint r :=
  fun va hva' hva => hdisj va hva hva'

theorem not_disjoint_iff (r r' : Region) (hpos : 0 < r'.length) (haddr : 0 < r'.addr)
    (hr : r = .empty ∨ 0 < r.length) :
    (r.addr ≤ r'.addr ∧ r'.addr < r.addr + r.length ∨
      r'.addr ≤ r.addr ∧ r.addr < r'.addr + r'.length) ↔ ¬ r.Disjoint r' := by
  constructor
  · rintro (⟨hle, hlt⟩ | ⟨hle, hlt⟩) hdisj
    · exact hdisj r'.addr ⟨hle, hlt⟩ ⟨le_rfl, by omega⟩
    · rcases hr with rfl | hr
      · simp only [empty] at hle
        omega
      · exact hdisj r.addr ⟨le_rfl, by omega⟩ ⟨hle, hlt⟩
  · intro hmeet
    simp only [Disjoint, Contains, not_forall, not_not] at hmeet
    obtain ⟨va, hva, hva'⟩ := hmeet
    omega

end Region

/-! ### Writing a slot -/

theorem slots_apart : ∀ i ∈ regionSlots, ∀ j ∈ regionSlots, i ≠ j → i + 3 ≤ j ∨ j + 3 ≤ i := by
  decide

def Proc.setRegion (proc : Proc) (i : Nat) (r : Region) : Proc :=
  { proc with mmapList := upd (upd (upd proc.mmapList i r.addr) (i + 1) r.length) (i + 2) r.flags }

theorem Proc.region_setRegion_self (proc : Proc) (i : Nat) (r : Region) :
    (proc.setRegion i r).region i = r := by
  simp [region, setRegion, upd]

theorem Proc.region_setRegion_of_ne (proc : Proc) {i j : Nat} (r : Region) (hi : i ∈ regionSlots)
    (hj : j ∈ regionSlots) (hne : j ≠ i) : (proc.setRegion i r).region j = proc.region j := by
  have hapart := slots_apart j hj i hi hne
  have hwords : ∀ k < 3, (proc.setRegion i r).mmapList (j + k) = proc.mmapList (j + k) := by
    intro k hk
    simp only [setRegion]
    rw [upd_of_ne _ _ (by omega), upd_of_ne _ _ (by omega), upd_of_ne _ _ (by omega)]
  simp only [region, Region.mk.injEq]
  exact ⟨hwords 0 (by omega), hwords 1 (by omega), hwords 2 (by omega)⟩

theorem Proc.region_congr {proc proc' : Proc} (hlist : proc'.mmapList = proc.mmapList) :
    proc'.region = proc.region := by
  funext i
  simp only [region, hlist]

theorem RegionTable.congr {proc proc' : Proc} (htable : RegionTable proc)
    (hlist : proc'.mmapList = proc.mmapList) : RegionTable proc' := by
  have hregion := Proc.region_congr hlist
  exact ⟨by rw [hregion]; exact htable.slot, by rw [hregion]; exact htable.disjoint⟩

/-- A slot is emptied, or gets a region that meets no other. -/
theorem RegionTable.setRegion {proc : Proc} (htable : RegionTable proc) {i : Nat}
    (hi : i ∈ regionSlots) {r : Region} (hr : r = .empty ∨ r.Ok)
    (hdisj : ∀ j ∈ regionSlots, j ≠ i → (proc.region j).Disjoint r) :
    RegionTable (proc.setRegion i r) := by
  constructor
  case slot =>
    intro j hj
    by_cases hji : j = i
    · rw [hji, proc.region_setRegion_self]
      exact hr
    · rw [proc.region_setRegion_of_ne r hi hj hji]
      exact htable.slot j hj
  case disjoint =>
    intro j hj k hk hne
    by_cases hji : j = i
    · have hki : k ≠ i := fun h => hne (hji.trans h.symm)
      rw [hji, proc.region_setRegion_self, proc.region_setRegion_of_ne r hi hk hki]
      exact (hdisj k hk hki).symm
    · rw [proc.region_setRegion_of_ne r hi hj hji]
      by_cases hki : k = i
      · rw [hki, proc.region_setRegion_self]
        exact hdisj j hj hji
      · rw [proc.region_setRegion_of_ne r hi hk hki]
        exact htable.disjoint j hj k hk hne

theorem RegionTable.empties {proc : Proc} (hnone : proc.NoRegions) : RegionTable proc where
  slot := fun i hi => .inl (hnone i hi)
  disjoint := fun i hi j _ _ => by
    rw [hnone i hi]
    exact Region.disjoint_empty_left _

theorem RegionTable.clearRegion {proc : Proc} (htable : RegionTable proc) {i : Nat}
    (hi : i ∈ regionSlots) : RegionTable (clearRegion proc i) := by
  have hset : RegionTable (proc.setRegion i .empty) :=
    htable.setRegion hi (.inl rfl) fun _ _ _ => (Region.disjoint_empty_left _).symm
  exact hset.congr rfl

theorem Proc.region_clearRegion_self (proc : Proc) (i : Nat) :
    (clearRegion proc i).region i = .empty := by
  simp [region, clearRegion, upd, Region.empty]

theorem Proc.region_clearRegion_of_ne (proc : Proc) {i j : Nat} (hi : i ∈ regionSlots)
    (hj : j ∈ regionSlots) (hne : j ≠ i) : (clearRegion proc i).region j = proc.region j :=
  (congrFun (region_congr rfl) j).trans (proc.region_setRegion_of_ne .empty hi hj hne)

theorem Proc.NoRegions.congr {proc proc' : Proc} (hnone : proc.NoRegions)
    (hlist : proc'.mmapList = proc.mmapList) : proc'.NoRegions := fun i hi => by
  rw [Proc.region_congr hlist]
  exact hnone i hi

theorem Proc.NoRegions.clearRegion {proc : Proc} (hnone : proc.NoRegions) {i : Nat}
    (hi : i ∈ regionSlots) : (clearRegion proc i).NoRegions := fun j hj => by
  by_cases hji : j = i
  · rw [hji, proc.region_clearRegion_self]
  · rw [proc.region_clearRegion_of_ne hi hj hji]
    exact hnone j hj

theorem RegionTable.region_eq_empty {proc : Proc} (htable : RegionTable proc) {i : Nat}
    (hi : i ∈ regionSlots) (haddr : proc.mmapList i = 0) : proc.region i = .empty := by
  rcases htable.slot i hi with hempty | hok
  · exact hempty
  · have hlow : phystop ≤ proc.mmapList i := hok.low
    rw [haddr] at hlow
    exact absurd hlow (by decide)

/-! ### Single writes of the process table -/

namespace RegionInv

variable {s : Kernel}

theorem congr {t : Kernel} (hproc : t.proc = s.proc) (hinv : RegionInv s) : RegionInv t := by
  obtain ⟨htable, hunused, hpageless, hpaged⟩ := hinv
  constructor <;> rw [hproc] <;> assumption

theorem of_keeps {α : Type} {x : K α} (hx : Keeps Kernel.proc x) : Maintains RegionInv x :=
  .of_keeps hx fun _ _ => congr

theorem update (hinv : RegionInv s) (p : Nat) {proc : Proc} (htable : RegionTable proc)
    (hunused : proc.state = .unused → proc.NoRegions)
    (hpageless : proc.pagetable = 0 → proc.NoRegions)
    (hpaged : proc.state = .runnable → proc.pagetable ≠ 0) :
    RegionInv { s with proc := upd s.proc p proc } := by
  have hcases : ∀ q, q = p ∧ upd s.proc p proc q = proc ∨ upd s.proc p proc q = s.proc q := by
    intro q
    by_cases hq : q = p
    · exact .inl ⟨hq, by rw [hq, upd_self]⟩
    · exact .inr (upd_of_ne _ _ hq)
  constructor <;> intro q <;> rcases hcases q with ⟨-, hq⟩ | hq <;> simp only [hq]
  · exact htable
  · exact hinv.table q
  · exact hunused
  · exact hinv.unused q
  · exact hpageless
  · exact hinv.pageless q
  · exact hpaged
  · exact hinv.paged q

theorem updateOther (hinv : RegionInv s) (p : Nat) {proc : Proc}
    (hlist : proc.mmapList = (s.proc p).mmapList) (hstate : proc.state = (s.proc p).state)
    (hpagetable : proc.pagetable = (s.proc p).pagetable) :
    RegionInv { s with proc := upd s.proc p proc } :=
  hinv.update p ((hinv.table p).congr hlist)
    (fun h => (hinv.unused p (hstate ▸ h)).congr hlist)
    (fun h => (hinv.pageless p (hpagetable ▸ h)).congr hlist)
    fun h => hpagetable ▸ hinv.paged p (hstate ▸ h)

theorem clearRegion (hinv : RegionInv s) (p : Nat) {i : Nat} (hi : i ∈ regionSlots) :
    RegionInv { s with proc := upd s.proc p (clearRegion (s.proc p) i) } :=
  hinv.update p ((hinv.table p).clearRegion hi) (fun h => (hinv.unused p h).clearRegion hi)
    (fun h => (hinv.pageless p h).clearRegion hi) (hinv.paged p)

end RegionInv

theorem getProc_wp {α : Type} {Q : α → Kernel → Prop} {E : Panic → Kernel → Prop} {p : Nat}
    {f : Proc → K α} {s : Kernel} (hf : Wp (f (s.proc p)) Q E s) : Wp (getProc p >>= f) Q E s :=
  ⟨hf.outcome⟩

theorem modifyProc_wp {Q : Unit → Kernel → Prop} {E : Panic → Kernel → Prop} {p : Nat}
    {f : Proc → Proc} {s : Kernel} (hQ : Q () { s with proc := upd s.proc p (f (s.proc p)) }) :
    Wp (modifyProc p f) Q E s := ⟨hQ⟩

theorem getProc_maintains {α : Type} {I : Kernel → Prop} {p : Nat} {f : Proc → K α}
    (hf : ∀ s, I s → Maintains I (f (s.proc p))) : Maintains I (getProc p >>= f) := fun s hs =>
  ⟨(hf s hs s hs).outcome⟩

theorem modifyProc_maintains {I : Kernel → Prop} {p : Nat} {f : Proc → Proc}
    (hf : ∀ s, I s → I { s with proc := upd s.proc p (f (s.proc p)) }) :
    Maintains I (modifyProc p f) := fun s hs => ⟨hf s hs⟩

/-! ### Freeing -/

theorem mem_regionSlots : ∀ k < 4, 0 + k * 3 ∈ regionSlots := by
  decide

theorem mem_regionSlots_iff {i : Nat} : i ∈ regionSlots ↔ ∃ k < 4, i = 0 + k * 3 := by
  constructor
  · intro hi
    simp only [regionSlots, List.mem_cons, List.not_mem_nil, or_false] at hi
    exact ⟨i / 3, by omega, by omega⟩
  · rintro ⟨k, hk, rfl⟩
    exact mem_regionSlots k hk

theorem freeRegion_wp {s : Kernel} (hinv : RegionInv s) {i : Nat} (hi : i ∈ regionSlots)
    (pagetable p : Nat) :
    Wp (freeRegion pagetable p i) (fun _ t => RegionInv t ∧ (t.proc p).region i = .empty ∧
      ∀ j ∈ regionSlots, (s.proc p).region j = .empty → (t.proc p).region j = .empty)
      (fun _ => RegionInv) s := by
  have hclear : ∀ x : K Unit, Keeps Kernel.proc x →
      Wp (x >>= fun _ => modifyProc p fun proc => clearRegion proc i) (fun _ t => RegionInv t ∧
        (t.proc p).region i = .empty ∧
        ∀ j ∈ regionSlots, (s.proc p).region j = .empty → (t.proc p).region j = .empty)
        (fun _ => RegionInv) s := by
    intro x hx
    refine .bind ((hx s).mono (fun _ t ht => modifyProc_wp ?_) fun _ t ht => hinv.congr ht)
    refine ⟨(hinv.congr ht).clearRegion p hi, ?_, fun j hj hempty => ?_⟩
    · simp only [upd_self]
      exact Proc.region_clearRegion_self _ i
    · simp only [upd_self, ht]
      by_cases hji : j = i
      · rw [hji]
        exact Proc.region_clearRegion_self _ i
      · rw [Proc.region_clearRegion_of_ne _ hi hj hji]
        exact hempty
  unfold freeRegion
  refine getProc_wp (.ite (fun _ => .ite (fun _ => ?_) fun _ => ?_) fun haddr => .pure ?_)
  · exact hclear _ (uvmunmapHuge_keeps _ _ _ _)
  · exact hclear _ (munmapPages_keeps _ _ _)
  · exact ⟨hinv, (hinv.table p).region_eq_empty hi (by omega), fun _ _ h => h⟩

theorem procFreepagetable_wp {s : Kernel} (hinv : RegionInv s) (pagetable sz p : Nat) :
    Wp (procFreepagetable pagetable sz p) (fun _ t => RegionInv t ∧ (t.proc p).NoRegions)
      (fun _ => RegionInv) s := by
  unfold procFreepagetable
  refine .bind ((RegionInv.of_keeps (uvmunmap_keeps _ _ _ _) s hinv).imp fun _ s hinv => ?_)
  refine .bind ((RegionInv.of_keeps (uvmunmap_keeps _ _ _ _) s hinv).imp fun _ s hinv => ?_)
  -- after `k` rounds the first `k` slots are empty
  refine .bind (.forUp (fun k t => RegionInv t ∧ ∀ j < k, (t.proc p).region (0 + j * 3) = .empty)
    ⟨hinv, nofun⟩ (fun k hk t ⟨hinv, hdone⟩ => ?_) fun t ⟨hinv, hdone⟩ => ?_)
  · refine (freeRegion_wp hinv (mem_regionSlots k hk) _ _).imp fun _ t' ⟨hinv', hempty, hrest⟩ => ?_
    refine ⟨hinv', fun j hj => ?_⟩
    rcases Nat.lt_succ_iff_lt_or_eq.mp hj with hlt | rfl
    · exact hrest _ (mem_regionSlots j (by omega)) (hdone j hlt)
    · exact hempty
  · have hnone : (t.proc p).NoRegions := fun i hi => by
      obtain ⟨k, hk, rfl⟩ := mem_regionSlots_iff.mp hi
      exact hdone k hk
    refine (uvmfree_keeps _ _ t).mono (fun _ t' ht' => ?_) fun _ t' ht' => hinv.congr ht'
    exact ⟨hinv.congr ht', by rw [ht']; exact hnone⟩

theorem freeproc_maintains (p : Nat) : Maintains RegionInv (freeproc p) := fun s hinv => by
  have hlast : ∀ t : Kernel, RegionInv t → (t.proc p).NoRegions →
      Wp (modifyProc p fun proc =>
        { proc with
          pagetable := 0, sz := 0, pid := 0, parent := none, killed := false, xstate := 0
          state := .unused }) (fun _ => RegionInv) (fun _ => RegionInv) t := fun t ht hnone =>
    modifyProc_wp (ht.update p ((ht.table p).congr rfl) (fun _ => hnone.congr rfl)
      (fun _ => hnone.congr rfl) nofun)
  have hrest : ∀ t : Kernel, t.proc = s.proc →
      Wp (do
        modifyProc p fun proc => { proc with trapframe := 0 }
        if (s.proc p).pagetable ≠ 0 then procFreepagetable (s.proc p).pagetable (s.proc p).sz p
        modifyProc p fun proc =>
          { proc with
            pagetable := 0, sz := 0, pid := 0, parent := none, killed := false, xstate := 0
            state := .unused }) (fun _ => RegionInv) (fun _ => RegionInv) t := by
    intro t ht
    refine .bind (modifyProc_wp ?_)
    have hframe : RegionInv
        { t with proc := upd t.proc p { t.proc p with trapframe := 0 } } :=
      (hinv.congr ht).updateOther p rfl rfl rfl
    refine .ite (fun _ => .bind ?_) fun hpagetable => hlast _ hframe ?_
    · exact (procFreepagetable_wp hframe _ _ _).imp fun _ t' ⟨ht', hnone⟩ => hlast t' ht' hnone
    · have hnone : (s.proc p).NoRegions := hinv.pageless p (by omega)
      rw [ht]
      simp only [upd_self]
      exact hnone.congr rfl
  unfold freeproc
  refine getProc_wp (.ite (fun _ => .bind ?_) fun _ => hrest s rfl)
  exact (kfree_keeps _ s).mono (fun _ t ht => hrest t ht) fun _ t ht => hinv.congr ht

structure SettingUp (p : Nat) (s : Kernel) : Prop where
  inv : RegionInv s
  none : (s.proc p).NoRegions
  used : (s.proc p).state = .used

namespace SettingUp

variable {s : Kernel} {p : Nat}

theorem congr {t : Kernel} (hproc : t.proc = s.proc) (hset : SettingUp p s) : SettingUp p t :=
  ⟨hset.inv.congr hproc, by rw [hproc]; exact hset.none, by rw [hproc]; exact hset.used⟩

theorem update (proc : Proc) (hinv : RegionInv s) (hnone : (s.proc p).NoRegions)
    (hlist : proc.mmapList = (s.proc p).mmapList) (hused : proc.state = .used) :
    SettingUp p { s with proc := upd s.proc p proc } := by
  have hnone' : proc.NoRegions := hnone.congr hlist
  exact ⟨hinv.update p (.empties hnone') (fun _ => hnone') (fun _ => hnone') (by simp [hused]),
    by simpa only [upd_self] using hnone', by simpa only [upd_self] using hused⟩

end SettingUp

/-- The slot that `allocproc` hands out was UNUSED and has no regions. -/
theorem allocproc_wp {s : Kernel} (hinv : RegionInv s) :
    Wp allocproc (fun r t => RegionInv t ∧ ∀ np, r = some np → (s.proc np).state = .unused ∧
      SettingUp np t ∧ (t.proc np).pagetable ≠ 0) (fun _ => RegionInv) s := by
  unfold allocproc
  refine .get ?_
  split
  · exact .pure ⟨hinv, nofun⟩
  · rename_i p hfind
    have hunused : (s.proc p).state = .unused := by simpa using List.find?_some hfind
    have hkeep : ∀ {α : Type} {x : K α} {t : Kernel}, Keeps Kernel.proc x → SettingUp p t →
        Wp x (fun _ => SettingUp p) (fun _ => RegionInv) t := fun hx ht =>
      (hx _).mono (fun _ _ heq => ht.congr heq) fun _ _ heq => ht.inv.congr heq
    have hfail : ∀ t : Kernel, SettingUp p t → Wp (do freeproc p; pure none) (fun r t' =>
        RegionInv t' ∧ ∀ np, r = some np → (s.proc np).state = .unused ∧
          SettingUp np t' ∧ (t'.proc np).pagetable ≠ 0) (fun _ => RegionInv) t := fun t ht =>
      .bind ((freeproc_maintains p t ht.inv).imp fun _ t' ht' => .pure ⟨ht', nofun⟩)
    refine .bind (.of_ok (by rfl) (.bind (modifyProc_wp (.bind ?_))))
    have hpid : RegionInv { s with nextpid := s.nextpid + 1 } := .congr (s := s) rfl hinv
    have hset := SettingUp.update { s.proc p with pid := s.nextpid, state := .used } hpid
      (hinv.unused p hunused) rfl rfl
    refine (hkeep kalloc_keeps hset).imp fun frame t ht => .bind (modifyProc_wp ?_)
    have ht := SettingUp.update { t.proc p with trapframe := frame } ht.inv ht.none rfl ht.used
    refine .ite (fun _ => hfail _ ht) fun _ => .bind ?_
    refine (hkeep (procPagetable_keeps p) ht).imp fun pagetable t ht => .bind (modifyProc_wp ?_)
    have ht := SettingUp.update { t.proc p with pagetable := pagetable } ht.inv ht.none rfl ht.used
    refine .ite (fun _ => hfail _ ht) fun hpagetable => .pure ⟨ht.inv, fun np hnp => ?_⟩
    obtain rfl := Option.some.inj hnp
    exact ⟨hunused, ht, by simpa only [upd_self] using hpagetable⟩

/-! ### `fork` -/

/-- A region of a child while `fork` is at work: the flags are written last. -/
structure Region.Inherited (r r' : Region) : Prop where
  addr : r'.addr = r.addr
  length : r'.length = r.length
  flags : r'.flags = 0 ∨ r'.flags = r.flags

theorem Region.Inherited.ok {r r' : Region} (hr : r.Ok) (hinh : r.Inherited r') : r'.Ok := by
  obtain ⟨haddr, hlength, hflags⟩ := hinh
  refine ⟨by rw [haddr]; exact hr.aligned, by rw [hlength]; exact hr.length_pos,
    by rw [hlength]; exact hr.length_le, by rw [hlength]; exact hr.length_pages, fun hhuge => ?_,
    by rw [haddr]; exact hr.low, by rw [haddr, hlength]; exact hr.high⟩
  rcases hflags with h | h
  · rw [h, Nat.zero_and] at hhuge
    exact (hhuge rfl).elim
  · rw [hlength]
    exact hr.length_huge (h ▸ hhuge)

structure Inherits (s : Kernel) (p np : Nat) (t : Kernel) : Prop where
  other : ∀ q, q ≠ np → t.proc q = s.proc q
  pagetable : (t.proc np).pagetable = (s.proc np).pagetable
  state : (t.proc np).state = (s.proc np).state
  region : ∀ i ∈ regionSlots, (t.proc np).region i = .empty ∨
    ((s.proc p).region i).Inherited ((t.proc np).region i)

namespace Inherits

variable {s t : Kernel} {p np : Nat}

theorem congr {t' : Kernel} (hproc : t'.proc = t.proc) (hinh : Inherits s p np t) :
    Inherits s p np t' := by
  obtain ⟨hother, hpagetable, hstate, hregion⟩ := hinh
  constructor <;> rw [hproc] <;> assumption

theorem inv (hinh : Inherits s p np t) (hinv : RegionInv s)
    (hpagetable : (s.proc np).pagetable ≠ 0) (hstate : (s.proc np).state = .used) :
    RegionInv t := by
  have hparent := hinv.table p
  have hchild : RegionTable (t.proc np) := by
    constructor
    case slot =>
      intro i hi
      rcases hinh.region i hi with hempty | hcopy
      · exact .inl hempty
      · rcases hparent.slot i hi with hparent | hparent
        · left
          rw [hparent] at hcopy
          obtain ⟨haddr, hlength, hflags⟩ := hcopy
          have hflags : ((t.proc np).region i).flags = 0 := hflags.elim id id
          exact Region.ext haddr hlength hflags
        · exact .inr (hcopy.ok hparent)
    case disjoint =>
      -- a region of the child covers no more than the parent's region of the same slot
      have hsub : ∀ i ∈ regionSlots, ∀ va, ((t.proc np).region i).Contains va →
          ((s.proc p).region i).Contains va := by
        intro i hi va hva
        rcases hinh.region i hi with hempty | hcopy
        · rw [hempty] at hva
          exact (Nat.not_lt.mpr hva.1 hva.2).elim
        · exact ⟨hcopy.addr ▸ hva.1, hcopy.addr ▸ hcopy.length ▸ hva.2⟩
      intro i hi j hj hne va hva hva'
      exact hparent.disjoint i hi j hj hne va (hsub i hi va hva) (hsub j hj va hva')
  constructor <;> intro q <;> by_cases hq : q = np
  · rw [hq]
    exact hchild
  · rw [hinh.other q hq]
    exact hinv.table q
  · rw [hq, hinh.state, hstate]
    exact nofun
  · rw [hinh.other q hq]
    exact hinv.unused q
  · rw [hq, hinh.pagetable]
    exact fun h => (hpagetable h).elim
  · rw [hinh.other q hq]
    exact hinv.pageless q
  · rw [hq, hinh.state, hstate]
    exact nofun
  · rw [hinh.other q hq]
    exact hinv.paged q

theorem setRegion (hinh : Inherits s p np t) {i : Nat} (hi : i ∈ regionSlots) {r : Region}
    (hr : ((s.proc p).region i).Inherited r) (proc : Proc)
    (hlist : proc.mmapList = ((t.proc np).setRegion i r).mmapList)
    (hpagetable : proc.pagetable = (t.proc np).pagetable)
    (hstate : proc.state = (t.proc np).state) :
    Inherits s p np { t with proc := upd t.proc np proc } ∧
      ((s.proc p).region i).Inherited ((upd t.proc np proc np).region i) := by
  have hself : (upd t.proc np proc np).region i = r := by
    rw [upd_self, Proc.region_congr hlist, Proc.region_setRegion_self]
  refine ⟨⟨fun q hq => ?_, ?_, ?_, fun j hj => ?_⟩, by rw [hself]; exact hr⟩
  · rw [← hinh.other q hq]
    exact upd_of_ne _ _ hq
  · simp only [upd_self, hpagetable, hinh.pagetable]
  · simp only [upd_self, hstate, hinh.state]
  · by_cases hji : j = i
    · rw [hji]
      exact .inr (by rw [hself]; exact hr)
    · simp only [upd_self]
      rw [Proc.region_congr hlist, Proc.region_setRegion_of_ne _ _ hi hj hji]
      exact hinh.region j hj

end Inherits

/-- In the round of `fork` for slot `i`, after the address and the length were copied. -/
def InRound (s : Kernel) (p np i : Nat) (t : Kernel) : Prop :=
  Inherits s p np t ∧ ((s.proc p).region i).Inherited ((t.proc np).region i)

theorem InRound.of_keeps {α : Type} {s : Kernel} {p np i : Nat} {x : K α}
    (hx : Keeps Kernel.proc x) : Maintains (InRound s p np i) x :=
  .of_keeps hx fun _ _ hproc h => ⟨h.1.congr hproc, by rw [hproc]; exact h.2⟩

theorem copyFlags_maintains {s : Kernel} {p np i : Nat} (hi : i ∈ regionSlots) (hne : p ≠ np) :
    Maintains (InRound s p np i) (copyFlags p np i) := fun t ht => by
  refine getProc_wp (modifyProc_wp ?_)
  have hr : ((s.proc p).region i).Inherited
      { (t.proc np).region i with flags := ((t.proc p).region i).flags } :=
    ⟨ht.2.addr, ht.2.length, .inr (by rw [ht.1.other p hne])⟩
  refine ht.1.setRegion hi hr _ ?_ rfl rfl
  simp only [Proc.setRegion, Proc.region, upd_eq_self]

section Fork

variable {s : Kernel} {p np i : Nat}

theorem forkShareEntry_maintains (hi : i ∈ regionSlots) (hne : p ≠ np) (kind : PageKind)
    (newtable oldSlot a : Nat) : Maintains (InRound s p np i) (do
      forkCopyEntry kind newtable oldSlot a
      copyFlags p np i
      let pte ← loadWord oldSlot
      kind.incrRef (pte2pa pte)) :=
  .bind (InRound.of_keeps (forkCopyEntry_keeps _ _ _ _)) fun _ =>
    .bind (copyFlags_maintains hi hne) fun _ =>
    InRound.of_keeps (.bind (loadWord_keeps _) fun _ => incrRef_kind_keeps _ _)

theorem forkSharedPage_maintains (hi : i ∈ regionSlots) (hne : p ≠ np) (kind : PageKind)
    (flags a : Nat) : Maintains (InRound s p np i) (forkSharedPage kind p np i flags a) := by
  have hkeep : ∀ {α : Type} {x : K α}, Keeps Kernel.proc x → Maintains (InRound s p np i) x :=
    InRound.of_keeps
  unfold forkSharedPage
  exact .bind (hkeep (getProc_keeps _)) fun parent => .bind (hkeep (getProc_keeps _)) fun child =>
    .bind (hkeep (walk_kind_keeps _ _ _ _)) fun found =>
    .branch (hkeep (walk_kind_keeps _ _ _ _)) (.pure _) fun slot =>
    .bind (hkeep (loadWord_keeps _)) fun pte => .ite
      (fun _ => .bind (hkeep (storeWord_keeps _ _)) fun _ =>
        .bind (hkeep (forkCopyEntry_keeps _ _ _ _)) fun _ => copyFlags_maintains hi hne)
      fun _ => .when (fun _ => hkeep (panic_keeps _)) fun _ =>
        .bind (hkeep (walk_kind_keeps _ _ _ _)) fun _ =>
        .when (fun _ => hkeep (panic_keeps _)) fun _ => forkShareEntry_maintains hi hne _ _ _ _

theorem forkPrivatePage_maintains (hi : i ∈ regionSlots) (hne : p ≠ np) (kind : PageKind)
    (flags a : Nat) : Maintains (InRound s p np i) (forkPrivatePage kind p np i flags a) := by
  have hkeep : ∀ {α : Type} {x : K α}, Keeps Kernel.proc x → Maintains (InRound s p np i) x :=
    InRound.of_keeps
  have hflags := copyFlags_maintains (s := s) hi hne
  unfold forkPrivatePage
  exact .bind (hkeep (getProc_keeps _)) fun parent => .bind (hkeep (getProc_keeps _)) fun child =>
    .bind (hkeep (walk_kind_keeps _ _ _ _)) fun slot => .ite (fun _ => hflags) fun _ =>
    .bind (hkeep (loadWord_keeps _)) fun pte => .ite (fun _ => hflags) fun _ =>
    .when (fun _ => hkeep (panic_keeps _)) fun _ =>
    .when (fun _ => hkeep (storeWord_keeps _ _)) fun _ =>
    .bind (hkeep (walk_kind_keeps _ _ _ _)) fun _ =>
    .when (fun _ => hkeep (panic_keeps _)) fun _ => forkShareEntry_maintains hi hne _ _ _ _

theorem forkRegion_maintains (hi : i ∈ regionSlots) (hne : p ≠ np) :
    Maintains (Inherits s p np) (forkRegion p np i) := fun t ht => by
  have hround : ∀ {x : K Unit} {t : Kernel}, Maintains (InRound s p np i) x →
      InRound s p np i t → Wp x (fun _ => Inherits s p np) (fun _ => Inherits s p np) t :=
    fun hx ht => (hx _ ht).mono (fun _ _ h => h.1) fun _ _ h => h.1
  unfold forkRegion
  refine getProc_wp (.ite (fun haddr => .bind (modifyProc_wp ?_)) fun _ => .pure ht)
  have hparent : t.proc p = s.proc p := ht.other p hne
  have hchild : ((t.proc np).region i).flags = 0 ∨
      ((t.proc np).region i).flags = ((s.proc p).region i).flags := by
    rcases ht.region i hi with hempty | hcopy
    · exact .inl (by rw [hempty]; rfl)
    · exact hcopy.flags
  have hr : ((s.proc p).region i).Inherited
      { (t.proc p).region i with flags := ((t.proc np).region i).flags } :=
    ⟨by rw [hparent], by rw [hparent], hchild⟩
  have hset := ht.setRegion hi hr { t.proc np with
    mmapList := upd (upd (t.proc np).mmapList i ((t.proc p).mmapList i)) (i + 1)
      ((t.proc p).mmapList (i + 1)) } ?_ rfl rfl
  · refine .ite (fun _ => hround (.forUp (fun a => ?_) _ _) hset) fun _ => .ite (fun _ =>
      hround (.forUp (fun a => ?_) _ _) hset) fun _ => .pure hset.1
    · exact forkSharedPage_maintains hi hne _ _ _
    · exact forkPrivatePage_maintains hi hne _ _ _
  · refine (upd_eq_self _ _ ?_).symm
    exact (upd_of_ne _ _ (by omega)).trans (upd_of_ne _ _ (by omega))

end Fork

structure Paged (p : Nat) (s : Kernel) : Prop where
  inv : RegionInv s
  pagetable : (s.proc p).pagetable ≠ 0

namespace Paged

variable {p : Nat}

theorem of_keeps {α : Type} {x : K α} (hx : Keeps Kernel.proc x) : Maintains (Paged p) x :=
  .of_keeps hx fun _ _ hproc h => ⟨h.inv.congr hproc, by rw [hproc]; exact h.pagetable⟩

theorem modify {f : Proc → Proc} (hlist : ∀ proc, (f proc).mmapList = proc.mmapList)
    (hstate : ∀ proc, (f proc).state = proc.state ∨ (f proc).state = .runnable)
    (hpagetable : ∀ proc, (f proc).pagetable = proc.pagetable) :
    Maintains (Paged p) (modifyProc p f) := modifyProc_maintains fun s ⟨hinv, hpage⟩ => by
  have hpage' : (f (s.proc p)).pagetable ≠ 0 := by rwa [hpagetable]
  refine ⟨hinv.update p ((hinv.table p).congr (hlist _)) (fun h => ?_) (fun h => (hpage' h).elim)
    fun _ => hpage', by simpa only [upd_self] using hpage'⟩
  rcases hstate (s.proc p) with hsame | hrunnable
  · exact (hinv.unused p (hsame ▸ h)).congr (hlist _)
  · exact absurd (hrunnable.symm.trans h) nofun

end Paged

theorem forkEnd_maintains (p np dst src pid : Nat) : Maintains (Paged np) (do
    copyTrapframe dst src
    storeWord (dst + tfA0) 0
    modifyProc np fun child => { child with parent := some p }
    modifyProc np fun child => { child with state := .runnable }
    pure (pid : Int)) :=
  .bind (Paged.of_keeps (copyTrapframe_keeps _ _)) fun _ =>
    .bind (Paged.of_keeps (storeWord_keeps _ _)) fun _ =>
    .bind (Paged.modify (fun _ => rfl) (fun _ => .inl rfl) fun _ => rfl) fun _ =>
    .bind (Paged.modify (fun _ => rfl) (fun _ => .inr rfl) fun _ => rfl) fun _ => .pure _

theorem fork_wp {s : Kernel} (hinv : RegionInv s) {p : Nat} (hp : (s.proc p).state ≠ .unused) :
    Wp (fork p) (fun _ => RegionInv) (fun _ => RegionInv) s := by
  unfold fork
  refine .bind ((allocproc_wp hinv).imp fun r s' ⟨hinv', hsome⟩ => ?_)
  cases r with
  | none => exact .pure hinv'
  | some np =>
      obtain ⟨hunused, hset, hpagetable⟩ := hsome np rfl
      have hne : p ≠ np := by
        rintro rfl
        exact hp hunused
      refine getProc_wp (getProc_wp (.bind ?_))
      refine (uvmcopyFrom_keeps _ _ _ _ s').mono (fun r s'' hproc => ?_) fun _ _ hproc =>
        hinv'.congr hproc
      have hset := hset.congr hproc
      refine .ite (fun _ => .bind ((freeproc_maintains np s'' hset.inv).imp fun _ _ h => .pure h))
        fun _ => .bind (modifyProc_wp ?_)
      -- the regions are copied from the state in which the child has its page table and its size
      have hset := SettingUp.update { s''.proc np with sz := (s'.proc p).sz } hset.inv hset.none rfl
        hset.used
      generalize hu : ({ s'' with proc := upd s''.proc np { s''.proc np with sz := (s'.proc p).sz } } :
        Kernel) = u at hset ⊢
      have hpage : (u.proc np).pagetable ≠ 0 := by
        rw [← hu]
        simpa only [upd_self, hproc] using hpagetable
      have hstart : Inherits u p np u :=
        ⟨fun _ _ => rfl, rfl, rfl, fun i hi => .inl (hset.none i hi)⟩
      have hsound : ∀ t, Inherits u p np t → RegionInv t := fun t ht =>
        ht.inv hset.inv hpage hset.used
      refine .bind (.forUp (fun _ => Inherits u p np) hstart (fun k hk t ht => ?_) fun t ht => ?_)
      · exact (forkRegion_maintains (mem_regionSlots k hk) hne t ht).mono (fun _ _ h => h)
          fun _ t' ht' => hsound t' ht'
      · have hpage' : (t.proc np).pagetable ≠ 0 := by rwa [ht.pagetable]
        exact (forkEnd_maintains _ _ _ _ _ t ⟨hsound t ht, hpage'⟩).mono (fun _ _ h => h.inv)
          fun _ _ h => h.inv

theorem exit_maintains (p : Nat) (status : Int) : Maintains RegionInv (exit p status) := by
  refine .get fun s _ => .when (fun _ => RegionInv.of_keeps (panic_keeps _)) fun _ => .bind ?_ fun _ =>
    modifyProc_maintains fun s hinv => hinv.update p ((hinv.table p).congr rfl) nofun
      (fun h => (hinv.pageless p h).congr rfl) nofun
  refine .get fun s _ => .forUp (fun pp => modifyProc_maintains fun t hinv => ?_) _ _
  refine hinv.updateOther pp ?_ ?_ ?_ <;> split <;> rfl

theorem wait_maintains (p addr : Nat) : Maintains RegionInv (wait p addr) := by
  refine .get fun s _ => ?_
  split
  · rename_i pp _
    have hreap : ∀ r : Int, Maintains RegionInv (if r < 0 then pure (some (-1)) else do
        freeproc pp
        pure (some ((s.proc pp).pid : Int))) := fun r =>
      .ite (fun _ => .pure _) fun _ => .bind (freeproc_maintains pp) fun _ => .pure _
    exact .branch (RegionInv.of_keeps (copyout_keeps _ _ _)) (.pure _) hreap
  · exact .ite (fun _ => .pure _) fun _ => .pure _

/-! ### `exec` -/

theorem procFreepagetable_maintains (pagetable sz p : Nat) :
    Maintains RegionInv (procFreepagetable pagetable sz p) := fun _ hinv =>
  (procFreepagetable_wp hinv pagetable sz p).imp fun _ _ h => h.1

theorem exec_maintains (p : Nat) (file : Option (List Nat)) (argv : List (List Nat)) :
    Maintains RegionInv (exec p file argv) := by
  have hkeep : ∀ {α : Type} {x : K α}, Keeps Kernel.proc x → Maintains RegionInv x :=
    RegionInv.of_keeps
  unfold exec
  cases file with
  | none => exact .pure _
  | some file =>
      refine .ite (fun _ => .pure _) fun _ => .ite (fun _ => .pure _) fun _ =>
        .bind (hkeep (procPagetable_keeps _)) fun pagetable => .ite (fun _ => .pure _)
        fun hpagetable => .bind (hkeep (execImage_keeps _ _ _)) fun phase => ?_
      cases phase with
      | bad sz => exact .bind (procFreepagetable_maintains _ _ _) fun _ => .pure _
      | next value =>
          exact getProc_maintains fun _ _ => .bind (hkeep (storeWord_keeps _ _)) fun _ =>
            .bind (modifyProc_maintains fun _ hinv => hinv.update p ((hinv.table p).congr rfl)
              (fun h => (hinv.unused p h).congr rfl) (fun h => (hpagetable h).elim)
              fun _ => hpagetable) fun _ =>
            .bind (hkeep (storeWord_keeps _ _)) fun _ => .bind (hkeep (storeWord_keeps _ _)) fun _ =>
            .bind (procFreepagetable_maintains _ _ _) fun _ => .pure _

/-! ### Faults -/

theorem setkilled_maintains (p : Nat) : Maintains RegionInv (setkilled p) :=
  modifyProc_maintains fun _ hinv => hinv.updateOther p rfl rfl rfl

theorem faultPage_maintains (kind : PageKind) (p scause addr b : Nat) :
    Maintains RegionInv (faultPage kind p scause addr b) := by
  have hkeep : ∀ {α : Type} {x : K α}, Keeps Kernel.proc x → Maintains RegionInv x :=
    RegionInv.of_keeps
  unfold faultPage
  refine getProc_maintains fun _ _ => .bind (hkeep (walk_kind_keeps _ _ _ _)) fun slot =>
    .bind (hkeep (loadWord_keeps _)) fun pte => .ite (fun _ => .ite (fun _ => .ite (fun _ => hkeep ?_)
      fun _ => setkilled_maintains p) fun _ => .pure _) fun _ => .ite (fun _ => hkeep ?_) fun _ =>
      hkeep ?_
  · exact .bind (alloc_kind_keeps _) fun _ => .bind (copyPages_keeps _ _ _) fun _ =>
      .bind (free_kind_keeps _ _) fun _ => storeWord_keeps _ _
  · exact .bind (alloc_kind_keeps _) fun _ => .bind (storeWord_keeps _ _) fun _ =>
      .forUp (fun _ => connect_keeps _ _ _ _ _ _) _ _
  · exact .bind (alloc_kind_keeps _) fun _ => storeWord_keeps _ _

theorem pagefault_maintains (p scause stval : Nat) :
    Maintains RegionInv (pagefault p scause stval) := by
  refine .bind (.modify fun _ => RegionInv.congr rfl) fun _ => getProc_maintains fun s _ => ?_
  split
  · exact setkilled_maintains p
  · exact faultPage_maintains _ _ _ _ _

theorem tryLoad_maintains (p va : Nat) : Maintains RegionInv (tryLoad p va) := by
  refine .get fun s _ => ?_
  split
  · exact .pure _
  · exact .bind (pagefault_maintains _ _ _) fun _ => .pure _

theorem tryStore_maintains (p va x : Nat) : Maintains RegionInv (tryStore p va x) := fun s hinv => by
  refine .get ?_
  split
  · exact .bind (.of_ok rfl (.pure (RegionInv.congr (s := s) rfl hinv)))
  · exact .bind ((pagefault_maintains _ _ _ s hinv).imp fun _ _ h => .pure h)

/-! ### `munmap` and `mmap` -/

theorem sysMunmap_maintains (p addr : Nat) : Maintains RegionInv (sysMunmap p addr) := by
  unfold sysMunmap
  refine .ite (fun _ => .pure _) fun _ => getProc_maintains fun s _ => ?_
  split
  · exact .pure _
  · rename_i i hfind
    have hi : i ∈ regionSlots := List.mem_of_find?_eq_some hfind
    exact .branch (RegionInv.of_keeps (uvmunmapHuge_keeps _ _ _ _))
      (RegionInv.of_keeps (munmapPages_keeps _ _ _)) fun _ =>
      .bind (modifyProc_maintains fun _ hinv => hinv.clearRegion p hi) fun _ => .pure _

section Mmap

variable {addr : Nat} {length prot flags : Int}

theorem mmapArgsOk_iff : mmapArgsOk addr length prot flags = true ↔
    phystop ≤ addr ∧ addr ≤ maxva - 0x10000000 ∧ addr % pgsize = 0 ∧
    0 < length ∧ length ≤ 32 * hugepgsize ∧ (prot = protRead ∨ prot = protWrite) ∧
    (flags = mapPrivate ∨ flags = mapShared ∨ flags = mapPrivate + mapHugepage ∨
      flags = mapShared + mapHugepage) := by
  simp only [mmapArgsOk, Bool.and_eq_true, Bool.or_eq_true, decide_eq_true_eq, and_assoc, or_assoc]

theorem pgroundup_small {n : Nat} (hpos : 0 < n) (hle : n ≤ 32 * hugepgsize) :
    0 < pgroundup n ∧ pgroundup n ≤ 32 * hugepgsize ∧ pgroundup n % pgsize = 0 := by
  simp only [pgroundup, uint64, pgsize, hugepgsize] at hle ⊢
  omega

theorem hugepgroundup_small {n : Nat} (hpos : 0 < n) (hle : n ≤ 32 * hugepgsize) :
    0 < hugepgroundup n ∧ hugepgroundup n ≤ 32 * hugepgsize ∧ hugepgroundup n % hugepgsize = 0 ∧
      hugepgroundup n % pgsize = 0 := by
  simp only [hugepgroundup, uint64, pgsize, hugepgsize] at hle ⊢
  omega

theorem mmapRegion_ok (hargs : mmapArgsOk addr length prot flags = true) :
    Region.Ok ⟨addr, mmapLength length flags, prot.toNat ||| flags.toNat⟩ := by
  obtain ⟨hlow, hhigh, haligned, hpos, hle, hprot, hflags⟩ := mmapArgsOk_iff.mp hargs
  have hpos' : 0 < length.toNat := by omega
  have hle' : length.toNat ≤ 32 * hugepgsize := by omega
  have hend : ∀ len, len ≤ 32 * hugepgsize → addr + len ≤ trapframe := by
    intro len hlen
    simp only [maxva, hugepgsize, trapframe, trampoline, pgsize] at hhigh hlen ⊢
    omega
  by_cases hhuge : flags > mapShared
  · obtain ⟨hp, hl, hm, hm'⟩ := hugepgroundup_small hpos' hle'
    rw [mmapLength, if_pos hhuge]
    exact ⟨haligned, hp, hl, hm', fun _ => hm, hlow, hend _ hl⟩
  · obtain ⟨hp, hl, hm⟩ := pgroundup_small hpos' hle'
    rw [mmapLength, if_neg hhuge]
    have hflags : flags = mapPrivate ∨ flags = mapShared := by
      rcases hflags with h | h | h | h
      · exact .inl h
      · exact .inr h
      · exact absurd (by rw [h]; decide) hhuge
      · exact absurd (by rw [h]; decide) hhuge
    have hbit : (prot.toNat ||| flags.toNat) &&& mapHugepage = 0 := by
      rcases hprot with rfl | rfl <;> rcases hflags with rfl | rfl <;> decide
    exact ⟨haligned, hp, hl, hm, fun h => absurd hbit h, hlow, hend _ hl⟩

theorem overlaps_iff {proc : Proc} (htable : RegionTable proc) {len w : Nat}
    (haddr : phystop ≤ addr) (hlen : 0 < len) : overlaps proc addr len = true ↔
    ∃ i ∈ regionSlots, ¬ (proc.region i).Disjoint ⟨addr, len, w⟩ := by
  have hslot : ∀ i ∈ regionSlots, (proc.mmapList i ≤ addr ∧
      addr < proc.mmapList i + proc.mmapList (i + 1) ∨
      addr ≤ proc.mmapList i ∧ proc.mmapList i < addr + len) ↔
      ¬ (proc.region i).Disjoint ⟨addr, len, w⟩ := fun i hi =>
    Region.not_disjoint_iff _ ⟨addr, len, w⟩ hlen (Nat.lt_of_lt_of_le (by decide) haddr)
      ((htable.slot i hi).imp id Region.Ok.length_pos)
  rw [overlaps, List.any_eq_true]
  constructor
  · rintro ⟨i, hi, hmeet⟩
    exact ⟨i, hi, (hslot i hi).mp (by simpa using hmeet)⟩
  · rintro ⟨i, hi, hmeet⟩
    exact ⟨i, hi, by simpa using (hslot i hi).mpr hmeet⟩

theorem sysMmap_wp {s : Kernel} (hinv : RegionInv s) {p : Nat}
    (hrunnable : (s.proc p).state = .runnable) :
    Wp (sysMmap p addr length prot flags) (fun _ => RegionInv) (fun _ => RegionInv) s := by
  unfold sysMmap
  refine .ite (fun _ => .pure hinv) fun hargs => getProc_wp (.ite (fun _ => .pure hinv)
    fun hmeet => ?_)
  have hok := mmapRegion_ok (by simpa using hargs)
  split
  · exact .pure hinv
  · rename_i i hfind
    have hi : i ∈ regionSlots := List.mem_of_find?_eq_some hfind
    refine .bind (modifyProc_wp (.pure ?_))
    have hdisj : ∀ j ∈ regionSlots, j ≠ i → ((s.proc p).region j).Disjoint
        ⟨addr, mmapLength length flags, prot.toNat ||| flags.toNat⟩ := by
      intro j hj _
      by_contra hnot
      exact hmeet ((overlaps_iff (hinv.table p) hok.low hok.length_pos).mpr ⟨j, hj, hnot⟩)
    have htable := (hinv.table p).setRegion hi (.inr hok) hdisj
    exact hinv.update p (htable.congr rfl) (fun h => absurd (hrunnable.symm.trans h) nofun)
      (fun h => (hinv.paged p hrunnable h).elim) fun _ => hinv.paged p hrunnable

/-- A request with good arguments fails exactly when it meets a recorded region. -/
theorem sysMmap_eq_zero_iff {s : Kernel} (hinv : RegionInv s) (p : Nat)
    (hargs : mmapArgsOk addr length prot flags = true) :
    (∃ t, sysMmap p addr length prot flags s = .ok 0 t) ↔ ∃ i ∈ regionSlots,
      ¬ ((s.proc p).region i).Disjoint
        ⟨addr, mmapLength length flags, prot.toNat ||| flags.toNat⟩ := by
  have hok := mmapRegion_ok hargs
  have haddr : addr ≠ 0 := by
    have := hok.low
    simp only [phystop] at this
    omega
  rw [← overlaps_iff (hinv.table p) hok.low hok.length_pos]
  by_cases hmeet : overlaps (s.proc p) addr (mmapLength length flags) = true
  · refine iff_of_true ⟨s, ?_⟩ hmeet
    unfold sysMmap
    simp only [hargs, Bool.not_true, Bool.false_eq_true, if_false, run_getProc_bind, if_pos hmeet]
    rfl
  · refine iff_of_false ?_ hmeet
    rintro ⟨t, hrun⟩
    unfold sysMmap at hrun
    simp only [hargs, Bool.not_true, Bool.false_eq_true, if_false, run_getProc_bind,
      if_neg hmeet] at hrun
    cases hslot : emptySlot (s.proc p) with
    | none =>
        simp only [hslot] at hrun
        cases hrun
        exact haddr rfl
    | some i =>
        simp only [hslot] at hrun
        cases hrun
        exact haddr rfl

end Mmap

/-! ### Runs -/

theorem step_maintains (p : Nat) (op : Op) : Maintains RegionInv (step p op) := fun s hinv => by
  refine .get (.ite (fun hrun => ?_) fun _ => .pure hinv)
  have hrunnable : (s.proc p).state = .runnable := by
    simp only [canRun, Bool.and_eq_true, decide_eq_true_eq] at hrun
    exact hrun.1.2
  have hdrop : ∀ {α : Type} {x : K α}, Wp x (fun _ => RegionInv) (fun _ => RegionInv) s →
      Wp (do let _ ← x) (fun _ => RegionInv) (fun _ => RegionInv) s := fun hx =>
    .bind (hx.imp fun _ _ h => .pure h)
  cases op with
  | mmap => exact hdrop (sysMmap_wp hinv hrunnable)
  | munmap => exact hdrop (sysMunmap_maintains _ _ s hinv)
  | load => exact hdrop (tryLoad_maintains _ _ s hinv)
  | store => exact hdrop (tryStore_maintains _ _ _ s hinv)
  | fork => exact hdrop (fork_wp hinv (by rw [hrunnable]; exact nofun))
  | exit => exact exit_maintains _ _ s hinv
  | wait => exact hdrop (wait_maintains _ _ s hinv)
  | exec => exact hdrop (exec_maintains _ _ _ s hinv)

theorem run_maintains (events : List (Nat × Op)) : Maintains RegionInv (run events) := by
  induction events with
  | nil => exact .pure ()
  | cons event events ih => exact .bind (step_maintains event.1 event.2) fun _ => ih

theorem RegionInv.powerOn (endAddr : Nat) (m : Mem) : RegionInv (powerOn endAddr m) := by
  have hnone : ∀ p, ((Xv6Mmap.powerOn endAddr m).proc p).NoRegions := fun _ _ _ => rfl
  exact ⟨fun p => .empties (hnone p), fun p _ => hnone p, fun p _ => hnone p, nofun⟩

theorem userinit_maintains : Maintains RegionInv userinit := fun s hinv => by
  refine .bind ((allocproc_wp hinv).imp fun r t ⟨ht, hsome⟩ => ?_)
  cases r with
  | none => exact .of_error rfl ht
  | some p =>
      obtain ⟨-, -, hpage⟩ := hsome p rfl
      have hmain : Maintains (Paged p) (do
          modify fun s => { s with initproc := p }
          let proc ← getProc p
          uvmfirst proc.pagetable initcode
          modifyProc p fun proc => { proc with sz := pgsize }
          storeWord (proc.trapframe + tfEpc) 0
          storeWord (proc.trapframe + tfSp) pgsize
          modifyProc p fun proc => { proc with state := .runnable }) :=
        .bind (Paged.of_keeps (.modify fun _ => rfl)) fun _ =>
          .bind (Paged.of_keeps (getProc_keeps _)) fun _ =>
          .bind (Paged.of_keeps (uvmfirst_keeps _ _)) fun _ =>
          .bind (Paged.modify (fun _ => rfl) (fun _ => .inl rfl) fun _ => rfl) fun _ =>
          .bind (Paged.of_keeps (storeWord_keeps _ _)) fun _ =>
          .bind (Paged.of_keeps (storeWord_keeps _ _)) fun _ =>
          Paged.modify (fun _ => rfl) (fun _ => .inr rfl) fun _ => rfl
      exact (hmain t ⟨ht, hpage⟩).mono (fun _ _ h => h.inv) fun _ _ h => h.inv

theorem boot_maintains (n : Nat) : Maintains RegionInv (boot n) :=
  .bind (RegionInv.of_keeps kinit_keeps) fun _ => .bind (RegionInv.of_keeps (kallocs_keeps n))
    fun _ => userinit_maintains

/-- **The region table.** In every state that system calls and user accesses reach after boot,
stopped machines included, the recorded regions of a process are disjoint and well formed, an UNUSED
slot records none, and `sys_mmap` refuses a request with good arguments exactly when the interval it
asks for, rounded up, meets a recorded one. -/
theorem region_table (endAddr : Nat) (m : Mem) (n : Nat) (events : List (Nat × Op)) :
    let s := final ((do boot n; run events) (powerOn endAddr m))
    (∀ p, RegionTable (s.proc p)) ∧
    (∀ p, (s.proc p).state = .unused → (s.proc p).NoRegions) ∧
    ∀ p addr length prot flags, mmapArgsOk addr length prot flags = true →
      ((∃ t, sysMmap p addr length prot flags s = .ok 0 t) ↔ ∃ i ∈ regionSlots,
        ¬ ((s.proc p).region i).Disjoint
          ⟨addr, mmapLength length flags, prot.toNat ||| flags.toNat⟩) := by
  intro s
  have hmain : Maintains RegionInv (do boot n; run events) :=
    .bind (boot_maintains n) fun _ => run_maintains events
  have hinv : RegionInv s := (hmain _ (.powerOn endAddr m)).final
  exact ⟨hinv.table, hinv.unused, fun p _ _ _ _ hargs => sysMmap_eq_zero_iff hinv p hargs⟩

end Xv6Mmap
