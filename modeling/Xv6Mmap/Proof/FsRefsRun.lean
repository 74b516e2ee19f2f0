import Mathlib.Algebra.Ring.Int.Defs
import Xv6Mmap.Proof.FsRefsFile

/-!
# References are exact in every run

A system call starts and ends with no reference of its own, so that between two calls every count is the
number of those who hold.
-/

namespace Xv6Mmap.Fs

open Sequential

variable {held : Ref → Int}

/-! ### Opening -/

theorem Holding.openFile {s : State} {f ip : Nat} (hold : Holding (held + one (some (.inode ip))) s)
    (hf : f < nfile) (hip : ip < ninode) (href : (s.ftable f).ref = 1)
    (htype : (s.ftable f).type = .none) (copy : Dinode) (omode : Nat) :
    Holding held { s with ftable := upd s.ftable f (openFile (s.ftable f) ip copy omode) } := by
  have hfile : (Fs.openFile (s.ftable f) ip copy omode).ref = 1 ∧
      (Fs.openFile (s.ftable f) ip copy omode).pointsTo = some (.inode ip) := by
    unfold Fs.openFile File.pointsTo
    split <;> simp [href]
  obtain ⟨href', hpoints⟩ := hfile
  refine hold.setFile hf _ held (fun h => by simp [href'] at h) (fun r hr => ?_) fun r => ?_
  · rw [hpoints, Option.some.injEq] at hr
    exact hr ▸ hip
  · rw [hpoints, File.pointsTo_eq_none (.inr htype), href, href']
    simp

theorem sysOpen_spec {p : Nat} (hp : p < nproc) (hends : NoEnds held) (path : Option (List UInt8))
    (omode : Nat) : Spec (Holding held) (sysOpen p path omode) fun _ => Holding held := by
  have hdrop : ∀ ip, Spec (Holding (held + one (some (.inode ip))))
      (do iunlockput ip; pure (-1 : Int)) fun _ => Holding held := fun ip =>
    .bind (iunlockput_drop _) fun _ => .pure fun _ h => h
  unfold sysOpen
  split
  · exact .pure fun _ h => h
  · refine .bind (openInode_spec _ _ _) fun r => ?_
    cases r with
    | none => exact .pure fun _ h => h
    | some ip =>
      refine .lift fun hip => .bind (Holding.keeps (getInode_keeps _)) fun _ =>
        .ite (fun _ => hdrop _) fun _ s hold => .bind ((filealloc_wp hold).imp fun r t hr => ?_)
      cases r with
      | none => exact hdrop _ _ (hr ▸ hold)
      | some f =>
        obtain ⟨hf, -, htype, ht, hold⟩ := hr
        refine .bind ((fdalloc_wp hp hf hold).imp fun r u hr => ?_)
        cases r with
        | none =>
            subst hr
            exact .bind ((fileclose_spec hf (hends.inode ip) _ hold).imp fun _ _ h => hdrop _ _ h)
        | some fd =>
          obtain ⟨-, -, hu, hold⟩ := hr
          have hopen := hold.openFile hf hip (by simp [hu, ht]) (by simpa [hu, ht] using htype)
          refine .bind (.of_ok rfl (Triple.when (P := Holding held) (fun _ => ?_) (fun _ => ?_) _
            (hopen _ _)))
          · exact Holding.keeps (itrunc_keeps (refs_untouched _))
          · exact .bind (Holding.keeps (iunlock_keeps _)) fun _ => .pure fun _ h => h

/-! ### Current directories and processes -/

theorem Holding.setCwd {s : State} (hold : Holding held s) {p : Nat} (hp : p < nproc)
    {old : Option Nat} (hcwd : (s.proc p).cwd = old) (new : Option Nat)
    (hnew : ∀ ip, new = some ip → ip < ninode) :
    Holding (held - one (new.map .inode) + one (old.map .inode))
      { s with proc := upd s.proc p { s.proc p with cwd := new } } :=
  ⟨hold.balanced.setCwd hp hnew fun r => by rw [hcwd]; rfl,
    .congr (s := s) rfl rfl rfl hold.pipes⟩

def Idle (s : State) : Prop :=
  ∀ p, (s.proc p).cwd = none → ∀ fd, (s.proc p).ofile fd = none

theorem Idle.of_others {s t : State} {p : Nat} (hidle : Idle s) (hcwd : (s.proc p).cwd.isSome)
    (hothers : t.others p = s.others p) : Idle t := by
  simp only [State.others, Prod.mk.injEq] at hothers
  obtain ⟨hprocs, hsome⟩ := hothers
  intro q hq
  by_cases hqp : q = p
  · rw [← hsome, ← hqp, hq] at hcwd
    cases hcwd
  · have hproc := congrFun hprocs q
    simp only [if_neg hqp, Option.some.injEq] at hproc
    rw [hproc] at hq ⊢
    exact hidle q hq

structure Settled (s : State) : Prop where
  exact_refs : Holding 0 s
  idle : Idle s

theorem noEnds_zero : NoEnds 0 := fun _ _ => rfl

theorem Settled.of_spec {α : Type} {x : F α} {p : Nat} {s : State} (hs : Settled s)
    (hcwd : (s.proc p).cwd.isSome)
    (hx : Wp x (fun _ => Holding 0) (fun _ _ => True) s) (hothers : Keeps (State.others p) x) :
    Wp x (fun _ => Settled) (fun _ _ => True) s :=
  (hx.and (hothers s)).mono (fun _ _ h => ⟨h.1, hs.idle.of_others hcwd h.2⟩) fun _ _ _ => trivial

theorem sysChdir_settled {s : State} (hs : Settled s) {p : Nat} (path : Option (List UInt8)) :
    Wp (sysChdir p path) (fun _ => Settled) (fun _ _ => True) s := by
  have hkeep : ∀ {α : Type} {x : F α} {held : Ref → Int} {t : State}, Keeps State.proc x →
      t.proc = s.proc → Wp x (fun _ => Holding held) (fun _ _ => True) t →
      Wp x (fun _ u => Holding held u ∧ u.proc = s.proc) (fun _ _ => True) t :=
    fun hx ht h => (h.and (hx _)).mono (fun _ _ h => ⟨h.1, h.2.trans ht⟩) fun _ _ _ => trivial
  have hsame : ∀ {t : State}, Holding 0 t → t.proc = s.proc → Settled t := fun hold ht =>
    ⟨hold, fun q => by rw [ht]; exact hs.idle q⟩
  unfold sysChdir
  split
  · exact .pure hs
  · refine .bind (((namei_spec p _ s hs.exact_refs).and (namei_proc p _ s)).mono (fun r t h => ?_)
      fun _ _ _ => trivial)
    obtain ⟨hr, ht⟩ := h
    cases r with
    | none => exact .pure (hsame hr ht)
    | some ip =>
      obtain ⟨hip, hold⟩ := hr
      refine .bind ((hkeep (keeps_proc (ilock_keeps ip)) ht (Holding.keeps (ilock_keeps _) _ hold)).imp
        fun _ t ⟨hold, ht⟩ => .bind (.of_ok rfl (.ite (fun _ => ?_) fun _ => ?_)))
      · exact .bind ((hkeep (iunlockput_proc ip) ht (iunlockput_drop _ _ hold)).imp
          fun _ t ⟨hold, ht⟩ => .pure (hsame hold ht))
      · refine .bind ((hkeep (keeps_proc (iunlock_keeps ip)) ht
          (Holding.keeps (iunlock_keeps _) _ hold)).imp fun _ t ⟨hold, ht⟩ => .get ?_)
        cases hcwd : (t.proc p).cwd with
        | none => exact .of_error rfl trivial
        | some cwd =>
          have hp := (hold.balanced.cwd p cwd hcwd).1
          rw [ht] at hcwd
          refine .bind ((hkeep (iput_proc cwd) ht (iput_spec _ _ hold)).imp fun _ u ⟨hold, hu⟩ =>
            .bind (.of_ok rfl (.pure ⟨?_, fun q hq => ?_⟩)))
          · have hcwd : (u.proc p).cwd = some cwd := by rw [hu, hcwd]
            have hdone := hold.setCwd hp hcwd (some ip) (by simpa using hip)
            have hzero : (0 : Ref → Int) + one (some (.inode ip)) - one (some (.inode cwd)) -
                one (some (.inode ip)) + one (some (.inode cwd)) = 0 := by
              funext r
              simp
            exact hzero ▸ hdone
          · by_cases hqp : q = p
            · simp [hqp] at hq
            · simp only [upd_of_ne _ _ hqp, hu] at hq ⊢
              exact hs.idle q hq

theorem sysExec_spec (p : Nat) (path : Option (List UInt8)) (reads : List (Nat × Nat)) :
    Spec (Holding held) (sysExec p path reads) fun _ => Holding held := by
  have hreads : ∀ ip, Keeps State.refs (reads.forM fun range => do
      let _ ← readi ip (fun _ => true) range.1 range.2) := fun ip => by
    induction reads with
    | nil => exact .pure _
    | cons range reads ih => exact .bind (.bind (readi_keeps (refs_untouched _) _ _ _) fun _ => .pure _) fun _ => ih
  unfold sysExec
  split
  · exact .pure fun _ h => h
  · refine .bind (namei_spec _ _) fun r => ?_
    cases r with
    | none => exact .pure fun _ h => h
    | some ip =>
        exact .lift fun _ => .bind (Holding.keeps (ilock_keeps _)) fun _ =>
          .bind (Holding.keeps (hreads _)) fun _ => iunlockput_drop _

structure Copying (s₀ : State) (np n : Nat) (s : State) : Prop where
  exact_refs : Holding 0 s
  others : ∀ q ≠ np, s.proc q = s₀.proc q
  unused : ∀ fd, n ≤ fd → (s.proc np).ofile fd = none
  noCwd : (s.proc np).cwd = none

theorem Copying.next {s₀ s : State} {np n f : Nat} (hcopy : Copying s₀ np n s) (hnp : np < nproc)
    (hn : n < nofile) (hf : f < nfile) :
    Wp (do filedup f; setFd np n (some f)) (fun _ => Copying s₀ np (n + 1)) (fun _ _ => True) s := by
  refine .bind (((filedup_spec hf s hcopy.exact_refs).and (filedup_proc f s)).mono
    (fun _ t ⟨hold, ht⟩ => .of_ok rfl ?_) fun _ _ _ => trivial)
  have hunused : (t.proc np).ofile n = none := by
    rw [ht]
    exact hcopy.unused n (le_refl n)
  refine ⟨⟨hold.balanced.setOfile hnp hn (by simpa using hf) fun r => ?_,
    .congr (s := t) rfl rfl rfl hold.pipes⟩, fun q hq => ?_, fun fd hfd => ?_, ?_⟩
  · rw [hunused]
    simp
  · simp only [upd_of_ne _ _ hq, ht]
    exact hcopy.others q hq
  · have hfd' : fd ≠ n := by omega
    simp only [upd_self, upd_of_ne _ _ hfd', ht]
    exact hcopy.unused fd (by omega)
  · simp only [upd_self, ht]
    exact hcopy.noCwd

theorem Copying.skip {s₀ s : State} {np n : Nat} (hcopy : Copying s₀ np n s) :
    Copying s₀ np (n + 1) s :=
  { hcopy with unused := fun fd hfd => hcopy.unused fd (by omega) }

theorem fork_settled {s : State} (hs : Settled s) {p np : Nat} (hcwd : (s.proc p).cwd.isSome)
    (hnp : np < nproc) (hfree : (s.proc np).cwd = none) :
    Wp (fork p np) (fun _ => Settled) (fun _ _ => True) s := by
  have hne : p ≠ np := fun h => by rw [h, hfree] at hcwd; cases hcwd
  have hstart : Copying s np 0 s :=
    ⟨hs.exact_refs, fun _ _ => rfl, fun fd _ => hs.idle np hfree fd, hfree⟩
  refine .bind (.forUp (fun n => Copying s np n) hstart (fun fd hfd t hcopy => .get ?_)
    fun t hcopy => .get ?_)
  · rw [Nat.zero_add, Nat.mul_one]
    cases hslot : (t.proc p).ofile fd with
    | none => exact .pure hcopy.skip
    | some f => exact hcopy.next hnp hfd (hcopy.exact_refs.balanced.slot p fd f hslot).2.2
  · cases hcwd : (t.proc p).cwd with
    | none => exact .of_error rfl trivial
    | some ip =>
      have hip := (hcopy.exact_refs.balanced.cwd p ip hcwd).2
      refine .bind (((idup_spec ip t hcopy.exact_refs).and (idup_proc ip t)).mono
        (fun ip' u ⟨⟨hip', hold⟩, hu⟩ => .of_ok rfl ⟨?_, fun q hq => ?_⟩) fun _ _ _ => trivial)
      · subst hip'
        have hnone : (u.proc np).cwd = none := by rw [hu, hcopy.noCwd]
        have hdone := hold.setCwd hnp hnone (some ip') (by simpa using hip)
        have hzero : (0 : Ref → Int) + one (some (.inode ip')) -
            one ((some ip').map .inode) + one ((none : Option Nat).map .inode) = 0 := by
          funext r
          simp
        exact hzero ▸ hdone
      · by_cases hqnp : q = np
        · simp [hqnp] at hq
        · simp only [upd_of_ne _ _ hqnp, hu, hcopy.others q hqnp] at hq ⊢
          exact hs.idle q hq

structure Closing (s₀ : State) (p n : Nat) (s : State) : Prop where
  exact_refs : Holding 0 s
  others : ∀ q ≠ p, s.proc q = s₀.proc q
  closed : ∀ fd < n, (s.proc p).ofile fd = none

/-- One descriptor is closed. The file is closed while the descriptor still names it. -/
theorem Closing.next {s₀ s : State} {p n f : Nat} (hclose : Closing s₀ p n s)
    (hslot : (s.proc p).ofile n = some f) :
    Wp (do fileclose f; setFd p n none) (fun _ => Closing s₀ p (n + 1)) (fun _ _ => True) s := by
  obtain ⟨hp, hn, hf⟩ := hclose.exact_refs.balanced.slot p n f hslot
  have hends : NoEnds (0 - one (some (.file f))) := fun pi w => by simp [one]
  have hlent : Holding (0 - one (some (.file f)) + one (some (.file f))) s := by
    rw [sub_add_cancel]
    exact hclose.exact_refs
  refine .bind (((fileclose_spec hf hends s hlent).and (fileclose_proc f s)).mono
    (fun _ t ht => .of_ok rfl ⟨?_, fun q hq => ?_, fun fd hfd => ?_⟩) fun _ _ _ => trivial)
  · have hdone := ht.1.clearFd (p := p) (by rw [ht.2]; exact hslot)
    rwa [sub_add_cancel] at hdone
  · simp only [upd_of_ne _ _ hq, ht.2]
    exact hclose.others q hq
  · by_cases hfdn : fd = n
    · simp [hfdn]
    · simp only [upd_self, upd_of_ne _ _ hfdn, ht.2]
      exact hclose.closed fd (by omega)

theorem exit_settled {s : State} (hs : Settled s) (p : Nat) :
    Wp (exit p) (fun _ => Settled) (fun _ _ => True) s := by
  have hstart : Closing s p 0 s := ⟨hs.exact_refs, fun _ _ => rfl, fun fd hfd => by omega⟩
  unfold exit
  refine .ite (fun _ => .bind (.of_error rfl trivial)) fun _ => .bind (.forUp
    (fun n => Closing s p n) hstart (fun fd hfd t hclose => .get ?_) fun t hclose => .get ?_)
  · rw [Nat.zero_add, Nat.mul_one]
    cases hslot : (t.proc p).ofile fd with
    | none =>
        refine .pure { hclose with closed := fun fd' hfd' => ?_ }
        rcases Nat.lt_succ_iff_lt_or_eq.mp hfd' with h | h
        · exact hclose.closed fd' h
        · rw [h, hslot]
    | some f => exact hclose.next hslot
  · cases hcwd : (t.proc p).cwd with
    | none => exact .of_error rfl trivial
    | some ip =>
      obtain ⟨hp, -⟩ := hclose.exact_refs.balanced.cwd p ip hcwd
      refine .bind (((iput_spec ip t hclose.exact_refs).and (iput_proc ip t)).mono
        (fun _ u ⟨hold, hu⟩ => .of_ok rfl ⟨?_, fun q hq fd => ?_⟩) fun _ _ _ => trivial)
      · have hcwd : (u.proc p).cwd = some ip := by rw [hu, hcwd]
        have hdone := hold.setCwd hp hcwd none (by simp)
        have hzero : (0 : Ref → Int) - one (some (.inode ip)) -
            one ((none : Option Nat).map .inode) + one ((some ip).map .inode) = 0 := by
          funext r
          simp
        exact hzero ▸ hdone
      · by_cases hqp : q = p
        · simp only [hqp, upd_self, hu]
          by_contra hopen
          obtain ⟨f, hf⟩ := Option.ne_none_iff_exists'.mp hopen
          have hfd := (hclose.exact_refs.balanced.slot p fd f hf).2.1
          exact hopen (hclose.closed fd hfd)
        · simp only [upd_of_ne _ _ hqp, hu, hclose.others q hqp] at hq ⊢
          exact hs.idle q hq fd

/-! ### Runs -/

theorem canRun_caller {s : State} {p : Nat} {call : Call} (hcan : canRun s p call = true) :
    p < nproc ∧ (s.proc p).cwd.isSome := by
  unfold canRun at hcan
  split at hcan <;> simp only [Bool.and_eq_true, decide_eq_true_eq] at hcan <;> simp [hcan]

theorem step_settled {s : State} (hs : Settled s) (p : Nat) (call : Call) :
    Wp (step p call) (fun _ => Settled) (fun _ _ => True) s := by
  refine .get (.ite (fun hcan => ?_) fun _ => .pure hs)
  obtain ⟨hp, hcwd⟩ := canRun_caller hcan
  have hrefs := hs.exact_refs
  have hdone : ∀ {α : Type} {x : F α}, Wp x (fun _ => Settled) (fun _ _ => True) s →
      Wp (do let _ ← x) (fun _ => Settled) (fun _ _ => True) s := fun hx =>
    .bind (hx.imp fun _ _ h => .pure h)
  cases call with
  | «open» path omode =>
      exact hdone (hs.of_spec hcwd (sysOpen_spec hp noEnds_zero _ _ s hrefs) (sysOpen_others _ _ _))
  | dup fd => exact hdone (hs.of_spec hcwd (sysDup_spec _ _ s hrefs) (sysDup_others _ _))
  | pipe page copied =>
      refine hdone (hs.of_spec hcwd (sysPipe_wp hp noEnds_zero hrefs _ _ fun pi hpi => ?_)
        (sysPipe_others _ _ _))
      subst hpi
      simp only [canRun, Bool.and_eq_true, Option.isNone_iff_eq_none] at hcan
      exact hcan.2
  | close fd => exact hdone (hs.of_spec hcwd (sysClose_spec _ _ noEnds_zero s hrefs) (sysClose_others _ _))
  | read fd dst n => exact hdone (hs.of_spec hcwd (sysRead_spec _ _ _ _ s hrefs) (sysRead_others _ _ _ _))
  | write fd src n =>
      exact hdone (hs.of_spec hcwd (sysWrite_spec _ _ _ _ s hrefs) (sysWrite_others _ _ _ _))
  | fstat fd => exact hs.of_spec hcwd (sysFstat_spec _ _ s hrefs) (sysFstat_others _ _)
  | chdir path => exact hdone (sysChdir_settled hs path)
  | mkdir path =>
      exact hdone (hs.of_spec hcwd (sysMkdir_spec _ _ s hrefs)
        (keeps_others p (createDrop_proc _ _ _ _ _)))
  | mknod path major minor =>
      exact hdone (hs.of_spec hcwd (sysMknod_spec _ _ _ _ s hrefs)
        (keeps_others p (createDrop_proc _ _ _ _ _)))
  | link old new =>
      exact hdone (hs.of_spec hcwd (sysLink_spec _ _ _ s hrefs) (keeps_others p (sysLink_proc _ _ _)))
  | unlink path =>
      exact hdone (hs.of_spec hcwd (sysUnlink_spec _ _ s hrefs) (keeps_others p (sysUnlink_proc _ _)))
  | exec path reads => exact hs.of_spec hcwd (sysExec_spec _ _ _ s hrefs) (sysExec_others _ _ _)
  | fork np =>
      simp only [canRun, Bool.and_eq_true, decide_eq_true_eq, Option.isNone_iff_eq_none] at hcan
      exact fork_settled hs hcwd hcan.1.2 hcan.2
  | exit => exact exit_settled hs p

theorem run_settled {s : State} (hs : Settled s) (calls : List (Nat × Call)) :
    Wp (run calls) (fun _ => Settled) (fun _ _ => True) s := by
  induction calls generalizing s with
  | nil => exact .pure hs
  | cons call calls ih => exact .bind ((step_settled hs call.1 call.2).imp fun _ _ ht => ih ht)

theorem boot_pointers (image : Image) (ip : Nat) :
    image.boot.pointers (.inode ip) = if ip = 0 then 1 else 0 := by
  have hcwds : ((Finset.range nproc).filter fun p =>
      (image.boot.proc p).cwd.map Ref.inode = some (.inode ip)) =
      if ip = 0 then {initproc} else ∅ := by
    have hinit : initproc < nproc := by decide
    ext p
    by_cases hp : p = initproc <;> by_cases hip : ip = 0 <;>
      simp [Image.boot, hp, hip, hinit, eq_comm]
  rw [State.pointers, hcwds]
  split <;> simp [Image.boot, File.pointsTo]

theorem boot_settled (image : Image) : Settled image.boot where
  exact_refs :=
    { balanced :=
        { count := fun r _ => by
            cases r with
            | file f => simp [State.count, State.pointers, Image.boot, File.pointsTo]
            | inode ip =>
                rw [boot_pointers]
                exact (Int.add_zero _).symm
            | pipeEnd pi w => simp [State.count, State.pointers, Image.boot, File.pointsTo]
          slot := fun p fd f h => by simp [Image.boot] at h
          cwd := fun p ip h => by
            simp only [Image.boot] at h
            split at h
            · rename_i hp
              cases h
              subst hp
              decide
            · cases h
          points := fun f r _ h => by simp [Image.boot, File.pointsTo] at h
          free := fun f _ _ => rfl }
      pipes := by constructor <;> simp [Image.boot] }
  idle := fun p _ fd => rfl

/-! ### What the counts are -/

theorem File.pointsTo_inode {file : File} {ip : Nat} : file.pointsTo = some (.inode ip) ↔
    0 < file.ref ∧ (file.type = .inode ∨ file.type = .device) ∧ file.ip = ip := by
  unfold File.pointsTo
  split <;> cases file.type <;> simp [*]

theorem File.pointsTo_pipeEnd {file : File} {pi : Nat} {w : Bool} :
    file.pointsTo = some (.pipeEnd pi w) ↔
      0 < file.ref ∧ file.type = .pipe ∧ file.pipe = pi ∧ file.writable = w := by
  unfold File.pointsTo
  split <;> cases file.type <;> simp [*]

theorem File.pointsTo_ne_file {file : File} {f : Nat} : file.pointsTo ≠ some (.file f) := by
  unfold File.pointsTo
  split <;> cases file.type <;> simp

theorem map_file_iff {o : Option Nat} {f : Nat} : o.map Ref.file = some (.file f) ↔ o = some f := by
  cases o <;> simp

theorem map_inode_iff {o : Option Nat} {ip : Nat} : o.map Ref.inode = some (.inode ip) ↔ o = some ip := by
  cases o <;> simp

theorem card_filter_map {α : Type} (S : Finset α) (o : α → Option Nat) {g : Nat → Ref} {r : Ref}
    (hr : ∀ n, g n ≠ r) : (S.filter fun x => (o x).map g = some r).card = 0 := by
  refine Finset.card_eq_zero.mpr (Finset.filter_eq_empty_iff.mpr fun x _ hx => ?_)
  obtain ⟨n, -, hn⟩ := Option.map_eq_some_iff.mp hx
  exact hr n hn

/-- The references between two calls: descriptors to files, files and current directories to inodes,
files to the ends of a pipe; and a pipe's page is in use as long as an end is open, and then freed
once. -/
structure ExactRefs (s : State) : Prop where
  file : ∀ f < nfile, (s.ftable f).ref =
    ((Finset.range nproc ×ˢ Finset.range nofile).filter fun slot =>
      (s.proc slot.1).ofile slot.2 = some f).card
  inode : ∀ ip < ninode, (s.itable ip).ref =
    ((Finset.range nfile).filter fun f => 0 < (s.ftable f).ref ∧
      ((s.ftable f).type = .inode ∨ (s.ftable f).type = .device) ∧ (s.ftable f).ip = ip).card +
    ((Finset.range nproc).filter fun p => (s.proc p).cwd = some ip).card
  pipeEnd : ∀ pi w, ((Finset.range nfile).filter fun f => 0 < (s.ftable f).ref ∧
    (s.ftable f).type = .pipe ∧ (s.ftable f).pipe = pi ∧ (s.ftable f).writable = w).card =
    if (s.pipe pi).any fun pipe => pipe.isOpen w then 1 else 0
  inUse : ∀ pi pipe, s.pipe pi = some pipe → pipe.readopen = true ∨ pipe.writeopen = true
  freed_live : ∀ pi pipe, s.pipe pi = some pipe → s.freed.count pipe.birth = 0
  freed_dead : ∀ b < s.births, (∀ pi pipe, s.pipe pi = some pipe → pipe.birth ≠ b) →
    s.freed.count b = 1

theorem Settled.exactRefs {s : State} (hs : Settled s) : ExactRefs s := by
  obtain ⟨⟨hbal, hpipes⟩, -⟩ := hs
  constructor
  case file =>
    intro f hf
    have hfiles : ((Finset.range nfile).filter fun f' => (s.ftable f').pointsTo = some (.file f)).card = 0 :=
      Finset.card_eq_zero.mpr (Finset.filter_eq_empty_iff.mpr fun _ _ => File.pointsTo_ne_file)
    have hcount := hbal.count (.file f) hf
    rw [State.count, State.pointers, hfiles, card_filter_map (Finset.range nproc) _ fun n => by simp,
      Pi.zero_apply] at hcount
    simp only [map_file_iff] at hcount
    omega
  case inode =>
    intro ip hip
    have hcount := hbal.count (.inode ip) hip
    rw [State.count, State.pointers,
      card_filter_map (Finset.range nproc ×ˢ Finset.range nofile) _ fun n => by simp,
      Pi.zero_apply] at hcount
    simp only [File.pointsTo_inode, map_inode_iff] at hcount
    omega
  case pipeEnd =>
    intro pi w
    have hcount := hbal.count (.pipeEnd pi w) trivial
    rw [State.count, State.pointers,
      card_filter_map (Finset.range nproc ×ˢ Finset.range nofile) _ fun n => by simp,
      card_filter_map (Finset.range nproc) _ fun n => by simp, Pi.zero_apply] at hcount
    simp only [File.pointsTo_pipeEnd] at hcount
    by_cases hopen : ((s.pipe pi).any fun pipe => pipe.isOpen w) = true
    · rw [if_pos hopen] at hcount ⊢
      omega
    · rw [if_neg hopen] at hcount ⊢
      omega
  case inUse => exact hpipes.isOpen
  case freed_live => exact fun pi pipe hpipe => List.count_eq_zero.mpr (hpipes.freed_dead pi pipe hpipe)
  case freed_dead =>
    intro b hb hdead
    have hmem : b ∈ s.freed := by
      refine (hpipes.born b hb).resolve_right fun hlive => ?_
      obtain ⟨pi, pipe, hpipe, hbirth⟩ := hlive
      exact hdead pi pipe hpipe hbirth
    exact List.count_eq_one_of_mem hpipes.freed_once hmem

/-- References are exact between any two system calls, whatever is on the disk. -/
theorem references_exact {image : Image} {calls : List (Nat × Call)} {s : State}
    (hrun : image.after calls = some s) : ExactRefs s := by
  have hwp := run_settled (boot_settled image) calls
  unfold Image.after at hrun
  split at hrun
  · rename_i hok
    cases hrun
    exact (hwp.ok hok).exactRefs
  · cases hrun

/-- The first process makes a pipe and forks. The child makes a file, closes its reading end and exits.
When the parent has closed both ends, the page serves a second pipe whose descriptors cannot be copied
out. -/
def pipeFork : List (Nat × Call) :=
  [(0, .pipe (some 7) true), (0, .fork 1), (1, .open (some [97]) 0x202), (1, .dup 2),
    (1, .close 0), (0, .close 0), (1, .exit), (0, .close 1), (0, .pipe (some 7) false)]

theorem references_exact_pipeFork : ∃ s, mkfs.after pipeFork = some s ∧ s.births = 2 ∧ ExactRefs s := by
  have hbirths : ((mkfs.after pipeFork).any fun s => decide (s.births = 2)) = true := by
    decide +kernel
  obtain ⟨s, hrun, hs⟩ := (Option.any_eq_true _ _).mp hbirths
  exact ⟨s, hrun, of_decide_eq_true hs, references_exact hrun⟩

end Xv6Mmap.Fs
