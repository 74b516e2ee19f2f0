import Mathlib.Data.Finset.Prod
import Xv6Mmap.Lib.Count
import Xv6Mmap.Lib.Triple
import Xv6Mmap.Sysfile

/-!
# References are exact

Three kinds of things are counted: open files, in-memory inodes and the two ends of a pipe. What
points to them sits in three tables: the descriptors and the current directories of the processes, and
the open files. A call that is running holds references of its own; between two calls nobody does.
-/

namespace Xv6Mmap.Fs

open Sequential

inductive Ref where
  | file (f : Nat)
  | inode (ip : Nat)
  | pipeEnd (pi : Nat) (writable : Bool)
  deriving DecidableEq

def Ref.InTable : Ref → Prop
  | .file f => f < nfile
  | .inode ip => ip < ninode
  | .pipeEnd _ _ => True

def File.pointsTo (file : File) : Option Ref :=
  if 0 < file.ref then
    match file.type with
    | .pipe => some (.pipeEnd file.pipe file.writable)
    | .inode | .device => some (.inode file.ip)
    | .none => none
  else none

def Pipe.isOpen (pipe : Pipe) (writable : Bool) : Bool :=
  if writable then pipe.writeopen else pipe.readopen

/-- The count that is kept: an end of a pipe is open or not. -/
def State.count (s : State) : Ref → Int
  | .file f => (s.ftable f).ref
  | .inode ip => (s.itable ip).ref
  | .pipeEnd pi writable =>
      if (s.pipe pi).any fun pipe => pipe.isOpen writable then 1 else 0

/-- The pointers there are, in descriptors, open files and current directories. -/
def State.pointers (s : State) (r : Ref) : Int :=
  ((Finset.range nproc ×ˢ Finset.range nofile).filter fun slot =>
    ((s.proc slot.1).ofile slot.2).map Ref.file = some r).card +
  ((Finset.range nfile).filter fun f => (s.ftable f).pointsTo = some r).card +
  ((Finset.range nproc).filter fun p => (s.proc p).cwd.map Ref.inode = some r).card

def one (o : Option Ref) (r : Ref) : Int := if o = some r then 1 else 0

/-- Every count is the number of pointers and of the references held by a running call. -/
structure Balanced (held : Ref → Int) (s : State) : Prop where
  count : ∀ r, r.InTable → s.count r = s.pointers r + held r
  slot : ∀ p fd f, (s.proc p).ofile fd = some f → p < nproc ∧ fd < nofile ∧ f < nfile
  cwd : ∀ p ip, (s.proc p).cwd = some ip → p < nproc ∧ ip < ninode
  points : ∀ f r, f < nfile → (s.ftable f).pointsTo = some r → r.InTable
  free : ∀ f, f < nfile → (s.ftable f).ref = 0 → (s.ftable f).type = .none

/-- The pipes that were made are either in use or were freed once. -/
structure PipesOk (s : State) : Prop where
  isOpen : ∀ pi pipe, s.pipe pi = some pipe → pipe.readopen = true ∨ pipe.writeopen = true
  birth_lt : ∀ pi pipe, s.pipe pi = some pipe → pipe.birth < s.births
  birth_injective : ∀ pi pi' pipe pipe', s.pipe pi = some pipe → s.pipe pi' = some pipe' →
    pipe.birth = pipe'.birth → pi = pi'
  freed_once : s.freed.Nodup
  freed_dead : ∀ pi pipe, s.pipe pi = some pipe → pipe.birth ∉ s.freed
  freed_lt : ∀ b ∈ s.freed, b < s.births
  born : ∀ b < s.births, b ∈ s.freed ∨ ∃ pi pipe, s.pipe pi = some pipe ∧ pipe.birth = b

def State.refs (s : State) :
    (Nat → Int) × (Nat → File) × (Nat → Holder) × (Nat → Option Pipe) × Nat × List Nat :=
  (fun ip => (s.itable ip).ref, s.ftable, s.proc, s.pipe, s.births, s.freed)

section Congr

variable {s t : State} {held : Ref → Int}

theorem State.count_congr (hrefs : t.refs = s.refs) : t.count = s.count := by
  simp only [refs, Prod.mk.injEq] at hrefs
  obtain ⟨hitable, hftable, -, hpipe, -, -⟩ := hrefs
  funext r
  cases r with
  | file f => simp only [count, hftable]
  | inode ip => exact congrFun hitable ip
  | pipeEnd pi w => simp only [count, hpipe]

theorem Balanced.congr (hrefs : t.refs = s.refs) (hbal : Balanced held s) : Balanced held t := by
  have hcount := State.count_congr hrefs
  simp only [State.refs, Prod.mk.injEq] at hrefs
  obtain ⟨-, hftable, hproc, -, -, -⟩ := hrefs
  have hpointers : t.pointers = s.pointers := by
    funext r
    simp only [State.pointers, hftable, hproc]
  obtain ⟨hcnt, hslot, hcwd, hpoints, hfree⟩ := hbal
  constructor
  · rw [hcount, hpointers]
    exact hcnt
  all_goals simp only [hftable, hproc]; assumption

theorem PipesOk.congr (hpipe : t.pipe = s.pipe) (hbirths : t.births = s.births)
    (hfreed : t.freed = s.freed) (hok : PipesOk s) : PipesOk t := by
  obtain ⟨hopen, hlt, hinj, honce, hdead, hfreedlt, hborn⟩ := hok
  constructor <;> simp only [hpipe, hbirths, hfreed] <;> assumption

end Congr

/-! ### One table entry changes -/

section Change

variable {s : State} {held : Ref → Int}

theorem State.pointers_ftable {f : Nat} (hf : f < nfile) (file : File) (r : Ref) :
    ({ s with ftable := upd s.ftable f file } : State).pointers r =
      s.pointers r + one file.pointsTo r - one (s.ftable f).pointsTo r := by
  have hchange := Finset.card_filter_change (fun g => (s.ftable g).pointsTo = some r)
    (fun g => (upd s.ftable f file g).pointsTo = some r) (Finset.mem_range.mpr hf)
    fun g _ hne => by rw [upd_of_ne _ _ hne]
  simp only [upd_self] at hchange
  simp only [pointers, hchange, one]
  omega

theorem State.pointers_ofile {p fd : Nat} (hp : p < nproc) (hfd : fd < nofile) (v : Option Nat)
    (r : Ref) :
    ({ s with proc := upd s.proc p { s.proc p with ofile := upd (s.proc p).ofile fd v } } :
      State).pointers r =
      s.pointers r + one (v.map .file) r - one (((s.proc p).ofile fd).map .file) r := by
  have hslots := Finset.card_filter_change (S := Finset.range nproc ×ˢ Finset.range nofile)
    (a := (p, fd)) (fun slot => ((s.proc slot.1).ofile slot.2).map Ref.file = some r)
    (fun slot => ((upd s.proc p { s.proc p with ofile := upd (s.proc p).ofile fd v }
      slot.1).ofile slot.2).map Ref.file = some r)
    (by simp [hp, hfd]) fun slot _ hne => by
      by_cases hslot : slot.1 = p
      · have hfd' : slot.2 ≠ fd := fun h => hne (Prod.ext hslot h)
        simp only [hslot, upd_self, upd_of_ne _ _ hfd']
      · rw [upd_of_ne _ _ hslot]
  have hcwds : ∀ q, (upd s.proc p { s.proc p with ofile := upd (s.proc p).ofile fd v } q).cwd =
      (s.proc q).cwd := fun q => by
    by_cases hq : q = p
    · rw [hq, upd_self]
    · rw [upd_of_ne _ _ hq]
  simp only [upd_self] at hslots
  simp only [pointers, hslots, hcwds, one]
  omega

theorem State.pointers_cwd {p : Nat} (hp : p < nproc) (v : Option Nat) (r : Ref) :
    ({ s with proc := upd s.proc p { s.proc p with cwd := v } } : State).pointers r =
      s.pointers r + one (v.map .inode) r - one ((s.proc p).cwd.map .inode) r := by
  have hcwds := Finset.card_filter_change (fun q => (s.proc q).cwd.map Ref.inode = some r)
    (fun q => (upd s.proc p { s.proc p with cwd := v } q).cwd.map Ref.inode = some r)
    (Finset.mem_range.mpr hp) fun q _ hne => by rw [upd_of_ne _ _ hne]
  have hslots : ∀ q, (upd s.proc p { s.proc p with cwd := v } q).ofile = (s.proc q).ofile :=
    fun q => by
      by_cases hq : q = p
      · rw [hq, upd_self]
      · rw [upd_of_ne _ _ hq]
  simp only [upd_self] at hcwds
  simp only [pointers, hcwds, hslots, one]
  omega

theorem Balanced.setFile (hbal : Balanced held s) {f : Nat} (hf : f < nfile) (file : File)
    (hfree : file.ref = 0 → file.type = .none)
    (hpoints : ∀ r, file.pointsTo = some r → r.InTable) {held' : Ref → Int}
    (hheld : ∀ r, held' r = held r + (if r = .file f then file.ref - (s.ftable f).ref else 0) -
      one file.pointsTo r + one (s.ftable f).pointsTo r) :
    Balanced held' { s with ftable := upd s.ftable f file } where
  count := fun r hr => by
    rw [State.pointers_ftable hf, hheld]
    have hcount := hbal.count r hr
    have hself : ({ s with ftable := upd s.ftable f file } : State).count r =
        s.count r + if r = .file f then file.ref - (s.ftable f).ref else 0 := by
      cases r with
      | file g =>
          by_cases hg : g = f
          · subst hg
            simp [State.count]
          · simp [State.count, upd_of_ne _ _ hg, hg]
      | inode ip => simp [State.count]
      | pipeEnd pi w => simp [State.count]
    omega
  slot := hbal.slot
  cwd := hbal.cwd
  points := fun g r hg => by
    by_cases hgf : g = f
    · simp only [hgf, upd_self]
      exact hpoints r
    · simp only [upd_of_ne _ _ hgf]
      exact hbal.points g r hg
  free := fun g hg => by
    by_cases hgf : g = f
    · simp only [hgf, upd_self]
      exact hfree
    · simp only [upd_of_ne _ _ hgf]
      exact hbal.free g hg

theorem Balanced.setProc (hbal : Balanced held s) {p : Nat} (hp : p < nproc) (holder : Holder)
    (hslot : ∀ fd f, holder.ofile fd = some f → fd < nofile ∧ f < nfile)
    (hcwd : ∀ ip, holder.cwd = some ip → ip < ninode) {held' : Ref → Int}
    (hheld : ∀ r, ({ s with proc := upd s.proc p holder } : State).pointers r + held' r =
      s.pointers r + held r) : Balanced held' { s with proc := upd s.proc p holder } where
  count := fun r hr => by
    rw [hheld r, ← hbal.count r hr]
    cases r <;> rfl
  slot := fun q fd f hq => by
    by_cases hqp : q = p
    · subst hqp
      simp only [upd_self] at hq
      exact ⟨hp, hslot fd f hq⟩
    · simp only [upd_of_ne _ _ hqp] at hq
      exact hbal.slot q fd f hq
  cwd := fun q ip hq => by
    by_cases hqp : q = p
    · subst hqp
      simp only [upd_self] at hq
      exact ⟨hp, hcwd ip hq⟩
    · simp only [upd_of_ne _ _ hqp] at hq
      exact hbal.cwd q ip hq
  points := hbal.points
  free := hbal.free

theorem Balanced.setOfile (hbal : Balanced held s) {p fd : Nat} (hp : p < nproc)
    (hfd : fd < nofile) {v : Option Nat} (hv : ∀ f, v = some f → f < nfile) {held' : Ref → Int}
    (hheld : ∀ r, held' r = held r - one (v.map .file) r + one (((s.proc p).ofile fd).map .file) r) :
    Balanced held' { s with
      proc := upd s.proc p { s.proc p with ofile := upd (s.proc p).ofile fd v } } := by
  refine hbal.setProc hp { s.proc p with ofile := upd (s.proc p).ofile fd v } (fun fd' f hf => ?_)
    (fun ip hip => (hbal.cwd p ip hip).2) fun r => ?_
  · by_cases hfd' : fd' = fd
    · simp only [hfd', upd_self] at hf
      exact ⟨hfd' ▸ hfd, hv f hf⟩
    · simp only [upd_of_ne _ _ hfd'] at hf
      exact (hbal.slot p fd' f hf).2
  · rw [State.pointers_ofile hp hfd, hheld]
    omega

theorem Balanced.setCwd (hbal : Balanced held s) {p : Nat} (hp : p < nproc) {v : Option Nat}
    (hv : ∀ ip, v = some ip → ip < ninode) {held' : Ref → Int}
    (hheld : ∀ r, held' r = held r - one (v.map .inode) r + one ((s.proc p).cwd.map .inode) r) :
    Balanced held' { s with proc := upd s.proc p { s.proc p with cwd := v } } := by
  refine hbal.setProc hp { s.proc p with cwd := v } (fun fd f hf => (hbal.slot p fd f hf).2) hv
    fun r => ?_
  rw [State.pointers_cwd hp, hheld]
  omega

theorem Balanced.setRef (hbal : Balanced held s) (ip : Nat) (node : Inode) {held' : Ref → Int}
    (hheld : ∀ r, held' r =
      held r + if r = .inode ip then node.ref - (s.itable ip).ref else 0) :
    Balanced held' { s with itable := upd s.itable ip node } where
  count := fun r hr => by
    rw [hheld]
    have hcount : s.count r = s.pointers r + held r := hbal.count r hr
    have hself : ({ s with itable := upd s.itable ip node } : State).count r =
        s.count r + if r = .inode ip then node.ref - (s.itable ip).ref else 0 := by
      cases r with
      | file f => simp [State.count]
      | inode iq =>
          by_cases hiq : iq = ip
          · subst hiq
            simp [State.count]
          · simp [State.count, upd_of_ne _ _ hiq, hiq]
      | pipeEnd pi w => simp [State.count]
    have hpointers : ({ s with itable := upd s.itable ip node } : State).pointers r =
        s.pointers r := rfl
    omega
  slot := hbal.slot
  cwd := hbal.cwd
  points := hbal.points
  free := hbal.free

theorem Balanced.setPipe (hbal : Balanced held s) (pi : Nat) (v : Option Pipe) (t : State)
    (hpipe : t.pipe = upd s.pipe pi v) (hitable : t.itable = s.itable)
    (hftable : t.ftable = s.ftable) (hproc : t.proc = s.proc) {held' : Ref → Int}
    (hends : ∀ w, held' (.pipeEnd pi w) = held (.pipeEnd pi w) +
      (if v.any fun pipe => pipe.isOpen w then 1 else 0) -
      if (s.pipe pi).any fun pipe => pipe.isOpen w then 1 else 0)
    (hother : ∀ r, (∀ w, r ≠ .pipeEnd pi w) → held' r = held r) : Balanced held' t where
  count := fun r hr => by
    have hcount : s.count r = s.pointers r + held r := hbal.count r hr
    have hpointers : t.pointers r = s.pointers r := by
      simp only [State.pointers, hftable, hproc]
    rw [hpointers]
    cases r with
    | file f =>
        rw [hother _ (by simp), ← hcount]
        simp only [State.count, hftable]
    | inode ip =>
        rw [hother _ (by simp), ← hcount]
        simp only [State.count, hitable]
    | pipeEnd pj w =>
        by_cases hpj : pj = pi
        · subst hpj
          have hends := hends w
          simp only [State.count, hpipe, upd_self] at hcount ⊢
          omega
        · rw [hother _ (by simp [hpj]), ← hcount]
          simp only [State.count, hpipe, upd_of_ne _ _ hpj]
  slot := by simpa only [hproc] using hbal.slot
  cwd := by simpa only [hproc] using hbal.cwd
  points := by simpa only [hftable] using hbal.points
  free := by simpa only [hftable] using hbal.free

end Change

/-! ### What leaves all counts alone -/

theorem stop_keeps {α γ : Type} {f : State → γ} (e : Stop) : Keeps f (stop e : F α) := fun _ => ⟨rfl⟩

theorem getInode_keeps {γ : Type} {f : State → γ} (ip : Nat) : Keeps f (getInode ip) := fun _ => ⟨rfl⟩

theorem getFile_keeps {γ : Type} {f : State → γ} (k : Nat) : Keeps f (getFile k) := fun _ => ⟨rfl⟩

theorem readBlock_keeps {γ : Type} {f : State → γ} (b : Nat) : Keeps f (readBlock b) := fun s => by
  by_cases hb : s.sb.isData b = true
  · exact .of_ok (if_pos hb) rfl
  · exact .of_error (if_neg hb) rfl

theorem modifyInode_keeps (ip : Nat) {g : Inode → Inode} (hg : ∀ node, (g node).ref = node.ref) :
    Keeps State.refs (modifyInode ip g) := fun s => by
  have hitable : (fun iq => (upd s.itable ip (g (s.itable ip)) iq).ref) =
      fun iq => (s.itable iq).ref := by
    funext iq
    by_cases hiq : iq = ip
    · rw [hiq, upd_self, hg]
    · rw [upd_of_ne _ _ hiq]
  exact .of_ok rfl (Prod.ext hitable rfl)

/-- A part of the state that work on the inode `ip` and its blocks does not concern. -/
structure Untouched {γ : Type} (ip : Nat) (f : State → γ) : Prop where
  data : ∀ s data, f { s with data := data } = f s
  bitmap : ∀ s bitmap, f { s with bitmap := bitmap } = f s
  copy : ∀ (s : State) (g : Dinode → Dinode), f { s with
    itable := upd s.itable ip { s.itable ip with copy := g (s.itable ip).copy } } = f s
  dinode : ∀ s node, f { s with dinode := upd s.dinode (s.itable ip).inum node } = f s

theorem refs_untouched (ip : Nat) : Untouched ip State.refs where
  data := fun _ _ => rfl
  bitmap := fun _ _ => rfl
  copy := fun s g => (modifyInode_keeps ip (g := fun node => { node with copy := g node.copy })
    (fun _ => rfl) s).ok rfl
  dinode := fun _ _ => rfl

section Untouched

variable {γ : Type} {f : State → γ} {ip : Nat} (hf : Untouched ip f)

include hf

theorem modifyBlock_keeps (b : Nat) (g : Bytes → Bytes) : Keeps f (modifyBlock b g) := fun s => by
  by_cases hb : s.sb.isData b = true
  · exact .of_ok (if_pos hb) (hf.data s _)
  · exact .of_error (if_neg hb) rfl

theorem modifyCopy_keeps (g : Dinode → Dinode) : Keeps f (modifyCopy ip g) := fun s =>
  .of_ok rfl (hf.copy s g)

theorem balloc_keeps : Keeps f balloc := by
  refine .bind .get fun s => ?_
  split
  · exact .bind (.modify fun s => hf.bitmap s _) fun _ => .bind (modifyBlock_keeps hf _ _) fun _ =>
      .pure _
  · exact .pure _

theorem bfree_keeps (b : Nat) : Keeps f (bfree b) := by
  unfold bfree
  exact .bind .get fun _ => .when (stop_keeps _) fun _ => .when (stop_keeps _) fun _ =>
    .modify fun s => hf.bitmap s _

theorem iupdate_keeps : Keeps f (iupdate ip) := fun s => by
  unfold iupdate
  refine .bind (.of_ok rfl (.get (.ite (fun _ => .bind (.of_error rfl rfl)) fun _ => ?_)))
  exact .of_ok rfl (hf.dinode s _)

theorem bmapSlot_keeps (k : Nat) : Keeps f (bmapSlot ip k) := by
  unfold bmapSlot
  exact .bind (getInode_keeps _) fun _ => .ite (.bind (balloc_keeps hf) fun _ => .ite (.pure _) <|
    .bind (modifyCopy_keeps hf _) fun _ => .pure _) (.pure _)

theorem bmap_keeps (bn : Nat) : Keeps f (bmap ip bn) := by
  unfold bmap
  exact .ite (bmapSlot_keeps hf _) <| .ite (.bind (bmapSlot_keeps hf _) fun _ => .ite (.pure _) <|
    .bind (readBlock_keeps _) fun _ => .ite (.bind (balloc_keeps hf) fun _ =>
      .when (modifyBlock_keeps hf _ _) fun _ => .pure _) (.pure _)) (stop_keeps _)

theorem itrunc_keeps : Keeps f (itrunc ip) := by
  unfold itrunc
  refine .bind (.forUp (fun i => .bind (getInode_keeps _) fun _ => .ite
    (.bind (bfree_keeps hf _) fun _ => modifyCopy_keeps hf _) (.pure _)) _ _) fun _ =>
    .bind (getInode_keeps _) fun _ => .ite (.bind (readBlock_keeps _) fun _ =>
      .bind (.forUp (fun j => .ite (bfree_keeps hf _) (.pure _)) _ _) fun _ =>
      .bind (bfree_keeps hf _) fun _ => .bind (modifyCopy_keeps hf _) fun _ =>
      .bind (modifyCopy_keeps hf _) fun _ => iupdate_keeps hf) <|
    .bind (modifyCopy_keeps hf _) fun _ => iupdate_keeps hf

theorem readiFrom_keeps (dst : Nat → Bool) (n rounds tot off : Nat) (bytes : List Nat) :
    Keeps f (readiFrom ip dst n rounds tot off bytes) := by
  induction rounds generalizing tot off bytes with
  | zero => exact .pure _
  | succ rounds ih =>
      exact .ite (.bind (bmap_keeps hf _) fun _ => .ite (.pure _) <| .bind (readBlock_keeps _) fun _ =>
        .ite (ih _ _ _) (.pure _)) (.pure _)

theorem readi_keeps (dst : Nat → Bool) (off n : Nat) : Keeps f (readi ip dst off n) :=
  .bind (getInode_keeps _) fun _ => .ite (.pure _) (readiFrom_keeps hf _ _ _ _ _ _)

theorem writeiFrom_keeps (src : Nat → Option Nat) (n rounds tot off : Nat) :
    Keeps f (writeiFrom ip src n rounds tot off) := by
  induction rounds generalizing tot off with
  | zero => exact .pure _
  | succ rounds ih =>
      exact .ite (.bind (bmap_keeps hf _) fun _ => .ite (.pure _) <|
        .bind (modifyBlock_keeps hf _ _) fun _ => .ite (.pure _) (ih _ _)) (.pure _)

theorem writei_keeps (src : Nat → Option Nat) (off n : Nat) : Keeps f (writei ip src off n) := by
  unfold writei
  exact .bind (getInode_keeps _) fun _ => .ite (.pure _) <| .ite (.pure _) <|
    .bind (writeiFrom_keeps hf _ _ _ _ _) fun _ => .bind (getInode_keeps _) fun _ =>
    .when (modifyCopy_keeps hf _) fun _ => .bind (iupdate_keeps hf) fun _ => .pure _

theorem readDirent_keeps (off : Nat) : Keeps f (readDirent ip off) :=
  .bind (readi_keeps hf _ _ _) fun _ => .ite (.pure _) (.pure _)

theorem emptyDirentFrom_keeps (n off : Nat) : Keeps f (emptyDirentFrom ip n off) := by
  induction n generalizing off with
  | zero => exact .pure _
  | succ n ih =>
      refine .bind (readDirent_keeps hf _) fun de => ?_
      cases de with
      | none => exact stop_keeps _
      | some de => exact .ite (.pure _) (ih _)

theorem isdiremptyFrom_keeps (n off : Nat) : Keeps f (isdiremptyFrom ip n off) := by
  induction n generalizing off with
  | zero => exact .pure _
  | succ n ih =>
      refine .bind (readDirent_keeps hf _) fun de => ?_
      cases de with
      | none => exact stop_keeps _
      | some de => exact .ite (.pure _) (ih _)

theorem isdirempty_keeps : Keeps f (isdirempty ip) :=
  .bind (getInode_keeps _) fun _ => isdiremptyFrom_keeps hf _ _

end Untouched

theorem ilock_keeps (ip : Nat) : Keeps State.refs (ilock ip) := by
  unfold ilock
  exact .bind (getInode_keeps _) fun _ => .when (stop_keeps _) fun _ => .when (stop_keeps _) fun _ =>
    .bind (modifyInode_keeps _ fun _ => rfl) fun _ => .ite
      (.bind .get fun _ => .when (stop_keeps _) fun _ => .bind (modifyInode_keeps _ fun _ => rfl)
        fun _ => .ite (stop_keeps _) (.pure _)) (.pure _)

theorem iunlock_keeps (ip : Nat) : Keeps State.refs (iunlock ip) := by
  unfold iunlock
  exact .bind (getInode_keeps _) fun _ => .when (stop_keeps _) fun _ => modifyInode_keeps _ fun _ => rfl

theorem ifree_keeps (ip : Nat) : Keeps State.refs (ifree ip) := by
  unfold ifree
  exact .bind (getInode_keeps _) fun _ => .when (stop_keeps _) fun _ =>
    .bind (modifyInode_keeps _ fun _ => rfl) fun _ => .bind (itrunc_keeps (refs_untouched ip)) fun _ =>
    .bind (modifyCopy_keeps (refs_untouched ip) _) fun _ =>
    .bind (iupdate_keeps (refs_untouched ip)) fun _ =>
    .bind (modifyInode_keeps _ fun _ => rfl) fun _ => modifyInode_keeps _ fun _ => rfl

end Xv6Mmap.Fs
