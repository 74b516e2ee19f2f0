import Xv6Mmap.Proof.FsTxSpace
import Xv6Mmap.Proof.FsWork

/-!
# A transaction at work

A call is followed on the directory graph while the blocks that it records are counted. Reading a
directory records nothing, because no block of a directory is missing.
-/

namespace Xv6Mmap.Fs.Tx

open Sequential

/-! ### Reading -/

/-- Blocks are only taken, and nothing is recorded unless one is. -/
structure Hushed (c c' : Tx) : Prop where
  taken : ∀ b, c.fs.bitmap b = true → c'.fs.bitmap b = true
  header : c'.fs.bitmap = c.fs.bitmap → c'.header = c.header

def Quiet {α : Type} (x : B α) : Prop :=
  ∀ c, Wp x (fun _ c' => Hushed c c') (fun _ c' => Hushed c c') c

theorem Hushed.of_eq {c c' : Tx} (hbitmap : c'.fs.bitmap = c.fs.bitmap)
    (hheader : c'.header = c.header) : Hushed c c' :=
  ⟨fun _ h => hbitmap ▸ h, fun _ => hheader⟩

theorem Hushed.trans {c c' c'' : Tx} (h : Hushed c c') (h' : Hushed c' c'') : Hushed c c'' := by
  refine ⟨fun b hb => h'.taken b (h.taken b hb), fun hsame => ?_⟩
  have hmid : c'.fs.bitmap = c.fs.bitmap := by
    funext b
    cases hb : c.fs.bitmap b with
    | true => exact h.taken b hb
    | false =>
        refine Bool.eq_false_iff.mpr fun hb' => ?_
        rw [← hsame, h'.taken b hb'] at hb
        cases hb
  rw [h'.header (hsame.trans hmid.symm), h.header hmid]

namespace Quiet

variable {α β : Type}

theorem pure (a : α) : Quiet (pure a) := fun _ => .pure (.of_eq rfl rfl)

theorem bind {x : B β} {f : β → B α} (hx : Quiet x) (hf : ∀ b, Quiet (f b)) : Quiet (x >>= f) :=
  fun c => .bind ((hx c).imp fun b c' hc => (hf b c').mono (fun _ _ h => hc.trans h) fun _ _ h =>
    hc.trans h)

theorem ite {p : Prop} [Decidable p] {x y : B α} (hx : Quiet x) (hy : Quiet y) :
    Quiet (if p then x else y) := fun c => .ite (fun _ => hx c) fun _ => hy c

theorem lift {y : F α} (hy : Keeps State.bitmap y) : Quiet (lift y) := fun c =>
  (((Sim.lift y).wp (hy c.fs)).and (lift_header y c)).mono (fun _ _ h => .of_eq h.1 h.2) fun _ _ h =>
    .of_eq h.1 h.2

end Quiet

theorem Hushed.of_taken {c c' c'' : Tx} (h : Hushed c c') (hchanged : c'.fs.bitmap ≠ c.fs.bitmap)
    (hbitmap : c''.fs.bitmap = c'.fs.bitmap) : Hushed c c'' :=
  ⟨fun b hb => hbitmap ▸ h.taken b hb, fun hsame => absurd (hbitmap.symm.trans hsame) hchanged⟩

theorem modifyBlock_bitmap (b : Nat) (f : Bytes → Bytes) : Keeps State.bitmap (modifyBlock b f) :=
  fun s => by
    by_cases hdata : s.sb.isData b = true
    · exact .of_ok (if_pos hdata) rfl
    · exact .of_error (if_neg hdata) rfl

theorem balloc_hushed (c : Tx) :
    Wp balloc (fun r c' => Hushed c c' ∧ (r ≠ 0 → c'.fs.bitmap ≠ c.fs.bitmap))
      (fun _ c' => Hushed c c') c := by
  refine .get ?_
  split
  · rename_i b hfind
    have hfree : c.fs.bitmap b = false := by simpa using List.find?_some hfind
    have hchanged : upd c.fs.bitmap b true ≠ c.fs.bitmap := fun hsame => by
      rw [← hsame, upd_self] at hfree
      cases hfree
    have hhush : ∀ c' : Tx, c'.fs.bitmap = upd c.fs.bitmap b true → Hushed c c' := by
      refine fun c' hbitmap => ⟨fun b' hb' => ?_, fun hsame => absurd (hbitmap ▸ hsame) hchanged⟩
      rw [hbitmap]
      by_cases heq : b' = b
      · rw [heq, upd_self]
      · rwa [upd_of_ne _ _ heq]
    refine .bind (.of_ok rfl (.bind (.of_ok rfl (.bind (.bind ?_)))))
    refine ((Sim.lift _).wp (modifyBlock_bitmap b (fun _ _ => 0) _)).mono (fun _ c' hc => ?_)
      fun _ c' hc => hhush c' hc
    exact .of_ok rfl (.pure ⟨hhush _ hc, fun _ hsame => hchanged (hc.symm.trans hsame)⟩)
  · exact .pure ⟨.of_eq rfl rfl, fun h => absurd rfl h⟩

theorem bmapSlot_quiet (ip k : Nat) : Quiet (bmapSlot ip k) := fun c => by
  refine .bind (.of_ok rfl (.ite (fun _ => .bind ((balloc_hushed c).imp fun r c' hc => ?_)) fun _ =>
    .pure (.of_eq rfl rfl)))
  exact .ite (fun _ => .pure hc.1) fun hr => .bind (.of_ok rfl (.pure (hc.1.of_taken (hc.2 hr) rfl)))

theorem bmapIndirect_quiet (a j : Nat) : Quiet (bmapIndirect a j) := by
  refine .bind (.lift (readBlock_keeps a)) fun block => .ite (fun c => ?_) (.pure _)
  refine .bind ((balloc_hushed c).imp fun r c' hc => .ite (fun hr => .bind ?_) fun _ => .pure hc.1)
  refine ((Sim.lift _).wp (modifyBlock_bitmap a _ _)).mono (fun _ c'' hc' => ?_) fun _ c'' hc' =>
    hc.1.of_taken (hc.2 hr) hc'
  exact .bind (.of_ok rfl (.pure (hc.1.of_taken (hc.2 hr) hc')))

theorem bmap_quiet (ip bn : Nat) : Quiet (bmap ip bn) :=
  .ite (bmapSlot_quiet ip bn) (.ite ((bmapSlot_quiet ip ndirect).bind fun _ =>
    .ite (.pure _) (bmapIndirect_quiet _ _)) (.lift (stop_keeps _)))

theorem readiFrom_quiet (ip : Nat) (dst : Nat → Bool) (n rounds tot off : Nat) (bytes : List Nat) :
    Quiet (readiFrom ip dst n rounds tot off bytes) := by
  induction rounds generalizing tot off bytes with
  | zero => exact .pure _
  | succ rounds ih =>
      exact .ite ((bmap_quiet _ _).bind fun _ => .ite (.pure _)
        (.bind (.lift (readBlock_keeps _)) fun _ => .ite (ih _ _ _) (.pure _))) (.pure _)

theorem readDirent_quiet (dp off : Nat) : Quiet (readDirent dp off) :=
  .bind (.bind (.lift (getInode_keeps _)) fun _ => .ite (.pure _) (readiFrom_quiet _ _ _ _ _ _ _))
    fun _ => .ite (.pure _) (.pure _)

theorem iget_disk (inum : Nat) : Keeps State.disk (iget inum) := by
  unfold iget
  refine .bind .get fun s => ?_
  split
  · exact .bind (fun _ => .of_ok rfl rfl) fun _ => .pure _
  · split
    · exact stop_keeps _
    · exact .bind (fun _ => .of_ok rfl rfl) fun _ => .pure _

theorem iget_inum (inum : Nat) (s : State) :
    Wp (iget inum) (fun ip t => (t.itable ip).inum = inum) (fun _ _ => True) s := by
  refine .get ?_
  split
  · rename_i ip hfind
    have hsome := List.find?_some hfind
    have hinum : (s.itable ip).inum = inum := (of_decide_eq_true hsome).2
    exact .bind (.of_ok rfl (.pure (by simpa using hinum)))
  · split
    · exact .of_error rfl trivial
    · exact .bind (.of_ok rfl (.pure (by simp)))

theorem modifyInode_disk (ip : Nat) (g : Inode → Inode) : Keeps State.disk (modifyInode ip g) :=
  fun _ => .of_ok rfl rfl

theorem ilock_disk (ip : Nat) : Keeps State.disk (ilock ip) := by
  unfold ilock
  exact .bind (getInode_keeps _) fun _ => .when (stop_keeps _) fun _ => .when (stop_keeps _) fun _ =>
    .bind (modifyInode_disk _ _) fun _ => .ite
      (.bind .get fun _ => .when (stop_keeps _) fun _ => .bind (modifyInode_disk _ _) fun _ =>
        .ite (stop_keeps _) (.pure _)) (.pure _)

theorem iunlock_disk (ip : Nat) : Keeps State.disk (iunlock ip) := by
  unfold iunlock
  exact .bind (getInode_keeps _) fun _ => .when (stop_keeps _) fun _ => modifyInode_disk _ _

theorem keeps_bitmap {α : Type} {y : F α} (hy : Keeps State.disk y) : Keeps State.bitmap y :=
  hy.of_part fun _ _ h => congrArg Image.bitmap h

theorem dirlookupFrom_quiet (dp : Nat) (name : Name) (n off : Nat) :
    Quiet (dirlookupFrom dp name n off) := by
  induction n generalizing off with
  | zero => exact .pure _
  | succ n ih =>
      refine (readDirent_quiet dp off).bind fun r => ?_
      cases r with
      | none => exact .lift (stop_keeps _)
      | some de => exact .ite (.bind (.lift (keeps_bitmap (iget_disk _))) fun _ => .pure _) (ih _)

theorem dirlookup_quiet (dp : Nat) (name : Name) : Quiet (dirlookup dp name) :=
  .bind (.lift (getInode_keeps _)) fun _ => .ite (.bind (.lift (stop_keeps _)) fun _ =>
    dirlookupFrom_quiet _ _ _ _) (dirlookupFrom_quiet _ _ _ _)

theorem emptyDirentFrom_quiet (dp n off : Nat) : Quiet (emptyDirentFrom dp n off) := by
  induction n generalizing off with
  | zero => exact .pure _
  | succ n ih =>
      refine (readDirent_quiet dp off).bind fun r => ?_
      cases r with
      | none => exact .lift (stop_keeps _)
      | some de => exact .ite (.pure _) (ih _)

theorem isdirempty_quiet (dp : Nat) : Quiet (isdirempty dp) := by
  refine .bind (.lift (getInode_keeps _)) fun node => ?_
  have hloop : ∀ n off, Quiet (isdiremptyFrom dp n off) := fun n => by
    induction n with
    | zero => exact fun _ => .pure _
    | succ n ih =>
        refine fun off => (readDirent_quiet dp off).bind fun r => ?_
        cases r with
        | none => exact .lift (stop_keeps _)
        | some de => exact .ite (.pure _) (ih _)
  exact hloop _ _

def Reads {α : Type} (y : F α) (s : State) : Prop :=
  Wp y (fun _ t => t.disk = s.disk) (fun _ t => t.disk = s.disk) s

/-! ### Steps -/

/-- From `P` to `Q`, unless the machine stops, while besides the bitmap and the blocks `K` at most `n`
blocks are recorded. That is only claimed when `tight` holds. -/
def Steps {α : Type} (tight bad : Prop) (K : List Block) (n : Nat) (P : State → Prop) (x : B α)
    (Q : α → State → Prop) : Prop :=
  ∀ c : Tx, P c.fs → Wp x (fun a c' => Q a c'.fs ∧ (tight → Grew K n c c'))
    (fun e c' => Allowed bad e ∧ (tight → Grew K n c c')) c

theorem wp_and_of {α : Type} {tight : Prop} {x : B α} {c : Tx} {Q R : α → Tx → Prop}
    {E R' : Stop → Tx → Prop} (hx : Wp x Q E c) (hR : tight → Wp x R R' c) :
    Wp x (fun a c' => Q a c' ∧ (tight → R a c')) (fun e c' => E e c' ∧ (tight → R' e c')) c := by
  by_cases ht : tight
  · exact (hx.and (hR ht)).mono (fun _ _ h => ⟨h.1, fun _ => h.2⟩) fun _ _ h => ⟨h.1, fun _ => h.2⟩
  · exact hx.mono (fun _ _ h => ⟨h, fun h' => absurd h' ht⟩) fun _ _ h => ⟨h, fun h' => absurd h' ht⟩

namespace Steps

variable {α β : Type} {tight bad : Prop} {K K' : List Block} {n m : Nat} {P R : State → Prop}
  {Q S : α → State → Prop}

theorem mono {x : B α} (hx : Steps tight bad K n P x Q) (hK : K ⊆ K') (hn : n ≤ m) :
    Steps tight bad K' m P x Q := fun c hc =>
  (hx c hc).mono (fun _ _ h => ⟨h.1, fun ht => (h.2 ht).mono hK hn⟩) fun _ _ h =>
    ⟨h.1, fun ht => (h.2 ht).mono hK hn⟩

theorem le {x : B α} (hx : Steps tight bad K n P x Q) (hn : n ≤ m) : Steps tight bad K m P x Q :=
  hx.mono (List.Subset.refl K) hn

theorem conseq {x : B α} (hx : Steps tight bad K n R x S) (hpre : ∀ s, P s → R s)
    (hpost : ∀ a s, S a s → Q a s) : Steps tight bad K n P x Q := fun c hc =>
  (hx c (hpre c.fs hc)).imp fun a c' h => ⟨hpost a c'.fs h.1, h.2⟩

theorem pre {x : B α} (hx : Steps tight bad K n R x Q) (hpre : ∀ s, P s → R s) :
    Steps tight bad K n P x Q :=
  hx.conseq hpre fun _ _ h => h

theorem post {x : B α} (hx : Steps tight bad K n P x S) (hpost : ∀ a s, S a s → Q a s) :
    Steps tight bad K n P x Q := hx.conseq (fun _ h => h) hpost

theorem pure {a : α} (hpost : ∀ s, P s → Q a s) : Steps tight bad K n P (pure a) Q := fun c hc =>
  .pure ⟨hpost c.fs hc, fun _ => .of_header rfl⟩

theorem bind {x : B β} {f : β → B α} {R : β → State → Prop} (hx : Steps tight bad K n P x R)
    (hf : ∀ b, Steps tight bad K m (R b) (f b) Q) : Steps tight bad K (n + m) P (x >>= f) Q :=
  fun c hc => by
    refine .bind ((hx c hc).mono (fun b c' h => ?_) fun _ _ h =>
      ⟨h.1, fun ht => (h.2 ht).mono (List.Subset.refl K) (Nat.le_add_right n m)⟩)
    exact (hf b c' h.1).mono (fun _ _ h' => ⟨h'.1, fun ht => (h.2 ht).trans (h'.2 ht)⟩) fun _ _ h' =>
      ⟨h'.1, fun ht => (h.2 ht).trans (h'.2 ht)⟩

theorem assoc {γ : Type} {x : B β} {f : β → B γ} {g : γ → B α}
    (h : Steps tight bad K n P (x >>= f >>= g) Q) : Steps tight bad K n P (x >>= fun b => f b >>= g) Q := by
  rwa [bind_assoc] at h

theorem zero_bind {x : B β} {f : β → B α} {R : β → State → Prop} (hx : Steps tight bad K 0 P x R)
    (hf : ∀ b, Steps tight bad K n (R b) (f b) Q) : Steps tight bad K n P (x >>= f) Q :=
  (hx.bind hf).le (Nat.zero_add n).le

theorem ite {p : Prop} [Decidable p] {x y : B α} (hx : p → Steps tight bad K n P x Q)
    (hy : ¬ p → Steps tight bad K n P y Q) : Steps tight bad K n P (if p then x else y) Q :=
  fun c hc => .ite (fun hp => hx hp c hc) fun hp => hy hp c hc

theorem lift_pre {p : Prop} {x : B α} (hx : p → Steps tight bad K n P x Q) :
    Steps tight bad K n (fun s => p ∧ P s) x Q := fun c hc => hx hc.1 c hc.2

theorem or_pre {x : B α} (hx : Steps tight bad K n P x Q) (hx' : Steps tight bad K n R x Q) :
    Steps tight bad K n (fun s => P s ∨ R s) x Q := fun c hc => hc.elim (hx c) (hx' c)

theorem exists_pre {P : β → State → Prop} {x : B α} (hx : ∀ b, Steps tight bad K n (P b) x Q) :
    Steps tight bad K n (fun s => ∃ b, P b s) x Q := fun c ⟨b, hc⟩ => hx b c hc

theorem forget (blk : Block) {x : B α} (hx : Steps tight bad (blk :: K) n P x Q) :
    Steps tight bad K (n + 1) P x Q := fun c hc =>
  (hx c hc).mono (fun _ _ h => ⟨h.1, fun ht => (h.2 ht).forget⟩) fun _ _ h =>
    ⟨h.1, fun ht => (h.2 ht).forget⟩

theorem lift {y : F α} (hy : Runs bad P y Q) : Steps tight bad K 0 P (lift y) Q := fun c hc =>
  (((Sim.lift y).wp (hy c.fs hc)).and (lift_header y c)).mono
    (fun _ _ h => ⟨h.1, fun _ => .of_header h.2⟩) fun _ _ h => ⟨h.1, fun _ => .of_header h.2⟩

theorem guard {p : Prop} [Decidable p] {e : Stop} {g : Unit → B α} (he : Allowed bad e)
    (hg : ¬ p → Steps tight bad K n P (g ()) Q) :
    Steps tight bad K n P (if p then Tx.lift (stop e) >>= g else g ()) Q :=
  .ite (fun _ _ _ => .bind (.of_error rfl ⟨he, fun _ => .of_header rfl⟩)) hg

theorem of_quiet {x : B α} {y : F α} (hx : Quiet x) (hsim : ∀ c, Sim x y c) (hy : Runs bad P y Q)
    (hreads : ∀ s, P s → Reads y s) : Steps tight bad K 0 P x Q := fun c hc =>
  (((hsim c).wp ((hy c.fs hc).and (hreads c.fs hc))).and (hx c)).mono
    (fun _ _ h => ⟨h.1.1, fun _ => .of_header (h.2.header (congrArg Image.bitmap h.1.2))⟩) fun _ _ h =>
    ⟨h.1.1, fun _ => .of_header (h.2.header (congrArg Image.bitmap h.1.2))⟩

theorem of_records {x : B α} {y : F α} {D : (Nat → Nat) → List Block} (hx : Records D n x)
    (hsim : ∀ c, Sim x y c) (hy : Runs bad P y Q)
    (hpre : ∀ s, P s → (tight → s.sb.size ≤ bpb) ∧ D s.numbers.2 ⊆ K) :
    Steps tight bad K n P x Q := fun c hc => by
  obtain ⟨hsize, hsub⟩ := hpre c.fs hc
  refine (wp_and_of ((hsim c).wp (hy c.fs hc)) fun ht => hx c (hsize ht)).mono (fun _ _ h => ?_)
    fun _ _ h => ?_
  · exact ⟨h.1, fun ht => (h.2 ht).grew.mono hsub le_rfl⟩
  · exact ⟨h.1, fun ht => (h.2 ht).grew.mono hsub le_rfl⟩

theorem still {x : B α} {disk : Image} (hx : Steps tight bad K n P x Q)
    (hdisk : ∀ c, P c.fs → Wp x (fun _ c' => c'.fs.disk = c.fs.disk) (fun _ _ => True) c) :
    Steps tight bad K n (fun s => P s ∧ (tight → s.disk = disk)) x
      fun a s => Q a s ∧ (tight → s.disk = disk) := fun c hc =>
  ((hx c hc.1).and (hdisk c hc.1)).mono
    (fun _ _ h => ⟨⟨h.1.1, fun ht => h.2.trans (hc.2 ht)⟩, h.1.2⟩) fun _ _ h => h.1

theorem lift_still {y : F α} {disk : Image} (hy : Runs bad P y Q) (hdisk : Keeps State.disk y) :
    Steps tight bad K 0 (fun s => P s ∧ (tight → s.disk = disk)) (Tx.lift y)
      fun a s => Q a s ∧ (tight → s.disk = disk) :=
  (Steps.lift hy).still fun c _ => ((Sim.lift y).wp (hdisk c.fs)).mono (fun _ _ h => h) fun _ _ _ =>
    trivial

end Steps

/-- As `Steps`, for a program that comes to an inode: besides the bitmap, the blocks `K` and the block
of the inode at most `n` blocks are recorded. -/
def StepsTo {α : Type} (tight bad : Prop) (K : List Block) (n : Nat) (P : State → Prop) (x : B α)
    (Q : Nat → α → State → Prop) : Prop :=
  ∀ c : Tx, P c.fs →
    Wp x (fun a c' => ∃ i, Q i a c'.fs ∧ (tight → Grew (inodeBlock i :: K) n c c'))
      (fun e c' => Allowed bad e ∧ ∃ i, tight → Grew (inodeBlock i :: K) n c c') c

namespace StepsTo

variable {α β : Type} {tight bad : Prop} {K : List Block} {n m : Nat} {P R : State → Prop}
  {Q : Nat → α → State → Prop}

theorem of_known {x : B α} {i : Nat} (hx : Steps tight bad (inodeBlock i :: K) n P x (Q i)) :
    StepsTo tight bad K n P x Q := fun c hc =>
  (hx c hc).mono (fun _ _ h => ⟨i, h⟩) fun _ _ h => ⟨h.1, i, h.2⟩

theorem le {x : B α} (hx : StepsTo tight bad K n P x Q) (hn : n ≤ m) :
    StepsTo tight bad K m P x Q := fun c hc =>
  (hx c hc).mono (fun _ _ ⟨i, hQ, h⟩ => ⟨i, hQ, fun ht => (h ht).mono (List.Subset.refl _) hn⟩)
    fun _ _ ⟨he, i, h⟩ => ⟨he, i, fun ht => (h ht).mono (List.Subset.refl _) hn⟩

theorem bind {x : B β} {f : β → B α} {R : Nat → β → State → Prop} (hx : StepsTo tight bad K n P x R)
    (hf : ∀ i b, Steps tight bad (inodeBlock i :: K) m (R i b) (f b) (Q i)) :
    StepsTo tight bad K (n + m) P (x >>= f) Q := fun c hc => by
  refine .bind ((hx c hc).mono (fun b c' ⟨i, hR, h⟩ => ?_) fun _ _ ⟨he, i, h⟩ =>
    ⟨he, i, fun ht => (h ht).mono (List.Subset.refl _) (Nat.le_add_right n m)⟩)
  exact (hf i b c' hR).mono (fun _ _ h' => ⟨i, h'.1, fun ht => (h ht).trans (h'.2 ht)⟩) fun _ _ h' =>
    ⟨h'.1, i, fun ht => (h ht).trans (h'.2 ht)⟩

theorem steps_bind {x : B β} {f : β → B α} {R : β → State → Prop} (hx : Steps tight bad K n P x R)
    (hf : ∀ b, StepsTo tight bad K m (R b) (f b) Q) : StepsTo tight bad K (n + m) P (x >>= f) Q :=
  fun c hc => by
    have hsub : ∀ i, K ⊆ inodeBlock i :: K := fun i => List.subset_cons_self _ _
    refine .bind ((hx c hc).mono (fun b c' ⟨hR, h⟩ => ?_) fun _ _ ⟨he, h⟩ =>
      ⟨he, 0, fun ht => (h ht).mono (hsub 0) (Nat.le_add_right n m)⟩)
    refine (hf b c' hR).mono (fun _ _ ⟨i, hQ, h'⟩ => ⟨i, hQ, fun ht => ?_⟩) fun _ _ ⟨he, i, h'⟩ =>
      ⟨he, i, fun ht => ?_⟩
    · exact ((h ht).mono (hsub i) le_rfl).trans (h' ht)
    · exact ((h ht).mono (hsub i) le_rfl).trans (h' ht)

theorem zero_bind {x : B β} {f : β → B α} {R : β → State → Prop} (hx : Steps tight bad K 0 P x R)
    (hf : ∀ b, StepsTo tight bad K n (R b) (f b) Q) : StepsTo tight bad K n P (x >>= f) Q :=
  (steps_bind hx hf).le (Nat.zero_add n).le

theorem post {x : B α} {S : Nat → α → State → Prop} (hx : StepsTo tight bad K n P x S)
    (hpost : ∀ i a s, S i a s → Q i a s) : StepsTo tight bad K n P x Q := fun c hc =>
  (hx c hc).imp fun a c' ⟨i, hS, h⟩ => ⟨i, hpost i a c'.fs hS, h⟩

theorem ite {p : Prop} [Decidable p] {x y : B α} (hx : p → StepsTo tight bad K n P x Q)
    (hy : ¬ p → StepsTo tight bad K n P y Q) : StepsTo tight bad K n P (if p then x else y) Q :=
  fun c hc => .ite (fun hp => hx hp c hc) fun hp => hy hp c hc

theorem lift_pre {p : Prop} {x : B α} (hx : p → StepsTo tight bad K n P x Q) :
    StepsTo tight bad K n (fun s => p ∧ P s) x Q := fun c hc => hx hc.1 c hc.2

theorem exists_pre {P : β → State → Prop} {x : B α} (hx : ∀ b, StepsTo tight bad K n (P b) x Q) :
    StepsTo tight bad K n (fun s => ∃ b, P b s) x Q := fun c ⟨b, hc⟩ => hx b c hc

theorem forget (blk : Block) {x : B α} (hx : StepsTo tight bad (blk :: K) n P x Q) :
    StepsTo tight bad K (n + 1) P x Q := fun c hc => by
  have hswap : ∀ {i : Nat} {c' : Tx}, Grew (inodeBlock i :: blk :: K) n c c' →
      Grew (inodeBlock i :: K) (n + 1) c c' := fun h => by
    have hperm := h.mono (List.Perm.swap blk _ K).subset le_rfl
    exact hperm.forget
  exact (hx c hc).mono (fun _ _ ⟨i, hQ, h⟩ => ⟨i, hQ, fun ht => hswap (h ht)⟩) fun _ _ ⟨he, i, h⟩ =>
    ⟨he, i, fun ht => hswap (h ht)⟩

theorem steps {x : B α} (hx : StepsTo tight bad K n P x Q) :
    Steps tight bad K (n + 1) P x fun a s => ∃ i, Q i a s := fun c hc =>
  (hx c hc).mono (fun _ _ ⟨i, hQ, h⟩ => ⟨⟨i, hQ⟩, fun ht => (h ht).forget⟩) fun _ _ ⟨he, _, h⟩ =>
    ⟨he, fun ht => (h ht).forget⟩

end StepsTo

end Xv6Mmap.Fs.Tx
