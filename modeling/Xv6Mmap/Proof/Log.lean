import Xv6Mmap.Log
import Xv6Mmap.Lib.Writes

/-!
# What the functions of the log do

The kernel reads a block through `cached`, whether or not it has a buffer, so a state is looked at
through its `view`: reading and releasing buffers moves reference counts alone. Every rule has a
case for the power failing at a disk write, when the disk is still as the write found it.
-/

namespace Xv6Mmap

open Sequential (Wp)

@[ext]
structure LogView where
  disk : Nat → Block
  cached : Nat → Block
  refcnt : Nat → Nat
  log : Log
  pending : List LogWrite
  committed : List (List LogWrite)
  /-- The power does not fail. -/
  steady : Bool

def LogState.view (s : LogState) : LogView :=
  ⟨s.disk, s.cached, s.refcnt, s.log, s.pending, s.committed, s.power.isNone⟩

theorem upd_eq_update {α : Type} (f : Nat → α) (i : Nat) (x : α) :
    upd f i x = Function.update f i x := by
  funext j
  simp [upd, Function.update_apply]

section Primitives

variable {s : LogState} {d c : Nat → Block} {r : Nat → Nat} {l : Log} {pd : List LogWrite}
  {cm : List (List LogWrite)} {w : Bool} {b : Nat} {E : Halt → LogState → Prop}

theorem cached_bread (s : LogState) (b : Nat) :
    (fun c => (upd s.buf b (some (s.cached b)) c).getD (s.disk c)) = s.cached := by
  funext c
  by_cases hc : c = b
  · rw [hc, upd_self]
    rfl
  · rw [upd_of_ne _ _ hc]
    rfl

theorem cached_bwrite (s : LogState) (b : Nat) :
    (fun c => (s.buf c).getD (upd s.disk b (s.cached b) c)) = s.cached := by
  funext c
  by_cases hc : c = b
  · rw [hc, upd_self]
    cases hbuf : s.buf b <;> simp [LogState.cached, hbuf]
  · rw [upd_of_ne _ _ hc]
    rfl

theorem cached_fill (s : LogState) (b : Nat) (data : Block) :
    (fun c => (upd s.buf b (some data) c).getD (s.disk c)) = upd s.cached b data := by
  funext c
  by_cases hc : c = b
  · rw [hc, upd_self, upd_self]
    rfl
  · rw [upd_of_ne _ _ hc, upd_of_ne _ _ hc]
    rfl

theorem bread_wp (hv : s.view = ⟨d, c, r, l, pd, cm, w⟩) {Q : Block → LogState → Prop}
    (hpost : ∀ t, t.view = ⟨d, c, upd r b (r b + 1), l, pd, cm, w⟩ → Q (c b) t) :
    Wp (bread b) Q E s := by
  obtain ⟨rfl, rfl, rfl, rfl, rfl, rfl, rfl⟩ := LogView.mk.injEq .. ▸ hv
  refine .of_ok rfl (hpost _ ?_)
  simp only [LogState.view, LogView.mk.injEq, and_true, true_and]
  exact cached_bread s b

theorem fill_wp (hv : s.view = ⟨d, c, r, l, pd, cm, w⟩) {data : Block} {Q : Unit → LogState → Prop}
    (hpost : ∀ t, t.view = ⟨d, upd c b data, r, l, pd, cm, w⟩ → Q () t) : Wp (fill b data) Q E s := by
  obtain ⟨rfl, rfl, rfl, rfl, rfl, rfl, rfl⟩ := LogView.mk.injEq .. ▸ hv
  refine .of_ok rfl (hpost _ ?_)
  simp only [LogState.view, LogView.mk.injEq, and_true, true_and]
  exact cached_fill s b data

theorem bwrite_wp (hv : s.view = ⟨d, c, r, l, pd, cm, w⟩) {Q : Unit → LogState → Prop}
    (hcut : ∀ t, t.view = ⟨d, c, r, l, pd, cm, w⟩ → w = false → E .powerCut t)
    (hpost : ∀ t, t.view = ⟨upd d b (c b), c, r, l, pd, cm, w⟩ → Q () t) : Wp (bwrite b) Q E s := by
  obtain ⟨rfl, rfl, rfl, rfl, rfl, rfl, rfl⟩ := LogView.mk.injEq .. ▸ hv
  by_cases hpower : s.power = some 0
  · exact .of_error (if_pos hpower) (hcut s rfl (by rw [hpower]; rfl))
  · refine .of_ok (if_neg hpower) (hpost _ ?_)
    simp only [LogState.view, LogView.mk.injEq, and_true, true_and, Option.isNone_map]
    exact cached_bwrite s b

theorem brelse_wp (hv : s.view = ⟨d, c, r, l, pd, cm, w⟩) {Q : Unit → LogState → Prop}
    (hpost : ∀ t, t.view = ⟨d, c, upd r b (r b - 1), l, pd, cm, w⟩ → Q () t) :
    Wp (brelse b) Q E s := by
  obtain ⟨rfl, rfl, rfl, rfl, rfl, rfl, rfl⟩ := LogView.mk.injEq .. ▸ hv
  exact .of_ok rfl (hpost _ rfl)

theorem bunpin_wp (hv : s.view = ⟨d, c, r, l, pd, cm, w⟩) {Q : Unit → LogState → Prop}
    (hpost : ∀ t, t.view = ⟨d, c, upd r b (r b - 1), l, pd, cm, w⟩ → Q () t) :
    Wp (bunpin b) Q E s :=
  brelse_wp hv hpost

theorem modifyLog_wp (hv : s.view = ⟨d, c, r, l, pd, cm, w⟩) {f : Log → Log}
    {Q : Unit → LogState → Prop} (hpost : ∀ t, t.view = ⟨d, c, r, f l, pd, cm, w⟩ → Q () t) :
    Wp (modifyLog f) Q E s := by
  obtain ⟨rfl, rfl, rfl, rfl, rfl, rfl, rfl⟩ := LogView.mk.injEq .. ▸ hv
  exact .of_ok rfl (hpost _ rfl)

end Primitives

/-! ### The loops of `commit` and of recovery -/

section Loops

variable {s : LogState} {v : LogView} {E : Halt → LogState → Prop} {Q : Unit → LogState → Prop}

theorem refcnt_taken (r : Nat → Nat) {taken released : List Nat} (hperm : released.Perm taken) :
    released.foldl (fun r b => upd r b (r b - 1)) (taken.foldl (fun r b => upd r b (r b + 1)) r) =
      r := by
  have htaken : ∀ (r : Nat → Nat) (bs : List Nat) (c : Nat),
      bs.foldl (fun r b => upd r b (r b + 1)) r c = r c + bs.count c := fun r bs c => by
    induction bs generalizing r with
    | nil => rfl
    | cons b bs ih =>
        rw [List.foldl_cons, ih, List.count_cons]
        by_cases hc : c = b
        · subst hc
          simp only [upd_self, beq_self_eq_true, if_true]
          omega
        · simp [upd_of_ne _ _ hc, Ne.symm hc]
  have hreleased : ∀ (r : Nat → Nat) (bs : List Nat) (c : Nat),
      bs.foldl (fun r b => upd r b (r b - 1)) r c = r c - bs.count c := fun r bs c => by
    induction bs generalizing r with
    | nil => rfl
    | cons b bs ih =>
        rw [List.foldl_cons, ih, List.count_cons]
        by_cases hc : c = b
        · subst hc
          simp only [upd_self, beq_self_eq_true, if_true]
          omega
        · simp [upd_of_ne _ _ hc, Ne.symm hc]
  funext c
  rw [hreleased, htaken, hperm.count_eq, Nat.add_sub_cancel]

def LogView.copies (v : LogView) : Nat → List (Nat × Block) :=
  Writes.upTo (fun i => v.log.start + i + 1) (fun i => v.cached (v.log.lh.block i))

def LogView.installs (v : LogView) : Nat → List (Nat × Block) :=
  Writes.upTo v.log.lh.block (fun i => v.cached (v.log.start + i + 1))

theorem LogView.apply_copies_succ (v : LogView) (k : Nat) (store : Nat → Block) :
    Writes.apply (v.copies (k + 1)) store = upd (Writes.apply (v.copies k) store)
      (v.log.start + k + 1) (v.cached (v.log.lh.block k)) := by
  rw [LogView.copies, Writes.upTo_succ, Writes.apply_concat, upd_eq_update]

theorem LogView.apply_installs_succ (v : LogView) (k : Nat) (store : Nat → Block) :
    Writes.apply (v.installs (k + 1)) store = upd (Writes.apply (v.installs k) store)
      (v.log.lh.block k) (v.cached (v.log.start + k + 1)) := by
  rw [LogView.installs, Writes.upTo_succ, Writes.apply_concat, upd_eq_update]

/-- What a block of the header names is outside of the log, and the log has room for all of them. -/
structure LogView.Fits (v : LogView) : Prop where
  size : v.log.lh.n < v.log.size
  home : ∀ i < v.log.lh.n, v.log.IsHome (v.log.lh.block i)

theorem LogView.Fits.ne (hfits : v.Fits) {i j : Nat} (hi : i < v.log.lh.n) (hj : j < v.log.lh.n) :
    v.log.start + i + 1 ≠ v.log.lh.block j := by
  have hhome := hfits.home j hj
  have hsize := hfits.size
  simp only [Log.IsHome] at hhome
  omega

theorem LogView.Fits.cached_copies (hfits : v.Fits) {i k : Nat} (hi : i < v.log.lh.n)
    (hk : k ≤ v.log.lh.n) :
    Writes.apply (v.copies k) v.cached (v.log.lh.block i) = v.cached (v.log.lh.block i) := by
  refine Writes.apply_of_notMem (fun w hw => ?_) _
  obtain ⟨j, hj, rfl⟩ := Writes.mem_upTo.mp hw
  exact hfits.ne (by omega) hi

theorem LogView.Fits.cached_installs (hfits : v.Fits) {i k : Nat} (hi : i < v.log.lh.n)
    (hk : k ≤ v.log.lh.n) :
    Writes.apply (v.installs k) v.cached (v.log.start + i + 1) = v.cached (v.log.start + i + 1) := by
  refine Writes.apply_of_notMem (fun w hw => ?_) _
  obtain ⟨j, hj, rfl⟩ := Writes.mem_upTo.mp hw
  exact (hfits.ne hi (by omega)).symm

theorem writeLog_wp (hv : s.view = v) (hfits : v.Fits)
    (hcut : ∀ k < v.log.lh.n, ∀ t, t.view.disk = Writes.apply (v.copies k) v.disk →
      t.view.log = v.log → t.view.committed = v.committed → v.steady = false → E .powerCut t)
    (hpost : ∀ t, t.view = { v with
        disk := Writes.apply (v.copies v.log.lh.n) v.disk
        cached := Writes.apply (v.copies v.log.lh.n) v.cached } → Q () t) :
    Wp writeLog Q E s := by
  obtain ⟨d, c, r, l, pd, cm, w⟩ := v
  have hlog : s.log = l := congrArg LogView.log hv
  refine .get ?_
  rw [hlog]
  refine Wp.forUp (fun k t => t.view = ⟨Writes.apply (LogView.copies _ k) d,
    Writes.apply (LogView.copies _ k) c, r, l, pd, cm, w⟩) hv (fun k hk t ht => ?_) hpost
  have hlog' : t.log = l := congrArg LogView.log ht
  have hsrc := hfits.cached_copies hk hk.le
  rw [Nat.zero_add, Nat.mul_one]
  refine .get ?_
  rw [hlog']
  refine .bind (bread_wp ht fun t₁ h₁ => .bind (bread_wp h₁ fun t₂ h₂ => ?_))
  refine .bind (fill_wp h₂ fun t₃ h₃ => .bind (bwrite_wp h₃ (fun t' ht' hw => ?_) fun t₄ h₄ => ?_))
  · refine hcut k hk t' ?_ ?_ ?_ hw <;> rw [ht']
  · refine .bind (brelse_wp h₄ fun t₅ h₅ => brelse_wp h₅ fun t₆ h₆ => ?_)
    rw [h₆, LogView.apply_copies_succ, LogView.apply_copies_succ, upd_self]
    exact LogView.ext (by rw [hsrc]) (by rw [hsrc]) (refcnt_taken r (.swap _ _ [])) rfl rfl rfl rfl

/-- The counts when `install_trans` has done `k` rounds: each gives up a pin, unless it recovers. -/
def LogView.unpinned (v : LogView) (recovering : Bool) (k : Nat) : Nat → Nat := fun b =>
  if recovering then v.refcnt b else v.refcnt b - ((List.range k).map v.log.lh.block).count b

theorem LogView.unpinned_zero (v : LogView) (recovering : Bool) :
    v.unpinned recovering 0 = v.refcnt := by
  funext b
  simp [unpinned]

theorem LogView.unpinned_succ (v : LogView) (k a : Nat) :
    let b := v.log.lh.block k
    let r := v.unpinned false k
    let r₁ := upd r a (r a + 1)
    let r₂ := upd r₁ b (r₁ b + 1)
    let r₃ := upd r₂ b (r₂ b - 1)
    let r₄ := upd r₃ a (r₃ a - 1)
    upd r₄ b (r₄ b - 1) = v.unpinned false (k + 1) := by
  funext c
  simp only [upd, unpinned, List.range_succ, List.map_append, List.map_cons, List.map_nil,
    List.count_append, List.count_singleton, beq_iff_eq, Bool.false_eq_true, if_false]
  split_ifs <;> first | omega | (subst_vars; omega)

theorem installTrans_wp (hv : s.view = v) (hfits : v.Fits) (recovering : Bool)
    (hcut : ∀ k < v.log.lh.n, ∀ t, t.view.disk = Writes.apply (v.installs k) v.disk →
      t.view.log = v.log → t.view.committed = v.committed → v.steady = false → E .powerCut t)
    (hpost : ∀ t, t.view = { v with
        disk := Writes.apply (v.installs v.log.lh.n) v.disk
        cached := Writes.apply (v.installs v.log.lh.n) v.cached
        refcnt := v.unpinned recovering v.log.lh.n } → Q () t) :
    Wp (installTrans recovering) Q E s := by
  obtain ⟨d, c, r, l, pd, cm, w⟩ := v
  have hlog : s.log = l := congrArg LogView.log hv
  refine .get ?_
  rw [hlog]
  refine Wp.forUp (fun k t => t.view = ⟨Writes.apply (LogView.installs _ k) d,
    Writes.apply (LogView.installs _ k) c, LogView.unpinned _ recovering k, l, pd, cm, w⟩)
    (by rw [hv, LogView.unpinned_zero]; rfl) (fun k hk t ht => ?_) hpost
  have hlog' : t.log = l := congrArg LogView.log ht
  have hsrc := hfits.cached_installs hk hk.le
  rw [Nat.zero_add, Nat.mul_one]
  refine .get ?_
  rw [hlog']
  refine .bind (bread_wp ht fun t₁ h₁ => .bind (bread_wp h₁ fun t₂ h₂ => ?_))
  refine .bind (fill_wp h₂ fun t₃ h₃ => .bind (bwrite_wp h₃ (fun t' ht' hw => ?_) fun t₄ h₄ => ?_))
  · refine hcut k hk t' ?_ ?_ ?_ hw <;> rw [ht']
  · rw [LogView.apply_installs_succ, LogView.apply_installs_succ]
    rw [upd_self] at h₄
    cases recovering with
    | true =>
        refine .bind (brelse_wp h₄ fun t₅ h₅ => brelse_wp h₅ fun t₆ h₆ => h₆.trans ?_)
        exact LogView.ext (by rw [hsrc]) (by rw [hsrc]) (refcnt_taken r (.refl [_, _])) rfl rfl rfl rfl
    | false =>
        refine .bind (bunpin_wp h₄ fun t₅ h₅ => .bind (brelse_wp h₅ fun t₆ h₆ => ?_))
        refine brelse_wp h₆ fun t₇ h₇ => h₇.trans ?_
        exact LogView.ext (by rw [hsrc]) (by rw [hsrc])
          (LogView.unpinned_succ ⟨d, c, r, l, pd, cm, w⟩ k _) rfl rfl rfl rfl

end Loops

/-! ### The header -/

section Head

variable {s : LogState} {d c : Nat → Block} {r : Nat → Nat} {l : Log} {pd : List LogWrite}
  {cm : List (List LogWrite)} {w : Bool} {E : Halt → LogState → Prop} {Q : Unit → LogState → Prop}

def Block.header (hb : Block) (old : LogHeader) : LogHeader :=
  ⟨hb 0, fun i => if i < hb 0 then hb (i + 1) else old.block i⟩

theorem readHead_wp (hv : s.view = ⟨d, c, r, l, pd, cm, w⟩)
    (hpost : ∀ t, t.view = ⟨d, c, r, { l with lh := (c l.start).header l.lh }, pd, cm, w⟩ → Q () t) :
    Wp readHead Q E s := by
  have hlog : s.log = l := congrArg LogView.log hv
  refine .get ?_
  rw [hlog]
  refine .bind (bread_wp hv fun t₁ h₁ => .bind (modifyLog_wp h₁ fun t₂ h₂ => ?_))
  refine brelse_wp h₂ fun t₃ h₃ => hpost t₃ (h₃.trans ?_)
  exact LogView.ext rfl rfl (refcnt_taken r (.refl [_])) rfl rfl rfl rfl

theorem observe_wp (hv : s.view = ⟨d, c, r, l, pd, cm, w⟩) {Q : PUnit → LogState → Prop}
    (hpost : ∀ t, t.view = ⟨d, c, r, l, [], cm ++ [pd], w⟩ → Q ⟨⟩ t) :
    Wp (modify fun s => { s with committed := s.committed ++ [s.pending], pending := [] }) Q E s := by
  obtain ⟨rfl, rfl, rfl, rfl, rfl, rfl, rfl⟩ := LogView.mk.injEq .. ▸ hv
  exact .of_ok rfl (hpost _ rfl)

theorem writeHead_wp (hv : s.view = ⟨d, c, r, l, pd, cm, w⟩)
    (hcut : ∀ t, t.view.disk = d → t.view.log = l → t.view.committed = cm → w = false →
      E .powerCut t)
    (hpost : ∀ t, t.view = ⟨upd d l.start (l.lh.words (c l.start)),
      upd c l.start (l.lh.words (c l.start)), r, l, if 0 < l.lh.n then [] else pd,
      if 0 < l.lh.n then cm ++ [pd] else cm, w⟩ → Q () t) : Wp writeHead Q E s := by
  have hlog : s.log = l := congrArg LogView.log hv
  refine .get ?_
  rw [hlog]
  refine .bind (bread_wp hv fun t₁ h₁ => .bind (fill_wp h₁ fun t₂ h₂ => ?_))
  refine .bind (bwrite_wp h₂ (fun t' ht' hw => ?_) fun t₃ h₃ => ?_)
  · refine hcut t' ?_ ?_ ?_ hw <;> rw [ht']
  · rw [upd_self] at h₃
    by_cases hn : 0 < l.lh.n
    · simp only [if_pos hn] at hpost ⊢
      refine .bind (observe_wp h₃ fun t₄ h₄ => brelse_wp h₄ fun t₅ h₅ => hpost t₅ (h₅.trans ?_))
      exact LogView.ext rfl rfl (refcnt_taken r (.refl [_])) rfl rfl rfl rfl
    · simp only [if_neg hn] at hpost ⊢
      refine .bind (.pure (brelse_wp h₃ fun t₄ h₄ => hpost t₄ (h₄.trans ?_)))
      exact LogView.ext rfl rfl (refcnt_taken r (.refl [_])) rfl rfl rfl rfl

end Head

end Xv6Mmap
