import Xv6Mmap.Lib.Count
import Xv6Mmap.Proof.LogCrash

/-!
# Runs of the log

While the kernel is up, the disk holds the home blocks of the committed transactions, and the cache
those of the transaction that is being built: a block differs from the disk only if it is logged, and
then it is pinned, or if the process that holds it has yet to log it.
-/

namespace Xv6Mmap

open Sequential (Wp)

def LogPc.busy : LogPc → Bool
  | .inOp _ => true
  | _ => false

def LogPc.closing : LogPc → Bool
  | .committing => true
  | .committed => true
  | _ => false

def LogHeader.Has (lh : LogHeader) (b : Nat) : Prop := ∃ i < lh.n, lh.block i = b

theorem LogHeader.slot_of_has {lh : LogHeader} {b : Nat} (hhas : lh.Has b) :
    lh.slot b < lh.n ∧ lh.block (lh.slot b) = b := by
  unfold slot
  cases hfind : (List.range lh.n).find? fun i => lh.block i = b with
  | none =>
      obtain ⟨i, hi, heq⟩ := hhas
      exact absurd heq (List.find?_range_none hfind i hi)
  | some i => exact List.find?_range_some hfind

theorem LogHeader.slot_of_not_has {lh : LogHeader} {b : Nat} (hhas : ¬ lh.Has b) :
    lh.slot b = lh.n := by
  unfold slot
  cases hfind : (List.range lh.n).find? fun i => lh.block i = b with
  | none => rfl
  | some i =>
      obtain ⟨hi, heq⟩ := List.find?_range_some hfind
      exact absurd ⟨i, hi, heq⟩ hhas

section LogWrite

variable {s : LogState} {d c : Nat → Block} {r : Nat → Nat} {l : Log} {pd : List LogWrite}
  {cm : List (List LogWrite)} {w : Bool} {op b : Nat} {E : Halt → LogState → Prop}

theorem bpin_wp (hv : s.view = ⟨d, c, r, l, pd, cm, w⟩) {Q : Unit → LogState → Prop}
    (hpost : ∀ t, t.view = ⟨d, c, upd r b (r b + 1), l, pd, cm, w⟩ → Q () t) :
    Wp (bpin b) Q E s := by
  obtain ⟨rfl, rfl, rfl, rfl, rfl, rfl, rfl⟩ := LogView.mk.injEq .. ▸ hv
  exact .of_ok rfl (hpost _ rfl)

theorem record_wp (hv : s.view = ⟨d, c, r, l, pd, cm, w⟩) {Q : PUnit → LogState → Prop}
    (hpost : ∀ t, t.view = ⟨d, c, r, l, pd ++ [⟨op, b, c b⟩], cm, w⟩ → Q ⟨⟩ t) :
    Wp (modify fun s => { s with pending := s.pending ++ [⟨op, b, s.cached b⟩] }) Q E s := by
  obtain ⟨rfl, rfl, rfl, rfl, rfl, rfl, rfl⟩ := LogView.mk.injEq .. ▸ hv
  exact .of_ok rfl (hpost _ rfl)

theorem logWrite_wp {Q : Unit → LogState → Prop} (hv : s.view = ⟨d, c, r, l, pd, cm, w⟩)
    (hpanic : ∀ e, E (.panic e) s)
    (habsorb : l.lh.Has b → ∀ t, t.view = ⟨d, c, r, l, pd ++ [⟨op, b, c b⟩], cm, w⟩ → Q () t)
    (hpush : ¬ l.lh.Has b → l.lh.n + 1 < l.size → ∀ t, t.view = ⟨d, c, upd r b (r b + 1),
      { l with lh := ⟨l.lh.n + 1, upd l.lh.block l.lh.n b⟩ }, pd ++ [⟨op, b, c b⟩], cm, w⟩ →
      Q () t) : Wp (logWrite op b) Q E s := by
  have hlog : s.log = l := congrArg LogView.log hv
  refine .get ?_
  rw [hlog]
  refine .ite (fun _ => .of_error rfl (hpanic _)) fun hsize => .ite
    (fun _ => .of_error rfl (hpanic _)) fun _ => .bind (modifyLog_wp hv fun t₁ h₁ => ?_)
  by_cases hhas : l.lh.Has b
  · obtain ⟨hslot, hblock⟩ := LogHeader.slot_of_has hhas
    simp only [if_neg hslot.ne]
    simp only [upd_eq_self _ _ hblock] at h₁
    exact record_wp h₁ (habsorb hhas)
  · have hslot := LogHeader.slot_of_not_has hhas
    simp only [if_pos hslot]
    refine .bind (bpin_wp h₁ fun t₂ h₂ => .bind (modifyLog_wp h₂ fun t₃ h₃ => record_wp h₃ ?_))
    simp only [hslot]
    exact hpush hhas (by omega)

end LogWrite

/-- What holds while the kernel is up, of its memory and disk and of the processes. -/
structure Running (base : Nat → Block) (v : LogView) (pc : Nat → LogPc)
    (holder : Nat → Option Nat) (unlogged : Nat → List Nat) : Prop where
  fits : v.Fits
  distinct : ∀ i < v.log.lh.n, ∀ j < v.log.lh.n, v.log.lh.block i = v.log.lh.block j → i = j
  clean : v.disk v.log.start 0 = 0
  home : ∀ b, v.log.IsHome b → v.disk b = applied base v.committed b
  coherent : ∀ b, ¬ v.log.lh.Has b → (∀ p, b ∉ unlogged p) → v.cached b = v.disk b
  logged : ∀ b, v.log.lh.Has b → (∀ p, b ∉ unlogged p) →
    Writes.last (v.pending.map LogWrite.write) b = some (v.cached b)
  recorded : ∀ b, v.log.lh.Has b ↔ ∃ w ∈ v.pending, w.blockno = b
  pinned : ∀ b, v.log.lh.Has b → 1 + (holder b).toList.length ≤ v.refcnt b
  held : ∀ b, (holder b).toList.length ≤ v.refcnt b
  changed : ∀ p, ∀ b ∈ unlogged p, holder b = some p ∧ v.log.IsHome b ∧ (pc p).busy = true
  busy : ∃ S : Finset Nat, S.card = v.log.outstanding ∧ ∀ p, p ∈ S ↔ (pc p).busy = true
  closing : ∀ p, (pc p).closing = true → v.log.committing = true ∧ v.log.outstanding = 0
  closer : ∀ p q, (pc p).closing = true → (pc q).closing = true → p = q

namespace Running

variable {base : Nat → Block} {d c : Nat → Block} {r : Nat → Nat} {l : Log} {pd : List LogWrite}
  {cm : List (List LogWrite)} {w w' : Bool} {v : LogView} {pc : Nat → LogPc}
  {holder : Nat → Option Nat} {unlogged : Nat → List Nat} {p b op : Nat}

theorem not_busy (hrun : Running base v pc holder unlogged) (hzero : v.log.outstanding = 0)
    (p : Nat) : (pc p).busy = false := by
  obtain ⟨S, hcard, hmem⟩ := hrun.busy
  have hempty : S = ∅ := Finset.card_eq_zero.mp (hcard.trans hzero)
  have hnot := mt (hmem p).mpr (by simp [hempty])
  simpa using hnot

theorem unlogged_eq_nil (hrun : Running base v pc holder unlogged) (hnot : (pc p).busy = false) :
    unlogged p = [] := by
  refine List.eq_nil_iff_forall_not_mem.mpr fun b hb => ?_
  have hbusy := (hrun.changed p b hb).2.2
  rw [hnot] at hbusy
  exact absurd hbusy (by decide)

theorem steady (hrun : Running base ⟨d, c, r, l, pd, cm, w⟩ pc holder unlogged) :
    Running base ⟨d, c, r, l, pd, cm, w'⟩ pc holder unlogged := by
  obtain ⟨h₁, h₂, h₃, h₄, h₅, h₆, h₇, h₈, h₉, h₁₀, h₁₁, h₁₂, h₁₃⟩ := hrun
  exact ⟨⟨h₁.size, h₁.home⟩, h₂, h₃, h₄, h₅, h₆, h₇, h₈, h₉, h₁₀, h₁₁, h₁₂, h₁₃⟩

theorem bread (hrun : Running base ⟨d, c, r, l, pd, cm, w⟩ pc holder unlogged)
    (hfree : holder b = none) :
    Running base ⟨d, c, upd r b (r b + 1), l, pd, cm, w⟩ pc (upd holder b (some p)) unlogged := by
  obtain ⟨h₁, h₂, h₃, h₄, h₅, h₆, h₇, hpinned, hheld, hchanged, h₁₁, h₁₂, h₁₃⟩ := hrun
  refine ⟨⟨h₁.size, h₁.home⟩, h₂, h₃, h₄, h₅, h₆, h₇, fun x hx => ?_, fun x => ?_,
    fun q x hx => ?_, h₁₁, h₁₂, h₁₃⟩
  · have hbefore := hpinned x hx
    by_cases hxb : x = b
    · subst hxb
      simp only [hfree, Option.toList_none, List.length_nil, upd_self, Option.toList_some,
        List.length_singleton] at hbefore ⊢
      omega
    · simpa only [upd_of_ne _ _ hxb] using hbefore
  · have hbefore := hheld x
    by_cases hxb : x = b
    · subst hxb
      simp only [upd_self, Option.toList_some, List.length_singleton]
      omega
    · simpa only [upd_of_ne _ _ hxb] using hbefore
  · obtain ⟨hholder, hrest⟩ := hchanged q x hx
    have hxb : x ≠ b := fun h => by rw [h, hfree] at hholder; exact absurd hholder (by simp)
    exact ⟨by rw [upd_of_ne _ _ hxb]; exact hholder, hrest⟩

theorem brelse (hrun : Running base ⟨d, c, r, l, pd, cm, w⟩ pc holder unlogged)
    (hholder : holder b = some p) (hlogged : b ∉ unlogged p) :
    Running base ⟨d, c, upd r b (r b - 1), l, pd, cm, w⟩ pc (upd holder b none) unlogged := by
  obtain ⟨h₁, h₂, h₃, h₄, h₅, h₆, h₇, hpinned, hheld, hchanged, h₁₁, h₁₂, h₁₃⟩ := hrun
  refine ⟨⟨h₁.size, h₁.home⟩, h₂, h₃, h₄, h₅, h₆, h₇, fun x hx => ?_, fun x => ?_,
    fun q x hx => ?_, h₁₁, h₁₂, h₁₃⟩
  · have hbefore := hpinned x hx
    by_cases hxb : x = b
    · subst hxb
      simp only [hholder, upd_self, Option.toList_none, List.length_nil, Option.toList_some,
        List.length_singleton] at hbefore ⊢
      omega
    · simpa only [upd_of_ne _ _ hxb] using hbefore
  · by_cases hxb : x = b
    · subst hxb
      simp
    · simpa only [upd_of_ne _ _ hxb] using hheld x
  · obtain ⟨hq, hrest⟩ := hchanged q x hx
    have hxb : x ≠ b := by
      rintro rfl
      obtain rfl : p = q := by simpa using hholder.symm.trans hq
      exact hlogged hx
    exact ⟨by rw [upd_of_ne _ _ hxb]; exact hq, hrest⟩

theorem modify (hrun : Running base ⟨d, c, r, l, pd, cm, w⟩ pc holder unlogged)
    (hholder : holder b = some p) (hhome : l.IsHome b) (hbusy : (pc p).busy = true)
    (data : Block) :
    Running base ⟨d, upd c b data, r, l, pd, cm, w⟩ pc holder
      (upd unlogged p (b :: unlogged p)) := by
  obtain ⟨h₁, h₂, h₃, h₄, hcoherent, hlogged, h₇, h₈, h₉, hchanged, h₁₁, h₁₂, h₁₃⟩ := hrun
  -- a block no process has changed is not `b`, and was not changed before
  have hother : ∀ x, (∀ q, x ∉ upd unlogged p (b :: unlogged p) q) →
      x ≠ b ∧ ∀ q, x ∉ unlogged q := by
    intro x hx
    have hp := hx p
    rw [upd_self, List.mem_cons, not_or] at hp
    refine ⟨hp.1, fun q hq => ?_⟩
    by_cases hqp : q = p
    · exact hp.2 (hqp ▸ hq)
    · exact hx q (by rwa [upd_of_ne _ _ hqp])
  refine ⟨⟨h₁.size, h₁.home⟩, h₂, h₃, h₄, fun x hx hun => ?_, fun x hx hun => ?_, h₇, h₈, h₉,
    fun q x hx => ?_, h₁₁, h₁₂, h₁₃⟩
  · obtain ⟨hne, hbefore⟩ := hother x hun
    show upd c b data x = d x
    rw [upd_of_ne _ _ hne]
    exact hcoherent x hx hbefore
  · obtain ⟨hne, hbefore⟩ := hother x hun
    show _ = some (upd c b data x)
    rw [upd_of_ne _ _ hne]
    exact hlogged x hx hbefore
  · by_cases hqp : q = p
    · subst hqp
      rw [upd_self, List.mem_cons] at hx
      obtain rfl | hx := hx
      · exact ⟨hholder, hhome, hbusy⟩
      · exact hchanged q x hx
    · rw [upd_of_ne _ _ hqp] at hx
      exact hchanged q x hx

theorem mem_unlogged_filter {x q : Nat} (hne : x ≠ b) :
    x ∈ upd unlogged p ((unlogged p).filter fun y => y ≠ b) q ↔ x ∈ unlogged q := by
  by_cases hqp : q = p
  · subst hqp
    simp [hne]
  · rw [upd_of_ne _ _ hqp]

theorem changed_filter {P : Nat → Nat → Prop} (hchanged : ∀ q, ∀ x ∈ unlogged q, P q x) :
    ∀ q, ∀ x ∈ upd unlogged p ((unlogged p).filter fun y => y ≠ b) q, P q x := by
  intro q x hx
  by_cases hqp : q = p
  · subst hqp
    rw [upd_self] at hx
    exact hchanged q x (List.mem_of_mem_filter hx)
  · rw [upd_of_ne _ _ hqp] at hx
    exact hchanged q x hx

theorem last_logged (pd : List LogWrite) (op b : Nat) (data : Block) (x : Nat) :
    Writes.last ((pd ++ [(⟨op, b, data⟩ : LogWrite)]).map LogWrite.write) x =
      if b = x then some data else Writes.last (pd.map LogWrite.write) x := by
  rw [List.map_append]
  exact Writes.last_concat _ b data x

theorem mem_logged {pd : List LogWrite} {op b x : Nat} {data : Block} :
    (∃ w ∈ pd ++ [⟨op, b, data⟩], w.blockno = x) ↔ (∃ w ∈ pd, w.blockno = x) ∨ b = x := by
  simp [or_and_right, exists_or]

theorem logWrite_absorb (hrun : Running base ⟨d, c, r, l, pd, cm, w⟩ pc holder unlogged)
    (hhas : l.lh.Has b) :
    Running base ⟨d, c, r, l, pd ++ [⟨op, b, c b⟩], cm, w⟩ pc holder
      (upd unlogged p ((unlogged p).filter fun x => x ≠ b)) := by
  obtain ⟨h₁, h₂, h₃, h₄, hcoherent, hlogged, hrecorded, h₈, h₉, hchanged, h₁₁, h₁₂, h₁₃⟩ := hrun
  refine ⟨⟨h₁.size, h₁.home⟩, h₂, h₃, h₄, fun x hx hun => ?_, fun x hx hun => ?_, fun x => ?_, h₈,
    h₉, changed_filter hchanged, h₁₁, h₁₂, h₁₃⟩
  · have hne : x ≠ b := fun h => hx (h ▸ hhas)
    exact hcoherent x hx fun q hq => hun q ((mem_unlogged_filter hne).mpr hq)
  · rw [last_logged]
    by_cases hbx : b = x
    · rw [if_pos hbx, hbx]
    · rw [if_neg hbx]
      exact hlogged x hx fun q hq => hun q ((mem_unlogged_filter (Ne.symm hbx)).mpr hq)
  · rw [mem_logged, ← hrecorded x]
    exact ⟨.inl, fun h => h.elim id fun hbx => hbx ▸ hhas⟩

theorem has_push {lh : LogHeader} {x : Nat} :
    (⟨lh.n + 1, upd lh.block lh.n b⟩ : LogHeader).Has x ↔ lh.Has x ∨ b = x := by
  constructor
  · rintro ⟨i, hi, heq⟩
    by_cases hin : i = lh.n
    · subst hin
      exact .inr (by simpa using heq)
    · refine .inl ⟨i, by simp only at hi; omega, ?_⟩
      rwa [show (⟨lh.n + 1, upd lh.block lh.n b⟩ : LogHeader).block = upd lh.block lh.n b from rfl,
        upd_of_ne _ _ hin] at heq
  · rintro (⟨i, hi, rfl⟩ | rfl)
    · exact ⟨i, Nat.lt_succ_of_lt hi, upd_of_ne _ _ (by omega)⟩
    · exact ⟨lh.n, Nat.lt_succ_self _, upd_self _ _ _⟩

theorem logWrite_push (hrun : Running base ⟨d, c, r, l, pd, cm, w⟩ pc holder unlogged)
    (hhas : ¬ l.lh.Has b) (hhome : l.IsHome b) (hroom : l.lh.n + 1 < l.size) :
    Running base ⟨d, c, upd r b (r b + 1),
      { l with lh := ⟨l.lh.n + 1, upd l.lh.block l.lh.n b⟩ }, pd ++ [⟨op, b, c b⟩], cm, w⟩ pc holder
      (upd unlogged p ((unlogged p).filter fun x => x ≠ b)) := by
  obtain ⟨hfits, hdistinct, h₃, h₄, hcoherent, hlogged, hrecorded, hpinned, hheld, hchanged, h₁₁,
    h₁₂, h₁₃⟩ := hrun
  have hold : ∀ i < l.lh.n, upd l.lh.block l.lh.n b i = l.lh.block i := fun i hi =>
    upd_of_ne _ _ (by omega)
  have hnew : ∀ i < l.lh.n, l.lh.block i ≠ b := fun i hi h => hhas ⟨i, hi, h⟩
  refine ⟨⟨hroom, fun i hi => ?_⟩, fun i hi j hj heq => ?_, h₃, h₄, fun x hx hun => ?_,
    fun x hx hun => ?_, fun x => ?_, fun x hx => ?_, fun x => ?_, changed_filter hchanged, h₁₁, h₁₂,
    h₁₃⟩
  · show l.IsHome (upd l.lh.block l.lh.n b i)
    obtain rfl | hlt : i = l.lh.n ∨ i < l.lh.n := by simp only at hi; omega
    · rwa [upd_self]
    · rw [hold i hlt]
      exact hfits.home i hlt
  · simp only at hi hj heq
    obtain rfl | hi' : i = l.lh.n ∨ i < l.lh.n := by omega
    · obtain rfl | hj' : j = l.lh.n ∨ j < l.lh.n := by omega
      · rfl
      · rw [upd_self, hold j hj'] at heq
        exact absurd heq.symm (hnew j hj')
    · obtain rfl | hj' : j = l.lh.n ∨ j < l.lh.n := by omega
      · rw [upd_self, hold i hi'] at heq
        exact absurd heq (hnew i hi')
      · rw [hold i hi', hold j hj'] at heq
        exact hdistinct i hi' j hj' heq
  · obtain ⟨hx, hne⟩ := not_or.mp (mt has_push.mpr hx)
    exact hcoherent x hx fun q hq => hun q ((mem_unlogged_filter (Ne.symm hne)).mpr hq)
  · rw [last_logged]
    by_cases hbx : b = x
    · rw [if_pos hbx, hbx]
    · rw [if_neg hbx]
      exact hlogged x ((has_push.mp hx).resolve_right hbx) fun q hq =>
        hun q ((mem_unlogged_filter (Ne.symm hbx)).mpr hq)
  · rw [mem_logged, ← hrecorded x]
    exact has_push
  · show _ ≤ upd r b (r b + 1) x
    by_cases hxb : x = b
    · subst hxb
      rw [upd_self]
      have hbefore : _ ≤ r x := hheld x
      omega
    · rw [upd_of_ne _ _ hxb]
      exact hpinned x ((has_push.mp hx).resolve_right (Ne.symm hxb))
  · show _ ≤ upd r b (r b + 1) x
    have hbefore : _ ≤ r x := hheld x
    by_cases hxb : x = b
    · subst hxb
      rw [upd_self]
      omega
    · rwa [upd_of_ne _ _ hxb]

theorem beginOp (hrun : Running base ⟨d, c, r, l, pd, cm, w⟩ pc holder unlogged)
    (hpc : pc p = .outside) (hcommitting : l.committing = false) :
    Running base ⟨d, c, r, { l with outstanding := l.outstanding + 1 }, pd, cm, w⟩
      (upd pc p (.inOp op)) holder unlogged := by
  obtain ⟨h₁, h₂, h₃, h₄, h₅, h₆, h₇, h₈, h₉, hchanged, ⟨S, hcard, hmem⟩, hclosing, h₁₃⟩ := hrun
  have hnone : ∀ q, (pc q).closing = true → False := fun q hq => by
    have := (hclosing q hq).1
    simp [hcommitting] at this
  have hclosing' : ∀ q, (upd pc p (.inOp op) q).closing = true → False := fun q hq => by
    by_cases hqp : q = p
    · subst hqp
      simp [LogPc.closing] at hq
    · rw [upd_of_ne _ _ hqp] at hq
      exact hnone q hq
  refine ⟨⟨h₁.size, h₁.home⟩, h₂, h₃, h₄, h₅, h₆, h₇, h₈, h₉, fun q x hx => ?_,
    ⟨insert p S, ?_, fun q => ?_⟩, fun q hq => (hclosing' q hq).elim,
    fun q _ hq _ => (hclosing' q hq).elim⟩
  · obtain ⟨hholder, hhome, hbusy⟩ := hchanged q x hx
    refine ⟨hholder, hhome, ?_⟩
    by_cases hqp : q = p
    · rw [hqp, upd_self]
      rfl
    · rwa [upd_of_ne _ _ hqp]
  · have hp : p ∉ S := fun h => by
      have := (hmem p).mp h
      rw [hpc] at this
      exact absurd this (by decide)
    rw [Finset.card_insert_of_notMem hp, hcard]
  · by_cases hqp : q = p
    · subst hqp
      simp [LogPc.busy]
    · rw [Finset.mem_insert, hmem q, upd_of_ne _ _ hqp]
      simp [hqp]

theorem endOp (hrun : Running base ⟨d, c, r, l, pd, cm, w⟩ pc holder unlogged)
    (hpc : pc p = .inOp op) (hlogged : unlogged p = []) (hcommitting : l.committing = false)
    {next : LogPc} (hnext : next.busy = false) {closed : Bool}
    (hclosed : next.closing = true → closed = true ∧ l.outstanding - 1 = 0) :
    Running base
      ⟨d, c, r, { l with outstanding := l.outstanding - 1, committing := closed }, pd, cm, w⟩
      (upd pc p next) holder unlogged := by
  obtain ⟨h₁, h₂, h₃, h₄, h₅, h₆, h₇, h₈, h₉, hchanged, ⟨S, hcard, hmem⟩, hclosing, h₁₃⟩ := hrun
  -- nobody was committing, so only `p` can be
  have hnone : ∀ q, (upd pc p next q).closing = true → q = p := fun q hq => by
    by_contra hqp
    rw [upd_of_ne _ _ hqp] at hq
    have := (hclosing q hq).1
    simp [hcommitting] at this
  refine ⟨⟨h₁.size, h₁.home⟩, h₂, h₃, h₄, h₅, h₆, h₇, h₈, h₉, fun q x hx => ?_,
    ⟨S.erase p, ?_, fun q => ?_⟩, fun q hq => ?_, fun q q' hq hq' => ?_⟩
  · have hqp : q ≠ p := by
      rintro rfl
      simp [hlogged] at hx
    rw [upd_of_ne _ _ hqp]
    exact hchanged q x hx
  · have hp : p ∈ S := (hmem p).mpr (by rw [hpc]; rfl)
    rw [Finset.card_erase_of_mem hp, hcard]
  · by_cases hqp : q = p
    · subst hqp
      simp [hnext]
    · rw [Finset.mem_erase, hmem q, upd_of_ne _ _ hqp]
      simp [hqp]
  · obtain rfl := hnone q hq
    rw [upd_self] at hq
    exact hclosed hq
  · rw [hnone q hq, hnone q' hq']

theorem ready (hrun : Running base v pc holder unlogged) (hzero : v.log.outstanding = 0) :
    Ready base v := by
  have hnil : ∀ b p, b ∉ unlogged p := fun b p => by
    rw [hrun.unlogged_eq_nil (hrun.not_busy hzero p)]
    exact List.not_mem_nil
  refine ⟨hrun.fits, hrun.distinct, hrun.clean, hrun.home, fun b hb => ?_,
    fun i hi => hrun.logged _ ⟨i, hi, rfl⟩ (hnil _), fun b hb => ?_⟩
  · refine hrun.coherent b (fun hhas => ?_) (hnil b)
    obtain ⟨i, hi, rfl⟩ := hhas
    exact hb (hrun.fits.home i hi)
  · refine Writes.last_eq_none.mpr fun x hx => ?_
    obtain ⟨y, hy, rfl⟩ := List.mem_map.mp hx
    intro heq
    obtain ⟨i, hi, hblock⟩ := (hrun.recorded b).mpr ⟨y, hy, heq⟩
    exact hb i hi hblock

theorem unpinned_le (hrun : Running base v pc holder unlogged) (b : Nat) :
    (holder b).toList.length ≤ v.unpinned false v.log.lh.n b := by
  have hnodup : ((List.range v.log.lh.n).map v.log.lh.block).Nodup :=
    List.Nodup.map_on (fun i hi j hj heq =>
      hrun.distinct i (List.mem_range.mp hi) j (List.mem_range.mp hj) heq) List.nodup_range
  simp only [LogView.unpinned, Bool.false_eq_true, if_false]
  by_cases hhas : v.log.lh.Has b
  · have hone := List.nodup_iff_count_le_one.mp hnodup b
    have hpinned := hrun.pinned b hhas
    omega
  · have hzero : ((List.range v.log.lh.n).map v.log.lh.block).count b = 0 := by
      refine List.count_eq_zero.mpr fun hmem => hhas ?_
      obtain ⟨i, hi, heq⟩ := List.mem_map.mp hmem
      exact ⟨i, List.mem_range.mp hi, heq⟩
    rw [hzero]
    exact hrun.held b

theorem commit (hrun : Running base v pc holder unlogged) (hpc : pc p = .committing)
    {v' : LogView} (hdone : Emptied base v v') :
    Running base v' (upd pc p .committed) holder unlogged := by
  obtain ⟨hcommitting, hzero⟩ := hrun.closing p (by rw [hpc]; rfl)
  have hbusy : ∀ q, (upd pc p .committed q).busy = (pc q).busy := fun q => by
    by_cases hqp : q = p
    · rw [hqp, upd_self, hpc]
      rfl
    · rw [upd_of_ne _ _ hqp]
  have hclosing : ∀ q, (upd pc p .committed q).closing = (pc q).closing := fun q => by
    by_cases hqp : q = p
    · rw [hqp, upd_self, hpc]
      rfl
    · rw [upd_of_ne _ _ hqp]
  have hhas : ∀ b, ¬ v'.log.lh.Has b := fun b ⟨i, hi, _⟩ => by
    rw [hdone.log] at hi
    exact Nat.not_lt_zero i hi
  have hsize := hrun.fits.size
  constructor
  case fits =>
    refine ⟨?_, fun i hi => (hhas _ ⟨i, hi, rfl⟩).elim⟩
    rw [hdone.log]
    exact Nat.zero_lt_of_lt hsize
  case distinct => exact fun i hi => (hhas _ ⟨i, hi, rfl⟩).elim
  case clean =>
    rw [hdone.log]
    exact hdone.clean
  case home =>
    rw [hdone.log]
    exact hdone.home
  case coherent =>
    intro b _ hun
    by_cases hhome : v.log.IsHome b
    · rw [hdone.cached b hhome]
      by_cases hb : v.log.lh.Has b
      · obtain ⟨i, hi, rfl⟩ := hb
        exact (hdone.installed i hi).symm
      · rw [hdone.untouched b hhome fun i hi h => hb ⟨i, hi, h⟩]
        exact hrun.coherent b hb hun
    · exact hdone.slots b hhome
  case logged => exact fun b hb => (hhas b hb).elim
  case recorded =>
    intro b
    rw [hdone.pending]
    exact ⟨fun hb => (hhas b hb).elim, fun ⟨_, hw, _⟩ => absurd hw List.not_mem_nil⟩
  case pinned => exact fun b hb => (hhas b hb).elim
  case held =>
    intro b
    rw [hdone.refcnt]
    exact hrun.unpinned_le b
  case changed =>
    intro q b hb
    obtain ⟨hholder, hhome, hq⟩ := hrun.changed q b hb
    rw [hdone.log, hbusy]
    exact ⟨hholder, hhome, hq⟩
  case busy =>
    simp only [hdone.log, hbusy]
    exact hrun.busy
  case closing =>
    intro q hq
    rw [hclosing] at hq
    rw [hdone.log]
    exact hrun.closing q hq
  case closer =>
    intro q q' hq hq'
    rw [hclosing] at hq hq'
    exact hrun.closer q q' hq hq'

theorem endCommit (hrun : Running base ⟨d, c, r, l, pd, cm, w⟩ pc holder unlogged)
    (hpc : pc p = .committed) :
    Running base ⟨d, c, r, { l with committing := false }, pd, cm, w⟩ (upd pc p .outside) holder
      unlogged := by
  have hnone : ∀ q, (upd pc p .outside q).closing = true → False := fun q hq => by
    by_cases hqp : q = p
    · rw [hqp, upd_self] at hq
      exact absurd hq (by decide)
    · rw [upd_of_ne _ _ hqp] at hq
      exact hqp (hrun.closer q p hq (by rw [hpc]; rfl))
  have hbusy : ∀ q, (upd pc p .outside q).busy = (pc q).busy := fun q => by
    by_cases hqp : q = p
    · rw [hqp, upd_self, hpc]
      rfl
    · rw [upd_of_ne _ _ hqp]
  obtain ⟨h₁, h₂, h₃, h₄, h₅, h₆, h₇, h₈, h₉, hchanged, hcount, _, _⟩ := hrun
  refine ⟨⟨h₁.size, h₁.home⟩, h₂, h₃, h₄, h₅, h₆, h₇, h₈, h₉, fun q x hx => ?_, ?_,
    fun q hq => (hnone q hq).elim, fun q _ hq _ => (hnone q hq).elim⟩
  · rw [hbusy]
    exact hchanged q x hx
  · simpa only [hbusy] using hcount

theorem of_recovered (hsize : 0 < v.log.size) (hrec : Recovered (applied base v.committed) v)
    (hpending : v.pending = []) (hzero : v.log.outstanding = 0) :
    Running base v (fun _ => .outside) (fun _ => none) (fun _ => []) := by
  have hhas : ∀ b, ¬ v.log.lh.Has b := fun b ⟨i, hi, _⟩ => by
    rw [hrec.empty] at hi
    exact Nat.not_lt_zero i hi
  refine ⟨⟨by rwa [hrec.empty], fun i hi => (hhas _ ⟨i, hi, rfl⟩).elim⟩,
    fun i hi => (hhas _ ⟨i, hi, rfl⟩).elim, hrec.clean, hrec.home,
    fun b _ _ => congrFun hrec.cached b, fun b hb => (hhas b hb).elim, fun b => ?_,
    fun b hb => (hhas b hb).elim, fun b => Nat.zero_le _, fun p b hb => absurd hb List.not_mem_nil,
    ⟨∅, hzero.symm, fun p => by simp [LogPc.busy]⟩, fun p hp => absurd hp (by decide),
    fun p q hp => absurd hp (by decide)⟩
  rw [hpending]
  exact ⟨fun hb => (hhas b hb).elim, fun ⟨_, hw, _⟩ => absurd hw List.not_mem_nil⟩

end Running

/-! ### Operations -/

def ofOp (op : Nat) (ws : List LogWrite) : List LogWrite := ws.filter fun w => w.op = op

/-- A transaction has all of an operation's `log_write`s or none, and one that is still running has
all of its own in the transaction being built. -/
structure Whole (pd : List LogWrite) (cm : List (List LogWrite)) (history : List LogWrite)
    (pc : Nat → LogPc) (nextOp : Nat) : Prop where
  op_lt : ∀ p op, pc p = .inOp op → op < nextOp
  op_injective : ∀ p q op, pc p = .inOp op → pc q = .inOp op → p = q
  history_lt : ∀ w ∈ history, w.op < nextOp
  current : ∀ p op, pc p = .inOp op → ofOp op pd = ofOp op history
  pending : ∀ op, ofOp op pd = [] ∨ ofOp op pd = ofOp op history
  committed : ∀ T ∈ cm, ∀ op,
    ofOp op T = [] ∨ ofOp op T = ofOp op history ∧ ∀ p, pc p ≠ .inOp op

namespace Whole

variable {pd : List LogWrite} {cm : List (List LogWrite)} {history : List LogWrite}
  {pc : Nat → LogPc} {nextOp p op : Nat}

theorem ofOp_concat (op : Nat) (ws : List LogWrite) (w : LogWrite) :
    ofOp op (ws ++ [w]) = if w.op = op then ofOp op ws ++ [w] else ofOp op ws := by
  by_cases hop : w.op = op <;> simp [ofOp, hop]

theorem ofOp_fresh (hwhole : Whole pd cm history pc nextOp) : ofOp nextOp history = [] := by
  refine List.filter_eq_nil_iff.mpr fun w hw => ?_
  have := hwhole.history_lt w hw
  simp only [decide_eq_true_eq]
  omega

theorem beginOp (hwhole : Whole pd cm history pc nextOp) :
    Whole pd cm history (upd pc p (.inOp nextOp)) (nextOp + 1) := by
  have hnew : ofOp nextOp pd = ofOp nextOp history := by
    rw [hwhole.ofOp_fresh]
    exact (hwhole.pending nextOp).elim id fun h => h.trans hwhole.ofOp_fresh
  have hcases : ∀ q o, upd pc p (.inOp nextOp) q = .inOp o →
      q = p ∧ o = nextOp ∨ pc q = .inOp o ∧ o < nextOp := fun q o hq => by
    by_cases hqp : q = p
    · rw [hqp, upd_self, LogPc.inOp.injEq] at hq
      exact .inl ⟨hqp, hq.symm⟩
    · rw [upd_of_ne _ _ hqp] at hq
      exact .inr ⟨hq, hwhole.op_lt q o hq⟩
  refine ⟨fun q o hq => ?_, fun q q' o hq hq' => ?_, fun w hw => ?_, fun q o hq => ?_,
    hwhole.pending, fun T hT o => ?_⟩
  · rcases hcases q o hq with ⟨_, rfl⟩ | ⟨_, hlt⟩ <;> omega
  · rcases hcases q o hq with ⟨rfl, rfl⟩ | ⟨hold, hlt⟩
    · rcases hcases q' _ hq' with ⟨rfl, _⟩ | ⟨_, hlt⟩
      · rfl
      · omega
    · rcases hcases q' o hq' with ⟨rfl, rfl⟩ | ⟨hold', _⟩
      · omega
      · exact hwhole.op_injective q q' o hold hold'
  · exact Nat.lt_succ_of_lt (hwhole.history_lt w hw)
  · rcases hcases q o hq with ⟨_, rfl⟩ | ⟨hold, _⟩
    · exact hnew
    · exact hwhole.current q o hold
  · rcases hwhole.committed T hT o with hnil | ⟨hall, hnot⟩
    · exact .inl hnil
    · by_cases ho : o = nextOp
      · exact .inl (by rw [hall, ho, hwhole.ofOp_fresh])
      · refine .inr ⟨hall, fun q hq => ?_⟩
        rcases hcases q o hq with ⟨_, rfl⟩ | ⟨hold, _⟩
        · exact ho rfl
        · exact hnot q hold

theorem logWrite (hwhole : Whole pd cm history pc nextOp) (hpc : pc p = .inOp op) (b : Nat)
    (data : Block) :
    Whole (pd ++ [⟨op, b, data⟩]) cm (history ++ [⟨op, b, data⟩]) pc nextOp := by
  refine ⟨hwhole.op_lt, hwhole.op_injective, fun w hw => ?_, fun q o hq => ?_, fun o => ?_,
    fun T hT o => ?_⟩
  · rcases List.mem_append.mp hw with hw | hw
    · exact hwhole.history_lt w hw
    · rw [List.mem_singleton.mp hw]
      exact hwhole.op_lt p op hpc
  · rw [ofOp_concat, ofOp_concat, hwhole.current q o hq]
  · rw [ofOp_concat, ofOp_concat]
    by_cases ho : op = o
    · subst ho
      exact .inr (by rw [hwhole.current p op hpc])
    · simp only [if_neg ho]
      exact hwhole.pending o
  · rcases hwhole.committed T hT o with hnil | ⟨hall, hnot⟩
    · exact .inl hnil
    · have ho : op ≠ o := fun h => hnot p (h ▸ hpc)
      rw [ofOp_concat, if_neg ho]
      exact .inr ⟨hall, hnot⟩

theorem leave (hwhole : Whole pd cm history pc nextOp) {next : LogPc}
    (hnext : ∀ op, next ≠ .inOp op) : Whole pd cm history (upd pc p next) nextOp := by
  have hcases : ∀ q o, upd pc p next q = .inOp o → pc q = .inOp o := fun q o hq => by
    by_cases hqp : q = p
    · rw [hqp, upd_self] at hq
      exact absurd hq (hnext o)
    · rwa [upd_of_ne _ _ hqp] at hq
  refine ⟨fun q o hq => hwhole.op_lt q o (hcases q o hq), fun q q' o hq hq' =>
    hwhole.op_injective q q' o (hcases q o hq) (hcases q' o hq'), hwhole.history_lt,
    fun q o hq => hwhole.current q o (hcases q o hq), hwhole.pending, fun T hT o => ?_⟩
  exact (hwhole.committed T hT o).imp id fun h => ⟨h.1, fun q hq => h.2 q (hcases q o hq)⟩

/-- No operation is running when a transaction commits. -/
theorem commit (hwhole : Whole pd cm history pc nextOp) (hidle : ∀ q, (pc q).busy = false) :
    Whole [] (cm ++ [pd]) history pc nextOp := by
  have hnot : ∀ q o, pc q ≠ .inOp o := fun q o hq => by
    have := hidle q
    simp [hq, LogPc.busy] at this
  refine ⟨hwhole.op_lt, hwhole.op_injective, hwhole.history_lt,
    fun q o hq => (hnot q o hq).elim, fun o => .inl rfl, fun T hT o => ?_⟩
  rcases List.mem_append.mp hT with hT | hT
  · exact hwhole.committed T hT o
  · rw [List.mem_singleton.mp hT]
    exact (hwhole.pending o).imp id fun h => ⟨h, fun q => hnot q o⟩

theorem crash (hwhole : Whole pd cm history pc nextOp) :
    Whole [] cm history (fun _ => .outside) nextOp := by
  refine ⟨nofun, nofun, hwhole.history_lt, nofun, fun o => .inl rfl, fun T hT o => ?_⟩
  exact (hwhole.committed T hT o).imp id fun h => ⟨h.1, nofun⟩

end Whole

/-! ### The invariant of runs -/

theorem Recoverable.congr_log {l l' : Log} {home d : Nat → Block} (hrec : Recoverable l home d)
    (hstart : l'.start = l.start) (hsize : l'.size = l.size) : Recoverable l' home d := by
  obtain ⟨h₁, h₂, h₃⟩ := hrec
  refine ⟨by rwa [hstart, hsize], ?_, ?_⟩ <;> simp only [Log.IsHome, hstart, hsize] at *
  · exact h₂
  · exact h₃

/-- A machine that is off, with a disk to recover from. -/
structure Down (base : Nat → Block) (s : LogSystem) : Prop where
  state : s.state.reboot = s.state
  recoverable : Recoverable s.state.log (applied base s.state.committed) s.state.disk
  pc : s.pc = fun _ => .outside
  holder : s.holder = fun _ => none
  unlogged : s.unlogged = fun _ => []

structure LogInv (start size : Nat) (base : Nat → Block) (s : LogSystem) : Prop where
  start : s.state.log.start = start
  size : s.state.log.size = size
  whole : Whole s.state.pending s.state.committed s.history s.pc s.nextOp
  live : s.up = true → Running base s.state.view s.pc s.holder s.unlogged
  down : s.up = false → Down base s

theorem LogSystem.after_ok {α : Type} {s s' : LogSystem} {x : L α} {t : LogState}
    {k : α → LogState → LogSystem} {Q : α → LogState → Prop} {E : Halt → LogState → Prop}
    (hwp : Wp x Q E t) (hstep : s.after x t k = .ok s') :
    (∃ a t', Q a t' ∧ s' = k a t') ∨ ∃ t', E .powerCut t' ∧ s' = s.crash t' := by
  unfold after at hstep
  cases hrun : x t with
  | ok a t' =>
      rw [hrun] at hstep
      injection hstep with hstep
      exact .inl ⟨a, t', hwp.ok hrun, hstep.symm⟩
  | error e t' =>
      rw [hrun] at hstep
      cases e with
      | panic e => cases hstep
      | powerCut =>
          injection hstep with hstep
          exact .inr ⟨t', hwp.error hrun, hstep.symm⟩

namespace LogInv

variable {start size : Nat} {base : Nat → Block} {s s' : LogSystem} {p b op : Nat}

theorem recoverable (hinv : LogInv start size base s) :
    Recoverable s.state.log (applied base s.state.committed) s.state.disk := by
  cases hup : s.up with
  | false => exact (hinv.down hup).recoverable
  | true =>
      have hrun := hinv.live hup
      exact .of_clean (Nat.zero_lt_of_lt hrun.fits.size) hrun.clean hrun.home

theorem crash {t : LogState} (hstart : t.log.start = start) (hsize : t.log.size = size)
    (hwhole : Whole [] t.committed s.history (fun _ => .outside) s.nextOp)
    (hrec : Recoverable t.log (applied base t.committed) t.disk) :
    LogInv start size base (s.crash t) where
  start := hstart
  size := hsize
  whole := hwhole
  live := nofun
  down := fun _ => ⟨rfl, hrec.congr_log rfl rfl, rfl, rfl, rfl⟩

theorem of_running {v : LogView} (hup : s'.up = true) (hview : s'.state.view = v)
    (hstart : v.log.start = start) (hsize : v.log.size = size)
    (hwhole : Whole v.pending v.committed s'.history s'.pc s'.nextOp)
    (hrun : Running base v s'.pc s'.holder s'.unlogged) : LogInv start size base s' := by
  subst hview
  exact ⟨hstart, hsize, hwhole, fun _ => hrun, fun h => by simp [hup] at h⟩

theorem of_beginOp (hinv : LogInv start size base s)
    (hstep : s.step (.beginOp p) = some (.ok s')) : LogInv start size base s' := by
  obtain ⟨⟨hup, hpc⟩, hstep⟩ := Option.ite_none_right_eq_some.mp hstep
  have hrun := hinv.live hup
  have hwp : Wp beginOp (fun admitted t => if admitted then s.state.log.committing = false ∧
      t.view = { s.state.view with
        log := { s.state.log with outstanding := s.state.log.outstanding + 1 } }
      else t = s.state) (fun _ _ => False) s.state := by
    refine .get (.ite (fun _ => .pure rfl) fun hcommitting => .ite (fun _ => .pure rfl) fun _ => ?_)
    exact .bind (.of_ok rfl (.pure ⟨by simpa using hcommitting, rfl⟩))
  rcases LogSystem.after_ok hwp (Option.some.inj hstep) with ⟨admitted, t, hpost, rfl⟩ | ⟨_, h, _⟩
  · cases admitted with
    | false =>
        obtain rfl : t = s.state := hpost
        exact hinv
    | true =>
        obtain ⟨hcommitting, hview⟩ := hpost
        exact of_running hup hview hinv.start hinv.size hinv.whole.beginOp
          (Running.beginOp hrun hpc hcommitting)
  · exact h.elim

theorem of_bread (hinv : LogInv start size base s)
    (hstep : s.step (.bread p b) = some (.ok s')) : LogInv start size base s' := by
  obtain ⟨⟨hup, hfree⟩, hstep⟩ := Option.ite_none_right_eq_some.mp hstep
  have hwp : Wp (Xv6Mmap.bread b) (fun _ t => t.view = { s.state.view with
      refcnt := upd s.state.refcnt b (s.state.refcnt b + 1) }) (fun _ _ => False) s.state :=
    bread_wp rfl fun t ht => ht
  rcases LogSystem.after_ok hwp (Option.some.inj hstep) with ⟨_, t, hview, rfl⟩ | ⟨_, h, _⟩
  · exact of_running hup hview hinv.start hinv.size hinv.whole ((hinv.live hup).bread hfree)
  · exact h.elim

theorem of_modify {data : Block} (hinv : LogInv start size base s)
    (hstep : s.step (.modify p b data) = some (.ok s')) : LogInv start size base s' := by
  simp only [LogSystem.step] at hstep
  split at hstep
  case h_2 => cases hstep
  case h_1 op hpc =>
    obtain ⟨⟨hup, hholder, hhome⟩, hstep⟩ := Option.ite_none_right_eq_some.mp hstep
    have hwp : Wp (fill b data) (fun _ t => t.view = { s.state.view with
        cached := upd s.state.cached b data }) (fun _ _ => False) s.state :=
      fill_wp rfl fun t ht => ht
    rcases LogSystem.after_ok hwp (Option.some.inj hstep) with ⟨_, t, hview, rfl⟩ | ⟨_, h, _⟩
    · exact of_running hup hview hinv.start hinv.size hinv.whole
        ((hinv.live hup).modify hholder hhome (by rw [hpc]; rfl) data)
    · exact h.elim

theorem of_logWrite (hinv : LogInv start size base s)
    (hstep : s.step (.logWrite p b) = some (.ok s')) : LogInv start size base s' := by
  simp only [LogSystem.step] at hstep
  split at hstep
  case h_2 => cases hstep
  case h_1 op hpc =>
    obtain ⟨⟨hup, -, hhome⟩, hstep⟩ := Option.ite_none_right_eq_some.mp hstep
    have hrun := hinv.live hup
    have hwp : Wp (Xv6Mmap.logWrite op b) (fun _ t => t.view.log.start = start ∧
        t.view.log.size = size ∧ t.view.pending = s.state.pending ++ [⟨op, b, s.state.cached b⟩] ∧
        t.view.committed = s.state.committed ∧ Running base t.view s.pc s.holder
          (upd s.unlogged p ((s.unlogged p).filter fun c => c ≠ b)))
        (fun e _ => ∃ m, e = .panic m) s.state := by
      refine logWrite_wp rfl (fun m => ⟨m, rfl⟩) (fun hhas t ht => ?_) fun hhas hroom t ht => ?_
      · rw [ht]
        exact ⟨hinv.start, hinv.size, rfl, rfl, hrun.logWrite_absorb hhas⟩
      · rw [ht]
        exact ⟨hinv.start, hinv.size, rfl, rfl, hrun.logWrite_push hhas hhome hroom⟩
    rcases LogSystem.after_ok hwp (Option.some.inj hstep) with ⟨_, t, hpost, rfl⟩ | ⟨_, ⟨m, h⟩, _⟩
    · obtain ⟨hstart, hsize, hpending, hcommitted, hrun'⟩ := hpost
      refine of_running hup rfl hstart hsize ?_ hrun'
      show Whole t.view.pending t.view.committed _ s.pc s.nextOp
      rw [hpending, hcommitted]
      exact hinv.whole.logWrite hpc b _
    · cases h

theorem of_brelse (hinv : LogInv start size base s)
    (hstep : s.step (.brelse p b) = some (.ok s')) : LogInv start size base s' := by
  obtain ⟨⟨hup, hholder, hlogged⟩, hstep⟩ := Option.ite_none_right_eq_some.mp hstep
  have hwp : Wp (Xv6Mmap.brelse b) (fun _ t => t.view = { s.state.view with
      refcnt := upd s.state.refcnt b (s.state.refcnt b - 1) }) (fun _ _ => False) s.state :=
    brelse_wp rfl fun t ht => ht
  rcases LogSystem.after_ok hwp (Option.some.inj hstep) with ⟨_, t, hview, rfl⟩ | ⟨_, h, _⟩
  · exact of_running hup hview hinv.start hinv.size hinv.whole
      ((hinv.live hup).brelse hholder hlogged)
  · exact h.elim

theorem of_endOp (hinv : LogInv start size base s)
    (hstep : s.step (.endOp p) = some (.ok s')) : LogInv start size base s' := by
  simp only [LogSystem.step] at hstep
  split at hstep
  case h_2 => cases hstep
  case h_1 op hpc =>
    obtain ⟨⟨hup, hlogged⟩, hstep⟩ := Option.ite_none_right_eq_some.mp hstep
    have hrun := hinv.live hup
    have hwp : Wp Xv6Mmap.endOp (fun doCommit t => s.state.log.committing = false ∧
        (doCommit = true → s.state.log.outstanding - 1 = 0) ∧
        t.view = { s.state.view with log := { s.state.log with
          outstanding := s.state.log.outstanding - 1, committing := doCommit } })
        (fun e _ => ∃ m, e = .panic m) s.state := by
      refine .bind (modifyLog_wp rfl fun t₁ h₁ => .get (.ite (fun _ => .of_error rfl ⟨_, rfl⟩)
        fun hcommitting => ?_))
      have hlog := congrArg LogView.log h₁
      change t₁.log = _ at hlog
      rw [hlog] at hcommitting ⊢
      simp only [Bool.not_eq_true] at hcommitting
      refine .ite (fun hzero => .bind (modifyLog_wp h₁ fun t₂ h₂ => .pure ?_)) fun _ => .pure ?_
      · exact ⟨hcommitting, fun _ => hzero, h₂⟩
      · refine ⟨hcommitting, nofun, h₁.trans ?_⟩
        rw [← hcommitting]
        rfl
    rcases LogSystem.after_ok hwp (Option.some.inj hstep) with
      ⟨doCommit, t, ⟨hcommitting, hzero, hview⟩, rfl⟩ | ⟨_, ⟨m, h⟩, _⟩
    · refine of_running hup hview hinv.start hinv.size (hinv.whole.leave ?_) (hrun.endOp hpc
        hlogged hcommitting ?_ ?_) <;> cases doCommit
      · exact nofun
      · exact nofun
      · rfl
      · rfl
      · exact nofun
      · exact fun _ => ⟨rfl, hzero rfl⟩
    · cases h

theorem of_commit {power : Option Nat} (hinv : LogInv start size base s)
    (hstep : s.step (.commit p power) = some (.ok s')) : LogInv start size base s' := by
  obtain ⟨⟨hup, hpc⟩, hstep⟩ := Option.ite_none_right_eq_some.mp hstep
  have hrun : Running base ({ s.state with power := power } : LogState).view s.pc s.holder
      s.unlogged := (hinv.live hup).steady
  have hzero := (hrun.closing p (by rw [hpc]; rfl)).2
  have hready := hrun.ready hzero
  have hclosed := hinv.whole.commit (hrun.not_busy hzero)
  rcases LogSystem.after_ok (commit_wp rfl hready) (Option.some.inj hstep) with
    ⟨_, t, hdone, rfl⟩ | ⟨t, hcut, rfl⟩
  · have hlog := hdone.log
    refine of_running hup rfl ?_ ?_ ?_ (hrun.commit hpc hdone).steady
    · show t.view.log.start = start
      rw [hlog]
      exact hinv.start
    · show t.view.log.size = size
      rw [hlog]
      exact hinv.size
    · show Whole t.view.pending t.view.committed s.history _ s.nextOp
      rw [hdone.pending, hdone.committed]
      split
      · exact hclosed.leave nofun
      · rename_i hn
        have hnil := hready.pending_eq_nil (by omega)
        have hwhole := hinv.whole
        rw [show s.state.pending = [] from hnil] at hwhole
        exact hwhole.leave nofun
  · refine crash (hcut.start.trans hinv.start) (hcut.size.trans hinv.size) ?_
      (hcut.disk.congr_log hcut.start hcut.size)
    rcases List.mem_pair.mp hcut.committed with heq | heq
    · rw [heq]
      exact hinv.whole.crash
    · rw [heq]
      exact hclosed.crash

theorem of_endCommit (hinv : LogInv start size base s)
    (hstep : s.step (.endCommit p) = some (.ok s')) : LogInv start size base s' := by
  obtain ⟨⟨hup, hpc⟩, hstep⟩ := Option.ite_none_right_eq_some.mp hstep
  have hwp : Wp Xv6Mmap.endCommit (fun _ t => t.view = { s.state.view with
      log := { s.state.log with committing := false } }) (fun _ _ => False) s.state :=
    modifyLog_wp rfl fun t ht => ht
  rcases LogSystem.after_ok hwp (Option.some.inj hstep) with ⟨_, t, hview, rfl⟩ | ⟨_, h, _⟩
  · exact of_running hup hview hinv.start hinv.size (hinv.whole.leave nofun)
      ((hinv.live hup).endCommit hpc)
  · exact h.elim

theorem of_recycle (hinv : LogInv start size base s)
    (hstep : s.step (.recycle b) = some (.ok s')) : LogInv start size base s' := by
  obtain ⟨⟨hup, hzero⟩, hstep⟩ := Option.ite_none_right_eq_some.mp hstep
  have hrun := hinv.live hup
  have hcoherent : s.state.cached b = s.state.disk b := by
    refine hrun.coherent b (fun hhas => ?_) fun p hmem => ?_
    · have hpinned : _ ≤ s.state.refcnt b := hrun.pinned b hhas
      omega
    · have hheld : _ ≤ s.state.refcnt b := hrun.held b
      rw [(hrun.changed p b hmem).1] at hheld
      simp only [Option.toList_some, List.length_singleton] at hheld
      omega
  injection Option.some.inj hstep with hstep
  subst hstep
  refine of_running hup ?_ hinv.start hinv.size hinv.whole hrun
  refine LogView.ext rfl ?_ rfl rfl rfl rfl rfl
  funext c
  show (upd s.state.buf b none c).getD (s.state.disk c) = s.state.cached c
  by_cases hc : c = b
  · rw [hc, upd_self, hcoherent]
    rfl
  · rw [upd_of_ne _ _ hc]
    rfl

theorem of_recover {power : Option Nat} (hinv : LogInv start size base s)
    (hstep : s.step (.recover power) = some (.ok s')) : LogInv start size base s' := by
  simp only [LogSystem.step] at hstep
  split at hstep
  case isTrue => cases hstep
  case isFalse hguard =>
    have hdown := hinv.down (by simpa using hguard)
    have hcached : s.state.cached = s.state.disk := by
      rw [← hdown.state]
      rfl
    have hview : ({ s.state with power := power } : LogState).view =
        ⟨s.state.disk, s.state.disk, s.state.refcnt, s.state.log, s.state.pending,
          s.state.committed, power.isNone⟩ :=
      LogView.ext rfl hcached rfl rfl rfl rfl rfl
    have hzero : s.state.log.outstanding = 0 := by
      rw [← hdown.state]
      rfl
    have hnil : s.state.pending = [] := by
      rw [← hdown.state]
      rfl
    rcases LogSystem.after_ok (recoverFromLog_wp hview hdown.recoverable) (Option.some.inj hstep) with
      ⟨_, t, ⟨hrec, -, hpending, hcommitted, lh, hlog⟩, rfl⟩ | ⟨t, ⟨-, hcut⟩, rfl⟩
    · have hsize : 0 < t.view.log.size := by
        rw [hlog]
        exact Nat.zero_lt_of_lt hdown.recoverable.size
      rw [← hcommitted] at hrec
      have hrun := Running.of_recovered hsize hrec (hpending.trans hnil) (by rw [hlog]; exact hzero)
      rw [← hdown.pc, ← hdown.holder, ← hdown.unlogged] at hrun
      refine of_running rfl rfl ?_ ?_ ?_ hrun.steady
      · show t.view.log.start = start
        rw [hlog]
        exact hinv.start
      · show t.view.log.size = size
        rw [hlog]
        exact hinv.size
      · show Whole t.view.pending t.view.committed s.history s.pc s.nextOp
        rw [hpending, hcommitted]
        exact hinv.whole
    · refine crash (hcut.start.trans hinv.start) (hcut.size.trans hinv.size) ?_
        (hcut.disk.congr_log hcut.start hcut.size)
      rw [List.mem_singleton.mp hcut.committed]
      exact hinv.whole.crash

theorem step {e : LogEvent} (hinv : LogInv start size base s)
    (hstep : s.step e = some (.ok s')) : LogInv start size base s' := by
  cases e with
  | beginOp p => exact hinv.of_beginOp hstep
  | bread p b => exact hinv.of_bread hstep
  | modify p b data => exact hinv.of_modify hstep
  | logWrite p b => exact hinv.of_logWrite hstep
  | brelse p b => exact hinv.of_brelse hstep
  | endOp p => exact hinv.of_endOp hstep
  | commit p power => exact hinv.of_commit hstep
  | endCommit p => exact hinv.of_endCommit hstep
  | recycle b => exact hinv.of_recycle hstep
  | crash =>
      injection Option.some.inj hstep with hstep
      subst hstep
      exact crash hinv.start hinv.size hinv.whole.crash hinv.recoverable
  | recover power => exact hinv.of_recover hstep

theorem run {es : List LogEvent} (hinv : LogInv start size base s) (hrun : s.run es = some s') :
    LogInv start size base s' := by
  induction es generalizing s with
  | nil =>
      obtain rfl : s = s' := by simpa [LogSystem.run] using hrun
      exact hinv
  | cons e es ih =>
      unfold LogSystem.run at hrun
      split at hrun
      case h_1 t hstep => exact ih (hinv.step hstep) hrun
      case h_2 => cases hrun

theorem off {disk : Nat → Block} (hsize : 0 < size) (hclean : disk start 0 = 0) :
    LogInv start size disk (.off start size disk) where
  start := rfl
  size := rfl
  whole := ⟨nofun, nofun, nofun, nofun, fun _ => .inl rfl, nofun⟩
  live := nofun
  down := fun _ => ⟨rfl, .of_clean hsize hclean fun _ _ => rfl, rfl, rfl, rfl⟩

end LogInv

/-- **Crash atomicity.** Whatever the processes did and wherever the power failed, in `commit` or in
a recovery, a complete recovery from the disk as it is now gives the initial home blocks with the
transactions applied whose header reached the disk, in the order of their commits; and each of them
has all or none of the `log_write`s of every operation. -/
theorem crash_atomic (logstart nlog : Nat) (hnlog : 0 < nlog) (disk : Nat → Block)
    (hclean : disk logstart 0 = 0) (events : List LogEvent) (s : LogSystem)
    (hrun : (LogSystem.off logstart nlog disk).run events = some s) :
    (∃ t, recoverFromLog s.state.reboot = .ok () t ∧
      ∀ b, b < logstart ∨ logstart + nlog ≤ b → t.disk b = applied disk s.state.committed b) ∧
    ∀ T ∈ s.state.committed, ∀ op, ofOp op T = [] ∨ ofOp op T = ofOp op s.history := by
  have hinv := (LogInv.off hnlog hclean).run hrun
  refine ⟨?_, fun T hT op => (hinv.whole.committed T hT op).imp id And.left⟩
  have hrec : Recoverable s.state.reboot.log (applied disk s.state.committed) s.state.disk :=
    hinv.recoverable.congr_log rfl rfl
  have hwp := recoverFromLog_wp (s := s.state.reboot) rfl hrec
  cases hout : recoverFromLog s.state.reboot with
  | ok u t =>
      obtain ⟨hdone, -, -, -, lh, hlog⟩ := hwp.ok hout
      refine ⟨t, rfl, fun b hb => hdone.home b ?_⟩
      rw [hlog]
      show b < s.state.log.start ∨ s.state.log.start + s.state.log.size ≤ b
      rwa [hinv.start, hinv.size]
  | error e t => exact absurd (hwp.error hout).1 (by simp [LogState.reboot])

/-- The power fails after the header of a transaction was written, and again at the first write of
the recovery. -/
def cutTwice : List LogEvent :=
  [.recover none, .beginOp 0, .bread 0 40, .modify 0 40 fun _ => 7, .logWrite 0 40, .brelse 0 40,
    .endOp 0, .commit 0 (some 2), .recover (some 0)]

theorem crash_atomic_cutTwice :
    ∃ s, (LogSystem.off 2 30 fun _ _ => 0).run cutTwice = some s ∧ s.state.committed.length = 1 ∧
      (∃ t, recoverFromLog s.state.reboot = .ok () t ∧
        ∀ b, b < 2 ∨ 2 + 30 ≤ b → t.disk b = applied (fun _ _ => 0) s.state.committed b) ∧
      ∀ T ∈ s.state.committed, ∀ op, ofOp op T = [] ∨ ofOp op T = ofOp op s.history := by
  have hrun : ((LogSystem.off 2 30 fun _ _ => 0).run cutTwice).any
      (fun s => s.state.committed.length = 1) = true := by decide +kernel
  obtain ⟨s, hs, hone⟩ := (Option.any_eq_true _ _).mp hrun
  exact ⟨s, hs, by simpa using hone, crash_atomic 2 30 (by decide) _ rfl cutTwice s hs⟩

end Xv6Mmap
