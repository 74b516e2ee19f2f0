import Mathlib.Algebra.Order.BigOperators.Group.Finset
import Xv6Mmap.Proof.LogRun

/-!
# Room in the log

`begin_op` reserves `MAXOPBLOCKS` blocks of `LOGSIZE` for each operation, and `log_write` stops the
machine when `LOGSIZE - 1` blocks are in use: the header takes one of the `LOGSIZE` blocks that
`mkfs` gives to the log, and `log_write` tests before it looks whether the block is in the log
already. Three operations that use all they have reserved do not fit; operations that leave one block
of it always do.
-/

namespace Xv6Mmap

open Sequential (Wp)

def LogSystem.mkfs (disk : Nat → Block) : LogSystem := .off 2 logsize disk

def blocksOf (ws : List LogWrite) : Finset Nat := (ws.map LogWrite.blockno).toFinset

def OpsWithin (k : Nat) (ws : List LogWrite) : Prop :=
  ∀ w ∈ ws, (blocksOf (ofOp w.op ws)).card ≤ k

instance (k : Nat) (ws : List LogWrite) : Decidable (OpsWithin k ws) :=
  inferInstanceAs (Decidable (∀ w ∈ ws, _))

/-- The operations that share the transaction have left room for one more block. -/
def LogSystem.Room (s : LogSystem) : Prop := (blocksOf s.state.pending).card < logsize - 1

theorem Running.card_blocksOf {base : Nat → Block} {v : LogView} {pc : Nat → LogPc}
    {holder : Nat → Option Nat} {unlogged : Nat → List Nat}
    (hrun : Running base v pc holder unlogged) : (blocksOf v.pending).card = v.log.lh.n := by
  have himage : blocksOf v.pending = (Finset.range v.log.lh.n).image v.log.lh.block := by
    ext b
    have hhas := hrun.recorded b
    simp only [LogHeader.Has] at hhas
    simp [blocksOf, ← hhas]
  rw [himage, Finset.card_image_of_injOn, Finset.card_range]
  intro i hi j hj heq
  exact hrun.distinct i (by simpa using hi) j (by simpa using hj) heq

/-- `log_write` stops the machine so exactly when it finds the log full. -/
theorem logWrite_tooBig_iff {op b : Nat} {s : LogState} :
    (∃ t, logWrite op b s = .error (.panic .tooBigTransaction) t) ↔
      logsize ≤ s.log.lh.n ∨ s.log.size - 1 ≤ s.log.lh.n := by
  constructor
  · rintro ⟨t, hout⟩
    by_contra hroom
    have hwp : Wp (logWrite op b) (fun _ _ => True)
        (fun e _ => e ≠ .panic .tooBigTransaction) s := by
      refine .get ?_
      rw [if_neg hroom]
      refine .ite (fun _ => .of_error rfl nofun) fun _ => .bind (.of_ok rfl ?_)
      refine .ite (fun _ => .bind (.of_ok rfl (.bind (.of_ok rfl (.of_ok rfl trivial))))) fun _ => ?_
      exact .of_ok rfl trivial
    exact hwp.error hout rfl
  · intro hfull
    refine ⟨s, ?_⟩
    rw [logWrite, Sequential.run_get_bind, if_pos hfull]
    rfl

theorem LogSystem.step_logWrite {s : LogSystem} {p b : Nat}
    (henabled : s.step (.logWrite p b) ≠ none) :
    s.up = true ∧ ∃ op, s.step (.logWrite p b) = some (.error .tooBigTransaction) ↔
      ∃ t, logWrite op b s.state = .error (.panic .tooBigTransaction) t := by
  simp only [LogSystem.step] at henabled ⊢
  split at henabled
  case h_2 => exact absurd rfl henabled
  case h_1 op _ =>
    split at henabled
    case isFalse => exact absurd rfl henabled
    case isTrue hguard =>
      refine ⟨hguard.1, op, ?_⟩
      simp only [if_pos hguard, Option.some.injEq]
      unfold after
      split
      · rename_i hout
        simp [hout]
      · rename_i hout
        simp [hout]
      · rename_i hout
        simp [hout]

/-- In every state that operations reach on a disk laid out by `mkfs`, a
`log_write` finds room if and only if the operations that share its transaction have logged fewer
than `LOGSIZE - 1` different blocks. -/
theorem log_space (disk : Nat → Block) (hclean : disk 2 0 = 0) (events : List LogEvent)
    (s : LogSystem) (hrun : (LogSystem.mkfs disk).run events = some s) (p b : Nat)
    (henabled : s.step (.logWrite p b) ≠ none) :
    s.step (.logWrite p b) ≠ some (.error .tooBigTransaction) ↔ s.Room := by
  have hinv := (LogInv.off (by decide) hclean).run hrun
  obtain ⟨hup, op, hstep⟩ := LogSystem.step_logWrite henabled
  have hcard : (blocksOf s.state.pending).card = s.state.log.lh.n :=
    (hinv.live hup).card_blocksOf
  rw [ne_eq, hstep, logWrite_tooBig_iff, hinv.size, LogSystem.Room, hcard]
  omega

/-! ### Operations that leave one block of what they have reserved

The header takes a block of the log that `begin_op` counts as free. An operation that logs at most
`MAXOPBLOCKS - 1` blocks gives one back, and that is enough: the blocks in the log, and those the
operations may still add, never come to more than `LOGSIZE - 2`.
-/

/-- The blocks that a process may still log. -/
def LogPc.left (history : List LogWrite) : LogPc → Nat
  | .inOp op => maxopblocks - 1 - (blocksOf (ofOp op history)).card
  | _ => 0

/-- What the running operations may still add is in the log's room. -/
structure Reserved (log : Log) (pc : Nat → LogPc) (history : List LogWrite) : Prop where
  idle : log.outstanding = 0 → log.committing = false → log.lh.n = 0
  closed : ∀ p, pc p = .committed → log.lh.n = 0
  room : ∀ S : Finset Nat, (∀ p, p ∈ S ↔ (pc p).busy = true) →
    log.lh.n + ∑ p ∈ S, (pc p).left history ≤ logsize - 2

section Blocks

variable {ws ws' : List LogWrite} {w : LogWrite} {k op : Nat}

theorem blocksOf_mono (hsub : ws ⊆ ws') : blocksOf ws ⊆ blocksOf ws' := by
  intro b hb
  simp only [blocksOf, List.mem_toFinset, List.mem_map] at hb ⊢
  obtain ⟨w, hw, rfl⟩ := hb
  exact ⟨w, hsub hw, rfl⟩

theorem blocksOf_concat (ws : List LogWrite) (w : LogWrite) :
    blocksOf (ws ++ [w]) = insert w.blockno (blocksOf ws) := by
  ext b
  simp [blocksOf]

theorem ofOp_mono (hsub : ws ⊆ ws') : ofOp op ws ⊆ ofOp op ws' := by
  intro w hw
  simp only [ofOp, List.mem_filter] at hw ⊢
  exact ⟨hsub hw.1, hw.2⟩

theorem OpsWithin.of_subset (hops : OpsWithin k ws') (hsub : ws ⊆ ws') : OpsWithin k ws := by
  intro w hw
  exact (Finset.card_le_card (blocksOf_mono (ofOp_mono hsub))).trans (hops w (hsub hw))

theorem LogPc.left_le (pc : LogPc) (history : List LogWrite) :
    pc.left history ≤ maxopblocks - 1 := by
  cases pc <;> simp [left]

theorem LogPc.left_anti (pc : LogPc) (hsub : ws ⊆ ws') : pc.left ws' ≤ pc.left ws := by
  cases pc with
  | inOp op =>
      have hops : ofOp op ws ⊆ ofOp op ws' := ofOp_mono hsub
      have hcard := Finset.card_le_card (blocksOf_mono hops)
      simp only [left]
      omega
  | outside => exact le_rfl
  | committing => exact le_rfl
  | committed => exact le_rfl

theorem LogPc.left_concat (hnew : w.blockno ∉ blocksOf (ofOp w.op ws))
    (hops : OpsWithin (maxopblocks - 1) (ws ++ [w])) :
    (LogPc.inOp w.op).left (ws ++ [w]) + 1 = (LogPc.inOp w.op).left ws := by
  have hwithin := hops w (by simp)
  simp only [left]
  rw [Whole.ofOp_concat, if_pos rfl, blocksOf_concat, Finset.card_insert_of_notMem hnew] at *
  omega

end Blocks

namespace Reserved

variable {log log' : Log} {pc : Nat → LogPc} {history : List LogWrite} {p op b : Nat}
  {w : LogWrite}

theorem of_empty (hn : log.lh.n = 0) (hidle : ∀ p, (pc p).busy = false) :
    Reserved log pc history where
  idle := fun _ _ => hn
  closed := fun _ _ => hn
  room := fun S hS => by
    have hempty : S = ∅ := Finset.eq_empty_of_forall_notMem fun p hp => by
      have hbusy := (hS p).mp hp
      rw [hidle p] at hbusy
      cases hbusy
    rw [hn, hempty]
    simp

theorem beginOp (h : Reserved log pc history) {S : Finset Nat} (hcard : S.card = log.outstanding)
    (hS : ∀ q, q ∈ S ↔ (pc q).busy = true) (hpc : pc p = .outside)
    (hcommitting : log.committing = false)
    (hfits : log.lh.n + (log.outstanding + 1) * maxopblocks ≤ logsize)
    (hfresh : ofOp op history = []) :
    Reserved { log with outstanding := log.outstanding + 1 } (upd pc p (.inOp op)) history where
  idle := nofun
  closed := fun q hq => by
    by_cases hqp : q = p
    · rw [hqp, upd_self] at hq
      cases hq
    · rw [upd_of_ne _ _ hqp] at hq
      exact h.closed q hq
  room := fun T hT => by
    have hp : p ∉ S := by simp [hS, hpc, LogPc.busy]
    have hTS : T = insert p S := by
      ext q
      rw [hT, Finset.mem_insert, hS]
      by_cases hqp : q = p
      · simp [hqp, LogPc.busy]
      · simp [upd_of_ne _ _ hqp, hqp]
    have hrest : ∑ q ∈ S, (upd pc p (.inOp op) q).left history = ∑ q ∈ S, (pc q).left history :=
      Finset.sum_congr rfl fun q hq => by rw [upd_of_ne _ _ (ne_of_mem_of_not_mem hq hp)]
    have hnew : (upd pc p (.inOp op) p).left history = maxopblocks - 1 := by
      simp [LogPc.left, hfresh, blocksOf]
    have hsum : ∑ q ∈ S, (pc q).left history ≤ log.outstanding * (maxopblocks - 1) := by
      rw [← hcard]
      exact Finset.sum_le_card_nsmul _ _ _ fun q _ => (pc q).left_le history
    have hzero := h.idle
    rw [hTS, Finset.sum_insert hp, hnew, hrest]
    simp only [logsize, maxopblocks] at hfits hsum ⊢
    -- one operation finds the log empty, a second at most ten blocks, a third again none
    rcases Nat.eq_zero_or_pos log.outstanding with hout | hout
    · have hn := hzero hout hcommitting
      omega
    · omega

theorem endOp (h : Reserved log pc history) {S : Finset Nat}
    (hS : ∀ q, q ∈ S ↔ (pc q).busy = true) {next : LogPc} (hnext : next.busy = false)
    (hclosed : next ≠ .committed) (hlh : log'.lh.n = log.lh.n)
    (hidle : log'.outstanding = 0 → log'.committing = true) :
    Reserved log' (upd pc p next) history where
  idle := fun hzero hcommitting => by simp [hidle hzero] at hcommitting
  closed := fun q hq => by
    by_cases hqp : q = p
    · rw [hqp, upd_self] at hq
      exact absurd hq hclosed
    · rw [upd_of_ne _ _ hqp] at hq
      exact hlh.trans (h.closed q hq)
  room := fun T hT => by
    have hTS : T = S.erase p := by
      ext q
      rw [hT, Finset.mem_erase, hS]
      by_cases hqp : q = p
      · simp [hqp, hnext]
      · simp [upd_of_ne _ _ hqp, hqp]
    have hsum : ∑ q ∈ S.erase p, (upd pc p next q).left history ≤ ∑ q ∈ S, (pc q).left history := by
      rw [Finset.sum_congr rfl fun q hq => by rw [upd_of_ne _ _ (Finset.ne_of_mem_erase hq)]]
      exact Finset.sum_le_sum_of_subset (Finset.erase_subset _ _)
    have hroom := h.room S hS
    rw [hTS, hlh]
    omega

theorem absorb (h : Reserved log pc history) (w : LogWrite) : Reserved log pc (history ++ [w]) where
  idle := h.idle
  closed := h.closed
  room := fun S hS => by
    have hsum : ∑ q ∈ S, (pc q).left (history ++ [w]) ≤ ∑ q ∈ S, (pc q).left history :=
      Finset.sum_le_sum fun q _ => (pc q).left_anti (List.subset_append_left _ _)
    have hroom := h.room S hS
    omega

theorem push (h : Reserved log pc history) (hpc : pc p = .inOp w.op)
    (hnew : w.blockno ∉ blocksOf (ofOp w.op history))
    (hops : OpsWithin (maxopblocks - 1) (history ++ [w])) (hlh : log'.lh.n = log.lh.n + 1)
    (hbusy : log'.outstanding ≠ 0) (hclosed : ∀ q, pc q ≠ .committed) :
    Reserved log' pc (history ++ [w]) where
  idle := fun hzero => absurd hzero hbusy
  closed := fun q hq => absurd hq (hclosed q)
  room := fun S hS => by
    have hp : p ∈ S := (hS p).mpr (by rw [hpc]; rfl)
    have hsum : ∑ q ∈ S.erase p, (pc q).left (history ++ [w]) ≤
        ∑ q ∈ S.erase p, (pc q).left history :=
      Finset.sum_le_sum fun q _ => (pc q).left_anti (List.subset_append_left _ _)
    have hleft := LogPc.left_concat hnew hops
    have hroom := h.room S hS
    rw [← Finset.add_sum_erase _ _ hp, hpc] at hroom ⊢
    rw [hlh]
    omega

end Reserved

/-! ### Steps and runs -/

namespace LogInv

variable {start : Nat} {base : Nat → Block} {s s' : LogSystem} {p b : Nat}

theorem reserved_beginOp (hinv : LogInv start logsize base s)
    (hres : Reserved s.state.log s.pc s.history)
    (hstep : s.step (.beginOp p) = some (.ok s')) : Reserved s'.state.log s'.pc s'.history := by
  obtain ⟨⟨hup, hpc⟩, hstep⟩ := Option.ite_none_right_eq_some.mp hstep
  have hwp : Wp beginOp (fun admitted t => if admitted then s.state.log.committing = false ∧
      s.state.log.lh.n + (s.state.log.outstanding + 1) * maxopblocks ≤ logsize ∧
      t.log = { s.state.log with outstanding := s.state.log.outstanding + 1 }
      else t = s.state) (fun _ _ => False) s.state := by
    refine .get (.ite (fun _ => .pure rfl) fun hcommitting => .ite (fun _ => .pure rfl) ?_)
    intro hfits
    exact .bind (.of_ok rfl (.pure ⟨by simpa using hcommitting, not_lt.mp hfits, rfl⟩))
  rcases LogSystem.after_ok hwp (Option.some.inj hstep) with ⟨admitted, t, hpost, rfl⟩ | ⟨_, h, _⟩
  · cases admitted with
    | false =>
        obtain rfl : t = s.state := hpost
        exact hres
    | true =>
        obtain ⟨hcommitting, hfits, hlog⟩ := hpost
        obtain ⟨S, hcard, hS⟩ := (hinv.live hup).busy
        have hnext := hres.beginOp hcard hS hpc hcommitting hfits hinv.whole.ofOp_fresh
        rw [← hlog] at hnext
        exact hnext
  · exact h.elim

theorem reserved_logWrite (hinv : LogInv start logsize base s)
    (hres : Reserved s.state.log s.pc s.history)
    (hstep : s.step (.logWrite p b) = some (.ok s'))
    (hops : OpsWithin (maxopblocks - 1) s'.history) : Reserved s'.state.log s'.pc s'.history := by
  simp only [LogSystem.step] at hstep
  split at hstep
  case h_2 => cases hstep
  case h_1 op hpc =>
    obtain ⟨hguard, hstep⟩ := Option.ite_none_right_eq_some.mp hstep
    have hrun := hinv.live hguard.1
    have hwp : Wp (Xv6Mmap.logWrite op b) (fun _ t => t.log = s.state.log ∨
        (¬ s.state.log.lh.Has b ∧ t.log.lh.n = s.state.log.lh.n + 1 ∧
          t.log.outstanding = s.state.log.outstanding)) (fun e _ => ∃ m, e = .panic m) s.state := by
      refine logWrite_wp rfl (fun m => ⟨m, rfl⟩) (fun _ t ht => ?_) fun hhas _ t ht => ?_
      · exact .inl (congrArg LogView.log ht)
      · have hlog : t.log = _ := congrArg LogView.log ht
        rw [hlog]
        exact .inr ⟨hhas, rfl, rfl⟩
    rcases LogSystem.after_ok hwp (Option.some.inj hstep) with ⟨_, t, hpost, rfl⟩ | ⟨_, ⟨m, h⟩, _⟩
    · obtain hlog | ⟨hhas, hn, hout⟩ := hpost
      · have hnext := hres.absorb ⟨op, b, s.state.cached b⟩
        rw [← hlog] at hnext
        exact hnext
      · have hbusy : s.state.log.outstanding ≠ 0 := fun hzero => by
          have hnot := hrun.not_busy hzero p
          rw [hpc] at hnot
          cases hnot
        -- the operation's own blocks are in the header
        have hnew : b ∉ blocksOf (ofOp op s.history) := fun hb => by
          rw [← hinv.whole.current p op hpc] at hb
          simp only [blocksOf, List.mem_toFinset, List.mem_map] at hb
          obtain ⟨w, hw, hwb⟩ := hb
          exact hhas ((hrun.recorded b).mpr ⟨w, (List.mem_filter.mp hw).1, hwb⟩)
        refine hres.push hpc hnew hops hn (hout ▸ hbusy) fun q hq => ?_
        exact hbusy (hrun.closing q (by rw [hq]; rfl)).2
    · cases h

theorem reserved_endOp (hinv : LogInv start logsize base s)
    (hres : Reserved s.state.log s.pc s.history)
    (hstep : s.step (.endOp p) = some (.ok s')) : Reserved s'.state.log s'.pc s'.history := by
  simp only [LogSystem.step] at hstep
  split at hstep
  case h_2 => cases hstep
  case h_1 op hpc =>
    obtain ⟨hguard, hstep⟩ := Option.ite_none_right_eq_some.mp hstep
    have hwp : Wp Xv6Mmap.endOp (fun doCommit t => t.log.lh = s.state.log.lh ∧
        (t.log.outstanding = 0 → t.log.committing = true)) (fun e _ => ∃ m, e = .panic m)
        s.state := by
      refine .bind (.of_ok rfl (.get (.ite (fun _ => .of_error rfl ⟨_, rfl⟩) fun _ => ?_)))
      refine .ite (fun _ => .bind (.of_ok rfl (.pure ⟨rfl, fun _ => rfl⟩))) fun hmore => ?_
      exact .pure ⟨rfl, fun hzero => absurd hzero hmore⟩
    rcases LogSystem.after_ok hwp (Option.some.inj hstep) with
      ⟨doCommit, t, ⟨hlh, hidle⟩, rfl⟩ | ⟨_, ⟨m, h⟩, _⟩
    · obtain ⟨S, -, hS⟩ := (hinv.live hguard.1).busy
      refine hres.endOp hS ?_ ?_ (congrArg LogHeader.n hlh) hidle <;> cases doCommit
      · rfl
      · rfl
      all_goals
        intro h
        cases h
    · cases h

theorem reserved_commit {power : Option Nat} (hinv : LogInv start logsize base s)
    (hstep : s.step (.commit p power) = some (.ok s')) : Reserved s'.state.log s'.pc s'.history := by
  obtain ⟨⟨hup, hpc⟩, hstep⟩ := Option.ite_none_right_eq_some.mp hstep
  have hrun : Running base ({ s.state with power := power } : LogState).view s.pc s.holder
      s.unlogged := (hinv.live hup).steady
  have hzero := (hrun.closing p (by rw [hpc]; rfl)).2
  rcases LogSystem.after_ok (commit_wp rfl (hrun.ready hzero)) (Option.some.inj hstep) with
    ⟨_, t, hdone, rfl⟩ | ⟨t, -, rfl⟩
  · have hlog : t.log = _ := hdone.log
    refine .of_empty (congrArg (fun log : Log => log.lh.n) hlog) fun q => ?_
    by_cases hq : q = p
    · rw [hq]
      simp [LogPc.busy]
    · exact (congrArg LogPc.busy (upd_of_ne s.pc _ hq)).trans (hrun.not_busy hzero q)
  · exact .of_empty rfl fun _ => rfl

theorem reserved_recover {power : Option Nat} (hinv : LogInv start logsize base s)
    (hstep : s.step (.recover power) = some (.ok s')) : Reserved s'.state.log s'.pc s'.history := by
  simp only [LogSystem.step] at hstep
  split at hstep
  case isTrue => cases hstep
  case isFalse hguard =>
    have hdown := hinv.down (by simpa using hguard)
    have hview : ({ s.state with power := power } : LogState).view =
        ⟨s.state.disk, s.state.disk, s.state.refcnt, s.state.log, s.state.pending,
          s.state.committed, power.isNone⟩ := by
      refine LogView.ext rfl ?_ rfl rfl rfl rfl rfl
      show s.state.cached = s.state.disk
      rw [← hdown.state]
      rfl
    rcases LogSystem.after_ok (recoverFromLog_wp hview hdown.recoverable) (Option.some.inj hstep) with
      ⟨_, t, ⟨hrec, -⟩, rfl⟩ | ⟨t, -, rfl⟩
    · refine .of_empty hrec.empty fun q => ?_
      show (s.pc q).busy = false
      rw [hdown.pc]
      rfl
    · exact .of_empty rfl fun _ => rfl

theorem reserved_step {e : LogEvent} (hinv : LogInv start logsize base s)
    (hres : Reserved s.state.log s.pc s.history) (hstep : s.step e = some (.ok s'))
    (hops : OpsWithin (maxopblocks - 1) s'.history) : Reserved s'.state.log s'.pc s'.history := by
  cases e with
  | beginOp p => exact hinv.reserved_beginOp hres hstep
  | logWrite p b => exact hinv.reserved_logWrite hres hstep hops
  | endOp p => exact hinv.reserved_endOp hres hstep
  | commit p power => exact hinv.reserved_commit hstep
  | recover power => exact hinv.reserved_recover hstep
  | bread p b =>
      obtain ⟨-, hstep⟩ := Option.ite_none_right_eq_some.mp hstep
      injection Option.some.inj hstep with hstep
      subst hstep
      exact hres
  | brelse p b =>
      obtain ⟨-, hstep⟩ := Option.ite_none_right_eq_some.mp hstep
      injection Option.some.inj hstep with hstep
      subst hstep
      exact hres
  | modify p b data =>
      simp only [LogSystem.step] at hstep
      split at hstep
      case h_2 => cases hstep
      case h_1 op hpc =>
        obtain ⟨-, hstep⟩ := Option.ite_none_right_eq_some.mp hstep
        injection Option.some.inj hstep with hstep
        subst hstep
        exact hres
  | endCommit p =>
      obtain ⟨⟨hup, hpc⟩, hstep⟩ := Option.ite_none_right_eq_some.mp hstep
      have hrun := hinv.live hup
      have hzero := (hrun.closing p (by rw [hpc]; rfl)).2
      injection Option.some.inj hstep with hstep
      subst hstep
      refine .of_empty (hres.closed p hpc) fun q => ?_
      by_cases hq : q = p
      · rw [hq]
        simp [LogPc.busy]
      · exact (congrArg LogPc.busy (upd_of_ne s.pc _ hq)).trans (hrun.not_busy hzero q)
  | recycle b =>
      obtain ⟨-, hstep⟩ := Option.ite_none_right_eq_some.mp hstep
      injection Option.some.inj hstep with hstep
      subst hstep
      exact hres
  | crash =>
      injection Option.some.inj hstep with hstep
      subst hstep
      exact .of_empty rfl fun _ => rfl

end LogInv

theorem LogSystem.after_history {α : Type} {s s' : LogSystem} {x : L α} {t : LogState}
    {k : α → LogState → LogSystem} {h : List LogWrite} (hk : ∀ a t, h ⊆ (k a t).history)
    (hcrash : h ⊆ s.history) (hstep : s.after x t k = .ok s') : h ⊆ s'.history := by
  rcases after_ok (.any x t) hstep with ⟨a, t', -, rfl⟩ | ⟨t', -, rfl⟩
  · exact hk a t'
  · exact hcrash

theorem LogSystem.history_subset_step {s s' : LogSystem} {e : LogEvent}
    (hstep : s.step e = some (.ok s')) : s.history ⊆ s'.history := by
  cases e <;> simp only [LogSystem.step] at hstep <;> repeat' split at hstep
  all_goals first
    | (cases hstep; done)
    | (cases hstep; exact List.Subset.refl _)
    | refine after_history (fun a t => ?_) (List.Subset.refl _) (Option.some.inj hstep)
  all_goals first
    | exact List.Subset.refl _
    | exact List.subset_append_left _ _
    | (split <;> exact List.Subset.refl _)

theorem LogSystem.history_subset_run {s s' : LogSystem} {es : List LogEvent}
    (hrun : s.run es = some s') : s.history ⊆ s'.history := by
  induction es generalizing s with
  | nil =>
      obtain rfl : s = s' := by simpa [LogSystem.run] using hrun
      exact List.Subset.refl _
  | cons e es ih =>
      unfold LogSystem.run at hrun
      split at hrun
      case h_1 t hstep => exact List.Subset.trans (history_subset_step hstep) (ih hrun)
      case h_2 => cases hrun

theorem LogInv.reserved_run {start : Nat} {base : Nat → Block} {s s' : LogSystem}
    {es : List LogEvent} (hinv : LogInv start logsize base s)
    (hres : Reserved s.state.log s.pc s.history) (hrun : s.run es = some s')
    (hops : OpsWithin (maxopblocks - 1) s'.history) : Reserved s'.state.log s'.pc s'.history := by
  induction es generalizing s with
  | nil =>
      obtain rfl : s = s' := by simpa [LogSystem.run] using hrun
      exact hres
  | cons e es ih =>
      unfold LogSystem.run at hrun
      split at hrun
      case h_1 t hstep =>
        have hops' := hops.of_subset (LogSystem.history_subset_run hrun)
        exact ih (hinv.step hstep) (hinv.reserved_step hres hstep hops') hrun
      case h_2 => cases hrun

/-- **The reservation is sufficient for `MAXOPBLOCKS - 1` blocks.** On a disk laid out by `mkfs`, as
long as no operation has logged more than that many different blocks, no `log_write` of any
interleaving stops the machine for want of room. -/
theorem log_reservation (disk : Nat → Block) (hclean : disk 2 0 = 0) (events : List LogEvent)
    (s : LogSystem) (hrun : (LogSystem.mkfs disk).run events = some s)
    (hops : OpsWithin (maxopblocks - 1) s.history) (p b : Nat) :
    s.step (.logWrite p b) ≠ some (.error .tooBigTransaction) := by
  have hoff : LogInv 2 logsize disk (LogSystem.mkfs disk) := .off (by decide) hclean
  have hinv := hoff.run hrun
  have hres := hoff.reserved_run (.of_empty rfl fun _ => rfl) hrun hops
  by_cases henabled : s.step (.logWrite p b) = none
  · rw [henabled]
    exact nofun
  · obtain ⟨hup, -⟩ := LogSystem.step_logWrite henabled
    obtain ⟨S, -, hS⟩ := (hinv.live hup).busy
    have hcard : (blocksOf s.state.pending).card = s.state.log.lh.n := (hinv.live hup).card_blocksOf
    have hroom : s.Room := by
      have hle := hres.room S hS
      simp only [LogSystem.Room, hcard, logsize, maxopblocks] at hle ⊢
      omega
    exact (log_space disk hclean events s hrun p b henabled).mpr hroom

/-! ### Three operations that use all they have reserved -/

def logsBlock (p b : Nat) : List LogEvent := [.bread p b, .logWrite p b, .brelse p b]

/-- Three operations share a transaction and log nine blocks each, but for the last one. -/
def nineEach : List LogEvent :=
  [.recover none, .beginOp 0, .beginOp 1, .beginOp 2] ++
    (List.range 26).flatMap (fun i => logsBlock (i / 9) (40 + i)) ++ [.bread 2 66]

theorem log_reservation_nineEach :
    ∃ s, (LogSystem.mkfs fun _ _ => 0).run nineEach = some s ∧ s.history.length = 26 ∧
      OpsWithin (maxopblocks - 1) s.history ∧ (s.step (.logWrite 2 66)).isSome = true ∧
      s.step (.logWrite 2 66) ≠ some (.error .tooBigTransaction) := by
  have hrun : ((LogSystem.mkfs fun _ _ => 0).run nineEach).any (fun s =>
      decide (s.history.length = 26 ∧ OpsWithin (maxopblocks - 1) s.history ∧
        (s.step (.logWrite 2 66)).isSome = true)) = true := by
    decide +kernel
  obtain ⟨s, hs, hdecide⟩ := (Option.any_eq_true _ _).mp hrun
  obtain ⟨hlength, hops, hsome⟩ := of_decide_eq_true hdecide
  exact ⟨s, hs, hlength, hops, hsome, log_reservation _ rfl _ s hs hops 2 66⟩

/-- Three operations share a transaction: two log ten blocks each and the third its first nine. -/
def threeOps : List LogEvent :=
  [.recover none, .beginOp 0, .beginOp 1, .beginOp 2] ++
    (List.range 29).flatMap (fun i => logsBlock (i / 10) (40 + i)) ++ [.bread 2 69]

/-- Each of the three operations keeps within its reservation when the third logs its tenth block,
which is when the machine stops. -/
theorem log_space_threeOps :
    ∃ s, (LogSystem.mkfs fun _ _ => 0).run threeOps = some s ∧
      OpsWithin maxopblocks (s.history ++ [⟨2, 69, s.state.cached 69⟩]) ∧
      s.step (.logWrite 2 69) = some (.error .tooBigTransaction) := by
  have hrun : ((LogSystem.mkfs fun _ _ => 0).run threeOps).any (fun s =>
      decide (OpsWithin maxopblocks (s.history ++ [⟨2, 69, s.state.cached 69⟩]) ∧
        s.up = true ∧ s.pc 2 = .inOp 2 ∧ s.holder 69 = some 2 ∧ s.state.log.IsHome 69 ∧
        s.state.log.size - 1 ≤ s.state.log.lh.n)) = true := by
    decide +kernel
  obtain ⟨s, hs, hdecide⟩ := (Option.any_eq_true _ _).mp hrun
  obtain ⟨hwithin, hup, hpc, hholder, hhome, hfull⟩ := of_decide_eq_true hdecide
  refine ⟨s, hs, hwithin, ?_⟩
  have hstep : s.step (.logWrite 2 69) = some (s.after (logWrite 2 69) s.state fun _ t =>
      { s with
        state := t
        unlogged := upd s.unlogged 2 ((s.unlogged 2).filter fun c => c ≠ 69)
        history := s.history ++ [⟨2, 69, s.state.cached 69⟩] }) := by
    simp only [LogSystem.step, hpc, if_pos (show _ ∧ _ ∧ _ from ⟨hup, hholder, hhome⟩)]
  obtain ⟨t, hout⟩ := logWrite_tooBig_iff.mpr (.inr hfull)
  rw [hstep, LogSystem.after, hout]

end Xv6Mmap
