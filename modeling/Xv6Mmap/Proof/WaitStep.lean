import Xv6Mmap.Proof.Wait

/-!
# The steps of `exit` and `wait`

Every step of every process leaves the invariant, from the boot of the machine on.
-/

namespace Xv6Mmap

variable {nproc initproc : Nat} {s s' : Sched}

section Next

variable {p : Nat} {status : Int} {addr : Bool}

theorem WaitInv.ne_initproc (hinv : WaitInv nproc initproc s) (hexit : (s.pc p).exiting = true) :
    p ≠ initproc := by
  rintro rfl
  simp [hinv.init_exiting] at hexit

theorem WaitInv.exitEnter (hinv : WaitInv nproc initproc s) (hpc : s.pc p = .exitEnter status)
    (hfree : s.waitLock = none) :
    WaitInv nproc initproc
      { s with waitLock := some p, pc := upd s.pc p (.exitReparent 0 status) } := by
  have hmove := hinv.move p (.exitReparent 0 status) (some p) (hinv.lock_acquire hfree rfl) rfl
    (by rw [hpc]; rfl) (by rw [hpc]; exact nofun) (fun _ => hinv.ne_initproc (by rw [hpc]; rfl))
    nofun nofun nofun (by rw [hpc]; exact nofun)
  rwa [Sched.change_same ((hinv.own p).trans (by rw [hpc]; rfl))] at hmove

theorem WaitInv.waitEnter (hinv : WaitInv nproc initproc s) (hpc : s.pc p = .waitEnter addr)
    (hfree : s.waitLock = none) :
    WaitInv nproc initproc
      { s with waitLock := some p, pc := upd s.pc p (.waitScan 0 false addr) } := by
  have hmove := hinv.move p (.waitScan 0 false addr) (some p) (hinv.lock_acquire hfree rfl) rfl
    (by rw [hpc]; rfl) (by rw [hpc]; exact nofun) nofun nofun nofun nofun
    (by rw [hpc]; exact nofun)
  rwa [Sched.change_same ((hinv.own p).trans (by rw [hpc]; rfl))] at hmove

theorem WaitInv.waitReturn (hinv : WaitInv nproc initproc s) (hpc : s.pc p = .waitReturn) :
    WaitInv nproc initproc { s with waitLock := none, pc := upd s.pc p .user } := by
  have hmove := hinv.move p .user none (hinv.lock_release (by rw [hpc]; rfl) rfl) rfl
    (by rw [hpc]; rfl) (by rw [hpc]; exact nofun) nofun nofun nofun nofun
    (by rw [hpc]; exact nofun)
  rwa [Sched.change_same ((hinv.own p).trans (by rw [hpc]; rfl))] at hmove

theorem WaitInv.reparent_done (hinv : WaitInv nproc initproc s) {i : Nat} {chan : Chan}
    (hpc : s.pc p = .exitReparent i status) (hchan : ∀ q, s.parent p = some q → chan = .proc q) :
    WaitInv nproc initproc (s.goto p (.exitWakeParent 0 chan status)) := by
  refine hinv.goto p _ (by rw [hpc]; rfl) (by rw [hpc]; rfl) rfl (by rw [hpc]; rfl)
    (by rw [hpc]; exact nofun) (fun _ => hinv.ne_initproc (by rw [hpc]; rfl)) ?_ nofun nofun
    (by rw [hpc]; exact nofun)
  intro j chan' status' q heq
  cases heq
  exact hchan q

theorem WaitInv.reparent_skip (hinv : WaitInv nproc initproc s) {i : Nat}
    (hpc : s.pc p = .exitReparent i status) :
    WaitInv nproc initproc (s.goto p (.exitReparent (i + 1) status)) :=
  hinv.goto p _ (by rw [hpc]; rfl) (by rw [hpc]; rfl) rfl (by rw [hpc]; rfl)
    (by rw [hpc]; exact nofun) (fun _ => hinv.ne_initproc (by rw [hpc]; rfl)) nofun nofun nofun
    (by rw [hpc]; exact nofun)

/-- A child is given to `initproc`, which is then to be woken. -/
theorem WaitInv.reparent_one (hinv : WaitInv nproc initproc s) {i : Nat}
    (hpc : s.pc p = .exitReparent i status) (hchild : s.parent i = some p) :
    WaitInv nproc initproc
      { s with
        parent := upd s.parent i (some initproc), pc := upd s.pc p (.exitWakeInit i 0 status) } := by
  have hmoved : WaitInv nproc initproc (s.goto p (.exitWakeInit i 0 status)) :=
    hinv.goto p _ (by rw [hpc]; rfl) (by rw [hpc]; rfl) rfl (by rw [hpc]; rfl)
      (by rw [hpc]; exact nofun) (fun _ => hinv.ne_initproc (by rw [hpc]; rfl)) nofun nofun nofun
      (by rw [hpc]; exact nofun)
  have hholds : (s.pc p).holdsWait = true := by
    rw [hpc]
    rfl
  have hip : i ≠ p := fun h => hinv.self_parent p (h ▸ hchild)
  have hinit : i ≠ initproc := fun h => by
    rw [h, hinv.init_parent] at hchild
    cases hchild
  have hpi : upd s.pc p (.exitWakeInit i 0 status) i = s.pc i := upd_of_ne _ _ hip
  refine hmoved.relink i _ ?_ (fun h => (hinit h).elim) (by simpa using Ne.symm hinit)
    (fun q hq => by cases hq; exact hinv.init_lt) ⟨?_, ?_⟩ ?_ ?_
  · intro hunused
    rw [hinv.orphan i hunused] at hchild
    cases hchild
  · show WaitPc.woken nproc (upd s.pc p _ i) = 0
    rw [hpi]
    by_contra hwoken
    exact hip (hinv.holder_unique (WaitInv.holdsWait_of_woken (Nat.pos_of_ne_zero hwoken)) hholds)
  · intro j chan status'
    show upd s.pc p _ i ≠ _
    rw [hpi]
    intro hi
    exact hip (hinv.holder_unique (by rw [hi]; rfl) hholds)
  · intro q hq hlt
    cases hq
    -- `initproc` does not scan while `p` has `wait_lock`
    have hne : initproc ≠ p := Ne.symm (hinv.ne_initproc (by rw [hpc]; rfl))
    have hlt' : i < (s.pc initproc).seen nproc := by
      simpa only [Sched.goto, upd_of_ne _ _ hne] using hlt
    exact (hne (hinv.holder_unique (WaitInv.holdsWait_of_seen (Nat.zero_lt_of_lt hlt'))
      hholds)).elim
  · intro q hq _ _
    cases hq
    exact ⟨rfl, p, i, 0, status, by simp only [Sched.goto, upd_self], Nat.zero_le _⟩

theorem Sched.wakeOne_pc (s : Sched) (chan : Chan) (j : Nat) : (s.wakeOne chan j).pc = s.pc := by
  unfold wakeOne
  split <;> rfl

theorem Sched.wakeOne_parent (s : Sched) (chan : Chan) (j : Nat) :
    (s.wakeOne chan j).parent = s.parent := by
  unfold wakeOne
  split <;> rfl

theorem Sched.dozing_wakeOne {chan : Chan} {j q : Nat} (hawake : s.dozing q = false) :
    (s.wakeOne chan j).dozing q = false := by
  unfold wakeOne
  split
  · by_cases hq : q = j
    · subst hq
      simp only [dozing, upd_self] at hawake ⊢
      cases hpc : s.pc q <;> simp [hpc] at hawake ⊢
    · simpa only [dozing, upd_of_ne _ _ hq] using hawake
  · exact hawake

theorem WaitInv.dozing_wakeOne_self (hinv : WaitInv nproc initproc s) {j : Nat}
    (hfree : s.locked j = false) : (s.wakeOne (.proc j) j).dozing j = false := by
  have hown : (s.pc j).holdsOwn = false := (hinv.own j).symm.trans hfree
  by_cases hdoze : s.dozing j = true
  · obtain ⟨addr, hpc, hst⟩ : ∃ addr, s.pc j = .waitSwitched addr ∧ s.state j = .sleeping := by
      unfold Sched.dozing at hdoze
      cases hpc : s.pc j <;> simp [hpc, WaitPc.holdsOwn] at hdoze hown ⊢
      exact hdoze
    have hwoken : s.wakeOne (.proc j) j = { s with state := upd s.state j .runnable } :=
      if_pos ⟨hst, hinv.channel j (by rw [hpc]; rfl) hst⟩
    simp [hwoken, Sched.dozing, hpc]
  · exact Sched.dozing_wakeOne (by simpa using hdoze)

theorem WaitInv.wakeInit_done (hinv : WaitInv nproc initproc s) {i j : Nat}
    (hpc : s.pc p = .exitWakeInit i j status) (hj : nproc ≤ j) :
    WaitInv nproc initproc (s.goto p (.exitReparent (i + 1) status)) := by
  refine hinv.goto p _ (by rw [hpc]; rfl) (by rw [hpc]; rfl) rfl (by rw [hpc]; rfl)
    (by rw [hpc]; exact nofun) (fun _ => hinv.ne_initproc (by rw [hpc]; rfl)) nofun nofun nofun ?_
  intro i' j' status' hpc' hj'
  have hinit := hinv.init_lt
  rw [hpc] at hpc'
  cases hpc'
  omega

/-- One more slot has been passed, and the process in it is awake if it was to be woken. -/
theorem WaitInv.wakeInit_pass (hinv : WaitInv nproc initproc s) {i j : Nat}
    (hpc : s.pc p = .exitWakeInit i j status)
    (hawake : j = initproc → s.dozing initproc = false) :
    WaitInv nproc initproc (s.goto p (.exitWakeInit i (j + 1) status)) := by
  refine hinv.goto p _ (by rw [hpc]; rfl) (by rw [hpc]; rfl) rfl (by rw [hpc]; rfl)
    (by rw [hpc]; exact nofun) (fun _ => hinv.ne_initproc (by rw [hpc]; rfl)) nofun nofun nofun ?_
  intro i' j' status' hpc' hj'
  rw [hpc] at hpc'
  cases hpc'
  by_cases hinit : j = initproc
  · exact .inl (hawake hinit)
  · exact .inr ⟨i, j + 1, status, rfl, by omega⟩

theorem WaitInv.wakeParent_done (hinv : WaitInv nproc initproc s) {j : Nat} {chan : Chan}
    (hpc : s.pc p = .exitWakeParent j chan status) (hj : nproc ≤ j) :
    WaitInv nproc initproc (s.goto p (.exitZombie status)) := by
  refine hinv.goto p _ (by rw [hpc]; rfl) (by rw [hpc]; rfl) rfl (by rw [hpc]; rfl)
    (by rw [hpc]; exact nofun) (fun _ => hinv.ne_initproc (by rw [hpc]; rfl)) nofun nofun ?_
    (by rw [hpc]; exact nofun)
  intro q hq hparent
  refine hinv.woken p q ?_ hparent
  rw [hpc]
  exact Nat.lt_of_lt_of_le hq hj

theorem WaitInv.wakeParent_pass (hinv : WaitInv nproc initproc s) {j : Nat} {chan : Chan}
    (hpc : s.pc p = .exitWakeParent j chan status)
    (hawake : s.parent p = some j → s.dozing j = false) :
    WaitInv nproc initproc (s.goto p (.exitWakeParent (j + 1) chan status)) := by
  refine hinv.goto p _ (by rw [hpc]; rfl) (by rw [hpc]; rfl) rfl (by rw [hpc]; rfl)
    (by rw [hpc]; exact nofun) (fun _ => hinv.ne_initproc (by rw [hpc]; rfl)) ?_ nofun ?_
    (by rw [hpc]; exact nofun)
  · intro j' chan' status' q heq hparent
    cases heq
    exact hinv.wakes_parent p j chan status q hpc hparent
  · intro q hq hparent
    by_cases hqj : q = j
    · rw [hqj] at hparent ⊢
      exact hawake hparent
    · refine hinv.woken p q ?_ hparent
      rw [hpc]
      exact Nat.lt_of_le_of_ne (Nat.le_of_lt_succ hq) hqj

theorem WaitInv.congr (hinv : WaitInv nproc initproc s) (hstate : s'.state = s.state)
    (hchan : s'.chan = s.chan) (hparent : s'.parent = s.parent) (hlocked : s'.locked = s.locked)
    (hpc : s'.pc = s.pc) (hlock : s'.waitLock = s.waitLock) : WaitInv nproc initproc s' := by
  obtain ⟨h₁, h₂, h₃, h₄, h₅, h₆, h₇, h₈, h₉, h₁₀, h₁₁, h₁₂, h₁₃, h₁₄, h₁₅, h₁₆, h₁₇, h₁₈, h₁₉⟩ := hinv
  have hdozing : s'.dozing = s.dozing := by
    funext q
    simp only [Sched.dozing, hpc, hstate]
  rw [← hstate] at h₄ h₅ h₆ h₇ h₈ h₉ h₁₀ h₁₇ h₁₉
  rw [← hpc] at h₂ h₃ h₄ h₅ h₈ h₉ h₁₀ h₁₁ h₁₅ h₁₆ h₁₇ h₁₈ h₁₉
  rw [← hparent] at h₇ h₁₂ h₁₃ h₁₄ h₁₆ h₁₇ h₁₈ h₁₉
  rw [← hdozing] at h₁₈ h₁₉
  rw [← hlocked] at h₃
  rw [← hlock] at h₂
  rw [← hchan] at h₉
  exact ⟨h₁, h₂, h₃, h₄, h₅, h₆, h₇, h₈, h₉, h₁₀, h₁₁, h₁₂, h₁₃, h₁₄, h₁₅, h₁₆, h₁₇, h₁₈, h₁₉⟩

theorem WaitInv.exitZombie (hinv : WaitInv nproc initproc s) (hpc : s.pc p = .exitZombie status) :
    WaitInv nproc initproc (s.change p .exitRelease .zombie (s.chan p) s.waitLock) := by
  have hlive := hinv.state_live (p := p) (by rw [hpc]; exact nofun) (by rw [hpc]; rfl)
  have hholds : s.waitLock = some p := (hinv.lock p).mpr (by rw [hpc]; rfl)
  refine hinv.change ⟨hinv.lock_keep (by rw [hpc]; rfl), ⟨fun _ => rfl, fun _ => rfl⟩,
    ⟨nofun, nofun⟩, fun hp => ?_, nofun, nofun, nofun, fun hused => ?_, nofun,
    fun _ => hinv.ne_initproc (by rw [hpc]; rfl), nofun, nofun, nofun,
    fun _ => .inr ⟨hholds, fun q hq => ?_⟩, fun h => ?_, by rw [hpc]; exact nofun⟩
  · rw [hinv.beyond p hp] at hlive
    cases hlive
  · rw [hused] at hlive
    cases hlive
  · refine hinv.woken p q ?_ hq
    rw [hpc]
    exact hinv.parent_lt p q hq
  · simp [Sched.dozing, Sched.change] at h

theorem WaitInv.zombie_move (hinv : WaitInv nproc initproc s) (p : Nat) (pc : WaitPc)
    {lk : Option Nat} (hbefore : (s.pc p).exited = true) (hafter : pc.exited = true)
    (hlock : ∀ q, lk = some q ↔ (upd s.pc p pc q).holdsWait = true) :
    WaitInv nproc initproc (s.change p pc .zombie (s.chan p) lk) := by
  have hzombie := (hinv.zombie p).mpr hbefore
  apply hinv.change
  apply Change.of_idle (WaitPc.idle_of_exited hafter)
  case lock => exact hlock
  case zombie => exact ⟨fun _ => hafter, fun _ => rfl⟩
  case absent =>
    refine ⟨?_, fun h => by rcases h with h | h <;> cases h⟩
    rintro rfl
    cases hafter
  case beyond =>
    intro hp
    rw [hinv.beyond p hp] at hzombie
    cases hzombie
  case orphan =>
    intro h
    cases h
  case asleep =>
    rintro addr rfl
    cases hafter
  case channel =>
    intro _ h
    cases h
  case used =>
    intro hused
    rw [hused] at hzombie
    cases hzombie
  case init_exiting => exact fun _ => hinv.ne_initproc (WaitPc.exiting_of_exited hbefore)
  case dies => exact fun _ => .inl hzombie
  case dozes =>
    intro h
    cases pc <;> simp [WaitPc.exited, Sched.dozing, Sched.change] at hafter h
  case wakes_init =>
    intro i j status hpc
    rw [hpc] at hbefore
    cases hbefore

theorem WaitInv.waitScan_next (hinv : WaitInv nproc initproc s) {i : Nat} {havekids : Bool}
    (hpc : s.pc p = .waitScan i havekids addr)
    (hi : s.parent i = some p → s.state i ≠ .zombie) (havekids' : Bool) :
    WaitInv nproc initproc (s.goto p (.waitScan (i + 1) havekids' addr)) := by
  refine hinv.goto p _ (by rw [hpc]; rfl) (by rw [hpc]; rfl) rfl (by rw [hpc]; rfl)
    (by rw [hpc]; exact nofun) nofun nofun ?_ nofun (by rw [hpc]; exact nofun)
  intro c hc hparent
  by_cases hci : c = i
  · rw [hci] at hparent ⊢
    exact hi hparent
  · refine hinv.seen p c ?_ hparent
    rw [hpc]
    exact Nat.lt_of_le_of_ne (Nat.le_of_lt_succ hc) hci

theorem WaitInv.wait_move (hinv : WaitInv nproc initproc s) (p : Nat) {pc : WaitPc}
    (hwait : (s.pc p).holdsWait = true) (hexit : (s.pc p).exiting = false)
    (hnext : pc = .waitReturn ∨ (∃ addr, pc = .waitKilled addr ∨ pc = .waitSleep addr) ∧
      nproc ≤ (s.pc p).seen nproc) (hown : (s.pc p).holdsOwn = false) :
    WaitInv nproc initproc (s.goto p pc) := by
  have hexited : (s.pc p).exited = false := by
    cases hpc : s.pc p <;> simp [hpc, WaitPc.exiting] at hexit <;> rfl
  have hpresent : s.pc p ≠ .absent := fun h => by
    rw [h] at hwait
    cases hwait
  have hwinit : ∀ i j status, s.pc p ≠ .exitWakeInit i j status := fun i j status h => by
    rw [h] at hexit
    cases hexit
  rcases hnext with rfl | ⟨⟨addr, rfl | rfl⟩, hseen⟩
  · exact hinv.goto p _ hwait.symm hown.symm rfl hexited hpresent nofun nofun nofun nofun
      fun i j status h => (hwinit i j status h).elim
  · exact hinv.goto p _ hwait.symm hown.symm rfl hexited hpresent nofun nofun
      (fun c hc => hinv.seen p c (Nat.lt_of_lt_of_le hc hseen)) nofun
      fun i j status h => (hwinit i j status h).elim
  · exact hinv.goto p _ hwait.symm hown.symm rfl hexited hpresent nofun nofun
      (fun c hc => hinv.seen p c (Nat.lt_of_lt_of_le hc hseen)) nofun
      fun i j status h => (hwinit i j status h).elim

theorem WaitInv.waitSleep (hinv : WaitInv nproc initproc s) (hpc : s.pc p = .waitSleep addr) :
    WaitInv nproc initproc
      { s with locked := upd s.locked p true, pc := upd s.pc p (.waitLocked addr) } := by
  have hmove := hinv.move p (.waitLocked addr) s.waitLock (hinv.lock_keep (by rw [hpc]; rfl)) rfl
    (by rw [hpc]; rfl) (by rw [hpc]; exact nofun) nofun nofun
    (fun c hc => hinv.seen p c (by rw [hpc]; exact hc)) nofun (by rw [hpc]; exact nofun)
  simpa only [Sched.change, upd_eq_self _ _ rfl, WaitPc.holdsOwn] using hmove

/-- The steps of `sleep` from the release of `wait_lock` on. -/
theorem WaitInv.doze (hinv : WaitInv nproc initproc s) {pc : WaitPc} {st : ProcState} {ch : Chan}
    {lk : Option Nat} (hwait : (s.pc p).exiting = false) (hlive : (s.state p).live = true)
    (hst : st.live = true) (hlock : ∀ q, lk = some q ↔ (upd s.pc p pc q).holdsWait = true)
    (hpc : pc = .waitChan addr ∨
      (pc = .waitAsleep addr ∨ pc = .waitSwitched addr) ∧ st = .sleeping ∧ ch = .proc p)
    (hdozes : s.dozing p = true ∨
      s.waitLock = some p ∧ ∀ c, s.parent c = some p → s.state c ≠ .zombie) :
    WaitInv nproc initproc (s.change p pc st ch lk) := by
  have hnot := ProcState.ne_of_live hlive
  have hnot' := ProcState.ne_of_live hst
  have hidle : pc.idle = true := by rcases hpc with rfl | ⟨rfl | rfl, -⟩ <;> rfl
  apply hinv.change
  apply Change.of_idle hidle
  case lock => exact hlock
  case zombie => rcases hpc with rfl | ⟨rfl | rfl, -⟩ <;> simp [hnot'.1, WaitPc.exited]
  case absent => rcases hpc with rfl | ⟨rfl | rfl, -⟩ <;> simp [hnot'.2]
  case beyond => exact fun hp => (hnot.2.1 (hinv.beyond p hp)).elim
  case orphan => exact fun h => (hnot'.2.1 h).elim
  case asleep =>
    rintro addr' rfl
    rcases hpc with h | ⟨-, h, -⟩
    · cases h
    · exact h
  case channel =>
    intro hnap _
    rcases hpc with rfl | ⟨-, -, h⟩
    · cases hnap
    · exact h
  case used => exact fun h => (hnot.2.2 h).elim
  case init_exiting =>
    intro h
    rcases hpc with rfl | ⟨rfl | rfl, -⟩ <;> cases h
  case dies => exact fun h => (hnot'.1 h).elim
  case dozes => exact fun _ => hdozes
  case wakes_init =>
    intro i j status h
    rw [h] at hwait
    cases hwait

theorem WaitInv.waitLocked (hinv : WaitInv nproc initproc s) (hpc : s.pc p = .waitLocked addr) :
    WaitInv nproc initproc { s with waitLock := none, pc := upd s.pc p (.waitChan addr) } := by
  have hlive := hinv.state_live (p := p) (by rw [hpc]; exact nofun) (by rw [hpc]; rfl)
  have hheld : (s.pc p).holdsWait = true := by
    rw [hpc]
    rfl
  have hnone : ∀ c, s.parent c = some p → s.state c ≠ .zombie := by
    intro c hc
    refine hinv.seen p c ?_ hc
    rw [hpc]
    by_contra hbeyond
    have horphan := hinv.orphan c (hinv.beyond c (Nat.le_of_not_lt hbeyond))
    rw [horphan] at hc
    cases hc
  have hdoze : WaitInv nproc initproc
      (s.change p (.waitChan addr) (s.state p) (s.chan p) none) :=
    hinv.doze (by rw [hpc]; rfl) hlive hlive (hinv.lock_release hheld rfl) (.inl rfl)
      (.inr ⟨(hinv.lock p).mpr hheld, hnone⟩)
  rwa [Sched.change_same ((hinv.own p).trans (by rw [hpc]; rfl))] at hdoze

theorem WaitInv.waitChan (hinv : WaitInv nproc initproc s) (hpc : s.pc p = .waitChan addr) :
    WaitInv nproc initproc
      { s with
        chan := upd s.chan p (.proc p), state := upd s.state p .sleeping
        pc := upd s.pc p (.waitAsleep addr) } := by
  have hlive := hinv.state_live (p := p) (by rw [hpc]; exact nofun) (by rw [hpc]; rfl)
  have hdoze : WaitInv nproc initproc
      (s.change p (.waitAsleep addr) .sleeping (.proc p) s.waitLock) :=
    hinv.doze (by rw [hpc]; rfl) hlive rfl (hinv.lock_keep (by rw [hpc]; rfl))
      (.inr ⟨.inl rfl, rfl, rfl⟩) (.inl (by simp [Sched.dozing, hpc]))
  have hown : s.locked p = (WaitPc.waitAsleep addr).holdsOwn :=
    (hinv.own p).trans (by rw [hpc]; rfl)
  simpa only [Sched.change, upd_eq_self _ _ hown] using hdoze

theorem WaitInv.waitAsleep (hinv : WaitInv nproc initproc s) (hpc : s.pc p = .waitAsleep addr) :
    WaitInv nproc initproc
      { s with locked := upd s.locked p false, pc := upd s.pc p (.waitSwitched addr) } := by
  have hst := hinv.asleep p addr hpc
  have hchan := hinv.channel p (by rw [hpc]; rfl) hst
  have hdoze : WaitInv nproc initproc
      (s.change p (.waitSwitched addr) .sleeping (.proc p) s.waitLock) :=
    hinv.doze (by rw [hpc]; rfl) (by rw [hst]; rfl) rfl (hinv.lock_keep (by rw [hpc]; rfl))
      (.inr ⟨.inr rfl, rfl, rfl⟩) (.inl (by simp [Sched.dozing, hpc]))
  simpa only [Sched.change, upd_eq_self _ _ hst, upd_eq_self _ _ hchan, WaitPc.holdsOwn] using hdoze

theorem WaitInv.child_absent (hinv : WaitInv nproc initproc s) {np : Nat}
    (hfork : (s.pc p).forking = some np) : s.pc np = .absent ∧ np ≠ p := by
  have habsent := (hinv.absent np).mpr (.inr (hinv.child p np hfork))
  refine ⟨habsent, ?_⟩
  rintro rfl
  rw [habsent] at hfork
  cases hfork

theorem WaitInv.fork_move (hinv : WaitInv nproc initproc s) {pc : WaitPc} {np : Nat}
    (hpc : pc = .forkLink np ∨ pc = .forkReady np) (hbefore : (s.pc p).free = true)
    (hexit : (s.pc p).exiting = false) (hne : np ≠ p) (hused : s.state np = .used)
    (honly : ∀ q, (s.pc q).forking = some np → q = p) :
    WaitInv nproc initproc (s.goto p pc) := by
  have hlive := hinv.state_live (p := p) (fun h => by rw [h] at hexit; cases hexit)
    (by cases h : s.pc p <;> simp [h, WaitPc.exiting, WaitPc.exited] at hexit ⊢)
  have hwait : pc.holdsWait = (s.pc p).holdsWait := by
    rcases hpc with rfl | rfl <;>
      cases h : s.pc p <;> simp [h, WaitPc.free, WaitPc.holdsWait] at hbefore ⊢
  have hown : s.locked p = pc.holdsOwn := by
    rw [hinv.own p]
    rcases hpc with rfl | rfl <;>
      cases h : s.pc p <;> simp [h, WaitPc.free, WaitPc.holdsOwn] at hbefore ⊢
  have hwinit : ∀ i j status, s.pc p ≠ .exitWakeInit i j status := fun i j status h => by
    rw [h] at hexit
    cases hexit
  have hnot := ProcState.ne_of_live hlive
  have hchange : Change nproc initproc s p pc (s.state p) (s.chan p) s.waitLock := by
    constructor
    case lock => exact hinv.lock_keep hwait
    case zombie => rcases hpc with rfl | rfl <;> simp [hnot.1, WaitPc.exited]
    case absent => rcases hpc with rfl | rfl <;> simp [hnot.2]
    case beyond => exact hinv.beyond p
    case orphan => exact hinv.orphan p
    case asleep =>
      rintro addr rfl
      rcases hpc with h | h <;> cases h
    case channel =>
      intro h
      rcases hpc with rfl | rfl <;> cases h
    case used => exact fun h => .inl h
    case child =>
      intro np' hfork
      obtain rfl : np = np' := by rcases hpc with rfl | rfl <;> exact Option.some.inj hfork
      exact ⟨hne, hused, honly⟩
    case init_exiting =>
      intro h
      rcases hpc with rfl | rfl <;> cases h
    case wakes_parent =>
      rintro j chan status q rfl
      rcases hpc with h | h <;> cases h
    case seen =>
      intro c hc
      rcases hpc with rfl | rfl <;> exact absurd hc (Nat.not_lt_zero c)
    case woken =>
      intro q hq
      rcases hpc with rfl | rfl <;> exact absurd hq (Nat.not_lt_zero q)
    case dies => exact fun h => .inl h
    case dozes =>
      intro h
      simp only [Sched.dozing, Sched.change, upd_self] at h
      rcases hpc with rfl | rfl <;> cases h
    case wakes_init => exact fun i j status h => (hwinit i j status h).elim
  have hinv' := hinv.change hchange
  rwa [Sched.change_same hown] at hinv'

theorem WaitInv.forkLink (hinv : WaitInv nproc initproc s) {np : Nat}
    (hpc : s.pc p = .forkLink np) :
    WaitInv nproc initproc
      { s with parent := upd s.parent np (some p), pc := upd s.pc p (.forkReady np) } := by
  have hfork : (s.pc p).forking = some np := by
    rw [hpc]
    rfl
  obtain ⟨habsent, hne⟩ := hinv.child_absent hfork
  have hused := hinv.child p np hfork
  have hmoved := hinv.fork_move (p := p) (.inr rfl) (by rw [hpc]; rfl) (by rw [hpc]; rfl) hne hused
    fun q hq => hinv.child_unique q p np hq hfork
  have hpcnp : upd s.pc p (.forkReady np) np = .absent := (upd_of_ne _ _ hne).trans habsent
  refine hmoved.relink np _ ?_ ?_ (by simpa using Ne.symm hne) ?_ ⟨?_, ?_⟩ ?_ ?_
  · intro h
    rw [show (s.goto p (.forkReady np)).state np = s.state np from rfl, hused] at h
    cases h
  · rintro rfl
    have hexit := hinv.init_exiting
    rw [habsent] at hexit
    cases hexit
  · rintro q hq
    cases hq
    by_contra hbeyond
    have hpa := (hinv.absent p).mpr (.inl (hinv.beyond p (Nat.le_of_not_lt hbeyond)))
    rw [hpc] at hpa
    cases hpa
  · show WaitPc.woken nproc (upd s.pc p _ np) = 0
    rw [hpcnp]
    rfl
  · intro j chan status'
    show upd s.pc p _ np ≠ _
    rw [hpcnp]
    exact nofun
  · rintro q hq -
    show s.state np ≠ .zombie
    rw [hused]
    exact nofun
  · intro q hq _ hzombie
    rw [show (s.goto p (.forkReady np)).state np = s.state np from rfl, hused] at hzombie
    cases hzombie

theorem WaitInv.forkReady (hinv : WaitInv nproc initproc s) {np : Nat}
    (hpc : s.pc p = .forkReady np) :
    WaitInv nproc initproc
      { s with state := upd s.state np .runnable, pc := upd (upd s.pc np .user) p .user } := by
  have hfork : (s.pc p).forking = some np := by
    rw [hpc]
    rfl
  obtain ⟨habsent, hne⟩ := hinv.child_absent hfork
  have hused := hinv.child p np hfork
  have hmoved : WaitInv nproc initproc (s.goto p .user) :=
    hinv.goto p .user (by rw [hpc]; rfl) (by rw [hpc]; rfl) rfl (by rw [hpc]; rfl)
      (by rw [hpc]; exact nofun) nofun nofun nofun nofun (by rw [hpc]; exact nofun)
  have hpcnp : (s.goto p .user).pc np = .absent := (upd_of_ne _ _ hne).trans habsent
  have hfree : ∀ q, ((s.goto p .user).pc q).forking ≠ some np := by
    intro q hq
    by_cases hqp : q = p
    · subst hqp
      simp [Sched.goto, WaitPc.forking] at hq
    · exact hqp (hinv.child_unique q p np (by simpa [Sched.goto, upd_of_ne _ _ hqp] using hq) hfork)
  have hchange : Change nproc initproc (s.goto p .user) np .user .runnable (s.chan np)
      s.waitLock := by
    apply Change.of_idle rfl
    case lock => exact hmoved.lock_keep (by rw [hpcnp]; rfl)
    case zombie | absent => decide
    case beyond =>
      intro hnp
      rw [hinv.beyond np hnp] at hused
      cases hused
    case used => exact fun _ => .inr hfree
    case orphan | channel | init_exiting | dies =>
      intro h
      cases h
    case asleep =>
      intro addr h
      cases h
    case dozes =>
      intro h
      simp only [Sched.dozing, Sched.change, upd_self] at h
      cases h
    case wakes_init =>
      intro i j status h
      rw [hpcnp] at h
      cases h
  have hinv' := hmoved.change hchange
  refine hinv'.congr rfl ?_ rfl ?_ ?_ rfl
  · exact (upd_eq_self s.chan np rfl).symm
  · have hown : s.locked np = WaitPc.user.holdsOwn := (hinv.own np).trans (by rw [habsent]; rfl)
    exact (upd_eq_self s.locked np hown).symm
  · funext q
    simp only [Sched.change, Sched.goto, upd]
    split_ifs <;> rfl

theorem WaitInv.slot (hinv : WaitInv nproc initproc s) {np : Nat} {st : ProcState} {ch : Chan}
    (hnp : np < nproc) (hunused : s.state np = .unused) (hst : st = .unused ∨ st = .used) :
    WaitInv nproc initproc { s with state := upd s.state np st, chan := upd s.chan np ch } := by
  have habsent := (hinv.absent np).mpr (.inl hunused)
  have hchange : Change nproc initproc s np .absent st ch s.waitLock := by
    refine ⟨hinv.lock_keep (by rw [habsent]), ?_, ⟨fun _ => hst, fun _ => rfl⟩, fun h => by omega,
      fun _ => hinv.orphan np hunused, nofun, nofun, fun h => ?_, nofun, fun _ h => ?_, nofun, nofun,
      nofun, fun h => ?_, fun h => ?_, by rw [habsent]; exact nofun⟩
    · rcases hst with rfl | rfl <;> simp [WaitPc.exited]
    · rw [hunused] at h
      cases h
    · have hexit := hinv.init_exiting
      rw [← h, habsent] at hexit
      cases hexit
    · rcases hst with rfl | rfl <;> cases h
    · simp [Sched.dozing, Sched.change] at h
  have hown : s.locked np = WaitPc.absent.holdsOwn := (hinv.own np).trans (by rw [habsent])
  have hinv' := hinv.change hchange
  simpa only [Sched.change, upd_eq_self _ _ habsent, upd_eq_self _ _ hown] using hinv'

theorem WaitInv.fork_ok (hinv : WaitInv nproc initproc s) {np : Nat} (hpc : s.pc p = .user)
    (hnp : np < nproc) (hunused : s.state np = .unused) :
    WaitInv nproc initproc
      (Sched.goto { s with state := upd s.state np .used } p (.forkLink np)) := by
  have hslot : WaitInv nproc initproc
      { s with state := upd s.state np .used, chan := upd s.chan np (s.chan np) } :=
    hinv.slot hnp hunused (.inr rfl)
  rw [upd_eq_self s.chan np rfl] at hslot
  have hne : np ≠ p := by
    rintro rfl
    have habsent := (hinv.absent np).mpr (.inl hunused)
    rw [hpc] at habsent
    cases habsent
  refine hslot.fork_move (p := p) (.inl rfl) (by simp only [hpc]; rfl) (by simp only [hpc]; rfl) hne
    (upd_self _ _ _) fun q hq => ?_
  have hused := hinv.child q np hq
  rw [hunused] at hused
  cases hused

theorem WaitInv.reap (hinv : WaitInv nproc initproc s) {i : Nat} {havekids : Bool}
    (hpc : s.pc p = .waitScan i havekids addr) (hparent : s.parent i = some p)
    (hfree : s.locked i = false) (hzombie : s.state i = .zombie) :
    WaitInv nproc initproc ((s.freeproc i).goto p .waitReturn) := by
  have hexited := (hinv.zombie i).mp hzombie
  have hdead : s.pc i = .dead := WaitPc.eq_dead hexited ((hinv.own i).symm.trans hfree)
  have hip : i ≠ p := fun h => hinv.self_parent p (h ▸ hparent)
  have hunlinked := hinv.relink i none (fun _ => rfl) (fun _ => rfl) nofun nofun
    ⟨by rw [hdead]; rfl, by rw [hdead]; exact nofun⟩ nofun nofun
  have hchange : Change nproc initproc { s with parent := upd s.parent i none } i .absent .unused
      .none s.waitLock := by
    apply Change.of_idle rfl
    case lock => exact hinv.lock_keep (by rw [hdead]; rfl)
    case zombie => decide
    case absent => exact ⟨fun _ => .inl rfl, fun _ => rfl⟩
    case beyond => exact fun _ => rfl
    case orphan => exact fun _ => upd_self _ _ _
    case asleep =>
      intro addr h
      cases h
    case channel | dies =>
      intro h
      cases h
    case used =>
      intro h
      simp only [hzombie] at h
      cases h
    case init_exiting => exact fun _ => hinv.ne_initproc (by rw [hdead]; rfl)
    case dozes =>
      intro h
      simp only [Sched.dozing, Sched.change, upd_self] at h
      cases h
    case wakes_init =>
      intro k j status h
      simp only [hdead] at h
      cases h
  have hfreed := hunlinked.change hchange
  have hpcp : upd s.pc i .absent p = .waitScan i havekids addr :=
    (upd_of_ne _ _ (Ne.symm hip)).trans hpc
  have hdone := hfreed.wait_move p
    (by show (upd s.pc i .absent p).holdsWait = true; rw [hpcp]; rfl)
    (by show (upd s.pc i .absent p).exiting = false; rw [hpcp]; rfl) (.inl rfl)
    (by show (upd s.pc i .absent p).holdsOwn = false; rw [hpcp]; rfl)
  refine hdone.congr rfl rfl rfl ?_ rfl rfl
  have hown : s.locked i = WaitPc.absent.holdsOwn := hfree
  exact (upd_eq_self s.locked i hown).symm

theorem WaitInv.next (hinv : WaitInv nproc initproc s) {copied : Bool}
    (hnext : s.next nproc initproc p copied = some s') : WaitInv nproc initproc s' := by
  unfold Sched.next at hnext
  split at hnext
  case h_1 np hpc =>
    split at hnext <;> cases hnext
    exact hinv.forkLink hpc
  case h_2 np hpc =>
    split at hnext <;> cases hnext
    exact hinv.forkReady hpc
  case h_3 status hpc =>
    split at hnext
    case isTrue hfree =>
      cases hnext
      exact hinv.exitEnter hpc hfree
    case isFalse => cases hnext
  case h_4 i status hpc =>
    split at hnext
    case isTrue =>
      cases hnext
      refine hinv.reparent_done hpc fun q hq => ?_
      simp only [hq]
    case isFalse =>
      split at hnext
      case isTrue hchild =>
        cases hnext
        exact hinv.reparent_one hpc hchild
      case isFalse =>
        cases hnext
        exact hinv.reparent_skip hpc
  case h_5 i j status hpc =>
    split at hnext
    case isTrue hj =>
      cases hnext
      exact hinv.wakeInit_done hpc hj
    case isFalse =>
      split at hnext
      case isTrue hjp =>
        cases hnext
        refine hinv.wakeInit_pass hpc fun h => ?_
        exact (hinv.ne_initproc (p := p) (by rw [hpc]; rfl) (hjp.symm.trans h)).elim
      case isFalse =>
        split at hnext
        case isTrue hfree =>
          cases hnext
          refine (hinv.wakeOne _ hfree).wakeInit_pass (by rw [Sched.wakeOne_pc]; exact hpc) ?_
          rintro rfl
          exact hinv.dozing_wakeOne_self hfree
        case isFalse => cases hnext
  case h_6 j chan status hpc =>
    split at hnext
    case isTrue hj =>
      cases hnext
      exact hinv.wakeParent_done hpc hj
    case isFalse =>
      split at hnext
      case isTrue hjp =>
        cases hnext
        refine hinv.wakeParent_pass hpc fun h => ?_
        exact (hinv.self_parent p (hjp ▸ h)).elim
      case isFalse =>
        split at hnext
        case isTrue hfree =>
          cases hnext
          refine (hinv.wakeOne _ hfree).wakeParent_pass (by rw [Sched.wakeOne_pc]; exact hpc) ?_
          intro hparent
          rw [Sched.wakeOne_parent] at hparent
          rw [hinv.wakes_parent p j chan status j hpc hparent]
          exact hinv.dozing_wakeOne_self hfree
        case isFalse => cases hnext
  case h_7 status hpc =>
    split at hnext <;> cases hnext
    exact (hinv.exitZombie hpc).congr rfl (upd_eq_self s.chan p rfl).symm rfl rfl rfl rfl
  case h_8 hpc =>
    cases hnext
    have hmove := hinv.zombie_move p .exitSched (by rw [hpc]; rfl) rfl
      (hinv.lock_release (by rw [hpc]; rfl) rfl)
    have hzombie : s.state p = .zombie := (hinv.zombie p).mpr (by rw [hpc]; rfl)
    have hown : s.locked p = WaitPc.exitSched.holdsOwn := (hinv.own p).trans (by rw [hpc]; rfl)
    exact hmove.congr (upd_eq_self s.state p hzombie).symm (upd_eq_self s.chan p rfl).symm rfl
      (upd_eq_self s.locked p hown).symm rfl rfl
  case h_9 hpc =>
    cases hnext
    have hmove := hinv.zombie_move p .dead (by rw [hpc]; rfl) rfl
      (hinv.lock_keep (by rw [hpc]; rfl))
    have hzombie : s.state p = .zombie := (hinv.zombie p).mpr (by rw [hpc]; rfl)
    exact hmove.congr (upd_eq_self s.state p hzombie).symm (upd_eq_self s.chan p rfl).symm rfl
      rfl rfl rfl
  case h_10 addr hpc =>
    split at hnext
    case isTrue hfree =>
      cases hnext
      exact hinv.waitEnter hpc hfree
    case isFalse => cases hnext
  case h_11 i havekids addr hpc =>
    have hmove : ∀ {pc}, pc = .waitReturn ∨ (∃ addr, pc = .waitKilled addr ∨ pc = .waitSleep addr) ∧
        nproc ≤ i → WaitInv nproc initproc (s.goto p pc) := fun h =>
      hinv.wait_move p (by rw [hpc]; rfl) (by rw [hpc]; rfl) (by rw [hpc]; exact h)
        (by rw [hpc]; rfl)
    split at hnext
    case isTrue hi =>
      cases hnext
      cases havekids with
      | true => exact hmove (.inr ⟨⟨addr, .inl rfl⟩, hi⟩)
      | false => exact hmove (.inl rfl)
    case isFalse =>
      split at hnext
      case isFalse hchild =>
        cases hnext
        exact hinv.waitScan_next hpc (fun h => (hchild h).elim) havekids
      case isTrue hchild =>
        split at hnext
        case isFalse => cases hnext
        case isTrue hfree =>
          split at hnext
          case isFalse hzombie =>
            cases hnext
            exact hinv.waitScan_next hpc (fun _ => hzombie) true
          case isTrue hzombie =>
            split at hnext
            case isTrue =>
              cases hnext
              exact hmove (.inl rfl)
            case isFalse =>
              cases hnext
              exact (hinv.reap hpc hchild hfree hzombie).congr rfl rfl rfl rfl rfl rfl
  case h_12 addr hpc =>
    split at hnext
    case isFalse => cases hnext
    case isTrue =>
      cases hnext
      have hmove : ∀ {pc}, pc = .waitReturn ∨
          (∃ addr, pc = .waitKilled addr ∨ pc = .waitSleep addr) ∧ nproc ≤ nproc →
          WaitInv nproc initproc (s.goto p pc) := fun h =>
        hinv.wait_move p (by rw [hpc]; rfl) (by rw [hpc]; rfl) (by rw [hpc]; exact h)
          (by rw [hpc]; rfl)
      cases s.killed p with
      | true => exact hmove (.inl rfl)
      | false => exact hmove (.inr ⟨⟨addr, .inr rfl⟩, le_rfl⟩)
  case h_13 addr hpc =>
    split at hnext <;> cases hnext
    exact hinv.waitSleep hpc
  case h_14 addr hpc =>
    cases hnext
    exact hinv.waitLocked hpc
  case h_15 addr hpc =>
    cases hnext
    exact hinv.waitChan hpc
  case h_16 addr hpc =>
    cases hnext
    exact hinv.waitAsleep hpc
  case h_17 hpc =>
    cases hnext
    exact hinv.waitReturn hpc
  all_goals cases hnext

end Next

theorem WaitInv.step (hinv : WaitInv nproc initproc s) {a : SchedAct}
    (hstep : s.step nproc initproc a = some s') : WaitInv nproc initproc s' := by
  cases a with
  | schedule p =>
      obtain ⟨h, hstep⟩ := Option.ite_none_right_eq_some.mp hstep
      cases hstep
      exact hinv.schedule h.2.1 h.2.2
  | yield p =>
      obtain ⟨h, hstep⟩ := Option.ite_none_right_eq_some.mp hstep
      cases hstep
      have hinv' : WaitInv nproc initproc
          { s with state := upd s.state p .runnable, chan := upd s.chan p (s.chan p) } :=
        hinv.restate h.2.1 (by rw [h.1]; rfl) rfl (.inl (by simp))
      rwa [upd_eq_self s.chan p rfl] at hinv'
  | sleepOther p k =>
      obtain ⟨h, hstep⟩ := Option.ite_none_right_eq_some.mp hstep
      cases hstep
      exact hinv.restate h.2.1 (by rw [h.1]; rfl) rfl (.inr h.2.2)
  | wakeOther q =>
      simp only [Sched.step] at hstep
      split at hstep
      case h_2 => cases hstep
      case h_1 k _ =>
        obtain ⟨hfree, hstep⟩ := Option.ite_none_right_eq_some.mp hstep
        cases hstep
        exact hinv.wakeOne _ hfree
  | kill q =>
      obtain ⟨h, hstep⟩ := Option.ite_none_right_eq_some.mp hstep
      cases hstep
      by_cases hsleeping : s.state q = .sleeping
      · exact (hinv.awaken h.2 hsleeping).congr (by simp [hsleeping]) rfl rfl rfl rfl rfl
      · exact hinv.congr (by simp [hsleeping]) rfl rfl rfl rfl rfl
  | setKilled q =>
      obtain ⟨-, hstep⟩ := Option.ite_none_right_eq_some.mp hstep
      cases hstep
      exact hinv.congr rfl rfl rfl rfl rfl rfl
  | fork p np ok =>
      obtain ⟨⟨-, hpc, hnp, hunused, -⟩, hstep⟩ := Option.ite_none_right_eq_some.mp hstep
      split at hstep
      case isTrue =>
        cases hstep
        exact (hinv.fork_ok hpc hnp hunused).congr rfl rfl rfl rfl rfl rfl
      case isFalse =>
        cases hstep
        have hslot : WaitInv nproc initproc
            { s with state := upd s.state np .unused, chan := upd s.chan np .none } :=
          hinv.slot hnp hunused (.inl rfl)
        refine hslot.congr ?_ rfl ?_ rfl ?_ rfl
        · funext q
          simp only [Sched.freeproc, upd]
          split_ifs <;> rfl
        · exact upd_eq_self s.parent np (hinv.orphan np hunused)
        · exact upd_eq_self s.pc np ((hinv.absent np).mpr (.inl hunused))
  | exit p status =>
      obtain ⟨⟨-, hpc, hne⟩, hstep⟩ := Option.ite_none_right_eq_some.mp hstep
      cases hstep
      refine hinv.goto p _ (by rw [hpc]; rfl) (by rw [hpc]; rfl) rfl (by rw [hpc]; rfl)
        (by rw [hpc]; simp) (fun _ => hne) ?_ ?_ ?_ (by rw [hpc]; intros; contradiction)
      all_goals intros; contradiction
  | wait p addr =>
      obtain ⟨⟨-, hpc⟩, hstep⟩ := Option.ite_none_right_eq_some.mp hstep
      cases hstep
      refine hinv.goto p _ (by rw [hpc]; rfl) (by rw [hpc]; rfl) rfl (by rw [hpc]; rfl)
        (by rw [hpc]; simp) ?_ ?_ ?_ ?_ (by rw [hpc]; intros; contradiction)
      all_goals intros; contradiction
  | next p copied =>
      simp only [Sched.step] at hstep
      split at hstep
      case isFalse => cases hstep
      case isTrue => exact hinv.next hstep

theorem WaitInv.boot (hinit : initproc < nproc) : WaitInv nproc initproc (Sched.boot initproc) := by
  have hcases : ∀ p, p = initproc ∧ (Sched.boot initproc).pc p = .user ∧
      (Sched.boot initproc).state p = .runnable ∨ p ≠ initproc ∧
      (Sched.boot initproc).pc p = .absent ∧ (Sched.boot initproc).state p = .unused := fun p => by
    by_cases hp : p = initproc
    · exact .inl ⟨hp, by simp [Sched.boot, hp], by simp [Sched.boot, hp]⟩
    · exact .inr ⟨hp, by simp [Sched.boot, upd, hp], by simp [Sched.boot, upd, hp]⟩
  constructor
  case init_lt => exact hinit
  case lock =>
    intro p
    rcases hcases p with ⟨-, hpc, -⟩ | ⟨-, hpc, -⟩ <;> rw [hpc] <;> constructor <;> intros <;> contradiction
  case own => intro p; rcases hcases p with ⟨-, hpc, -⟩ | ⟨-, hpc, -⟩ <;> rw [hpc] <;> rfl
  case zombie =>
    intro p
    rcases hcases p with ⟨-, hpc, hst⟩ | ⟨-, hpc, hst⟩ <;> rw [hpc, hst] <;> constructor <;> intros <;> contradiction
  case absent => intro p; rcases hcases p with ⟨-, hpc, hst⟩ | ⟨-, hpc, hst⟩ <;> simp [hpc, hst]
  case beyond =>
    intro p hp
    rcases hcases p with ⟨rfl, -⟩ | ⟨-, -, hst⟩
    · omega
    · exact hst
  case orphan => exact fun _ _ => rfl
  case asleep => intro p; rcases hcases p with ⟨-, hpc, -⟩ | ⟨-, hpc, -⟩ <;> simp [hpc]
  case channel =>
    intro p
    rcases hcases p with ⟨-, hpc, -⟩ | ⟨-, hpc, -⟩ <;> rw [hpc] <;> intros <;> contradiction
  case child =>
    intro p
    rcases hcases p with ⟨-, hpc, -⟩ | ⟨-, hpc, -⟩ <;> rw [hpc] <;> intros <;> contradiction
  case child_unique =>
    intro p
    rcases hcases p with ⟨-, hpc, -⟩ | ⟨-, hpc, -⟩ <;> rw [hpc] <;> intros <;> contradiction
  case init_parent => rfl
  case self_parent => intro _ h; cases h
  case parent_lt => intros; contradiction
  case init_exiting =>
    rcases hcases initproc with ⟨-, hpc, -⟩ | ⟨h, -⟩
    · rw [hpc]
      rfl
    · exact (h rfl).elim
  case wakes_parent => intros; contradiction
  case seen => intros; contradiction
  case woken => intros; contradiction
  case missed => intros; contradiction

end Xv6Mmap
