import Xv6Mmap.Wait

/-!
# No zombie is missed

`wait_lock` is held from the moment a parent starts to look at its children until it is certain to
see a wakeup, and by a child from before it looks for its parent until it is a zombie. So a parent
that has gone to sleep in `wait` has no zombie child, but for the moment in which `reparent` has given
a zombie to a sleeping `initproc` and its `wakeup` has not got there yet.
-/

namespace Xv6Mmap

def WaitPc.holdsWait : WaitPc → Bool
  | .exitReparent _ _ | .exitWakeInit _ _ _ | .exitWakeParent _ _ _ | .exitZombie _ | .exitRelease
  | .waitScan _ _ _ | .waitKilled _ | .waitSleep _ | .waitLocked _ | .waitReturn => true
  | _ => false

def WaitPc.holdsOwn : WaitPc → Bool
  | .exitRelease | .exitSched | .waitLocked _ | .waitChan _ | .waitAsleep _ => true
  | _ => false

def WaitPc.exited : WaitPc → Bool
  | .exitRelease | .exitSched | .dead => true
  | _ => false

/-- Places where `initproc` never is: in `exit`, or nowhere. -/
def WaitPc.exiting : WaitPc → Bool
  | .absent | .exitEnter _ | .exitReparent _ _ | .exitWakeInit _ _ _ | .exitWakeParent _ _ _ | .exitZombie _
  | .exitRelease | .exitSched | .dead => true
  | _ => false

def WaitPc.forking : WaitPc → Option Nat
  | .forkLink np | .forkReady np => some np
  | _ => none

/-- The slots in which `wait` has found no zombie child. -/
def WaitPc.seen (nproc : Nat) : WaitPc → Nat
  | .waitScan i _ _ => i
  | .waitKilled _ | .waitSleep _ | .waitLocked _ => nproc
  | _ => 0

/-- The slots that `exit`'s wakeup of the parent has passed. -/
def WaitPc.woken (nproc : Nat) : WaitPc → Nat
  | .exitWakeParent j _ _ => j
  | .exitZombie _ => nproc
  | _ => 0

def WaitPc.napping : WaitPc → Bool
  | .waitAsleep _ | .waitSwitched _ => true
  | _ => false

/-- A process that is going to sleep in `wait` or sleeps there. -/
def Sched.dozing (s : Sched) (p : Nat) : Bool :=
  match s.pc p with
  | .waitChan _ | .waitAsleep _ => true
  | .waitSwitched _ => s.state p = .sleeping
  | _ => false

structure WaitInv (nproc initproc : Nat) (s : Sched) : Prop where
  init_lt : initproc < nproc
  lock : ∀ p, s.waitLock = some p ↔ (s.pc p).holdsWait = true
  own : ∀ p, s.locked p = (s.pc p).holdsOwn
  zombie : ∀ p, s.state p = .zombie ↔ (s.pc p).exited = true
  absent : ∀ p, s.pc p = .absent ↔ s.state p = .unused ∨ s.state p = .used
  beyond : ∀ p, nproc ≤ p → s.state p = .unused
  orphan : ∀ p, s.state p = .unused → s.parent p = none
  asleep : ∀ p addr, s.pc p = .waitAsleep addr → s.state p = .sleeping
  channel : ∀ p, (s.pc p).napping = true → s.state p = .sleeping → s.chan p = .proc p
  child : ∀ p np, (s.pc p).forking = some np → s.state np = .used
  child_unique : ∀ p q np, (s.pc p).forking = some np → (s.pc q).forking = some np → p = q
  init_parent : s.parent initproc = none
  self_parent : ∀ p, s.parent p ≠ some p
  parent_lt : ∀ p q, s.parent p = some q → q < nproc
  init_exiting : (s.pc initproc).exiting = false
  wakes_parent : ∀ q j chan status p, s.pc q = .exitWakeParent j chan status →
    s.parent q = some p → chan = .proc p
  seen : ∀ p c, c < (s.pc p).seen nproc → s.parent c = some p → s.state c ≠ .zombie
  woken : ∀ q p, p < (s.pc q).woken nproc → s.parent q = some p → s.dozing p = false
  missed : ∀ p c, s.dozing p = true → s.parent c = some p → s.state c = .zombie →
    p = initproc ∧ ∃ q i j status, s.pc q = .exitWakeInit i j status ∧ j ≤ initproc

variable {nproc initproc : Nat} {s s' : Sched}

def Sched.change (s : Sched) (p : Nat) (pc : WaitPc) (st : ProcState) (ch : Chan)
    (lk : Option Nat) : Sched :=
  { s with
    pc := upd s.pc p pc, state := upd s.state p st, chan := upd s.chan p ch, waitLock := lk
    locked := upd s.locked p pc.holdsOwn }

/-- What a change of process `p` must respect. -/
structure Change (nproc initproc : Nat) (s : Sched) (p : Nat) (pc : WaitPc) (st : ProcState)
    (ch : Chan) (lk : Option Nat) : Prop where
  lock : ∀ q, lk = some q ↔ (upd s.pc p pc q).holdsWait = true
  zombie : st = .zombie ↔ pc.exited = true
  absent : pc = .absent ↔ st = .unused ∨ st = .used
  beyond : nproc ≤ p → st = .unused
  orphan : st = .unused → s.parent p = none
  asleep : ∀ addr, pc = .waitAsleep addr → st = .sleeping
  channel : pc.napping = true → st = .sleeping → ch = .proc p
  used : s.state p = .used → st = .used ∨ ∀ q, (s.pc q).forking ≠ some p
  child : ∀ np, pc.forking = some np →
    np ≠ p ∧ s.state np = .used ∧ ∀ q, (s.pc q).forking = some np → q = p
  init_exiting : pc.exiting = true → p ≠ initproc
  wakes_parent : ∀ j chan status q, pc = .exitWakeParent j chan status →
    s.parent p = some q → chan = .proc q
  seen : ∀ c, c < pc.seen nproc → s.parent c = some p → s.state c ≠ .zombie
  woken : ∀ q, q < pc.woken nproc → s.parent p = some q → s.dozing q = false
  dies : st = .zombie → s.state p = .zombie ∨
    s.waitLock = some p ∧ ∀ q, s.parent p = some q → s.dozing q = false
  dozes : (s.change p pc st ch lk).dozing p = true → s.dozing p = true ∨
    s.waitLock = some p ∧ ∀ c, s.parent c = some p → s.state c ≠ .zombie
  wakes_init : ∀ i j status, s.pc p = .exitWakeInit i j status → j ≤ initproc →
    s.dozing initproc = false ∨ ∃ i j status, pc = .exitWakeInit i j status ∧ j ≤ initproc

/-- Places at which a process makes no child and has passed no slot of `wait` or of a wakeup. -/
def WaitPc.idle : WaitPc → Bool
  | .absent | .user | .exitRelease | .exitSched | .dead | .waitChan _ | .waitAsleep _
  | .waitSwitched _ => true
  | _ => false

theorem WaitPc.exiting_of_exited {pc : WaitPc} (h : pc.exited = true) : pc.exiting = true := by
  cases pc <;> first | rfl | cases h

theorem WaitPc.idle_of_exited {pc : WaitPc} (h : pc.exited = true) : pc.idle = true := by
  cases pc <;> first | rfl | cases h

theorem WaitPc.eq_dead {pc : WaitPc} (h : pc.exited = true) (hown : pc.holdsOwn = false) :
    pc = .dead := by
  cases pc <;> simp [exited, holdsOwn] at h hown ⊢

theorem Change.of_idle {p : Nat} {pc : WaitPc} {st : ProcState} {ch : Chan} {lk : Option Nat}
    (hidle : pc.idle = true) (lock : ∀ q, lk = some q ↔ (upd s.pc p pc q).holdsWait = true)
    (zombie : st = .zombie ↔ pc.exited = true) (absent : pc = .absent ↔ st = .unused ∨ st = .used)
    (beyond : nproc ≤ p → st = .unused) (orphan : st = .unused → s.parent p = none)
    (asleep : ∀ addr, pc = .waitAsleep addr → st = .sleeping)
    (channel : pc.napping = true → st = .sleeping → ch = .proc p)
    (used : s.state p = .used → st = .used ∨ ∀ q, (s.pc q).forking ≠ some p)
    (init_exiting : pc.exiting = true → p ≠ initproc)
    (dies : st = .zombie → s.state p = .zombie ∨
      s.waitLock = some p ∧ ∀ q, s.parent p = some q → s.dozing q = false)
    (dozes : (s.change p pc st ch lk).dozing p = true → s.dozing p = true ∨
      s.waitLock = some p ∧ ∀ c, s.parent c = some p → s.state c ≠ .zombie)
    (wakes_init : ∀ i j status, s.pc p = .exitWakeInit i j status → j ≤ initproc →
      s.dozing initproc = false ∨ ∃ i j status, pc = .exitWakeInit i j status ∧ j ≤ initproc) :
    Change nproc initproc s p pc st ch lk := by
  have hforking : pc.forking = none := by cases pc <;> first | rfl | cases hidle
  have hseen : pc.seen nproc = 0 := by cases pc <;> first | rfl | cases hidle
  have hwoken : pc.woken nproc = 0 := by cases pc <;> first | rfl | cases hidle
  refine ⟨lock, zombie, absent, beyond, orphan, asleep, channel, used, ?_, init_exiting, ?_, ?_, ?_,
    dies, dozes, wakes_init⟩
  · intro np h
    rw [hforking] at h
    cases h
  · rintro j chan status q rfl
    cases hidle
  · intro c hc
    rw [hseen] at hc
    exact absurd hc (Nat.not_lt_zero c)
  · intro q hq
    rw [hwoken] at hq
    exact absurd hq (Nat.not_lt_zero q)

theorem Sched.dozing_change_of_ne {p q : Nat} {pc : WaitPc} {st : ProcState} {ch : Chan}
    {lock : Option Nat} (hne : q ≠ p) : (s.change p pc st ch lock).dozing q = s.dozing q := by
  simp only [dozing, change, upd_of_ne _ _ hne]

namespace WaitInv

variable {p : Nat} {pc : WaitPc} {st : ProcState} {ch : Chan} {lock : Option Nat}

theorem holder_unique (hinv : WaitInv nproc initproc s) {q : Nat}
    (hp : (s.pc p).holdsWait = true) (hq : (s.pc q).holdsWait = true) : p = q := by
  have := ((hinv.lock p).mpr hp).symm.trans ((hinv.lock q).mpr hq)
  exact Option.some.inj this

theorem holdsWait_of_seen (hseen : 0 < pc.seen nproc) : pc.holdsWait = true := by
  cases pc <;> first | rfl | exact absurd hseen (Nat.lt_irrefl 0)

theorem holdsWait_of_woken (hwoken : 0 < pc.woken nproc) : pc.holdsWait = true := by
  cases pc <;> first | rfl | exact absurd hwoken (Nat.lt_irrefl 0)

theorem change (hinv : WaitInv nproc initproc s)
    (hchange : Change nproc initproc s p pc st ch lock) :
    WaitInv nproc initproc (s.change p pc st ch lock) := by
  have hother : ∀ {q}, q ≠ p → (s.change p pc st ch lock).dozing q = s.dozing q :=
    Sched.dozing_change_of_ne
  constructor
  case init_lt => exact hinv.init_lt
  case lock => exact hchange.lock
  case own =>
    intro q
    by_cases hq : q = p
    · subst hq
      simp only [Sched.change, upd_self]
    · simp only [Sched.change, upd_of_ne _ _ hq, hinv.own]
  case zombie =>
    intro q
    by_cases hq : q = p
    · subst hq
      simpa only [Sched.change, upd_self] using hchange.zombie
    · simpa only [Sched.change, upd_of_ne _ _ hq] using hinv.zombie q
  case absent =>
    intro q
    by_cases hq : q = p
    · subst hq
      simpa only [Sched.change, upd_self] using hchange.absent
    · simpa only [Sched.change, upd_of_ne _ _ hq] using hinv.absent q
  case beyond =>
    intro q
    by_cases hq : q = p
    · subst hq
      simpa only [Sched.change, upd_self] using hchange.beyond
    · simpa only [Sched.change, upd_of_ne _ _ hq] using hinv.beyond q
  case orphan =>
    intro q
    by_cases hq : q = p
    · subst hq
      simpa only [Sched.change, upd_self] using hchange.orphan
    · simpa only [Sched.change, upd_of_ne _ _ hq] using hinv.orphan q
  case asleep =>
    intro q addr
    by_cases hq : q = p
    · subst hq
      simpa only [Sched.change, upd_self] using hchange.asleep addr
    · simpa only [Sched.change, upd_of_ne _ _ hq] using hinv.asleep q addr
  case channel =>
    intro q
    by_cases hq : q = p
    · subst hq
      simpa only [Sched.change, upd_self] using hchange.channel
    · simpa only [Sched.change, upd_of_ne _ _ hq] using hinv.channel q
  case child =>
    intro q np hfork
    by_cases hq : q = p
    · subst hq
      simp only [Sched.change, upd_self] at hfork
      obtain ⟨hne, hused, -⟩ := hchange.child np hfork
      simpa only [Sched.change, upd_of_ne _ _ hne] using hused
    · simp only [Sched.change, upd_of_ne _ _ hq] at hfork ⊢
      have hused := hinv.child q np hfork
      by_cases hnp : np = p
      · subst hnp
        rw [upd_self]
        exact (hchange.used hused).resolve_right fun h => h q hfork
      · rwa [upd_of_ne _ _ hnp]
  case child_unique =>
    intro q q' np hfork hfork'
    by_cases hq : q = p
    · subst hq
      by_contra hne
      simp only [Sched.change, upd_self, upd_of_ne _ _ (Ne.symm hne)] at hfork hfork'
      exact hne ((hchange.child np hfork).2.2 q' hfork').symm
    · by_cases hq' : q' = p
      · subst hq'
        simp only [Sched.change, upd_self, upd_of_ne _ _ hq] at hfork hfork'
        exact (hchange.child np hfork').2.2 q hfork
      · simp only [Sched.change, upd_of_ne _ _ hq, upd_of_ne _ _ hq'] at hfork hfork'
        exact hinv.child_unique q q' np hfork hfork'
  case init_parent => exact hinv.init_parent
  case self_parent => exact hinv.self_parent
  case parent_lt => exact hinv.parent_lt
  case init_exiting =>
    by_cases hq : initproc = p
    · simp only [Sched.change, hq, upd_self]
      by_contra hexit
      exact hchange.init_exiting (by simpa using hexit) hq.symm
    · simpa only [Sched.change, upd_of_ne _ _ hq] using hinv.init_exiting
  case wakes_parent =>
    intro q j chan status r hq hparent
    by_cases hqp : q = p
    · subst hqp
      simp only [Sched.change, upd_self] at hq
      exact hchange.wakes_parent j chan status r hq hparent
    · simp only [Sched.change, upd_of_ne _ _ hqp] at hq
      exact hinv.wakes_parent q j chan status r hq hparent
  case seen =>
    intro q c hc hparent
    by_cases hqp : q = p
    · subst hqp
      have hcp : c ≠ q := fun h => hinv.self_parent q (h ▸ hparent)
      simp only [Sched.change, upd_self, upd_of_ne _ _ hcp] at hc ⊢
      exact hchange.seen c hc hparent
    · simp only [Sched.change, upd_of_ne _ _ hqp] at hc ⊢
      by_cases hcp : c = p
      · subst hcp
        rw [upd_self]
        intro hst
        rcases hchange.dies hst with hbefore | ⟨hlock, -⟩
        · exact hinv.seen q c hc hparent hbefore
        · -- the dying process has `wait_lock`, so nobody else scans
          have hhold := holdsWait_of_seen (Nat.lt_of_le_of_lt (Nat.zero_le c) hc)
          exact hqp (hinv.holder_unique hhold ((hinv.lock c).mp hlock))
      · rw [upd_of_ne _ _ hcp]
        exact hinv.seen q c hc hparent
  case woken =>
    intro q r hr hparent
    by_cases hqp : q = p
    · subst hqp
      have hrq : r ≠ q := fun h => hinv.self_parent q (h ▸ hparent)
      rw [hother hrq]
      simp only [Sched.change, upd_self] at hr
      exact hchange.woken r hr hparent
    · simp only [Sched.change, upd_of_ne _ _ hqp] at hr
      by_cases hrp : r = p
      · subst hrp
        by_contra hdoze
        rcases hchange.dozes (by simpa using hdoze) with hbefore | ⟨hlock, -⟩
        · simp [hinv.woken q r hr hparent] at hbefore
        · have hhold := holdsWait_of_woken (Nat.lt_of_le_of_lt (Nat.zero_le r) hr)
          exact hqp (hinv.holder_unique hhold ((hinv.lock r).mp hlock))
      · rw [hother hrp]
        exact hinv.woken q r hr hparent
  case missed =>
    intro q c hdoze hparent hzombie
    have hcq : c ≠ q := fun h => hinv.self_parent q (h ▸ hparent)
    -- before the change `q` was dozing and `c` a zombie already
    have hbefore : s.dozing q = true ∧ s.state c = .zombie := by
      by_cases hqp : q = p
      · subst hqp
        simp only [Sched.change, upd_of_ne _ _ hcq] at hzombie
        rcases hchange.dozes hdoze with hbefore | ⟨-, hnone⟩
        · exact ⟨hbefore, hzombie⟩
        · exact (hnone c hparent hzombie).elim
      · rw [hother hqp] at hdoze
        refine ⟨hdoze, ?_⟩
        by_cases hcp : c = p
        · subst hcp
          simp only [Sched.change, upd_self] at hzombie
          rcases hchange.dies hzombie with hbefore | ⟨-, hawake⟩
          · exact hbefore
          · simp [hawake q hparent] at hdoze
        · simpa only [Sched.change, upd_of_ne _ _ hcp] using hzombie
    obtain ⟨rfl, r, i, j, status, hr, hj⟩ := hinv.missed q c hbefore.1 hparent hbefore.2
    refine ⟨rfl, ?_⟩
    by_cases hrp : r = p
    · subst hrp
      rcases hchange.wakes_init i j status hr hj with hawake | ⟨i', j', status', hpc, hj'⟩
      · simp [hawake] at hbefore
      · exact ⟨r, i', j', status', by simpa only [Sched.change, upd_self] using hpc, hj'⟩
    · exact ⟨r, i, j, status, by simpa only [Sched.change, upd_of_ne _ _ hrp] using hr, hj⟩

theorem relink (hinv : WaitInv nproc initproc s) (c : Nat) (par : Option Nat)
    (horphan : s.state c = .unused → par = none) (hinit : c = initproc → par = none)
    (hself : par ≠ some c) (hlt : ∀ q, par = some q → q < nproc)
    (hwakes : (s.pc c).woken nproc = 0 ∧ ∀ j chan status, s.pc c ≠ .exitWakeParent j chan status)
    (hseen : ∀ q, par = some q → c < (s.pc q).seen nproc → s.state c ≠ .zombie)
    (hmissed : ∀ q, par = some q → s.dozing q = true → s.state c = .zombie →
      q = initproc ∧ ∃ r i j status, s.pc r = .exitWakeInit i j status ∧ j ≤ initproc) :
    WaitInv nproc initproc { s with parent := upd s.parent c par } := by
  constructor
  case init_lt => exact hinv.init_lt
  case lock => exact hinv.lock
  case own => exact hinv.own
  case zombie => exact hinv.zombie
  case absent => exact hinv.absent
  case beyond => exact hinv.beyond
  case orphan =>
    intro q hq
    by_cases hqc : q = c
    · subst hqc
      simpa only [upd_self] using horphan hq
    · simpa only [upd_of_ne _ _ hqc] using hinv.orphan q hq
  case asleep => exact hinv.asleep
  case channel => exact hinv.channel
  case child => exact hinv.child
  case child_unique => exact hinv.child_unique
  case init_parent =>
    by_cases hic : initproc = c
    · simpa only [← hic, upd_self] using hinit hic.symm
    · simpa only [upd_of_ne _ _ hic] using hinv.init_parent
  case self_parent =>
    intro q
    by_cases hqc : q = c
    · subst hqc
      simpa only [upd_self] using hself
    · simpa only [upd_of_ne _ _ hqc] using hinv.self_parent q
  case parent_lt =>
    intro q r hr
    by_cases hqc : q = c
    · subst hqc
      exact hlt r (by simpa only [upd_self] using hr)
    · exact hinv.parent_lt q r (by simpa only [upd_of_ne _ _ hqc] using hr)
  case init_exiting => exact hinv.init_exiting
  case wakes_parent =>
    intro q j chan status r hq hr
    have hqc : q ≠ c := fun h => hwakes.2 j chan status (h ▸ hq)
    exact hinv.wakes_parent q j chan status r hq (by simpa only [upd_of_ne _ _ hqc] using hr)
  case seen =>
    intro q d hd hparent
    by_cases hdc : d = c
    · subst hdc
      exact hseen q (by simpa only [upd_self] using hparent) hd
    · exact hinv.seen q d hd (by simpa only [upd_of_ne _ _ hdc] using hparent)
  case woken =>
    intro q r hr hparent
    have hqc : q ≠ c := by
      rintro rfl
      simp [hwakes.1] at hr
    exact hinv.woken q r hr (by simpa only [upd_of_ne _ _ hqc] using hparent)
  case missed =>
    intro q d hdoze hparent hzombie
    by_cases hdc : d = c
    · subst hdc
      exact hmissed q (by simpa only [upd_self] using hparent) hdoze hzombie
    · exact hinv.missed q d hdoze (by simpa only [upd_of_ne _ _ hdc] using hparent) hzombie

theorem lock_keep (hinv : WaitInv nproc initproc s) (hsame : pc.holdsWait = (s.pc p).holdsWait)
    (q : Nat) : s.waitLock = some q ↔ (upd s.pc p pc q).holdsWait = true := by
  by_cases hq : q = p
  · subst hq
    rw [upd_self, hsame]
    exact hinv.lock q
  · rw [upd_of_ne _ _ hq]
    exact hinv.lock q

theorem lock_acquire (hinv : WaitInv nproc initproc s) (hfree : s.waitLock = none)
    (hholds : pc.holdsWait = true) (q : Nat) :
    some p = some q ↔ (upd s.pc p pc q).holdsWait = true := by
  by_cases hq : q = p
  · subst hq
    simp [hholds]
  · have hnot : (s.pc q).holdsWait ≠ true := fun h => by
      have := (hinv.lock q).mpr h
      simp [hfree] at this
    rw [upd_of_ne _ _ hq]
    simp [Ne.symm hq, hnot]

theorem lock_release (hinv : WaitInv nproc initproc s) (hheld : (s.pc p).holdsWait = true)
    (hnot : pc.holdsWait = false) (q : Nat) :
    none = some q ↔ (upd s.pc p pc q).holdsWait = true := by
  by_cases hq : q = p
  · subst hq
    simp [hnot]
  · rw [upd_of_ne _ _ hq]
    simp only [reduceCtorEq, false_iff]
    exact fun h => hq (hinv.holder_unique h hheld)

end WaitInv

/-- Places of a process that is not on its way to sleep, to `fork` a child or to its end. -/
def WaitPc.plain : WaitPc → Bool
  | .absent | .forkLink _ | .forkReady _ | .exitRelease | .exitSched | .dead | .waitChan _
  | .waitAsleep _ | .waitSwitched _ => false
  | _ => true

/-- A move between plain places that leaves the state alone. -/
theorem WaitInv.move (hinv : WaitInv nproc initproc s) (p : Nat) (pc : WaitPc) (lk : Option Nat)
    (hlock : ∀ q, lk = some q ↔ (upd s.pc p pc q).holdsWait = true) (hplain : pc.plain = true)
    (hbefore : (s.pc p).exited = false) (hpresent : s.pc p ≠ .absent)
    (hexit : pc.exiting = true → p ≠ initproc)
    (hwakes : ∀ j chan status q, pc = .exitWakeParent j chan status → s.parent p = some q →
      chan = .proc q)
    (hseen : ∀ c, c < pc.seen nproc → s.parent c = some p → s.state c ≠ .zombie)
    (hwoken : ∀ q, q < pc.woken nproc → s.parent p = some q → s.dozing q = false)
    (hwinit : ∀ i j status, s.pc p = .exitWakeInit i j status → j ≤ initproc →
      s.dozing initproc = false ∨ ∃ i j status, pc = .exitWakeInit i j status ∧ j ≤ initproc) :
    WaitInv nproc initproc (s.change p pc (s.state p) (s.chan p) lk) := by
  have hstate := hinv.absent p
  refine hinv.change ⟨hlock, ?_, ?_, hinv.beyond p, hinv.orphan p, ?_, ?_, fun h => .inl h, ?_,
    hexit, hwakes, hseen, hwoken, fun h => .inl h, ?_, hwinit⟩
  · rw [hinv.zombie p, hbefore]
    cases pc <;> simp [WaitPc.plain, WaitPc.exited] at hplain ⊢
  · rw [← hstate]
    refine ⟨fun h => ?_, fun h => (hpresent h).elim⟩
    rw [h] at hplain
    cases hplain
  · rintro addr rfl
    cases hplain
  · intro hnap
    cases pc <;> simp [WaitPc.plain, WaitPc.napping] at hplain hnap
  · intro np hfork
    cases pc <;> simp [WaitPc.plain, WaitPc.forking] at hplain hfork
  · intro hdoze
    cases pc <;> simp [WaitPc.plain, Sched.dozing, Sched.change] at hplain hdoze

theorem Sched.change_same {p : Nat} {pc : WaitPc} {lk : Option Nat}
    (hown : s.locked p = pc.holdsOwn) :
    s.change p pc (s.state p) (s.chan p) lk = { s with pc := upd s.pc p pc, waitLock := lk } := by
  simp only [change, upd_eq_self _ _ rfl, upd_eq_self _ _ hown]

theorem WaitInv.goto (hinv : WaitInv nproc initproc s) (p : Nat) (pc : WaitPc)
    (hwait : pc.holdsWait = (s.pc p).holdsWait) (hown : pc.holdsOwn = (s.pc p).holdsOwn)
    (hplain : pc.plain = true) (hbefore : (s.pc p).exited = false) (hpresent : s.pc p ≠ .absent)
    (hexit : pc.exiting = true → p ≠ initproc)
    (hwakes : ∀ j chan status q, pc = .exitWakeParent j chan status → s.parent p = some q →
      chan = .proc q)
    (hseen : ∀ c, c < pc.seen nproc → s.parent c = some p → s.state c ≠ .zombie)
    (hwoken : ∀ q, q < pc.woken nproc → s.parent p = some q → s.dozing q = false)
    (hwinit : ∀ i j status, s.pc p = .exitWakeInit i j status → j ≤ initproc →
      s.dozing initproc = false ∨ ∃ i j status, pc = .exitWakeInit i j status ∧ j ≤ initproc) :
    WaitInv nproc initproc (s.goto p pc) := by
  have hmove := hinv.move p pc s.waitLock (hinv.lock_keep hwait) hplain hbefore hpresent hexit
    hwakes hseen hwoken hwinit
  rwa [Sched.change_same ((hinv.own p).trans hown.symm)] at hmove

def ProcState.live : ProcState → Bool
  | .sleeping | .runnable | .running => true
  | _ => false

theorem ProcState.ne_of_live {st : ProcState} (h : st.live = true) :
    st ≠ .zombie ∧ st ≠ .unused ∧ st ≠ .used := by
  cases st <;> first | decide | cases h

theorem WaitInv.state_live (hinv : WaitInv nproc initproc s) {p : Nat} (hpc : s.pc p ≠ .absent)
    (hexited : (s.pc p).exited = false) : (s.state p).live = true := by
  have habsent := mt (hinv.absent p).mpr hpc
  have hzombie := mt (hinv.zombie p).mp (by simp [hexited])
  cases hst : s.state p <;> simp [hst] at habsent hzombie <;> rfl

/-- A change of state alone, of a process that holds no lock of its own. -/
theorem WaitInv.restate (hinv : WaitInv nproc initproc s) {p : Nat} {st : ProcState} {ch : Chan}
    (hfree : s.locked p = false) (hbefore : (s.state p).live = true) (hst : st.live = true)
    (hquiet : st ≠ .sleeping ∨ s.pc p = .user) :
    WaitInv nproc initproc { s with state := upd s.state p st, chan := upd s.chan p ch } := by
  have hown : (s.pc p).holdsOwn = false := (hinv.own p).symm.trans hfree
  have hawake : (s.change p (s.pc p) st ch s.waitLock).dozing p = false := by
    simp only [Sched.dozing, Sched.change, upd_self]
    rcases hquiet with hst | hpc
    · cases hpc : s.pc p <;> simp [hpc, WaitPc.holdsOwn, hst] at hown ⊢
    · rw [hpc]
  have hnot := ProcState.ne_of_live hbefore
  have hchange : Change nproc initproc s p (s.pc p) st ch s.waitLock := by
    constructor
    case lock => exact hinv.lock_keep rfl
    case zombie =>
      rw [← hinv.zombie p]
      cases st <;> simp [ProcState.live, hnot.1] at hst ⊢
    case absent =>
      rw [hinv.absent p]
      cases st <;> simp [ProcState.live, hnot.2] at hst ⊢
    case beyond => exact fun h => (hnot.2.1 (hinv.beyond p h)).elim
    case orphan =>
      rintro rfl
      cases hst
    case asleep =>
      intro addr hpc
      rw [hpc] at hown
      cases hown
    case channel =>
      intro hnap hsleep
      rcases hquiet with h | h
      · exact (h hsleep).elim
      · rw [h] at hnap
        cases hnap
    case used => exact fun h => (hnot.2.2 h).elim
    case child =>
      intro np hfork
      refine ⟨fun h => ?_, hinv.child p np hfork, fun q hq => hinv.child_unique q p np hq hfork⟩
      exact hnot.2.2 (h ▸ hinv.child p np hfork)
    case init_exiting =>
      rintro hexit rfl
      simp [hinv.init_exiting] at hexit
    case wakes_parent => exact fun j chan status q => hinv.wakes_parent p j chan status q
    case seen => exact hinv.seen p
    case woken => exact hinv.woken p
    case dies =>
      rintro rfl
      cases hst
    case dozes =>
      intro h
      rw [hawake] at h
      cases h
    case wakes_init => exact fun i j status hpc hj => .inr ⟨i, j, status, hpc, hj⟩
  have hinv' := hinv.change hchange
  have heq : s.change p (s.pc p) st ch s.waitLock =
      { s with state := upd s.state p st, chan := upd s.chan p ch } := by
    simp only [Sched.change, upd_eq_self _ _ rfl, upd_eq_self _ _ (hinv.own p)]
  rwa [heq] at hinv'

theorem WaitInv.awaken (hinv : WaitInv nproc initproc s) {p : Nat} (hfree : s.locked p = false)
    (hsleeping : s.state p = .sleeping) :
    WaitInv nproc initproc { s with state := upd s.state p .runnable } := by
  have hinv' : WaitInv nproc initproc
      { s with state := upd s.state p .runnable, chan := upd s.chan p (s.chan p) } :=
    hinv.restate hfree (by rw [hsleeping]; rfl) rfl (.inl nofun)
  rwa [upd_eq_self s.chan p rfl] at hinv'

theorem WaitInv.wakeOne (hinv : WaitInv nproc initproc s) (chan : Chan) {j : Nat}
    (hfree : s.locked j = false) : WaitInv nproc initproc (s.wakeOne chan j) := by
  unfold Sched.wakeOne
  split
  case isTrue h => exact hinv.awaken hfree h.1
  case isFalse => exact hinv

theorem WaitInv.schedule (hinv : WaitInv nproc initproc s) {p : Nat}
    (hrunnable : s.state p = .runnable) (hfree : s.locked p = false) :
    WaitInv nproc initproc { s with
      state := upd s.state p .running, chan := upd s.chan p .none
      pc := upd s.pc p (s.pc p).resume } := by
  have hrunning : WaitInv nproc initproc
      { s with state := upd s.state p .running, chan := upd s.chan p .none } :=
    hinv.restate hfree (by rw [hrunnable]; rfl) rfl (.inl nofun)
  cases hpc : s.pc p
  case waitSwitched addr =>
    refine hrunning.goto p (.waitEnter addr) ?_ ?_ rfl ?_ ?_ nofun nofun nofun nofun ?_
    all_goals simp only [hpc]
    · rfl
    · rfl
    · rfl
    · exact nofun
    · exact nofun
  all_goals
    rw [← hpc, show (s.pc p).resume = s.pc p by rw [hpc]; rfl, upd_eq_self s.pc p rfl]
    exact hrunning

end Xv6Mmap
