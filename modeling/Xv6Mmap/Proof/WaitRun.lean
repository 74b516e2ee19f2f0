import Xv6Mmap.Proof.WaitStep

/-!
# What `wait` returns

Processes are numbered when they are made. What `exit` records under the number of a child is what
`wait` returns of it, once.
-/

namespace Xv6Mmap

variable {nproc initproc : Nat} {s s' : Sched}

/-- Every process is numbered, and what `exit` recorded of it is what `wait` finds. -/
structure Recorded (s : Sched) : Prop where
  birth_lt : ∀ c, s.state c ≠ .unused → s.birth c < s.nextBirth
  birth_injective : ∀ c d, s.state c ≠ .unused → s.state d ≠ .unused → s.birth c = s.birth d → c = d
  exit_lt : ∀ e ∈ s.exits, e.birth < s.nextBirth
  exit_once : (s.exits.map Exit.birth).Nodup
  alive : ∀ c, s.state c ≠ .unused → s.state c ≠ .zombie → ∀ e ∈ s.exits, e.birth ≠ s.birth c
  zombie : ∀ c, s.state c = .zombie → ⟨s.birth c, s.pid c, s.xstate c⟩ ∈ s.exits
  reap_once : (s.reaps.map Reap.birth).Nodup
  reaped : ∀ r ∈ s.reaps, (∀ c, s.state c ≠ .unused → s.birth c ≠ r.birth) ∧
    ∃ e ∈ s.exits, e.birth = r.birth ∧ e.pid = r.pid ∧
      r.status = if r.addr then some e.status else none

/-- Nothing is recorded, and no process comes or goes. -/
structure Quiet (s s' : Sched) : Prop where
  unused : ∀ c, s'.state c = .unused ↔ s.state c = .unused
  zombie : ∀ c, s'.state c = .zombie ↔ s.state c = .zombie
  birth : ∀ c, s.state c ≠ .unused → s'.birth c = s.birth c
  pid : ∀ c, s.state c ≠ .unused → s'.pid c = s.pid c
  xstate : ∀ c, s.state c ≠ .unused → s'.xstate c = s.xstate c
  nextBirth : s.nextBirth ≤ s'.nextBirth
  exits : s'.exits = s.exits
  reaps : s'.reaps = s.reaps

theorem Quiet.of_eq (hstate : s'.state = s.state) (hbirth : s'.birth = s.birth)
    (hpid : s'.pid = s.pid) (hxstate : s'.xstate = s.xstate) (hnext : s'.nextBirth = s.nextBirth)
    (hexits : s'.exits = s.exits) (hreaps : s'.reaps = s.reaps) : Quiet s s' :=
  ⟨fun c => by rw [hstate], fun c => by rw [hstate], fun c _ => by rw [hbirth],
    fun c _ => by rw [hpid], fun c _ => by rw [hxstate], hnext.ge, hexits, hreaps⟩

theorem Quiet.restate {p : Nat} (st : ProcState) (hst : st ≠ .unused ∧ st ≠ .zombie)
    (hbefore : s.state p ≠ .unused ∧ s.state p ≠ .zombie) (hstate : s'.state = upd s.state p st)
    (hbirth : s'.birth = s.birth) (hpid : s'.pid = s.pid) (hxstate : s'.xstate = s.xstate)
    (hnext : s'.nextBirth = s.nextBirth) (hexits : s'.exits = s.exits)
    (hreaps : s'.reaps = s.reaps) : Quiet s s' := by
  refine ⟨fun c => ?_, fun c => ?_, fun c _ => by rw [hbirth], fun c _ => by rw [hpid],
    fun c _ => by rw [hxstate], hnext.ge, hexits, hreaps⟩ <;> rw [hstate] <;> by_cases hc : c = p
  · subst hc
    simp [hst.1, hbefore.1]
  · rw [upd_of_ne _ _ hc]
  · subst hc
    simp [hst.2, hbefore.2]
  · rw [upd_of_ne _ _ hc]

namespace Recorded

theorem quiet (hrec : Recorded s) (hquiet : Quiet s s') : Recorded s' := by
  obtain ⟨hunused, hzombie, hbirth, hpid, hxstate, hnext, hexits, hreaps⟩ := hquiet
  have hused : ∀ c, s'.state c ≠ .unused → s.state c ≠ .unused := fun c => mt (hunused c).mpr
  refine ⟨fun c hc => ?_, fun c d hc hd heq => ?_, fun e he => ?_, ?_, fun c hc hz e he => ?_,
    fun c hc => ?_, ?_, fun r hr => ?_⟩
  · rw [hbirth c (hused c hc)]
    exact Nat.lt_of_lt_of_le (hrec.birth_lt c (hused c hc)) hnext
  · rw [hbirth c (hused c hc), hbirth d (hused d hd)] at heq
    exact hrec.birth_injective c d (hused c hc) (hused d hd) heq
  · exact Nat.lt_of_lt_of_le (hrec.exit_lt e (hexits ▸ he)) hnext
  · rw [hexits]
    exact hrec.exit_once
  · rw [hbirth c (hused c hc)]
    exact hrec.alive c (hused c hc) (mt (hzombie c).mpr hz) e (hexits ▸ he)
  · have hz := (hzombie c).mp hc
    have hne : s.state c ≠ .unused := by simp [hz]
    rw [hbirth c hne, hpid c hne, hxstate c hne, hexits]
    exact hrec.zombie c hz
  · rw [hreaps]
    exact hrec.reap_once
  · rw [hreaps] at hr
    rw [hexits]
    obtain ⟨hold, hexit⟩ := hrec.reaped r hr
    refine ⟨fun c hc => ?_, hexit⟩
    rw [hbirth c (hused c hc)]
    exact hold c (hused c hc)

theorem alloc (hrec : Recorded s) {np : Nat} (hunused : s.state np = .unused)
    (hstate : s'.state = upd s.state np .used) (hbirth : s'.birth = upd s.birth np s.nextBirth)
    (hpid : ∀ c, c ≠ np → s'.pid c = s.pid c) (hxstate : s'.xstate = s.xstate)
    (hnext : s'.nextBirth = s.nextBirth + 1) (hexits : s'.exits = s.exits)
    (hreaps : s'.reaps = s.reaps) : Recorded s' := by
  -- a slot in use is the new one, or it was in use and has kept its number
  have hcases : ∀ c, s'.state c ≠ .unused → c = np ∧ s'.birth c = s.nextBirth ∨
      c ≠ np ∧ s.state c ≠ .unused ∧ s'.birth c = s.birth c ∧ s'.state c = s.state c := by
    intro c hc
    by_cases hcn : c = np
    · exact .inl ⟨hcn, by rw [hbirth, hcn, upd_self]⟩
    · rw [hstate, upd_of_ne _ _ hcn] at hc ⊢
      exact .inr ⟨hcn, hc, by rw [hbirth, upd_of_ne _ _ hcn], rfl⟩
  refine ⟨fun c hc => ?_, fun c d hc hd heq => ?_, fun e he => ?_, ?_, fun c hc hz e he => ?_,
    fun c hc => ?_, ?_, fun r hr => ?_⟩
  · rw [hnext]
    rcases hcases c hc with ⟨-, hb⟩ | ⟨-, hold, hb, -⟩
    · omega
    · have := hrec.birth_lt c hold
      omega
  · rcases hcases c hc with ⟨rfl, hb⟩ | ⟨-, hold, hb, -⟩
    · rcases hcases d hd with ⟨rfl, -⟩ | ⟨-, hold', hb', -⟩
      · rfl
      · have := hrec.birth_lt d hold'
        omega
    · rcases hcases d hd with ⟨rfl, hb'⟩ | ⟨-, hold', hb', -⟩
      · have := hrec.birth_lt c hold
        omega
      · exact hrec.birth_injective c d hold hold' (by omega)
  · rw [hexits] at he
    have := hrec.exit_lt e he
    omega
  · rw [hexits]
    exact hrec.exit_once
  · rw [hexits] at he
    rcases hcases c hc with ⟨-, hb⟩ | ⟨-, hold, hb, hst⟩
    · have := hrec.exit_lt e he
      omega
    · rw [hb]
      exact hrec.alive c hold (hst ▸ hz) e he
  · rcases hcases c (by simp [hc]) with ⟨rfl, -⟩ | ⟨hne, -, hb, hst⟩
    · rw [hstate, upd_self] at hc
      cases hc
    · rw [hb, hpid c hne, hxstate, hexits]
      exact hrec.zombie c (hst ▸ hc)
  · rw [hreaps]
    exact hrec.reap_once
  · rw [hreaps] at hr
    rw [hexits]
    obtain ⟨hold, e, he, heq, hrest⟩ := hrec.reaped r hr
    refine ⟨fun c hc => ?_, e, he, heq, hrest⟩
    rcases hcases c hc with ⟨-, hb⟩ | ⟨-, hused, hb, -⟩
    · have := hrec.exit_lt e he
      omega
    · rw [hb]
      exact hold c hused

theorem dies (hrec : Recorded s) {p : Nat} {status : Int}
    (hbefore : s.state p ≠ .unused ∧ s.state p ≠ .zombie)
    (hstate : s'.state = upd s.state p .zombie) (hbirth : s'.birth = s.birth)
    (hpid : s'.pid = s.pid) (hxstate : s'.xstate = upd s.xstate p status)
    (hnext : s'.nextBirth = s.nextBirth)
    (hexits : s'.exits = s.exits ++ [⟨s.birth p, s.pid p, status⟩])
    (hreaps : s'.reaps = s.reaps) : Recorded s' := by
  have hused : ∀ c, s'.state c ≠ .unused → s.state c ≠ .unused := by
    intro c hc
    by_cases hcp : c = p
    · exact hcp ▸ hbefore.1
    · rwa [hstate, upd_of_ne _ _ hcp] at hc
  refine ⟨fun c hc => ?_, fun c d hc hd heq => ?_, fun e he => ?_, ?_, fun c hc hz e he => ?_,
    fun c hc => ?_, ?_, fun r hr => ?_⟩
  · rw [hbirth, hnext]
    exact hrec.birth_lt c (hused c hc)
  · rw [hbirth] at heq
    exact hrec.birth_injective c d (hused c hc) (hused d hd) heq
  · rw [hexits] at he
    rw [hnext]
    rcases List.mem_append.mp he with he | he
    · exact hrec.exit_lt e he
    · rw [List.mem_singleton.mp he]
      exact hrec.birth_lt p hbefore.1
  · rw [hexits, List.map_append, List.nodup_append]
    refine ⟨hrec.exit_once, by simp, ?_⟩
    intro x hx y hy
    obtain ⟨e, he, rfl⟩ := List.mem_map.mp hx
    rw [List.mem_singleton.mp hy]
    exact hrec.alive p hbefore.1 hbefore.2 e he
  · have hcp : c ≠ p := by
      rintro rfl
      rw [hstate, upd_self] at hz
      exact hz rfl
    rw [hstate, upd_of_ne _ _ hcp] at hc hz
    rw [hexits] at he
    rw [hbirth]
    rcases List.mem_append.mp he with he | he
    · exact hrec.alive c hc hz e he
    · rw [List.mem_singleton.mp he]
      exact fun heq => hcp (hrec.birth_injective c p hc hbefore.1 heq.symm)
  · rw [hbirth, hpid, hxstate, hexits]
    by_cases hcp : c = p
    · subst hcp
      simp
    · rw [hstate, upd_of_ne _ _ hcp] at hc
      rw [upd_of_ne _ _ hcp]
      exact List.mem_append_left _ (hrec.zombie c hc)
  · rw [hreaps]
    exact hrec.reap_once
  · rw [hreaps] at hr
    obtain ⟨hold, e, he, hrest⟩ := hrec.reaped r hr
    refine ⟨fun c hc => ?_, e, by rw [hexits]; exact List.mem_append_left _ he, hrest⟩
    rw [hbirth]
    exact hold c (hused c hc)

theorem reap (hrec : Recorded s) {i p : Nat} {addr : Bool} (hzombie : s.state i = .zombie)
    (hstate : s'.state = upd s.state i .unused) (hbirth : s'.birth = s.birth)
    (hpid : ∀ c, c ≠ i → s'.pid c = s.pid c) (hxstate : ∀ c, c ≠ i → s'.xstate c = s.xstate c)
    (hnext : s'.nextBirth = s.nextBirth) (hexits : s'.exits = s.exits)
    (hreaps : s'.reaps = s.reaps ++
      [⟨p, i, s.birth i, s.pid i, addr, if addr then some (s.xstate i) else none⟩]) :
    Recorded s' := by
  have hcases : ∀ c, s'.state c ≠ .unused → c ≠ i ∧ s'.state c = s.state c := by
    intro c hc
    by_cases hci : c = i
    · rw [hstate, hci, upd_self] at hc
      exact (hc rfl).elim
    · exact ⟨hci, by rw [hstate, upd_of_ne _ _ hci]⟩
  have hi : s.state i ≠ .unused := by simp [hzombie]
  refine ⟨fun c hc => ?_, fun c d hc hd heq => ?_, fun e he => ?_, ?_, fun c hc hz e he => ?_,
    fun c hc => ?_, ?_, fun r hr => ?_⟩
  · rw [hbirth, hnext]
    exact hrec.birth_lt c ((hcases c hc).2 ▸ hc)
  · rw [hbirth] at heq
    exact hrec.birth_injective c d ((hcases c hc).2 ▸ hc) ((hcases d hd).2 ▸ hd) heq
  · rw [hnext]
    exact hrec.exit_lt e (hexits ▸ he)
  · rw [hexits]
    exact hrec.exit_once
  · rw [hbirth]
    exact hrec.alive c ((hcases c hc).2 ▸ hc) ((hcases c hc).2 ▸ hz) e (hexits ▸ he)
  · obtain ⟨hci, hst⟩ := hcases c (by simp [hc])
    rw [hbirth, hpid c hci, hxstate c hci, hexits]
    exact hrec.zombie c (hst ▸ hc)
  · rw [hreaps, List.map_append, List.nodup_append]
    refine ⟨hrec.reap_once, by simp, ?_⟩
    intro x hx y hy
    obtain ⟨r, hr, rfl⟩ := List.mem_map.mp hx
    rw [List.mem_singleton.mp hy]
    exact Ne.symm ((hrec.reaped r hr).1 i hi)
  · rw [hreaps] at hr
    rw [hexits, hbirth]
    rcases List.mem_append.mp hr with hr | hr
    · obtain ⟨hold, hexit⟩ := hrec.reaped r hr
      exact ⟨fun c hc => hold c ((hcases c hc).2 ▸ hc), hexit⟩
    · rw [List.mem_singleton.mp hr]
      refine ⟨fun c hc heq => ?_, _, hrec.zombie i hzombie, rfl, rfl, rfl⟩
      exact (hcases c hc).1 (hrec.birth_injective c i ((hcases c hc).2 ▸ hc) hi heq)

theorem boot : Recorded (Sched.boot initproc) := by
  have hinit : ∀ c, (Sched.boot initproc).state c ≠ .unused → c = initproc := fun c hc => by
    by_contra hne
    exact hc (by simp [Sched.boot, upd, hne])
  constructor
  case birth_lt => exact fun _ _ => Nat.one_pos
  case birth_injective => exact fun c d hc hd _ => (hinit c hc).trans (hinit d hd).symm
  case exit_lt => intros; contradiction
  case exit_once => exact List.nodup_nil
  case alive => intros; contradiction
  case zombie =>
    intro c hc
    rw [hinit c (by simp [hc])] at hc
    simp [Sched.boot] at hc
  case reap_once => exact List.nodup_nil
  case reaped => intros; contradiction

end Recorded

theorem Quiet.goto (hquiet : Quiet s s') (p : Nat) (pc : WaitPc) : Quiet s (s'.goto p pc) :=
  ⟨hquiet.unused, hquiet.zombie, hquiet.birth, hquiet.pid, hquiet.xstate, hquiet.nextBirth,
    hquiet.exits, hquiet.reaps⟩

theorem Sched.quiet_wakeOne (chan : Chan) (j : Nat) : Quiet s (s.wakeOne chan j) := by
  rw [Sched.wakeOne]
  split
  case isTrue h =>
    exact .restate .runnable (by decide) (by simp [h.1]) rfl rfl rfl rfl rfl rfl rfl
  case isFalse => exact .of_eq rfl rfl rfl rfl rfl rfl rfl

theorem Recorded.next (hrec : Recorded s) (hinv : WaitInv nproc initproc s) {p : Nat}
    {copied : Bool} (hnext : s.next nproc initproc p copied = some s') : Recorded s' := by
  have hlive : s.pc p ≠ .absent → (s.pc p).exited = false →
      s.state p ≠ .unused ∧ s.state p ≠ .zombie := by
    intro habsent hexited
    refine ⟨fun h => habsent ((hinv.absent p).mpr (.inl h)), fun h => ?_⟩
    rw [(hinv.zombie p).mp h] at hexited
    cases hexited
  have hsame : ∀ pc, Recorded (s.goto p pc) := fun pc =>
    hrec.quiet (.of_eq rfl rfl rfl rfl rfl rfl rfl)
  simp only [Sched.next] at hnext
  split at hnext
  case h_2 np hpc =>
    have hused : s.state np = .used := hinv.child p np (by rw [hpc]; rfl)
    split at hnext <;> cases hnext
    exact hrec.quiet
      (.restate .runnable (by decide) (by simp [hused]) rfl rfl rfl rfl rfl rfl rfl)
  case h_4 =>
    split at hnext
    case isTrue => cases hnext; exact hsame _
    case isFalse =>
      split at hnext <;> cases hnext <;> exact hrec.quiet (.of_eq rfl rfl rfl rfl rfl rfl rfl)
  case h_5 | h_6 =>
    split at hnext
    case isTrue => cases hnext; exact hsame _
    case isFalse =>
      split at hnext
      case isTrue => cases hnext; exact hsame _
      case isFalse =>
        split at hnext <;> cases hnext
        exact hrec.quiet ((s.quiet_wakeOne _ _).goto _ _)
  case h_7 status hpc =>
    split at hnext <;> cases hnext
    exact hrec.dies (hlive (by rw [hpc]; exact nofun) (by rw [hpc]; rfl)) rfl rfl rfl rfl rfl rfl rfl
  case h_11 i havekids addr hpc =>
    split at hnext
    case isTrue => cases hnext; exact hsame _
    case isFalse =>
      split at hnext
      case isFalse => cases hnext; exact hsame _
      case isTrue =>
        split at hnext
        case isFalse => cases hnext
        case isTrue =>
          split at hnext
          case isFalse => cases hnext; exact hsame _
          case isTrue hzombie =>
            split at hnext
            case isTrue => cases hnext; exact hsame _
            case isFalse =>
              cases hnext
              exact hrec.reap hzombie rfl rfl (fun c hc => upd_of_ne _ _ hc)
                (fun c hc => upd_of_ne _ _ hc) rfl rfl rfl
  case h_15 addr hpc =>
    cases hnext
    exact hrec.quiet (.restate .sleeping (by decide)
      (hlive (by rw [hpc]; exact nofun) (by rw [hpc]; rfl)) rfl rfl rfl rfl rfl rfl rfl)
  case h_1 | h_3 | h_10 | h_12 | h_13 =>
    split at hnext <;> cases hnext
    exact hrec.quiet (.of_eq rfl rfl rfl rfl rfl rfl rfl)
  case h_8 | h_9 | h_14 | h_16 | h_17 =>
    cases hnext
    exact hrec.quiet (.of_eq rfl rfl rfl rfl rfl rfl rfl)
  all_goals cases hnext

theorem Recorded.step (hrec : Recorded s) (hinv : WaitInv nproc initproc s) {a : SchedAct}
    (hstep : s.step nproc initproc a = some s') : Recorded s' := by
  cases a <;> simp only [Sched.step] at hstep
  case wakeOther q =>
    split at hstep
    case h_2 => cases hstep
    case h_1 k _ =>
      split at hstep <;> cases hstep
      exact hrec.quiet (s.quiet_wakeOne (.other k) q)
  all_goals
    split at hstep
    case isFalse => cases hstep
  case schedule.isTrue p h =>
    cases hstep
    exact hrec.quiet
      (.restate .running (by decide) (by simp [h.2.1]) rfl rfl rfl rfl rfl rfl rfl)
  case yield.isTrue p h =>
    cases hstep
    exact hrec.quiet (.restate .runnable (by decide) (by simp [h.1]) rfl rfl rfl rfl rfl rfl rfl)
  case sleepOther.isTrue p k h =>
    cases hstep
    exact hrec.quiet (.restate .sleeping (by decide) (by simp [h.1]) rfl rfl rfl rfl rfl rfl rfl)
  case kill.isTrue q h =>
    cases hstep
    by_cases hsleeping : s.state q = .sleeping
    · exact hrec.quiet (.restate (p := q) .runnable (by decide) (by simp [hsleeping])
        (if_pos hsleeping) rfl rfl rfl rfl rfl rfl)
    · exact hrec.quiet (.of_eq (if_neg hsleeping) rfl rfl rfl rfl rfl rfl)
  case fork.isTrue p np ok h =>
    obtain ⟨-, -, -, hunused, -⟩ := h
    split at hstep
    case isTrue =>
      cases hstep
      exact hrec.alloc hunused rfl rfl (fun c hc => upd_of_ne _ _ hc) rfl rfl rfl rfl
    case isFalse =>
      cases hstep
      -- the slot was UNUSED and is so again
      have hne : ∀ c, s.state c ≠ .unused → c ≠ np := by
        rintro c hc rfl
        exact hc hunused
      have hstate : ∀ c, upd (upd s.state np .used) np .unused c = s.state c := fun c => by
        by_cases hc : c = np
        · rw [hc, upd_self, hunused]
        · rw [upd_of_ne _ _ hc, upd_of_ne _ _ hc]
      exact hrec.quiet ⟨fun c => by rw [← hstate c]; rfl, fun c => by rw [← hstate c]; rfl,
        fun c hc => upd_of_ne _ _ (hne c hc),
        fun c hc => (upd_of_ne _ _ (hne c hc)).trans (upd_of_ne _ _ (hne c hc)),
        fun c hc => upd_of_ne _ _ (hne c hc), Nat.le_succ _, rfl, rfl⟩
  case next.isTrue p copied h => exact hrec.next hinv hstep
  case setKilled.isTrue | exit.isTrue | wait.isTrue =>
    cases hstep
    exact hrec.quiet (.of_eq rfl rfl rfl rfl rfl rfl rfl)

theorem WaitInv.run (acts : List SchedAct) {s s' : Sched} (hinv : WaitInv nproc initproc s)
    (hrec : Recorded s) (hrun : s.run nproc initproc acts = some s') :
    WaitInv nproc initproc s' ∧ Recorded s' := by
  induction acts generalizing s with
  | nil =>
      cases hrun
      exact ⟨hinv, hrec⟩
  | cons a acts ih =>
      rw [Sched.run] at hrun
      split at hrun
      case h_1 t hstep => exact ih (hinv.step hstep) (hrec.step hinv hstep) hrun
      case h_2 => cases hrun

/-- A process that is SLEEPING in `wait` while `wait_lock` is free has no zombie child. A zombie is
freed by one `wait` at most, which returns the pid the process had and, if asked, the status it
exited with. -/
theorem no_zombie_missed {nproc initproc : Nat} (hinit : initproc < nproc) {acts : List SchedAct}
    {s : Sched} (hrun : (Sched.boot initproc).run nproc initproc acts = some s) :
    (s.waitLock = none → ∀ p, s.state p = .sleeping → s.chan p = .proc p →
      (s.pc p).napping = true → ∀ c, s.parent c = some p → s.state c ≠ .zombie) ∧
    (s.exits.map Exit.birth).Nodup ∧ (s.reaps.map Reap.birth).Nodup ∧
    ∀ r ∈ s.reaps, ∃ e ∈ s.exits, e.birth = r.birth ∧ e.pid = r.pid ∧
      r.status = if r.addr then some e.status else none := by
  obtain ⟨hinv, hrec⟩ := (WaitInv.boot hinit).run acts .boot hrun
  refine ⟨fun hfree p hsleeping _ hnapping c hparent hzombie => ?_, hrec.exit_once, hrec.reap_once,
    fun r hr => (hrec.reaped r hr).2⟩
  have hdozing : s.dozing p = true := by
    unfold Sched.dozing
    split <;> simp_all [WaitPc.napping]
  -- the one exception is a `wakeup(initproc)` under way, and whoever runs it holds `wait_lock`
  obtain ⟨-, q, i, j, status, hpc, -⟩ := hinv.missed p c hdozing hparent hzombie
  have hheld : s.waitLock = some q := (hinv.lock q).mpr (by rw [hpc]; rfl)
  rw [hfree] at hheld
  cases hheld

/-- `init` forks, the child exits with status 7 while `init` sleeps in `wait`, and `init` wakes up
to collect it. -/
def waitForOne : List SchedAct :=
  [.schedule 0, .fork 0 1 true, .next 0 true, .next 0 true, .wait 0 true] ++
  List.replicate 9 (.next 0 true) ++
  [.schedule 1, .exit 1 7] ++ List.replicate 10 (.next 1 true) ++
  [.schedule 0] ++ List.replicate 4 (.next 0 true)

theorem no_zombie_missed_waitForOne :
    ∃ s, (Sched.boot 0).run 2 0 waitForOne = some s ∧ s.reaps = [⟨0, 1, 1, 2, true, some 7⟩] ∧
      (s.exits.map Exit.birth).Nodup ∧ ∀ r ∈ s.reaps, ∃ e ∈ s.exits,
        e.birth = r.birth ∧ e.pid = r.pid ∧ r.status = if r.addr then some e.status else none := by
  have hreaps : (((Sched.boot 0).run 2 0 waitForOne).any fun s =>
      decide (s.reaps = [⟨0, 1, 1, 2, true, some 7⟩])) = true := by
    decide +kernel
  obtain ⟨s, hrun, hs⟩ := (Option.any_eq_true _ _).mp hreaps
  obtain ⟨-, hexits, -, hreaped⟩ := no_zombie_missed (by decide) hrun
  exact ⟨s, hrun, of_decide_eq_true hs, hexits, hreaped⟩

end Xv6Mmap
