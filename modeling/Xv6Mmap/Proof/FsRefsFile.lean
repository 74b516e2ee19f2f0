import Xv6Mmap.Proof.FsRefsPath

/-!
# References of open files

The references that pipes, the file table and the descriptors of a process hold.
-/

namespace Xv6Mmap.Fs

open Sequential

variable {held : Ref → Int}

/-! ### Pipes -/

theorem State.pointers_nonneg (s : State) (r : Ref) : 0 ≤ s.pointers r := by
  simp only [State.pointers]
  omega

theorem PipesOk.shut {s : State} (hok : PipesOk s) {pi : Nat} {pipe pipe' : Pipe}
    (hpipe : s.pipe pi = some pipe) (hbirth : pipe'.birth = pipe.birth)
    (hopen : pipe'.readopen = true ∨ pipe'.writeopen = true) :
    PipesOk { s with pipe := upd s.pipe pi (some pipe') } := by
  -- what lives in a page is what lived there, up to the two flags
  have hold : ∀ pj q, upd s.pipe pi (some pipe') pj = some q →
      (q.readopen = true ∨ q.writeopen = true) ∧ ∃ q', s.pipe pj = some q' ∧ q'.birth = q.birth := by
    intro pj q hq
    by_cases hpj : pj = pi
    · rw [hpj, upd_self, Option.some.injEq] at hq
      subst hq
      exact ⟨hopen, pipe, by rw [hpj, hpipe], hbirth.symm⟩
    · rw [upd_of_ne _ _ hpj] at hq
      exact ⟨hok.isOpen pj q hq, q, hq, rfl⟩
  constructor
  case isOpen => exact fun pj q hq => (hold pj q hq).1
  case birth_lt =>
    intro pj q hq
    obtain ⟨-, q', hq', hb⟩ := hold pj q hq
    exact hb ▸ hok.birth_lt pj q' hq'
  case birth_injective =>
    intro pj pk q r hq hr heq
    obtain ⟨-, q', hq', hbq⟩ := hold pj q hq
    obtain ⟨-, r', hr', hbr⟩ := hold pk r hr
    exact hok.birth_injective pj pk q' r' hq' hr' (by rw [hbq, hbr, heq])
  case freed_once => exact hok.freed_once
  case freed_dead =>
    intro pj q hq
    obtain ⟨-, q', hq', hb⟩ := hold pj q hq
    exact hb ▸ hok.freed_dead pj q' hq'
  case freed_lt => exact hok.freed_lt
  case born =>
    intro b hb
    refine (hok.born b hb).imp id fun ⟨pj, q, hq, hqb⟩ => ?_
    by_cases hpj : pj = pi
    · rw [hpj, hpipe, Option.some.injEq] at hq
      exact ⟨pi, pipe', upd_self _ _ _, by rw [hbirth, hq, hqb]⟩
    · exact ⟨pj, q, by rw [← hq]; exact upd_of_ne _ _ hpj, hqb⟩

theorem PipesOk.free {s : State} (hok : PipesOk s) {pi : Nat} {pipe : Pipe}
    (hpipe : s.pipe pi = some pipe) :
    PipesOk { s with pipe := upd s.pipe pi none, freed := s.freed ++ [pipe.birth] } := by
  have hold : ∀ pj q, upd s.pipe pi none pj = some q → pj ≠ pi ∧ s.pipe pj = some q := by
    intro pj q hq
    by_cases hpj : pj = pi
    · rw [hpj, upd_self] at hq
      cases hq
    · rw [upd_of_ne _ _ hpj] at hq
      exact ⟨hpj, hq⟩
  constructor
  case isOpen => exact fun pj q hq => hok.isOpen pj q (hold pj q hq).2
  case birth_lt => exact fun pj q hq => hok.birth_lt pj q (hold pj q hq).2
  case birth_injective =>
    exact fun pj pk q r hq hr => hok.birth_injective pj pk q r (hold pj q hq).2 (hold pk r hr).2
  case freed_once =>
    rw [List.nodup_append]
    refine ⟨hok.freed_once, by simp, fun b hb b' hb' heq => ?_⟩
    rw [heq, List.mem_singleton.mp hb'] at hb
    exact hok.freed_dead pi pipe hpipe hb
  case freed_dead =>
    intro pj q hq hmem
    obtain ⟨hpj, hq⟩ := hold pj q hq
    rcases List.mem_append.mp hmem with hmem | hmem
    · exact hok.freed_dead pj q hq hmem
    · exact hpj (hok.birth_injective pj pi q pipe hq hpipe (List.mem_singleton.mp hmem))
  case freed_lt =>
    intro b hb
    rcases List.mem_append.mp hb with hb | hb
    · exact hok.freed_lt b hb
    · rw [List.mem_singleton.mp hb]
      exact hok.birth_lt pi pipe hpipe
  case born =>
    intro b hb
    rcases hok.born b hb with hmem | ⟨pj, q, hq, hqb⟩
    · exact .inl (List.mem_append_left _ hmem)
    · by_cases hpj : pj = pi
      · rw [hpj, hpipe, Option.some.injEq] at hq
        exact .inl (by simp [← hqb, hq])
      · exact .inr ⟨pj, q, by rw [← hq]; exact upd_of_ne _ _ hpj, hqb⟩

theorem Pipe.isOpen_shut (pipe : Pipe) (w w' : Bool) :
    (pipe.shut w).isOpen w' = (pipe.isOpen w' && w != w') := by
  cases w <;> cases w' <;> simp [Pipe.shut, Pipe.isOpen]

theorem Pipe.birth_shut (pipe : Pipe) (w : Bool) : (pipe.shut w).birth = pipe.birth := by
  cases w <;> rfl

theorem pipeclose_eq {s : State} {pi : Nat} {pipe : Pipe} (hpipe : s.pipe pi = some pipe) (w : Bool) :
    pipeclose pi w s = .ok () (if pipe.isOpen (!w) then
      { s with pipe := upd s.pipe pi (some (pipe.shut w)) }
    else { s with pipe := upd s.pipe pi none, freed := s.freed ++ [pipe.birth] }) := by
  unfold pipeclose
  rw [run_modify_bind, run_get_bind, hpipe]
  have hboth : ((pipe.shut w).readopen || (pipe.shut w).writeopen) = pipe.isOpen (!w) := by
    cases w <;> simp [Pipe.shut, Pipe.isOpen]
  simp only [Option.map_some, upd_self, hboth, ne_eq, Option.some.injEq, Bool.not_eq_true]
  by_cases hopen : pipe.isOpen (!w) = true
  · rw [if_neg (by simp [hopen]), if_pos hopen]
    rfl
  · rw [if_pos (by simpa using hopen), if_neg hopen]
    simp only [kfreePipe, upd_self, upd_upd, Pipe.birth_shut]

theorem pipeclose_spec (pi : Nat) (w : Bool) (hends : held (.pipeEnd pi w) = 0) :
    Spec (Holding (held + one (some (.pipeEnd pi w)))) (pipeclose pi w) fun _ => Holding held :=
  fun s hold => by
    -- a reference is held, so the page is in use and the end is open
    obtain ⟨pipe, hpipe, hopen⟩ : ∃ pipe, s.pipe pi = some pipe ∧ pipe.isOpen w = true := by
      have hcount := hold.balanced.count (.pipeEnd pi w) trivial
      have hnonneg := s.pointers_nonneg (.pipeEnd pi w)
      simp only [Pi.add_apply, hends, one_self, State.count] at hcount
      by_cases hany : ((s.pipe pi).any fun pipe => pipe.isOpen w) = true
      · exact (Option.any_eq_true _ _).mp hany
      · rw [if_neg hany] at hcount
        omega
    have hother : ∀ r, (∀ w', r ≠ .pipeEnd pi w') → held r = (held + one (some (.pipeEnd pi w))) r := by
      intro r hr
      rw [Pi.add_apply, one_of_ne (hr w), Int.add_zero]
    refine .of_ok (pipeclose_eq hpipe w) ?_
    by_cases hstill : pipe.isOpen (!w) = true
    · rw [if_pos hstill]
      refine ⟨hold.balanced.setPipe pi (some (pipe.shut w))
        { s with pipe := upd s.pipe pi (some (pipe.shut w)) } rfl rfl rfl rfl (fun w' => ?_) hother,
        hold.pipes.shut hpipe (pipe.birth_shut w) ?_⟩
      · by_cases hw : w' = w
        · subst hw
          simp [hpipe, hopen, Pipe.isOpen_shut]
        · have hw' : w' = !w := by revert hw; cases w <;> cases w' <;> decide
          subst hw'
          rw [Pi.add_apply, one_of_ne (by simp)]
          simp [hpipe, hstill, Pipe.isOpen_shut]
      · cases w
        · exact .inr (by simpa [Pipe.shut, Pipe.isOpen] using hstill)
        · exact .inl (by simpa [Pipe.shut, Pipe.isOpen] using hstill)
    · rw [if_neg hstill]
      refine ⟨hold.balanced.setPipe pi none
        { s with pipe := upd s.pipe pi none, freed := s.freed ++ [pipe.birth] } rfl rfl rfl rfl
        (fun w' => ?_) hother, hold.pipes.free hpipe⟩
      by_cases hw : w' = w
      · subst hw
        simp [hpipe, hopen]
      · have hw' : w' = !w := by revert hw; cases w <;> cases w' <;> decide
        subst hw'
        rw [Pi.add_apply, one_of_ne (by simp)]
        simp [hpipe, hstill]

/-! ### The file table -/

def NoEnds (held : Ref → Int) : Prop := ∀ pi w, held (.pipeEnd pi w) = 0

theorem Holding.setFile {s : State} (hold : Holding held s) {f : Nat} (hf : f < nfile) (file : File)
    (held' : Ref → Int) (hfree : file.ref = 0 → file.type = .none)
    (hpoints : ∀ r, file.pointsTo = some r → r.InTable)
    (hheld : ∀ r, held' r = held r +
      (file.ref - (s.ftable f).ref) * one (some (.file f)) r - one file.pointsTo r +
      one (s.ftable f).pointsTo r) :
    Holding held' { s with ftable := upd s.ftable f file } := by
  refine ⟨hold.balanced.setFile hf file hfree hpoints fun r => ?_,
    .congr (s := s) rfl rfl rfl hold.pipes⟩
  rw [hheld]
  by_cases hr : r = .file f
  · rw [if_pos hr, hr, one_self, Int.mul_one]
  · rw [if_neg hr, one_of_ne hr, Int.mul_zero]

theorem File.pointsTo_eq_none {file : File} (hfree : file.ref ≤ 0 ∨ file.type = .none) :
    file.pointsTo = none := by
  unfold File.pointsTo
  split
  · rcases hfree with h | h
    · omega
    · rw [h]
  · rfl

theorem fileclose_spec {f : Nat} (hf : f < nfile) (hends : NoEnds held) :
    Spec (Holding (held + one (some (.file f)))) (fileclose f) fun _ => Holding held := fun s hold => by
  unfold fileclose
  refine .bind (.of_ok rfl ?_)
  by_cases href : (s.ftable f).ref < 1
  · simp only [if_pos href]
    exact .bind (.of_error rfl trivial)
  · simp only [if_neg href]
    refine .bind (.of_ok rfl (.ite (fun hlast => .bind (.of_ok rfl ?_)) fun hmore => .pure ?_))
    · -- the last reference: what the file points to is now held by the call
      simp only [upd_upd, upd_self]
      have hone : (s.ftable f).ref = 1 := by omega
      have hnone : ({ s.ftable f with ref := 0, type := .none } : File).pointsTo = none :=
        File.pointsTo_eq_none (.inr rfl)
      have hdone := hold.setFile hf { s.ftable f with ref := 0, type := .none }
        (held + one (s.ftable f).pointsTo) (fun _ => rfl) (by simp [hnone]) fun r => by
          simp only [Pi.add_apply, hone, hnone, one_none]
          omega
      have hpoints : 0 < (s.ftable f).ref := by omega
      cases htype : (s.ftable f).type <;>
        simp only [File.pointsTo, if_pos hpoints, htype] at hdone
      · exact .pure (add_one_none held ▸ hdone)
      · exact pipeclose_spec _ _ (hends _ _) _ hdone
      · exact iput_drop _ _ hdone
      · exact iput_drop _ _ hdone
    · have hmany : 1 < (s.ftable f).ref := by omega
      have hsame : ({ s.ftable f with ref := (s.ftable f).ref - 1 } : File).pointsTo =
          (s.ftable f).pointsTo := by
        unfold File.pointsTo
        rw [if_pos (by simp only; omega), if_pos (by omega)]
      refine hold.setFile hf { s.ftable f with ref := (s.ftable f).ref - 1 } held
        (fun h => by simp only at h; omega) (fun r hr => ?_) fun r => ?_
      · exact hold.balanced.points f r hf (hsame ▸ hr)
      · rw [hsame, Pi.add_apply]
        simp only
        omega

theorem NoEnds.file (hends : NoEnds held) (f : Nat) : NoEnds (held + one (some (.file f))) :=
  fun pi w => by simp [one, hends pi w]

theorem NoEnds.inode (hends : NoEnds held) (ip : Nat) : NoEnds (held + one (some (.inode ip))) :=
  fun pi w => by simp [one, hends pi w]

/-- `filealloc` hands out a free file, for which there is one reference now. -/
theorem filealloc_wp {s : State} (hold : Holding held s) :
    Wp filealloc (fun r t => match r with
      | none => t = s
      | some f => f < nfile ∧ (s.ftable f).ref = 0 ∧ (s.ftable f).type = .none ∧
          t = { s with ftable := upd s.ftable f { s.ftable f with ref := 1 } } ∧
          Holding (held + one (some (.file f))) t) (fun _ _ => True) s := by
  unfold filealloc
  refine .get ?_
  split
  · exact .pure rfl
  · rename_i f hfind
    obtain ⟨hf, hzero⟩ := List.find?_range_some hfind
    have htype := hold.balanced.free f hf hzero
    have hnone : ∀ ref, ({ s.ftable f with ref := ref } : File).pointsTo = none := fun ref =>
      File.pointsTo_eq_none (.inr htype)
    refine .bind (.of_ok rfl (.pure ⟨hf, hzero, htype, rfl, ?_⟩))
    refine hold.setFile hf { s.ftable f with ref := 1 } _ (fun _ => htype) (by simp [hnone])
      fun r => ?_
    rw [hnone, File.pointsTo_eq_none (.inr htype)]
    simp [hzero]

/-- `fdalloc` moves the reference of the call into a descriptor that was not in use. -/
theorem fdalloc_wp {s : State} {p f : Nat} (hp : p < nproc) (hf : f < nfile)
    (hold : Holding (held + one (some (.file f))) s) :
    Wp (fdalloc p f) (fun r t => match r with
      | none => t = s
      | some fd => fd < nofile ∧ (s.proc p).ofile fd = none ∧ t = { s with
            proc := upd s.proc p { s.proc p with ofile := upd (s.proc p).ofile fd (some f) } } ∧
          Holding held t) (fun _ _ => True) s := by
  unfold fdalloc
  refine .get ?_
  split
  · exact .pure rfl
  · rename_i fd hfind
    obtain ⟨hfd, hfree⟩ := List.find?_range_some hfind
    refine .bind (.of_ok rfl (.pure ⟨hfd, hfree, rfl, ?_⟩))
    refine ⟨hold.balanced.setOfile hp hfd (by simpa using hf) fun r => ?_,
      .congr (s := s) rfl rfl rfl hold.pipes⟩
    rw [hfree]
    simp

theorem Holding.clearFd {s : State} (hold : Holding held s) {p fd f : Nat}
    (hslot : (s.proc p).ofile fd = some f) :
    Holding (held + one (some (.file f))) { s with
      proc := upd s.proc p { s.proc p with ofile := upd (s.proc p).ofile fd none } } := by
  obtain ⟨hp, hfd, -⟩ := hold.balanced.slot p fd f hslot
  refine ⟨hold.balanced.setOfile hp hfd (by simp) fun r => ?_,
    .congr (s := s) rfl rfl rfl hold.pipes⟩
  rw [hslot]
  simp

theorem PipesOk.alloc {s : State} (hok : PipesOk s) {pi : Nat} (hfree : s.pipe pi = none) :
    PipesOk { s with
      pipe := upd s.pipe pi (some { birth := s.births, readopen := true, writeopen := true })
      births := s.births + 1 } := by
  have hold : ∀ pj q,
      upd s.pipe pi (some { birth := s.births, readopen := true, writeopen := true }) pj = some q →
      (pj = pi ∧ q = { birth := s.births, readopen := true, writeopen := true }) ∨
        s.pipe pj = some q := by
    intro pj q hq
    by_cases hpj : pj = pi
    · rw [hpj, upd_self, Option.some.injEq] at hq
      exact .inl ⟨hpj, hq.symm⟩
    · rw [upd_of_ne _ _ hpj] at hq
      exact .inr hq
  constructor
  case isOpen =>
    intro pj q hq
    rcases hold pj q hq with ⟨-, rfl⟩ | hq
    · exact .inl rfl
    · exact hok.isOpen pj q hq
  case birth_lt =>
    intro pj q hq
    rcases hold pj q hq with ⟨-, rfl⟩ | hq
    · exact Nat.lt_succ_self _
    · exact Nat.lt_succ_of_lt (hok.birth_lt pj q hq)
  case birth_injective =>
    intro pj pk q r hq hr heq
    rcases hold pj q hq with ⟨hpj, rfl⟩ | hq <;> rcases hold pk r hr with ⟨hpk, rfl⟩ | hr
    · rw [hpj, hpk]
    · exact absurd (hok.birth_lt pk r hr) (by rw [← heq]; exact Nat.lt_irrefl _)
    · exact absurd (hok.birth_lt pj q hq) (by rw [heq]; exact Nat.lt_irrefl _)
    · exact hok.birth_injective pj pk q r hq hr heq
  case freed_once => exact hok.freed_once
  case freed_dead =>
    intro pj q hq hmem
    rcases hold pj q hq with ⟨-, rfl⟩ | hq
    · exact Nat.lt_irrefl _ (hok.freed_lt _ hmem)
    · exact hok.freed_dead pj q hq hmem
  case freed_lt => exact fun b hb => Nat.lt_succ_of_lt (hok.freed_lt b hb)
  case born =>
    intro b hb
    rcases Nat.lt_succ_iff_lt_or_eq.mp hb with hb | hb
    · refine (hok.born b hb).imp id fun ⟨pj, q, hq, hqb⟩ => ⟨pj, q, ?_, hqb⟩
      have hpj : pj ≠ pi := fun h => by rw [h, hfree] at hq; cases hq
      rw [← hq]
      exact upd_of_ne _ _ hpj
    · exact .inr ⟨pi, _, upd_self _ _ _, hb.symm⟩

theorem Holding.newPipe {s : State} (hold : Holding held s) {pi : Nat} (hfree : s.pipe pi = none) :
    Holding (held + one (some (.pipeEnd pi false)) + one (some (.pipeEnd pi true))) { s with
      pipe := upd s.pipe pi (some { birth := s.births, readopen := true, writeopen := true })
      births := s.births + 1 } := by
  refine ⟨hold.balanced.setPipe pi _ { s with
      pipe := upd s.pipe pi (some { birth := s.births, readopen := true, writeopen := true })
      births := s.births + 1 } rfl rfl rfl rfl (fun w => ?_) fun r hr => ?_,
    hold.pipes.alloc hfree⟩
  · rw [hfree]
    cases w <;> simp [one, Pipe.isOpen]
  · simp [one_of_ne (hr _)]

theorem Holding.setPipeFile {s : State} {pi f : Nat} {w : Bool}
    (hold : Holding (held + one (some (.pipeEnd pi w))) s) (hf : f < nfile)
    (href : (s.ftable f).ref = 1) (htype : (s.ftable f).type = .none) :
    Holding held { s with
      ftable := upd s.ftable f
        { s.ftable f with type := .pipe, readable := !w, writable := w, pipe := pi } } := by
  have hpoints : ({ s.ftable f with
      type := .pipe, readable := !w, writable := w, pipe := pi } : File).pointsTo =
      some (.pipeEnd pi w) := by
    simp [File.pointsTo, href]
  refine hold.setFile hf _ held (fun h => by simp [href] at h) (fun r hr => ?_) fun r => ?_
  · rw [hpoints, Option.some.injEq] at hr
    exact hr ▸ trivial
  · rw [hpoints, File.pointsTo_eq_none (.inr htype)]
    simp

theorem pipealloc_wp {s : State} (hends : NoEnds held) (hold : Holding held s) (page : Option Nat)
    (hpage : ∀ pi, page = some pi → s.pipe pi = none) :
    Wp (pipealloc page) (fun r t => match r with
      | none => Holding held t
      | some (rf, wf) => rf < nfile ∧ wf < nfile ∧
          Holding (held + one (some (.file rf)) + one (some (.file wf))) t) (fun _ _ => True) s := by
  unfold pipealloc
  refine .bind ((filealloc_wp hold).imp fun r t hr => ?_)
  cases r with
  | none => exact .pure (hr ▸ hold)
  | some f0 =>
    obtain ⟨hf0, hzero0, htype0, ht, hold0⟩ := hr
    refine .bind ((filealloc_wp hold0).imp fun r u hr => ?_)
    cases r with
    | none =>
        subst hr
        exact .bind ((fileclose_spec hf0 hends _ hold0).imp fun _ _ h => .pure h)
    | some f1 =>
      obtain ⟨hf1, hzero1, htype1, hu, hold1⟩ := hr
      cases page with
      | none =>
          refine .bind ((fileclose_spec hf0 (hends.file f1) _ ?_).imp fun _ _ h =>
            .bind ((fileclose_spec hf1 hends _ h).imp fun _ _ h => .pure h))
          rwa [add_right_comm]
      | some pi =>
        have hne : f0 ≠ f1 := by
          rintro rfl
          simp [ht] at hzero1
        have hfree : u.pipe pi = none := by
          rw [hu, ht]
          exact hpage pi rfl
        have hpipe := hold1.newPipe hfree
        rw [add_right_comm] at hpipe
        have hread := hpipe.setPipeFile hf0 (by simp [hu, ht, upd_of_ne _ _ hne])
          (by simpa [hu, ht, upd_of_ne _ _ hne] using htype0)
        have hwrite := hread.setPipeFile hf1 (by simp [upd_of_ne _ _ hne.symm, hu])
          (by simpa [upd_of_ne _ _ hne.symm, hu] using htype1)
        exact .bind (.of_ok rfl (.bind (.of_ok rfl (.bind (.of_ok rfl
          (.pure ⟨hf0, hf1, hwrite⟩))))))

theorem closeBoth_spec {rf wf : Nat} (hrf : rf < nfile) (hwf : wf < nfile) (hends : NoEnds held) :
    Spec (Holding (held + one (some (.file rf)) + one (some (.file wf))))
      (do fileclose rf; fileclose wf; pure (-1 : Int)) fun _ => Holding held :=
  .bind ((fileclose_spec hrf (hends.file wf)).pre fun _ h => by rwa [add_right_comm] at h) fun _ =>
    .bind (fileclose_spec hwf hends) fun _ => .pure fun _ h => h

theorem sysPipe_wp {s : State} {p : Nat} (hp : p < nproc) (hends : NoEnds held)
    (hold : Holding held s) (page : Option Nat) (copied : Bool)
    (hpage : ∀ pi, page = some pi → s.pipe pi = none) :
    Wp (sysPipe p page copied) (fun _ => Holding held) (fun _ _ => True) s := by
  unfold sysPipe
  refine .bind ((pipealloc_wp hends hold page hpage).imp fun r t hr => ?_)
  cases r with
  | none => exact .pure hr
  | some files =>
    obtain ⟨rf, wf⟩ := files
    obtain ⟨hrf, hwf, hold⟩ := hr
    have hold' := hold
    rw [add_right_comm] at hold'
    refine .bind ((fdalloc_wp hp hrf hold').imp fun r u hr => ?_)
    cases r with
    | none =>
        subst hr
        exact closeBoth_spec hrf hwf hends _ hold
    | some fd0 =>
      obtain ⟨-, -, hu, hold0⟩ := hr
      have hslot0 : (u.proc p).ofile fd0 = some rf := by simp [hu]
      refine .bind ((fdalloc_wp hp hwf hold0).imp fun r v hr => ?_)
      cases r with
      | none =>
          subst hr
          refine .bind (.of_ok rfl (closeBoth_spec hrf hwf hends _ ?_))
          rw [add_right_comm]
          exact hold0.clearFd hslot0
      | some fd1 =>
        obtain ⟨-, hfree1, hv, hold1⟩ := hr
        have hne : fd0 ≠ fd1 := fun h => by rw [← h, hslot0] at hfree1; cases hfree1
        have hslot0 : (v.proc p).ofile fd0 = some rf := by simp [hv, upd_of_ne _ _ hne, hslot0]
        have hclear := hold1.clearFd hslot0
        have hslot1 : ((upd v.proc p
            { v.proc p with ofile := upd (v.proc p).ofile fd0 none } p)).ofile fd1 = some wf := by
          simp [hv, upd_of_ne _ _ hne.symm]
        exact .ite (fun _ => .bind (.of_ok rfl (.bind (.of_ok rfl
          (closeBoth_spec hrf hwf hends _ (hclear.clearFd hslot1)))))) fun _ => .pure hold1

/-! ### Descriptors -/

theorem Holding.moveFile {s : State} (hold : Holding held s) {f : Nat} (hf : f < nfile)
    (file : File) (href : file.ref = (s.ftable f).ref) (htype : file.type = (s.ftable f).type)
    (hpoints : file.pointsTo = (s.ftable f).pointsTo) :
    Holding held { s with ftable := upd s.ftable f file } := by
  refine hold.setFile hf file held (fun h => ?_) (fun r hr => ?_) fun r => ?_
  · rw [htype]
    exact hold.balanced.free f hf (href ▸ h)
  · exact hold.balanced.points f r hf (hpoints ▸ hr)
  · rw [hpoints, href]
    simp

theorem filedup_spec {f : Nat} (hf : f < nfile) :
    Spec (Holding held) (filedup f) fun _ => Holding (held + one (some (.file f))) :=
  fun s hold => by
  unfold filedup
  refine .bind (.of_ok rfl ?_)
  by_cases href : (s.ftable f).ref < 1
  · simp only [if_pos href]
    exact .bind (.of_error rfl trivial)
  · simp only [if_neg href]
    have hsame : ({ s.ftable f with ref := (s.ftable f).ref + 1 } : File).pointsTo =
        (s.ftable f).pointsTo := by
      unfold File.pointsTo
      rw [if_pos (by simp only; omega), if_pos (by omega)]
    refine .of_ok rfl (hold.setFile hf { s.ftable f with ref := (s.ftable f).ref + 1 } _
      (fun h => by simp only at h; omega) (fun r hr => ?_) fun r => ?_)
    · exact hold.balanced.points f r hf (hsame ▸ hr)
    · rw [hsame]
      simp

theorem argfd_wp {s : State} (hold : Holding held s) (p : Nat) (fd : Int) :
    Wp (argfd p fd) (fun r t => t = s ∧ ∀ f, r = some f → f < nfile ∧ p < nproc ∧
      (s.proc p).ofile fd.toNat = some f) (fun _ _ => True) s := by
  refine .of_ok rfl ⟨rfl, fun f hf => ?_⟩
  split at hf
  · cases hf
  · obtain ⟨hp, -, hfile⟩ := hold.balanced.slot p _ f hf
    exact ⟨hfile, hp, hf⟩

theorem sysDup_spec (p : Nat) (fd : Int) : Spec (Holding held) (sysDup p fd) fun _ => Holding held :=
  fun s hold => by
  unfold sysDup
  refine .bind ((argfd_wp hold p fd).imp fun r t hr => ?_)
  obtain ⟨rfl, hr⟩ := hr
  cases r with
  | none => exact .pure hold
  | some f =>
    obtain ⟨hf, hp, -⟩ := hr f rfl
    -- the descriptor comes before the reference that it needs
    have hlent : Holding (held - one (some (.file f)) + one (some (.file f))) t := by
      rwa [sub_add_cancel]
    refine .bind ((fdalloc_wp hp hf hlent).imp fun r u hr => ?_)
    cases r with
    | none => exact .pure (hr ▸ hold)
    | some fd =>
        obtain ⟨-, -, -, hshort⟩ := hr
        refine .bind ((filedup_spec hf u hshort).imp fun _ _ h => .pure ?_)
        rwa [sub_add_cancel] at h

theorem sysClose_spec (p : Nat) (fd : Int) (hends : NoEnds held) :
    Spec (Holding held) (sysClose p fd) fun _ => Holding held := fun s hold => by
  unfold sysClose
  refine .bind ((argfd_wp hold p fd).imp fun r t hr => ?_)
  obtain ⟨rfl, hr⟩ := hr
  cases r with
  | none => exact .pure hold
  | some f =>
    obtain ⟨hf, -, hslot⟩ := hr f rfl
    exact .bind (.of_ok rfl (.bind ((fileclose_spec hf hends _ (hold.clearFd hslot)).imp
      fun _ _ h => .pure h)))

theorem modifyOff_spec {f : Nat} (hf : f < nfile) (d : Nat) :
    Spec (Holding held) (modifyFile f fun file => { file with off := file.off + d })
      fun _ => Holding held := fun _ hold =>
  .of_ok rfl (hold.moveFile hf _ rfl rfl rfl)

theorem fileread_spec {f : Nat} (hf : f < nfile) (dst : Nat → Bool) (n : Int) :
    Spec (Holding held) (fileread f dst n) fun _ => Holding held := by
  unfold fileread
  refine .bind (Holding.keeps (getFile_keeps _)) fun file => .ite (fun _ => .pure fun _ h => h)
    fun _ => ?_
  cases file.type with
  | none => exact Holding.keeps (stop_keeps _)
  | pipe => exact .pure fun _ h => h
  | device => exact .pure fun _ h => h
  | inode =>
      exact .bind (Holding.keeps (ilock_keeps _)) fun _ => .bind (Holding.keeps (readi_keeps (refs_untouched _) _ _ _))
        fun _ => .when (fun _ => modifyOff_spec hf _) fun _ =>
        .bind (Holding.keeps (iunlock_keeps _)) fun _ => .pure fun _ h => h

theorem filewriteFrom_spec {f : Nat} (hf : f < nfile) (src : Nat → Option Nat) (n rounds i : Nat) :
    Spec (Holding held) (filewriteFrom f src n rounds i) fun _ => Holding held := by
  induction rounds generalizing i with
  | zero => exact .pure fun _ h => h
  | succ rounds ih =>
      unfold filewriteFrom
      exact .ite (fun _ => .bind (Holding.keeps (getFile_keeps _)) fun _ =>
        .bind (Holding.keeps (ilock_keeps _)) fun _ => .bind (Holding.keeps (writei_keeps (refs_untouched _) _ _ _))
        fun _ => .when (fun _ => modifyOff_spec hf _) fun _ =>
        .bind (Holding.keeps (iunlock_keeps _)) fun _ =>
        .ite (fun _ => .pure fun _ h => h) fun _ => ih _) fun _ => .pure fun _ h => h

theorem filewrite_spec {f : Nat} (hf : f < nfile) (src : Nat → Option Nat) (n : Int) :
    Spec (Holding held) (filewrite f src n) fun _ => Holding held := by
  unfold filewrite
  refine .bind (Holding.keeps (getFile_keeps _)) fun file => .ite (fun _ => .pure fun _ h => h)
    fun _ => ?_
  cases file.type with
  | none => exact Holding.keeps (stop_keeps _)
  | pipe => exact .pure fun _ h => h
  | device => exact .pure fun _ h => h
  | inode => exact .bind (filewriteFrom_spec hf _ _ _ _) fun _ => .pure fun _ h => h

theorem filestat_spec (f : Nat) : Spec (Holding held) (filestat f) fun _ => Holding held := by
  unfold filestat
  refine .bind (Holding.keeps (getFile_keeps _)) fun file => ?_
  cases file.type with
  | none => exact .pure fun _ h => h
  | pipe => exact .pure fun _ h => h
  | inode =>
      exact .bind (Holding.keeps (ilock_keeps _)) fun _ => Holding.keeps (iunlock_keeps _)
  | device =>
      exact .bind (Holding.keeps (ilock_keeps _)) fun _ => Holding.keeps (iunlock_keeps _)

theorem onFile_spec {α : Type} (p : Nat) (fd : Int) (fail : α) {x : Nat → F α}
    (hx : ∀ f < nfile, Spec (Holding held) (x f) fun _ => Holding held) :
    Spec (Holding held) (do
      match ← argfd p fd with
      | none => pure fail
      | some f => x f) fun _ => Holding held := fun s hold => by
  refine .bind ((argfd_wp hold p fd).imp fun r t hr => ?_)
  obtain ⟨rfl, hr⟩ := hr
  cases r with
  | none => exact .pure hold
  | some f => exact hx f (hr f rfl).1 _ hold

theorem sysRead_spec (p : Nat) (fd : Int) (dst : Nat → Bool) (n : Int) :
    Spec (Holding held) (sysRead p fd dst n) fun _ => Holding held :=
  onFile_spec p fd _ fun _ hf => fileread_spec hf dst n

theorem sysWrite_spec (p : Nat) (fd : Int) (src : Nat → Option Nat) (n : Int) :
    Spec (Holding held) (sysWrite p fd src n) fun _ => Holding held :=
  onFile_spec p fd _ fun _ hf => filewrite_spec hf src n

theorem sysFstat_spec (p : Nat) (fd : Int) :
    Spec (Holding held) (sysFstat p fd) fun _ => Holding held :=
  onFile_spec p fd _ fun f _ => filestat_spec f

end Xv6Mmap.Fs
