import Xv6Mmap.Lib.Ring
import Xv6Mmap.Pipe

/-!
# A pipe is a queue

What was written and not read yet is the content of the ring between the two counters, at every
moment and for any interleaving of readers and writers.
-/

namespace Xv6Mmap.Pipes

def Pipe.count (pi : Pipe) : Nat := (pi.nwrite - pi.nread).toNat

def Pipe.content (pi : Pipe) : List UInt8 := Ring.content 512 pi.data pi.nread.toNat pi.count

section Pipe

variable {pi : Pipe}

theorem Pipe.count_eq (pi : Pipe) :
    pi.count = (2 ^ 32 - pi.nread.toNat + pi.nwrite.toNat) % 2 ^ 32 :=
  UInt32.toNat_sub _ _

theorem Pipe.count_ne_of_not_full (hfull : pi.nwrite ≠ pi.nread + pipesize) : pi.count ≠ 512 := by
  intro hcount
  refine hfull (UInt32.toNat.inj ?_)
  rw [count_eq] at hcount
  have hr := pi.nread.toNat_lt
  have hw := pi.nwrite.toNat_lt
  rw [UInt32.toNat_add, show pipesize.toNat = 512 from rfl]
  omega

theorem Pipe.count_pos_of_ne (hempty : pi.nread ≠ pi.nwrite) : pi.count ≠ 0 := by
  intro hcount
  refine hempty (UInt32.toNat.inj ?_)
  rw [count_eq] at hcount
  have hr := pi.nread.toNat_lt
  have hw := pi.nwrite.toNat_lt
  omega

theorem Pipe.count_put (hlt : pi.count < 512) (ch : UInt8) : (pi.put ch).count = pi.count + 1 := by
  rw [count_eq] at hlt ⊢
  rw [count_eq]
  have hr := pi.nread.toNat_lt
  have hw := pi.nwrite.toNat_lt
  have hput : (pi.put ch).nwrite.toNat = (pi.nwrite.toNat + 1) % 2 ^ 32 := UInt32.toNat_add _ _
  have hread : (pi.put ch).nread = pi.nread := rfl
  rw [hput, hread]
  omega

theorem Pipe.count_advance (hpos : pi.count ≠ 0) : pi.advance.count + 1 = pi.count := by
  rw [count_eq] at hpos ⊢
  rw [count_eq]
  have hr := pi.nread.toNat_lt
  have hw := pi.nwrite.toNat_lt
  have hread : pi.advance.nread.toNat = (pi.nread.toNat + 1) % 2 ^ 32 := UInt32.toNat_add _ _
  have hwrite : pi.advance.nwrite = pi.nwrite := rfl
  rw [hread, hwrite]
  omega

/-- The counters wrap at a multiple of the size of the ring, so a cell is found in the same way
before and after. -/
theorem Pipe.content_put (hlt : pi.count < 512) (ch : UInt8) :
    (pi.put ch).content = pi.content ++ [ch] := by
  have hcell : (pi.nread.toNat + pi.count) % 512 = (pi.nwrite % pipesize).toNat := by
    rw [count_eq, UInt32.toNat_mod, show pipesize.toNat = 512 from rfl]
    have hr := pi.nread.toNat_lt
    omega
  unfold content
  rw [count_put hlt]
  refine Ring.content_put hlt ?_ fun j hj => ?_
  · rw [show (pi.put ch).nread = pi.nread from rfl, hcell]
    exact upd_self _ _ _
  · rw [show (pi.put ch).nread = pi.nread from rfl, hcell] at hj
    exact upd_of_ne _ _ hj

theorem Pipe.content_advance (hpos : pi.count ≠ 0) :
    pi.content = pi.head :: pi.advance.content := by
  have hcell : pi.nread.toNat % 512 = (pi.nread % pipesize).toNat := by
    rw [UInt32.toNat_mod]
    rfl
  have hnext : ∀ k, (pi.advance.nread.toNat + k) % 512 = (pi.nread.toNat + 1 + k) % 512 := fun k => by
    rw [show pi.advance.nread.toNat = (pi.nread.toNat + 1) % 2 ^ 32 from UInt32.toNat_add _ _]
    omega
  unfold content
  rw [← count_advance hpos, Ring.content_succ, hcell]
  simp only [Ring.content, hnext]
  rfl

end Pipe

/-! ### While the lock is held -/

/-- What `pipewrite` does to the pipe before it gives up the lock. -/
structure Wrote (src : Nat → Option UInt8) (killed : Bool) (pi : Pipe) (i : Nat) (seg : Segment) :
    Prop where
  count_le : seg.pipe.count ≤ 512
  content : seg.pipe.content = pi.content ++ seg.moved
  nread : seg.pipe.nread = pi.nread
  nwrite : seg.pipe.nwrite = pi.nwrite + .ofNat seg.moved.length
  ends : seg.pipe.readopen = pi.readopen ∧ seg.pipe.writeopen = pi.writeopen
  i_eq : seg.i = i + seg.moved.length
  bytes : ∀ j < seg.moved.length, seg.moved[j]? = src (i + j)
  ret : ∀ r, seg.pause = .ret r → r = seg.i ∨ (r = -1 ∧ (pi.readopen = false ∨ killed = true))

section Write

variable {src : Nat → Option UInt8} {killed : Bool} {pi : Pipe}

theorem Wrote.nothing (hcount : pi.count ≤ 512) (i : Nat) {pause : Pause}
    (hret : ∀ r, pause = .ret r → r = i ∨ (r = -1 ∧ (pi.readopen = false ∨ killed = true))) :
    Wrote src killed pi i { pipe := pi, i := i, moved := [], pause := pause } :=
  ⟨hcount, by simp, rfl, by simp, ⟨rfl, rfl⟩, rfl, fun j hj => (nomatch hj), hret⟩

theorem Wrote.cons {i : Nat} {ch : UInt8} {seg : Segment} (hlt : pi.count < 512) (hsrc : src i = some ch)
    (h : Wrote src killed (pi.put ch) (i + 1) seg) : Wrote src killed pi i (seg.cons ch) where
  count_le := h.count_le
  content := by
    show seg.pipe.content = pi.content ++ ch :: seg.moved
    rw [h.content, Pipe.content_put hlt, List.append_assoc]
    rfl
  nread := h.nread
  nwrite := by
    show seg.pipe.nwrite = pi.nwrite + .ofNat (seg.moved.length + 1)
    rw [h.nwrite, show (pi.put ch).nwrite = pi.nwrite + 1 from rfl, UInt32.ofNat_add,
      UInt32.add_assoc, UInt32.add_comm 1]
    rfl
  ends := h.ends
  i_eq := by
    show seg.i = i + (seg.moved.length + 1)
    rw [h.i_eq]
    omega
  bytes := fun j hj => by
    cases j with
    | zero => exact hsrc.symm
    | succ j =>
        show seg.moved[j]? = src (i + (j + 1))
        rw [h.bytes j (Nat.lt_of_succ_lt_succ hj), Nat.add_assoc, Nat.add_comm 1]
  ret := h.ret

theorem writeLoop_wrote (src : Nat → Option UInt8) (killed : Bool) (left : Nat) (hcount : pi.count ≤ 512)
    (i : Nat) : Wrote src killed pi i (writeLoop src killed left pi i) := by
  induction left generalizing pi i with
  | zero => exact .nothing hcount i fun r hr => .inl (by cases hr; rfl)
  | succ left ih =>
      unfold writeLoop
      split
      · rename_i hstop
        refine .nothing hcount i fun r hr => .inr ⟨by cases hr; rfl, ?_⟩
        simpa using hstop
      split
      · exact .nothing hcount i fun r hr => nomatch hr
      · rename_i hfull
        have hlt : pi.count < 512 := by
          have := Pipe.count_ne_of_not_full hfull
          omega
        split
        · exact .nothing hcount i fun r hr => .inl (by cases hr; rfl)
        · rename_i ch hsrc
          refine .cons hlt hsrc (ih ?_ (i + 1))
          rw [Pipe.count_put hlt]
          omega

end Write

/-- What `piperead` does to the pipe before it gives up the lock, when all bytes can be copied. -/
structure Read (pi : Pipe) (seg : Segment) : Prop where
  count_le : seg.pipe.count ≤ pi.count
  content : pi.content = seg.moved ++ seg.pipe.content
  nread : seg.pipe.nread = pi.nread + .ofNat seg.moved.length
  nwrite : seg.pipe.nwrite = pi.nwrite
  ends : seg.pipe.readopen = pi.readopen ∧ seg.pipe.writeopen = pi.writeopen

theorem readLoop_read {dst : Nat → Bool} (hdst : ∀ i, dst i = true) (left : Nat)
    (pi : Pipe) (i : Nat) : Read pi (readLoop dst left pi i) ∧
      (readLoop dst left pi i).pause = .ret ((i + (readLoop dst left pi i).moved.length : Nat) : Int) := by
  induction left generalizing pi i with
  | zero => exact ⟨⟨Nat.le_refl _, by simp [readLoop], by simp [readLoop], rfl, rfl, rfl⟩, rfl⟩
  | succ left ih =>
      unfold readLoop
      split
      · exact ⟨⟨Nat.le_refl _, by simp, by simp, rfl, rfl, rfl⟩, rfl⟩
      · rename_i hempty
        rw [if_pos (hdst i)]
        have hpos := Pipe.count_pos_of_ne hempty
        obtain ⟨hread, hpause⟩ := ih pi.advance (i + 1)
        refine ⟨⟨?_, ?_, ?_, hread.nwrite, hread.ends⟩, ?_⟩
        · have hle := hread.count_le
          have hone := Pipe.count_advance hpos
          show (readLoop dst left pi.advance (i + 1)).pipe.count ≤ pi.count
          omega
        · rw [Pipe.content_advance hpos, hread.content]
          rfl
        · show (readLoop dst left pi.advance (i + 1)).pipe.nread =
            pi.nread + .ofNat ((readLoop dst left pi.advance (i + 1)).moved.length + 1)
          rw [hread.nread, show pi.advance.nread = pi.nread + 1 from rfl, UInt32.ofNat_add,
            UInt32.add_assoc, UInt32.add_comm 1]
          rfl
        · show (readLoop dst left pi.advance (i + 1)).pause = .ret
            ((i + ((readLoop dst left pi.advance (i + 1)).moved.length + 1) : Nat) : Int)
          rw [hpause]
          congr 2
          omega

theorem readSegment_read {dst : Nat → Bool} (hdst : ∀ i, dst i = true) (killed : Bool) (n : Int)
    (pi : Pipe) : Read pi (readSegment dst killed n pi) ∧
      ∀ r, (readSegment dst killed n pi).pause = .ret r →
        r = ((readSegment dst killed n pi).moved.length : Int) ∨ (r = -1 ∧ killed = true) := by
  unfold readSegment
  split
  · refine ⟨⟨Nat.le_refl _, by simp, by simp, rfl, rfl, rfl⟩, fun r hr => ?_⟩
    cases killed
    · cases hr
    · cases hr
      exact .inr ⟨rfl, rfl⟩
  · obtain ⟨hread, hpause⟩ := readLoop_read hdst n.toNat pi 0
    refine ⟨hread, fun r hr => .inl ?_⟩
    rw [hpause, Nat.zero_add] at hr
    cases hr
    rfl

/-! ### Runs -/

def Sent (src : Nat → Option UInt8) (moved : List UInt8) : Prop := ∀ j < moved.length, moved[j]? = src j

theorem Sent.append {src : Nat → Option UInt8} {moved more : List UInt8} (hmoved : Sent src moved)
    (hmore : ∀ j < more.length, more[j]? = src (moved.length + j)) : Sent src (moved ++ more) := by
  intro j hj
  rw [List.length_append] at hj
  by_cases hlt : j < moved.length
  · rw [List.getElem?_append_left hlt, hmoved j hlt]
  · rw [List.getElem?_append_right (Nat.le_of_not_lt hlt), hmore _ (by omega)]
    congr 1
    omega

/-- A call in progress: `pipewrite` has moved as many of the first bytes as its counter says, and
`piperead` can copy all bytes out. -/
def Activity.Ok : Activity → Prop
  | .idle => True
  | .writing src _ i moved _ => i = moved.length ∧ Sent src moved
  | .reading dst _ _ => ∀ i, dst i = true

theorem Activity.Ok.wakeReader {activity : Activity} (hok : activity.Ok) :
    (wakeReader activity).Ok := by
  cases activity <;> exact hok

theorem Activity.Ok.wakeWriter {activity : Activity} (hok : activity.Ok) :
    (wakeWriter activity).Ok := by
  cases activity <;> exact hok

/-- The pipe as a queue: what was delivered comes first in what was accepted, the rest is in the
ring, and a call has returned the number of bytes it moved. Only a call that found the read end
closed or its caller killed has returned something else. What a call of `pipewrite` moved are the first
bytes of its source. -/
structure Fifo (w : World) : Prop where
  accepted : w.accepted = w.delivered ++ w.pipe.content
  count_le : w.pipe.count ≤ 512
  nwrite : w.pipe.nwrite = .ofNat w.accepted.length
  nread : w.pipe.nread = .ofNat w.delivered.length
  returns : ∀ r ∈ w.returns, r.ret = r.moved.length ∨
    (r.ret = -1 ∧ (w.pipe.readopen = false ∨ w.killed r.caller = true))
  sent : ∀ r ∈ w.returns, ∀ src, r.src = some src → Sent src r.moved

structure Good (w : World) : Prop where
  fifo : Fifo w
  procs : ∀ q, (w.proc q).Ok

theorem Good.setProc {w : World} (hw : Good w) {proc : Nat → Activity} (hproc : ∀ q, (proc q).Ok) :
    Good { w with proc := proc } := ⟨⟨hw.fifo.1, hw.fifo.2, hw.fifo.3, hw.fifo.4, hw.fifo.5, hw.fifo.6⟩, hproc⟩

theorem ok_upd {proc : Nat → Activity} (hproc : ∀ q, (proc q).Ok) (p : Nat) {activity : Activity}
    (hok : activity.Ok) (q : Nat) : (upd proc p activity q).Ok := by
  by_cases hq : q = p
  · rw [hq, upd_self]
    exact hok
  · rw [upd_of_ne _ _ hq]
    exact hproc q

theorem Fifo.addReturn {w : World} (hw : Fifo w) (proc : Nat → Activity) {r : Return}
    (hr : r.ret = r.moved.length ∨
      (r.ret = -1 ∧ (w.pipe.readopen = false ∨ w.killed r.caller = true)))
    (hsent : ∀ src, r.src = some src → Sent src r.moved) :
    Fifo { w with proc := proc, returns := w.returns ++ [r] } where
  accepted := hw.accepted
  count_le := hw.count_le
  nwrite := hw.nwrite
  nread := hw.nread
  returns := List.forall_mem_append.mpr ⟨hw.returns, List.forall_mem_singleton.mpr hr⟩
  sent := List.forall_mem_append.mpr ⟨hw.sent, List.forall_mem_singleton.mpr hsent⟩

theorem Fifo.wrote {w : World} (hw : Fifo w) {src : Nat → Option UInt8} {killed : Bool} {i : Nat}
    {seg : Segment} (hseg : Wrote src killed w.pipe i seg) :
    Fifo { w with pipe := seg.pipe, accepted := w.accepted ++ seg.moved } where
  accepted := by
    show w.accepted ++ seg.moved = w.delivered ++ seg.pipe.content
    rw [hseg.content, ← List.append_assoc, ← hw.accepted]
  count_le := hseg.count_le
  nwrite := by
    show seg.pipe.nwrite = .ofNat (w.accepted ++ seg.moved).length
    rw [hseg.nwrite, hw.nwrite, List.length_append, UInt32.ofNat_add]
  nread := hseg.nread.trans hw.nread
  returns := fun r hr => by
    show r.ret = _ ∨ (r.ret = -1 ∧ (seg.pipe.readopen = false ∨ w.killed r.caller = true))
    rw [hseg.ends.1]
    exact hw.returns r hr
  sent := hw.sent

theorem Fifo.read {w : World} (hw : Fifo w) {seg : Segment} (hseg : Read w.pipe seg) :
    Fifo { w with pipe := seg.pipe, delivered := w.delivered ++ seg.moved } where
  accepted := by
    show w.accepted = w.delivered ++ seg.moved ++ seg.pipe.content
    rw [List.append_assoc, ← hseg.content]
    exact hw.accepted
  count_le := Nat.le_trans hseg.count_le hw.count_le
  nwrite := hseg.nwrite.trans hw.nwrite
  nread := by
    show seg.pipe.nread = .ofNat (w.delivered ++ seg.moved).length
    rw [hseg.nread, hw.nread, List.length_append, UInt32.ofNat_add]
  returns := fun r hr => by
    show r.ret = _ ∨ (r.ret = -1 ∧ (seg.pipe.readopen = false ∨ w.killed r.caller = true))
    rw [hseg.ends.1]
    exact hw.returns r hr
  sent := hw.sent

theorem World.write_good {w : World} (hw : Good w) {p : Nat} {src : Nat → Option UInt8} {n : Int}
    {i : Nat} {moved : List UInt8} (hmoved : i = moved.length) (hsent : Sent src moved) :
    Good (w.write p src n i moved) := by
  have hseg := writeLoop_wrote src (w.killed p) (n - i).toNat hw.fifo.count_le i
  have hfifo := hw.fifo.wrote hseg
  have hlen : (writeLoop src (w.killed p) (n - i).toNat w.pipe i).i =
      (moved ++ (writeLoop src (w.killed p) (n - i).toNat w.pipe i).moved).length := by
    rw [hseg.i_eq, hmoved, List.length_append]
  have hbytes : Sent src (moved ++ (writeLoop src (w.killed p) (n - i).toNat w.pipe i).moved) :=
    hsent.append (hmoved ▸ hseg.bytes)
  have hwake : ∀ q, (wakeReader (w.proc q)).Ok := fun q => (hw.procs q).wakeReader
  unfold World.write
  dsimp only
  split
  · exact Good.setProc (w := { w with pipe := _, accepted := _ }) ⟨hfifo, hw.procs⟩
      (ok_upd hwake p ⟨hlen, hbytes⟩)
  · rename_i r hpause
    refine ⟨hfifo.addReturn _ ?_ ?_, ok_upd (fun q => ?_) p trivial⟩
    · rcases hseg.ret r hpause with hr | ⟨hr, hwhy⟩
      · exact .inl (by rw [hr, hlen])
      · refine .inr ⟨hr, hwhy.imp_left fun h => ?_⟩
        rw [hseg.ends.1]
        exact h
    · rintro src' ⟨⟩
      exact hbytes
    · split
      · exact hw.procs q
      · exact hwake q

theorem World.read_good {w : World} (hw : Good w) {p : Nat} {dst : Nat → Bool} {n : Int}
    (hdst : ∀ i, dst i = true) : Good (w.read p dst n) := by
  obtain ⟨hseg, hret⟩ := readSegment_read hdst (w.killed p) n w.pipe
  have hfifo := hw.fifo.read hseg
  unfold World.read
  dsimp only
  split
  · exact Good.setProc (w := { w with pipe := _, delivered := _ }) ⟨hfifo, hw.procs⟩
      (ok_upd hw.procs p hdst)
  · rename_i r hpause
    refine ⟨hfifo.addReturn _ ?_ (fun src h => nomatch h), ok_upd (fun q => ?_) p trivial⟩
    · exact (hret r hpause).imp_right fun h => ⟨h.1, .inr h.2⟩
    · split
      · exact hw.procs q
      · exact (hw.procs q).wakeWriter

def Event.Copies : Event → Prop
  | .callRead _ dst _ => ∀ i, dst i = true
  | _ => True

theorem step_good {w : World} (hw : Good w) {event : Event} (hcopies : event.Copies) :
    Good (step w event) := by
  cases event with
  | callWrite p src n =>
      unfold step
      dsimp only
      split
      · exact hw.setProc (ok_upd hw.procs p ⟨rfl, fun j hj => nomatch hj⟩)
      · exact hw
  | callRead p dst n =>
      unfold step
      dsimp only
      split
      · exact hw.setProc (ok_upd hw.procs p hcopies)
      · exact hw
  | run p =>
      unfold step
      dsimp only
      split
      · exact hw
      · have hp := hw.procs p
        split
        · rename_i hproc
          rw [hproc] at hp
          exact World.write_good hw hp.1 hp.2
        · rename_i hproc
          rw [hproc] at hp
          exact World.read_good hw hp
        · exact hw
  | kill p =>
      refine ⟨⟨hw.fifo.accepted, hw.fifo.count_le, hw.fifo.nwrite, hw.fifo.nread, fun r hr => ?_, hw.fifo.sent⟩,
        ok_upd hw.procs p (hw.procs p).wakeWriter.wakeReader⟩
      refine (hw.fifo.returns r hr).imp_right fun h => ⟨h.1, h.2.imp_right fun hkilled => ?_⟩
      by_cases hcaller : r.caller = p
      · simp [step, hcaller]
      · simpa [step, upd_of_ne _ _ hcaller] using hkilled
  | close writable =>
      cases writable with
      | true =>
          exact ⟨⟨hw.fifo.accepted, hw.fifo.count_le, hw.fifo.nwrite, hw.fifo.nread, hw.fifo.returns,
            hw.fifo.sent⟩, fun q => (hw.procs q).wakeReader⟩
      | false =>
          exact ⟨⟨hw.fifo.accepted, hw.fifo.count_le, hw.fifo.nwrite, hw.fifo.nread,
            fun r hr => (hw.fifo.returns r hr).imp_right fun h => ⟨h.1, .inl rfl⟩, hw.fifo.sent⟩,
            fun q => (hw.procs q).wakeWriter⟩

theorem run_good {w : World} (hw : Good w) {events : List Event}
    (hcopies : ∀ event ∈ events, event.Copies) : Good (run w events) := by
  induction events generalizing w with
  | nil => exact hw
  | cons event events ih =>
      exact ih (step_good hw (hcopies event List.mem_cons_self))
        fun e he => hcopies e (List.mem_cons_of_mem _ he)

theorem start_good (data : Nat → UInt8) : Good (World.start data) := by
  have hcount : (World.start data).pipe.count = 0 := by
    show ((0 : UInt32) - 0).toNat = 0
    decide
  refine ⟨⟨?_, by omega, rfl, rfl, fun r hr => (nomatch hr), fun r hr => nomatch hr⟩, fun _ => trivial⟩
  rw [Pipe.content, hcount]
  rfl

/-- A pipe is a queue in every state of every run in which all bytes can be copied to the readers,
also when the counters have wrapped. -/
theorem pipe_fifo (data : Nat → UInt8) {events : List Event}
    (hcopies : ∀ event ∈ events, event.Copies) : Fifo (run (World.start data) events) :=
  (run_good (start_good data) hcopies).fifo

/-- A writer fills the pipe and goes to sleep. A reader takes three bytes, then the writer goes on.
-/
def overfull : List Event :=
  [.callWrite 0 (fun i => some (.ofNat i)) 514, .run 0, .callRead 1 (fun _ => true) 3, .run 1, .run 0]

theorem pipe_fifo_overfull : Fifo (run (World.start fun _ => 0) overfull) ∧
    (run (World.start fun _ => 0) overfull).delivered = [0, 1, 2] ∧
    (run (World.start fun _ => 0) overfull).returns.map (fun r => (r.caller, r.ret)) =
      [(1, 3), (0, 514)] := by
  refine ⟨pipe_fifo _ fun event hevent => ?_, by decide +kernel, by decide +kernel⟩
  simp only [overfull, List.mem_cons, List.not_mem_nil, or_false] at hevent
  rcases hevent with rfl | rfl | rfl | rfl | rfl
  · trivial
  · trivial
  · exact fun _ => rfl
  · trivial
  · trivial

/-! ### A buffer that is too short -/

/-- The copying loop of `piperead` at byte `i`, when only the first `k` bytes of the buffer can be
written: the byte that cannot be copied is gone with those that were. -/
theorem readLoop_short {k : Nat} (left : Nat) (pi : Pipe) {i : Nat} (hi : i ≤ k) (hk : k < i + left) :
    let seg := readLoop (fun j => decide (j < k)) left pi i
    seg.pause = .ret ((i + min (k - i) pi.count : Nat) : Int) ∧
      seg.moved = pi.content.take (k - i) ∧ seg.pipe.content = pi.content.drop (k - i + 1) := by
  induction left generalizing pi i with
  | zero => omega
  | succ left ih =>
      unfold readLoop
      by_cases hempty : pi.nread = pi.nwrite
      · have hcount : pi.count = 0 := by
          rw [Pipe.count, hempty, UInt32.sub_self]
          rfl
        have hcontent : pi.content = [] := by
          rw [Pipe.content, hcount]
          rfl
        rw [if_pos hempty, hcount, hcontent, Nat.min_zero, List.take_nil, List.drop_nil]
        exact ⟨rfl, rfl, hcontent⟩
      · have hpos := Pipe.count_pos_of_ne hempty
        have hcount := Pipe.count_advance hpos
        rw [if_neg hempty, Pipe.content_advance hpos]
        by_cases hik : i < k
        · obtain ⟨hpause, hmoved, hcontent⟩ := ih pi.advance (i := i + 1) (by omega) (by omega)
          rw [if_pos (decide_eq_true hik), show k - i = k - (i + 1) + 1 by omega, List.take_succ_cons,
            List.drop_succ_cons]
          refine ⟨hpause.trans ?_, congrArg (pi.head :: ·) hmoved, hcontent⟩
          rw [← hcount]
          congr 2
          omega
        · have hki : k - i = 0 := by omega
          rw [if_neg (by simpa using hik), hki, Nat.zero_min, Nat.add_zero]
          exact ⟨rfl, rfl, rfl⟩

/-- A read into a buffer with room for `k` bytes lost nothing: it delivered the first `k` bytes of the
pipe, or all there are, and the rest is still in the pipe. -/
structure Lossless (pi : Pipe) (k : Nat) (seg : Segment) : Prop where
  ret : seg.pause = .ret ((min k pi.count : Nat) : Int)
  delivered : seg.moved = pi.content.take k
  kept : seg.pipe.content = pi.content.drop k

/-- `piperead` loses nothing exactly when the pipe runs out before the buffer does. -/
theorem piperead_shortBuffer {pi : Pipe} {k : Nat} {n : Int} (hn : k < n) (killed : Bool)
    (hready : pi.nread ≠ pi.nwrite ∨ pi.writeopen = false) :
    Lossless pi k (readSegment (fun i => decide (i < k)) killed n pi) ↔ pi.count ≤ k := by
  have hseg : readSegment (fun i => decide (i < k)) killed n pi =
      readLoop (fun i => decide (i < k)) n.toNat pi 0 := by
    refine if_neg fun hwait => ?_
    rw [hwait.2] at hready
    exact hready.elim (fun h => h hwait.1) Bool.noConfusion
  obtain ⟨hret, hmoved, hkept⟩ :=
    readLoop_short n.toNat pi (Nat.zero_le k) (show k < 0 + n.toNat by omega)
  rw [Nat.zero_add, Nat.sub_zero] at hret
  have hlength : pi.content.length = pi.count := Ring.length_content ..
  rw [hseg]
  constructor
  · intro hlossless
    -- one byte more than those delivered has left the pipe
    have hdrop := congrArg List.length (hkept.symm.trans hlossless.kept)
    rw [List.length_drop, List.length_drop, hlength] at hdrop
    omega
  · intro hcount
    refine ⟨hret, hmoved, hkept.trans ?_⟩
    rw [List.drop_of_length_le (by omega), List.drop_of_length_le (by omega)]

def twoBytes : Pipe :=
  { data := fun i => if i = 0 then 97 else 98
    nread := 0
    nwrite := 2
    readopen := true
    writeopen := true }

theorem piperead_shortBuffer_twoBytes :
    Lossless twoBytes 2 (readSegment (fun i => decide (i < 2)) false 3 twoBytes) :=
  (piperead_shortBuffer (by decide) false (.inl (by decide))).mpr (by decide)

/-- With room for one byte the second one is lost. -/
theorem piperead_lost :
    ¬ Lossless twoBytes 1 (readSegment (fun i => decide (i < 1)) false 2 twoBytes) ∧
      (readSegment (fun i => decide (i < 1)) false 2 twoBytes).moved = [97] ∧
      (readSegment (fun i => decide (i < 1)) false 2 twoBytes).pipe.content = [] :=
  ⟨fun h => absurd h.kept (by decide), by decide, by decide⟩

end Xv6Mmap.Pipes
