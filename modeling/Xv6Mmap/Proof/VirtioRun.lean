import Xv6Mmap.Proof.VirtioDesc

/-!
# Runs of the disk driver

Whatever the processes, the handler and the device do, and in whatever order, a process returns from
`virtio_disk_rw` when its own request has been completed.
-/

namespace Xv6Mmap.Virtio

open Sequential Ring

/-! ### Runs -/

theorem Inv.asleep {w : World} (hw : Inv w) (asleep : Nat → Bool) : Inv { w with asleep := asleep } :=
  hw.of_taken ⟨w.free, w.desc, asleep, rfl, hw.core.pool, fun _ _ _ => rfl⟩

theorem Reaction.publish {w t : World} {loose : Set Nat} {p b i0 i1 i2 : Nat} {write : Bool}
    (hp : w.proc p = .allocating b write) (ht : Taken w loose t) (hnone : w.request i0 = none)
    (asleep : Nat → Bool) : Reaction w { t.publish p b write i0 i1 i2 with asleep := asleep } := by
  obtain ⟨free, desc, asleep', rfl, -, -⟩ := ht
  refine ⟨fun b' hb' => .inl ?_, Nat.le_succ _, fun q => ?_⟩
  · by_cases hb : b' = b
    · rw [hb]
      exact congrArg Buf.disk (upd_self _ _ _)
    · exact (congrArg Buf.disk (upd_of_ne _ _ hb)).trans hb'
  · by_cases hqp : q = p
    · subst hqp
      exact .publishes b write i0 _ hp (upd_self ..) (upd_self ..) rfl rfl rfl
    · refine .stays (upd_of_ne _ _ hqp) fun b' h r _ hr => ⟨r, ?_, rfl⟩
      have hne : h ≠ i0 := by
        rintro rfl
        rw [hnone] at hr
        cases hr
      exact (upd_of_ne _ _ hne).trans hr

theorem Inv.rw {w : World} (hw : Inv w) (p : Nat) :
    Wp (rw p) (fun _ t => Inv t ∧ Reaction w t) (fun _ _ => False) w := by
  refine .get ?_
  cases hp : w.proc p with
  | idle => exact .pure ⟨hw, .of_eq rfl rfl rfl (.of_eq rfl)⟩
  | allocating b write =>
      have hempty : Taken w {i | i ∈ ([] : List Nat)} w := by simpa using Taken.refl hw.core
      refine .bind ((alloc3From_wp 3 hempty List.nodup_nil).imp fun res t ht => ?_)
      match res, ht with
      | none, ht =>
          obtain ⟨free, desc, asleep, rfl, -, -⟩ := id ht
          exact .of_ok rfl ⟨(hw.of_taken ht).asleep _, .of_eq rfl rfl rfl (.of_eq rfl)⟩
      | some [i0, i1, i2], ⟨_, hnodup, ht⟩ =>
          have hnone := ht.request_none hw.core (i := i0) (by simp)
          exact .of_ok rfl ⟨hw.publish hp hnodup ht _, .publish hp ht hnone _⟩
      | some [], ⟨hlen, _⟩ | some [_], ⟨hlen, _⟩ | some [_, _], ⟨hlen, _⟩
      | some (_ :: _ :: _ :: _ :: _), ⟨hlen, _⟩ => simp at hlen
  | waiting b h =>
      refine .ite (fun _ => ?_) fun hdisk => hw.reclaim hp hdisk
      exact .of_ok rfl ⟨hw.asleep _, .of_eq rfl rfl rfl (.of_eq rfl)⟩

/-- The buffer of a call is locked, so no other process is in a call with it. -/
def Event.Locked (w : World) : Event → Prop
  | .call _ b _ => ∀ q, (w.proc q).buf ≠ some b
  | _ => True

theorem Core.call {w : World} (hw : Core w) {p b : Nat} (hp : w.proc p = .idle)
    (hb : ∀ q, (w.proc q).buf ≠ some b) (write : Bool) (asleep : Nat → Bool) :
    Core { w with proc := upd w.proc p (.allocating b write), asleep := asleep } := by
  have hwaiting : ∀ q b' h, upd w.proc p (.allocating b write) q = .waiting b' h ↔
      w.proc q = .waiting b' h := by
    intro q b' h
    by_cases hqp : q = p
    · simp [hqp, hp]
    · rw [upd_of_ne _ _ hqp]
  have hbuf : ∀ q b', (upd w.proc p (.allocating b write) q).buf = some b' →
      (q = p ∧ b' = b) ∨ (q ≠ p ∧ (w.proc q).buf = some b') := by
    intro q b' hq
    by_cases hqp : q = p
    · rw [hqp, upd_self] at hq
      exact Or.inl ⟨hqp, (Option.some.inj hq).symm⟩
    · rw [upd_of_ne _ _ hqp] at hq
      exact Or.inr ⟨hqp, hq⟩
  constructor
  case pool => exact hw.pool
  case chain => exact hw.chain
  case info => exact hw.info
  case caller =>
    intro h r hr
    exact (hwaiting _ _ _).mpr (hw.caller h r hr)
  case waiting =>
    intro q b' h hq
    exact hw.waiting q b' h ((hwaiting _ _ _).mp hq)
  case distinct =>
    intro q q' b' hq hq'
    rcases hbuf q b' hq with ⟨rfl, rfl⟩ | ⟨-, hold⟩ <;>
      rcases hbuf q' b' hq' with ⟨rfl, hb'⟩ | ⟨-, hold'⟩
    · rfl
    · exact absurd hold' (hb q')
    · exact absurd (hb' ▸ hold) (hb q)
    · exact hw.distinct q q' b' hold hold'
  case id_lt => exact hw.id_lt
  case id_unique => exact hw.id_unique

theorem Inv.call {w : World} (hw : Inv w) {p b : Nat} (hp : w.proc p = .idle)
    (hb : ∀ q, (w.proc q).buf ≠ some b) (write : Bool) (asleep : Nat → Bool) :
    Inv { w with proc := upd w.proc p (.allocating b write), asleep := asleep } :=
  ⟨hw.core.call hp hb write asleep, hw.queues.frame .., hw.halt⟩

theorem after_of_wp {w : World} {x : V Unit} {P : World → Prop}
    (hx : Wp x (fun _ t => P t) (fun _ _ => False) w) : P (w.after x) := by
  obtain ⟨_, t, heq, ht⟩ := hx.returns
  rw [World.after, heq]
  exact ht

theorem step_inv {w : World} (hw : Inv w) {e : Event} (he : e.Locked w) :
    Inv (step w e) ∧ Reaction w (step w e) := by
  have hstay : Inv w ∧ Reaction w w := ⟨hw, .of_eq rfl rfl rfl (.of_eq rfl)⟩
  unfold step
  rw [if_neg (by simp [hw.halt])]
  cases e with
  | call p b write =>
      dsimp only
      split
      · next hp =>
        refine ⟨hw.call hp he write _, fun _ h => .inl h, le_rfl, fun q => ?_⟩
        by_cases hqp : q = p
        · subst hqp
          exact .calls b write hp (upd_self ..)
        · exact .of_eq (upd_of_ne _ _ hqp) (.of_eq rfl)
      · exact hstay
  | run p =>
      dsimp only
      split
      · exact hstay
      · exact after_of_wp (hw.rw p)
  | kill p => exact ⟨hw.asleep _, .of_eq rfl rfl rfl (.of_eq rfl)⟩
  | intr =>
      exact ⟨⟨hw.core.congr rfl rfl rfl (fun _ => rfl) rfl rfl, hw.queues.frame .., hw.halt⟩,
        .of_eq rfl rfl rfl (.of_eq rfl)⟩
  | intrRound =>
      dsimp only
      split
      · exact after_of_wp hw.intrRound
      · exact hstay
  | fetch =>
      refine ⟨hw.fetch, ?_⟩
      dsimp only [World.fetch]
      split
      · exact hstay.2
      · exact .of_eq rfl rfl rfl (kept_setStage _ _)
  | complete head =>
      refine ⟨hw.complete head, ?_⟩
      dsimp only [World.complete]
      split
      · exact .of_eq rfl rfl rfl (kept_setStage _ _)
      · exact hstay.2

theorem start_inv (blockno : Nat → UInt32) : Inv (.start blockno) where
  core :=
    { pool := ⟨nofun, nofun, nofun, fun i hi hused => by
        simp [World.start, show i < num from hi] at hused⟩
      chain := nofun
      info := nofun
      caller := nofun
      waiting := nofun
      distinct := nofun
      id_lt := nofun
      id_unique := nofun }
  queues :=
    { status := nofun
      disk := fun _ => iff_of_false nofun nofun
      avail := ⟨[], .nil _ _, .nil, fun _ => iff_of_false nofun nofun⟩
      pending := ⟨.nil, fun _ => iff_of_false nofun nofun⟩
      used := ⟨[], .nil _ _, .nil, fun _ => iff_of_false nofun nofun, rfl⟩
      completed := nofun
      processed := nofun
      old := nofun
      once := .nil
      returned := nofun }
  halt := rfl

/-- The worlds of the runs in which the processes that are in a call have distinct buffers. -/
inductive Reachable (blockno : Nat → UInt32) : World → Prop
  | start : Reachable blockno (.start blockno)
  | step {w : World} {e : Event} : Reachable blockno w → e.Locked w → Reachable blockno (step w e)

theorem Reachable.inv {blockno : Nat → UInt32} {w : World} (hw : Reachable blockno w) : Inv w := by
  induction hw with
  | start => exact start_inv blockno
  | step _ he ih => exact (step_inv ih he).1

/-! ### Bookkeeping -/

def chainFrom (desc : Nat → Desc) : Nat → Nat → List Nat
  | 0, _ => []
  | fuel + 1, i => i :: if (desc i).hasNext then chainFrom desc fuel (desc i).next else []

def World.chain (w : World) (h : Nat) : List Nat := chainFrom w.desc num h

theorem Formatted.chainFrom {desc : Nat → Desc} {h i j fuel : Nat} (hfmt : Formatted desc h i j) :
    chainFrom desc (fuel + 3) h = [h, i, j] := by
  simp [Virtio.chainFrom, hfmt.first, hfmt.second, hfmt.third]

/-- The descriptors, the requests and the completions of a world fit together. -/
structure Bookkept (w : World) : Prop where
  free : ∀ i < num, w.free i = true ↔ ∀ h r, w.request h = some r → i ∉ w.chain h
  chain : ∀ h r, w.request h = some r →
    (w.chain h).length = 3 ∧ (w.chain h).Nodup ∧ ∀ i ∈ w.chain h, i < num
  disjoint : ∀ h h' r r', w.request h = some r → w.request h' = some r' → h ≠ h' →
    (w.chain h).Disjoint (w.chain h')
  /-- There is a request for each process that has published one and not yet reclaimed it. -/
  call : ∀ p b h, w.proc p = .waiting b h ↔ ∃ r, w.request h = some r ∧ r.caller = p ∧ r.buf = b
  info : ∀ h r, w.request h = some r → (w.info h).b = some r.buf
  halt : w.halt = none
  /-- The completions that are not processed are those between `used_idx` and `used->idx`. -/
  used : ∃ l, Queued num w.used.ring w.usedIdx w.used.idx l ∧
    w.completed = w.processed ++ l.filterMap fun h => (w.request h).map Request.id
  once : w.completed.Nodup
  disk : ∀ b, (w.buf b).disk = true ↔ ∃ h r, w.request h = some r ∧ r.buf = b ∧ r.id ∉ w.processed

structure Answered (w t : World) : Prop where
  disk : ∀ b, (w.buf b).disk = true → (t.buf b).disk = false → ∃ h r, w.request h = some r ∧
    r.buf = b ∧ r.id ∈ w.completed ∧ r.id ∉ w.processed ∧ t.processed = w.processed ++ [r.id]
  /-- A process that is after descriptors goes on only to wait for a new request of its own. -/
  published : ∀ p b write, w.proc p = .allocating b write → t.proc p ≠ .allocating b write →
    ∃ h r, t.proc p = .waiting b h ∧ t.request h = some r ∧ r.caller = p ∧ r.buf = b ∧
      r.id = w.births
  /-- A process that waits goes on only to return, when its request is complete. -/
  proc : ∀ p b h, w.proc p = .waiting b h → t.proc p ≠ .waiting b h → t.proc p = .idle ∧
    ∃ r, w.request h = some r ∧ r.caller = p ∧ r.buf = b ∧ r.id ∈ w.completed ∧
      t.returned = w.returned ++ [r.id]
  idle : ∀ p, w.proc p ≠ .idle → t.proc p = .idle → ∃ b h, w.proc p = .waiting b h

inductive InCall (p : Nat) (w : World) : World → Prop
  | start : InCall p w w
  | step {u : World} {e : Event} : InCall p w u → e.Locked u → (step u e).proc p ≠ .idle →
      InCall p w (step u e)

theorem Core.chain_eq {w : World} {h : Nat} {r : Request} (hw : Core w) (hr : w.request h = some r) :
    w.chain h = r.chain := by
  obtain ⟨i, j, hchain, hfmt⟩ := hw.chain h r hr
  exact hfmt.chainFrom.trans hchain.symm

theorem slot_eq_some {request : Nat → Option Request} {h i : Nat} {r : Request}
    (hr : request h = some r) : i ∈ r.chain ↔ ∃ k, slot request (h, k) = some i := by
  simp [slot, hr, List.mem_iff_getElem?]

theorem Inv.bookkept {w : World} (hw : Inv w) : Bookkept w := by
  obtain ⟨hcore, hq, hhalt⟩ := hw
  refine ⟨fun i hi => ⟨fun hfree h r hr hin => ?_, fun hnot => ?_⟩, fun h r hr => ?_,
    fun h h' r r' hr hr' hne i hin hin' => ?_, fun p b h => ⟨fun hp => ?_, ?_⟩, hcore.info, hhalt, ?_,
    hq.once, fun b => (hq.disk b).trans ?_⟩
  · rw [hcore.chain_eq hr, slot_eq_some hr] at hin
    obtain ⟨k, hk⟩ := hin
    have hused := (hcore.pool.owned _ i hk).2.1
    simp [hfree] at hused
  · by_contra hfree
    rcases hcore.pool.covered i hi (by simpa using hfree) with hloose | ⟨⟨h, k⟩, hk⟩
    · exact hloose
    · cases hr : w.request h with
      | none => simp [slot, hr] at hk
      | some r =>
          refine hnot h r hr ?_
          rw [hcore.chain_eq hr, slot_eq_some hr]
          exact ⟨k, hk⟩
  · obtain ⟨i, j, hchain, -⟩ := hcore.chain h r hr
    rw [hcore.chain_eq hr]
    refine ⟨by rw [hchain]; rfl, hcore.chain_nodup hr, fun i hi => ?_⟩
    obtain ⟨k, hk⟩ := (slot_eq_some hr).mp hi
    exact (hcore.pool.owned _ i hk).1
  · rw [hcore.chain_eq hr, slot_eq_some hr] at hin
    rw [hcore.chain_eq hr', slot_eq_some hr'] at hin'
    obtain ⟨k, hk⟩ := hin
    obtain ⟨k', hk'⟩ := hin'
    exact hne (Prod.mk.inj (hcore.pool.unique _ _ i hk hk')).1
  · obtain ⟨r, hr, hcaller⟩ := hcore.waiting p b h hp
    have hbuf := hcore.caller h r hr
    rw [hcaller, hp, Activity.waiting.injEq] at hbuf
    exact ⟨r, hr, hcaller, hbuf.1.symm⟩
  · rintro ⟨r, hr, rfl, rfl⟩
    exact hcore.caller h r hr
  · obtain ⟨l, hl, -, -, hcompleted⟩ := hq.used
    exact ⟨l, hl, hcompleted⟩
  · constructor
    · rintro ⟨h, r, hr, hbuf, hstage⟩
      exact ⟨h, r, hr, hbuf, fun hin => hstage ((hq.processed h r hr).mp hin)⟩
    · rintro ⟨h, r, hr, hbuf, hstage⟩
      exact ⟨h, r, hr, hbuf, fun hin => hstage ((hq.processed h r hr).mpr hin)⟩

theorem Reaction.answered {w t : World} (hq : Queues w) (hr : Reaction w t) : Answered w t where
  disk := fun b hb hclear => by
    rcases hr.disk b hb with hset | ⟨h, r, hr, hbuf, hstage, hprocessed⟩
    · rw [hset] at hclear
      cases hclear
    · refine ⟨h, r, hr, hbuf, (hq.completed h r hr).mpr (.inl hstage), fun hin => ?_, hprocessed⟩
      rw [hq.processed h r hr, hstage] at hin
      cases hin
  published := by
    intro p b write hp hne
    rcases hr.moves p with ⟨hsame, -⟩ | ⟨b', write', hidle, -⟩ |
      ⟨b', write', h, r, hbefore, hafter, hrequest, hcaller, hbuf, hid⟩ | ⟨b', h, r, hbefore, -⟩
    · exact absurd (hsame.trans hp) hne
    · rw [hp] at hidle
      cases hidle
    · rw [hp] at hbefore
      cases hbefore
      exact ⟨h, r, hafter, hrequest, hcaller, hbuf, hid⟩
    · rw [hp] at hbefore
      cases hbefore
  proc := by
    intro p b h hp hne
    rcases hr.moves p with ⟨hsame, -⟩ | ⟨b', write', hidle, -⟩ | ⟨b', write', h', r, hbefore, -⟩ |
      ⟨b', h', r, hbefore, hafter, hrequest, hcaller, hbuf, hstage, hreturned⟩
    · exact absurd (hsame.trans hp) hne
    · rw [hp] at hidle
      cases hidle
    · rw [hp] at hbefore
      cases hbefore
    · rw [hp] at hbefore
      cases hbefore
      exact ⟨hafter, r, hrequest, hcaller, hbuf, (hq.completed h r hrequest).mpr (.inr hstage),
        hreturned⟩
  idle := by
    intro p hne hidle
    rcases hr.moves p with ⟨hsame, -⟩ | ⟨b, write, -, hafter⟩ | ⟨b, write, h, r, -, hafter, -⟩ |
      ⟨b, h, r, hbefore, -⟩
    · exact absurd (hsame ▸ hidle) hne
    · rw [hidle] at hafter
      cases hafter
    · rw [hidle] at hafter
      cases hafter
    · exact ⟨b, h, hbefore⟩

/-- A call with the buffer `b` that began when `born` requests had been published has not returned. -/
structure Outstanding (p b born : Nat) (u : World) : Prop where
  births : born ≤ u.births
  proc : (∃ write, u.proc p = .allocating b write) ∨
    ∃ h r, u.proc p = .waiting b h ∧ u.request h = some r ∧ born ≤ r.id

theorem Outstanding.next {p b born : Nat} {u t : World} (hout : Outstanding p b born u)
    (hr : Reaction u t) (hne : t.proc p ≠ .idle) : Outstanding p b born t := by
  refine ⟨hout.births.trans hr.births, ?_⟩
  rcases hr.moves p with ⟨hsame, hkept⟩ | ⟨b', write', hidle, -⟩ |
    ⟨b', write', h, r, hbefore, hafter, hrequest, -, -, hid⟩ | ⟨b', h, r, -, hafter, -⟩
  · rcases hout.proc with ⟨write, hp⟩ | ⟨h, r, hp, hrequest, hborn⟩
    · exact Or.inl ⟨write, hsame.trans hp⟩
    · obtain ⟨r', hrequest', hid⟩ := hkept b h r hp hrequest
      exact Or.inr ⟨h, r', hsame.trans hp, hrequest', hid ▸ hborn⟩
  · rcases hout.proc with ⟨write, hp⟩ | ⟨h, r, hp, -⟩ <;> rw [hp] at hidle <;> cases hidle
  · rcases hout.proc with ⟨write, hp⟩ | ⟨h', r', hp, -⟩ <;> rw [hp] at hbefore <;> cases hbefore
    exact Or.inr ⟨h, r, hafter, hrequest, hid ▸ hout.births⟩
  · exact absurd hafter hne

theorem InCall.outstanding {p b born : Nat} {w u : World} (hcall : InCall p w u) (hw : Inv w)
    (hout : Outstanding p b born w) : Inv u ∧ Outstanding p b born u := by
  induction hcall with
  | start => exact ⟨hw, hout⟩
  | step _ he hne ih =>
      obtain ⟨hinv, hreaction⟩ := step_inv ih.1 he
      exact ⟨hinv, ih.2.next hreaction hne⟩

theorem Outstanding.call {p : Nat} {w : World} (hw : Inv w) (hp : w.proc p = .idle) (b : Nat)
    (write : Bool) : Outstanding p b w.births (step w (.call p b write)) := by
  unfold step
  rw [if_neg (by simp [hw.halt])]
  dsimp only
  rw [if_pos hp]
  exact ⟨le_rfl, Or.inl ⟨write, upd_self ..⟩⟩

/-- In every run the requests are kept apart, the handler processes each completion once, and a process
returns from `virtio_disk_rw(b)` when the request that it has published for `b` since it made the call
is complete. -/
theorem virtio_requests {blockno : Nat → UInt32} {w : World} (hw : Reachable blockno w) :
    Bookkept w ∧ (∀ e, e.Locked w → Answered w (step w e)) ∧
      ∀ p b write, w.proc p = .idle → (Event.call p b write).Locked w →
        ∀ u, InCall p (step w (.call p b write)) u → ∀ e, e.Locked u → (step u e).proc p = .idle →
          ∃ h r, u.proc p = .waiting b h ∧ u.request h = some r ∧ r.caller = p ∧ r.buf = b ∧
            w.births ≤ r.id ∧ r.id ∈ u.completed ∧ (step u e).returned = u.returned ++ [r.id] := by
  have hinv := hw.inv
  refine ⟨hinv.bookkept, fun e he => (step_inv hinv he).2.answered hinv.queues, ?_⟩
  intro p b write hp hlocked u hcall e he hidle
  obtain ⟨hu, hout⟩ := hcall.outstanding (step_inv hinv hlocked).1 (.call hinv hp b write)
  have hanswered := (step_inv hu he).2.answered hu.queues
  rcases hout.proc with ⟨write', hp'⟩ | ⟨h, r, hp', hrequest, hborn⟩
  · obtain ⟨b', h', hwaiting⟩ := hanswered.idle p (by rw [hp']; simp) hidle
    rw [hp'] at hwaiting
    cases hwaiting
  · obtain ⟨-, r', hrequest', hcaller, hbuf, hcompleted, hreturned⟩ :=
      hanswered.proc p b h hp' (by rw [hidle]; simp)
    rw [hrequest] at hrequest'
    cases hrequest'
    exact ⟨h, r, hp', hrequest, hcaller, hbuf, hborn, hcompleted, hreturned⟩

theorem Reachable.run {blockno : Nat → UInt32} {w : World} (hw : Reachable blockno w)
    {es : List Event} (hes : ∀ e ∈ es, ∀ w, e.Locked w) : Reachable blockno (es.foldl Virtio.step w) := by
  induction es generalizing w with
  | nil => exact hw
  | cons e es ih =>
      exact ih (hw.step (hes e (by simp) w)) fun e' he' => hes e' (List.mem_cons_of_mem _ he')

theorem InCall.run {p : Nat} {w u : World} (hcall : InCall p w u) {es : List Event}
    (hes : ∀ e ∈ es, ∀ w, e.Locked w)
    (hne : ∀ k < es.length, ((es.take (k + 1)).foldl Virtio.step u).proc p ≠ .idle) :
    InCall p w (es.foldl Virtio.step u) := by
  induction es generalizing u with
  | nil => exact hcall
  | cons e es ih =>
      refine ih (hcall.step (hes e (by simp) u) (hne 0 (by simp)))
        (fun e' he' => hes e' (List.mem_cons_of_mem _ he')) fun k hk => ?_
      exact hne (k + 1) (by simpa using hk)

def oneCall : World := step (.start fun _ => 0) (.call 0 5 false)

/-- Two processes call `virtio_disk_rw`, and the second request is completed first. -/
def twoCalls : World :=
  [.run 0, .run 1, .fetch, .fetch, .complete 3, .intr, .intrRound, .intrRound].foldl step
    (step oneCall (.call 1 6 true))

theorem oneCall_reachable : Reachable (fun _ => 0) oneCall := by
  refine .step .start fun q => ?_
  simp [World.start, Activity.buf]

theorem oneCall_locked : (Event.call 1 6 true).Locked oneCall := by
  intro q
  by_cases hq : q = 0 <;> simp [oneCall, step, World.start, hq, upd, Activity.buf]

theorem virtio_requests_twoCalls :
    twoCalls.processed = [1] ∧ (twoCalls.buf 5).disk = true ∧ (twoCalls.buf 6).disk = false ∧
      twoCalls.chain 3 = [3, 4, 5] ∧ Bookkept twoCalls ∧ Answered twoCalls (step twoCalls (.run 1)) ∧
      (step twoCalls (.run 1)).proc 1 = .idle ∧
      ∃ h r, twoCalls.proc 1 = .waiting 6 h ∧ twoCalls.request h = some r ∧ r.caller = 1 ∧ r.buf = 6 ∧
        oneCall.births ≤ r.id ∧ r.id ∈ twoCalls.completed ∧
        (step twoCalls (.run 1)).returned = twoCalls.returned ++ [r.id] := by
  have hfree : ∀ e ∈ [Event.run 0, .run 1, .fetch, .fetch, .complete 3, .intr, .intrRound,
      .intrRound], ∀ w, e.Locked w := by
    simp [Event.Locked]
  have hreachable : Reachable (fun _ => 0) twoCalls :=
    (oneCall_reachable.step oneCall_locked).run hfree
  have hcall : InCall 1 (step oneCall (.call 1 6 true)) twoCalls :=
    InCall.start.run hfree (by decide +kernel)
  have hidle : (step twoCalls (.run 1)).proc 1 = .idle := by decide +kernel
  obtain ⟨hbookkept, hanswered, -⟩ := virtio_requests hreachable
  obtain ⟨-, -, hreturns⟩ := virtio_requests oneCall_reachable
  exact ⟨by decide +kernel, by decide +kernel, by decide +kernel, by decide +kernel, hbookkept,
    hanswered (.run 1) trivial, hidle,
    hreturns 1 6 true (by decide +kernel) oneCall_locked twoCalls hcall (.run 1) trivial hidle⟩

end Xv6Mmap.Virtio
