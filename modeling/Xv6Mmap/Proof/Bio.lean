import Mathlib.Algebra.BigOperators.Group.Finset.Basic
import Mathlib.Data.Fintype.Card
import Mathlib.Data.List.FinRange
import Xv6Mmap.Bio

/-!
# Every block in one buffer

The list of the buffers is always one ring with all of them on it, no two buffers are for one block,
and `refcnt` counts the processes that have or want a buffer and the pins. A buffer that somebody refers
to is not recycled. `refcnt` is a machine word, so this holds as long as nobody counts beyond it.
-/

namespace Xv6Mmap.Bio

open Function Finset

/-! ### References -/

def Activity.waiting : Activity → Option (Fin nbuf)
  | .acquiring b _ => some b
  | _ => none

def Activity.owning : Activity → Option (Fin nbuf)
  | .checking b | .filling b | .filled b | .releasing b => some b
  | _ => none

/-- The buffer that `brelse` has unlocked and not yet counted down. -/
def Activity.leaving : Activity → Option (Fin nbuf)
  | .dropping b => some b
  | _ => none

/-- How often a process that has been given `held` has the sleep lock of `b`. -/
def locksOf (held : List (Fin nbuf)) (a : Activity) (b : Fin nbuf) : Nat :=
  held.count b + if a.owning = some b then 1 else 0

def World.holders (n : Nat) (w : World) (b : Fin nbuf) : Nat :=
  ∑ p ∈ range n, (locksOf (w.held p) (w.act p) b + if (w.act p).leaving = some b then 1 else 0)

def World.waiters (n : Nat) (w : World) (b : Fin nbuf) : Nat :=
  ∑ p ∈ range n, if (w.act p).waiting = some b then 1 else 0

def share (held : List (Fin nbuf)) (a : Activity) (b : Fin nbuf) : Nat :=
  locksOf held a b + (if a.leaving = some b then 1 else 0) + if a.waiting = some b then 1 else 0

def World.refs (n : Nat) (w : World) (b : Fin nbuf) : Nat :=
  ∑ p ∈ range n, share (w.held p) (w.act p) b + w.pins b

theorem World.refs_eq (n : Nat) (w : World) (b : Fin nbuf) :
    w.refs n b = w.holders n b + w.waiters n b + w.pins b := by
  simp only [refs, holders, waiters, share, sum_add_distrib]

theorem World.refs_change {n p : Nat} {w w' : World} {b : Fin nbuf} (hp : p < n)
    (hother : ∀ q ≠ p, share (w'.held q) (w'.act q) b = share (w.held q) (w.act q) b) :
    w'.refs n b + (share (w.held p) (w.act p) b + w.pins b) =
      w.refs n b + (share (w'.held p) (w'.act p) b + w'.pins b) := by
  have hmem : p ∈ range n := mem_range.mpr hp
  have hsum : ∑ q ∈ (range n).erase p, share (w'.held q) (w'.act q) b =
      ∑ q ∈ (range n).erase p, share (w.held q) (w.act q) b :=
    sum_congr rfl fun q hq => hother q (ne_of_mem_erase hq)
  have h := sum_erase_add (range n) (fun q => share (w.held q) (w.act q) b) hmem
  have h' := sum_erase_add (range n) (fun q => share (w'.held q) (w'.act q) b) hmem
  simp only [refs]
  omega

/-! ### The invariant -/

structure Good (n : Nat) (w : World) : Prop where
  ring : ∃ l, (∀ b, b ∈ l) ∧ w.cache.links.Circular l
  unique : ∀ b b', (w.cache.buf b).dev = (w.cache.buf b').dev →
    (w.cache.buf b).blockno = (w.cache.buf b').blockno → (w.cache.buf b).dev ≠ 0 → b = b'
  count : ∀ b, (w.cache.buf b).refcnt = UInt32.ofNat (w.refs n b)
  lock : ∀ p b, locksOf (w.held p) (w.act p) b =
    if (w.cache.buf b).locked = true ∧ (w.cache.buf b).pid = p then 1 else 0
  fill : ∀ p b, w.act p = .filling b ∨ w.act p = .filled b → (w.cache.buf b).valid = false
  loops : w.halt ≠ some .loops

def World.Small (n : Nat) (w : World) : Prop := ∀ b, w.refs n b < 2 ^ 32

section Change

variable {n p : Nat} {w w' : World} {b : Fin nbuf} {nb : Buf} {a : Activity} {l : List (Fin nbuf)}

theorem Good.change (hw : Good n w) (hp : p < n)
    (hact : w'.act = update w.act p a) (hheld : w'.held = update w.held p l)
    (hbuf : w'.cache.buf = update w.cache.buf b nb)
    (hring : ∃ l, (∀ b, b ∈ l) ∧ w'.cache.links.Circular l)
    (hid : (nb.dev = (w.cache.buf b).dev ∧ nb.blockno = (w.cache.buf b).blockno) ∨
      ∀ b', ¬ ((w.cache.buf b').dev = nb.dev ∧ (w.cache.buf b').blockno = nb.blockno))
    (hpins : ∀ b' ≠ b, w'.pins b' = w.pins b')
    (hshare : ∀ b' ≠ b, share l a b' = share (w.held p) (w.act p) b')
    (hlocks : ∀ b' ≠ b, locksOf l a b' = locksOf (w.held p) (w.act p) b')
    (hcount : ∀ r, r + (share (w.held p) (w.act p) b + w.pins b) =
      w.refs n b + (share l a b + w'.pins b) → nb.refcnt = UInt32.ofNat r)
    (hlock : ∀ q, (if q = p then locksOf l a b else locksOf (w.held q) (w.act q) b) =
      if nb.locked = true ∧ nb.pid = q then 1 else 0)
    (hfill : ∀ b', a = .filling b' ∨ a = .filled b' → b' = b ∧ nb.valid = false)
    (hvalid : nb.valid = true → (w.cache.buf b).valid = true ∨ 0 < locksOf (w.held p) (w.act p) b)
    (hloops : w'.halt ≠ some .loops) : Good n w' := by
  have hshare' : ∀ q ≠ p, ∀ b, share (w'.held q) (w'.act q) b = share (w.held q) (w.act q) b :=
    fun q hq b => by rw [hheld, hact, update_of_ne hq, update_of_ne hq]
  have hself : ∀ b, share (w'.held p) (w'.act p) b = share l a b := fun b => by
    rw [hheld, hact, update_self, update_self]
  refine ⟨hring, fun b1 b2 => ?_, fun b1 => ?_, fun q b1 => ?_, fun q b1 hq => ?_, hloops⟩
  · -- the new name of `b` is the old one, or nobody has it
    rw [hbuf]
    by_cases h1 : b1 = b <;> by_cases h2 : b2 = b
    · exact fun _ _ _ => h1.trans h2.symm
    · subst h1
      rw [update_self, update_of_ne h2]
      intro hdev hblk hne
      rcases hid with ⟨hd, hb⟩ | hfresh
      · exact hw.unique _ _ (hd ▸ hdev) (hb ▸ hblk) (hd ▸ hne)
      · exact absurd ⟨hdev.symm, hblk.symm⟩ (hfresh b2)
    · subst h2
      rw [update_self, update_of_ne h1]
      intro hdev hblk hne
      rcases hid with ⟨hd, hb⟩ | hfresh
      · exact hw.unique _ _ (hdev.trans hd) (hblk.trans hb) hne
      · exact absurd ⟨hdev, hblk⟩ (hfresh b1)
    · rw [update_of_ne h1, update_of_ne h2]
      exact hw.unique b1 b2
  · have hrefs := World.refs_change (b := b1) hp fun q hq => hshare' q hq b1
    rw [hself] at hrefs
    rw [hbuf]
    by_cases h1 : b1 = b
    · subst h1
      rw [update_self]
      exact hcount _ hrefs
    · rw [update_of_ne h1, hw.count]
      rw [hshare b1 h1, hpins b1 h1] at hrefs
      congr 1
      omega
  · rw [hbuf, hheld, hact]
    by_cases h1 : b1 = b
    · subst h1
      rw [update_self, ← hlock q]
      by_cases hq : q = p
      · subst hq
        rw [update_self, update_self, if_pos rfl]
      · rw [update_of_ne hq, update_of_ne hq, if_neg hq]
    · rw [update_of_ne h1, ← hw.lock q b1]
      by_cases hq : q = p
      · subst hq
        rw [update_self, update_self, hlocks b1 h1]
      · rw [update_of_ne hq, update_of_ne hq]
  · rw [hact] at hq
    rw [hbuf]
    by_cases hqp : q = p
    · subst hqp
      rw [update_self] at hq
      obtain ⟨rfl, hv⟩ := hfill b1 hq
      rw [update_self, hv]
    · rw [update_of_ne hqp] at hq
      have hold := hw.fill q b1 hq
      by_cases h1 : b1 = b
      · subst h1
        rw [update_self]
        cases hv : nb.valid with
        | false => rfl
        | true =>
            rcases hvalid hv with hv' | hpos
            · rw [hold] at hv'
              cases hv'
            · -- the sleep lock keeps other processes from filling the buffer
              have hq1 : 0 < locksOf (w.held q) (w.act q) b1 := by
                rcases hq with hq | hq <;> simp [locksOf, hq, Activity.owning]
              have hlp := hw.lock p b1
              have hlq := hw.lock q b1
              split at hlp
              · split at hlq
                · rename_i h1 h2
                  exact absurd (h2.2.symm.trans h1.2) hqp
                · omega
              · omega
      · rw [update_of_ne h1, hold]

theorem Good.move (hw : Good n w) (hp : p < n)
    (hact : w'.act = update w.act p a) (hheld : w'.held = update w.held p l)
    (hbuf : w'.cache.buf = update w.cache.buf b nb) (hlinks : w'.cache.links = w.cache.links)
    (hpins : w'.pins = w.pins) (hhalt : w'.halt = w.halt)
    (hname : nb.dev = (w.cache.buf b).dev ∧ nb.blockno = (w.cache.buf b).blockno ∧
      nb.refcnt = (w.cache.buf b).refcnt)
    (hshare : ∀ b', share l a b' = share (w.held p) (w.act p) b')
    (hlocks : ∀ b' ≠ b, locksOf l a b' = locksOf (w.held p) (w.act p) b')
    (hlock : ∀ q, (if q = p then locksOf l a b else locksOf (w.held q) (w.act q) b) =
      if nb.locked = true ∧ nb.pid = q then 1 else 0)
    (hfill : ∀ b', a = .filling b' ∨ a = .filled b' → b' = b ∧ nb.valid = false)
    (hvalid : nb.valid = true →
      (w.cache.buf b).valid = true ∨ 0 < locksOf (w.held p) (w.act p) b) : Good n w' := by
  refine hw.change hp hact hheld hbuf (by rw [hlinks]; exact hw.ring) (.inl ⟨hname.1, hname.2.1⟩)
    (fun b' _ => by rw [hpins]) (fun b' _ => hshare b') hlocks (fun r hr => ?_) hlock hfill hvalid
    (by rw [hhalt]; exact hw.loops)
  rw [hname.2.2, hw.count b]
  rw [hshare b, hpins] at hr
  congr 1
  omega

theorem Good.stay (hw : Good n w) (hp : p < n)
    (hact : w'.act = update w.act p a) (hheld : w'.held = update w.held p l)
    (hbuf : w'.cache.buf = update w.cache.buf b nb) (hlinks : w'.cache.links = w.cache.links)
    (hpins : w'.pins = w.pins) (hhalt : w'.halt = w.halt)
    (hname : nb.dev = (w.cache.buf b).dev ∧ nb.blockno = (w.cache.buf b).blockno ∧
      nb.refcnt = (w.cache.buf b).refcnt)
    (hsame : nb.locked = (w.cache.buf b).locked ∧ nb.pid = (w.cache.buf b).pid)
    (hshare : ∀ b', share l a b' = share (w.held p) (w.act p) b')
    (hlocks : ∀ b', locksOf l a b' = locksOf (w.held p) (w.act p) b')
    (hfill : ∀ b', a = .filling b' ∨ a = .filled b' → b' = b ∧ nb.valid = false)
    (hvalid : nb.valid = true →
      (w.cache.buf b).valid = true ∨ 0 < locksOf (w.held p) (w.act p) b) : Good n w' := by
  refine hw.move hp hact hheld hbuf hlinks hpins hhalt hname hshare (fun b' _ => hlocks b')
    (fun q => ?_) hfill hvalid
  rw [hsame.1, hsame.2, ← hw.lock q b]
  by_cases hq : q = p
  · rw [if_pos hq, hlocks b, hq]
  · rw [if_neg hq]

end Change

/-! ### The steps -/

section Steps

variable {n p : Nat} {w : World} {b : Fin nbuf}

theorem Good.reacquire (hw : Good n w) (hp : p < n) {asleep : Bool}
    (hact : w.act p = .acquiring b asleep) (asleep' : Bool) :
    Good n { w with act := update w.act p (.acquiring b asleep') } :=
  hw.stay (b := b) hp rfl (update_eq_self _ _).symm (update_eq_self _ _).symm rfl rfl rfl
    ⟨rfl, rfl, rfl⟩ ⟨rfl, rfl⟩ (fun b' => by rw [hact]; rfl) (fun b' => by rw [hact]; rfl)
    (fun b' h => by simp at h) fun h => .inl h

theorem Good.acquiresleep (hw : Good n w) (hp : p < n) (hact : w.act p = .acquiring b false) :
    Good n (w.acquiresleep p b) := by
  unfold World.acquiresleep
  split
  · exact hw.reacquire hp hact true
  · rename_i hfree
    have hnone : ∀ q, locksOf (w.held q) (w.act q) b = 0 := fun q => by
      rw [hw.lock q b, if_neg fun h => hfree h.1]
    have hcount : (w.held p).count b = 0 := by
      have := hnone p
      simp only [locksOf] at this
      omega
    refine hw.move hp rfl (update_eq_self _ _).symm rfl rfl rfl rfl ⟨rfl, rfl, rfl⟩
      (fun b' => ?_) (fun b' hb' => ?_) (fun q => ?_) (fun b' h => by simp at h) fun h => .inl h
    · simp only [share, locksOf, hact, Activity.owning, Activity.leaving, Activity.waiting]
      simp
    · simp only [locksOf, hact, Activity.owning, Option.some.injEq, hb'.symm, reduceCtorEq]
    · by_cases hq : q = p
      · subst hq
        simp [locksOf, Activity.owning, hcount]
      · simp [hq, hnone q, Ne.symm hq]

theorem Good.ret (hw : Good n w) (hp : p < n)
    (hact : w.act p = .checking b ∨ w.act p = .filled b) :
    Good n ({ w with cache := w.cache.modify b fun buf => { buf with valid := true } }.ret p b) := by
  refine hw.stay hp rfl rfl rfl rfl rfl rfl ⟨rfl, rfl, rfl⟩ ⟨rfl, rfl⟩ (fun b' => ?_) (fun b' => ?_)
    (fun b' h => by simp at h) fun _ => .inr ?_
  all_goals rcases hact with hact | hact
  all_goals simp [share, locksOf, hact, Activity.owning, Activity.leaving, Activity.waiting,
    List.count_cons]

theorem wake_fill {a : Activity} {b' : Fin nbuf}
    (h : wake b a = .filling b' ∨ wake b a = .filled b') : a = .filling b' ∨ a = .filled b' := by
  cases a with
  | acquiring b asleep => simp [wake] at h
  | _ => exact h

theorem Good.wake (hw : Good n w) (b : Fin nbuf) :
    Good n { w with act := fun q => wake b (w.act q) } := by
  have howning : ∀ q, (Bio.wake b (w.act q)).owning = (w.act q).owning := fun q => by
    cases w.act q <;> rfl
  have hleaving : ∀ q, (Bio.wake b (w.act q)).leaving = (w.act q).leaving := fun q => by
    cases w.act q <;> rfl
  have hwaiting : ∀ q, (Bio.wake b (w.act q)).waiting = (w.act q).waiting := fun q => by
    cases w.act q <;> rfl
  refine ⟨hw.ring, hw.unique, fun b' => ?_, fun q b' => ?_, fun q b' hq => hw.fill q b' (wake_fill hq),
    hw.loops⟩
  · rw [hw.count b']
    simp only [World.refs, share, locksOf, howning, hleaving, hwaiting]
  · simp only [locksOf, howning]
    exact hw.lock q b'

theorem Good.releasesleep (hw : Good n w) (hp : p < n) (hact : w.act p = .releasing b) :
    Good n (w.releasesleep p b) := by
  have hact' : Bio.wake b (w.act p) = .releasing b := by rw [hact]; rfl
  have hmine := hw.lock p b
  simp only [locksOf, hact, Activity.owning, if_true] at hmine
  have howner : (w.cache.buf b).locked = true ∧ (w.cache.buf b).pid = p := by
    by_contra h
    rw [if_neg h] at hmine
    omega
  rw [if_pos howner] at hmine
  refine (hw.wake b).move (l := w.held p) hp rfl (update_eq_self _ _).symm rfl rfl rfl rfl ⟨rfl, rfl, rfl⟩
    (fun b' => ?_) (fun b' hb' => ?_) (fun q => ?_) (fun b' h => by simp at h) fun h => .inl h
  · simp [share, locksOf, hact', Activity.owning, Activity.leaving, Activity.waiting]
  · simp [locksOf, hact', Activity.owning, hb'.symm]
  · by_cases hq : q = p
    · subst hq
      simp only [locksOf, Activity.owning, if_true]
      simp
      omega
    · have := (hw.wake b).lock q b
      simp only [howner.1, howner.2, Ne.symm hq, and_false, if_false] at this
      simp [hq, this]

theorem Good.drop (hw : Good n w) (hp : p < n) (hact : w.act p = .dropping b) :
    Good n { w with cache := w.cache.drop b, act := update w.act p .idle } := by
  have hbuf : (w.cache.drop b).buf = update w.cache.buf b (w.cache.buf b).decr := by
    simp only [Cache.drop]
    split <;> rfl
  have hring : ∃ l, (∀ b, b ∈ l) ∧ (w.cache.drop b).links.Circular l := by
    obtain ⟨l, hall, hcirc⟩ := hw.ring
    simp only [Cache.drop]
    split
    · refine ⟨b :: l.erase b, fun b' => ?_, (hcirc.unlink (hall b)).pushFront ?_⟩
      · by_cases hb' : b' = b
        · simp [hb']
        · exact List.mem_cons_of_mem _ ((List.mem_erase_of_ne hb').mpr (hall b'))
      · exact List.Nodup.not_mem_erase hcirc.1
    · exact ⟨l, hall, hcirc⟩
  refine hw.change hp rfl (update_eq_self _ _).symm hbuf hring (.inl ⟨rfl, rfl⟩) (fun _ _ => rfl)
    (fun b' hb' => ?_) (fun b' hb' => ?_) (fun r hr => ?_) (fun q => ?_) (fun b' h => by simp at h)
    (fun h => .inl h) hw.loops
  · simp [share, locksOf, hact, Activity.owning, Activity.leaving, Activity.waiting, hb'.symm]
  · simp [locksOf, hact, Activity.owning]
  · simp only [share, locksOf, hact, Activity.owning, Activity.leaving, Activity.waiting, if_true,
      reduceCtorEq, if_false] at hr
    have hrefs : w.refs n b = r + 1 := by omega
    simp only [Buf.decr, hw.count b, hrefs, UInt32.ofNat_add]
    simp
  · by_cases hq : q = p
    · subst hq
      rw [if_pos rfl, Buf.decr, ← hw.lock q b, hact]
      rfl
    · rw [if_neg hq]
      exact hw.lock q b

theorem bgetScan_spec {c : Cache} {l : List (Fin nbuf)} (hall : ∀ b, b ∈ l) (hcirc : c.links.Circular l)
    (dev blockno : UInt32) :
    match bgetScan c dev blockno with
    | .cached b => (c.buf b).dev = dev ∧ (c.buf b).blockno = blockno
    | .recycled b => (c.buf b).refcnt = 0 ∧
        ∀ b', ¬ ((c.buf b').dev = dev ∧ (c.buf b').blockno = blockno)
    | .noBuffers => ∀ b', (c.buf b').refcnt ≠ 0
    | .loops => False := by
  have hlen : l.length < nbuf + 1 := by
    have := List.Nodup.length_le_card hcirc.1
    simp only [Fintype.card_fin] at this
    omega
  unfold bgetScan
  rw [hcirc.walk_next _ hlen, hcirc.walk_prev _ hlen]
  cases hfind : l.find? fun b => (c.buf b).dev = dev ∧ (c.buf b).blockno = blockno with
  | some b => simpa using List.find?_some hfind
  | none =>
      have hnone : ∀ b', ¬ ((c.buf b').dev = dev ∧ (c.buf b').blockno = blockno) := fun b' => by
        simpa using List.find?_eq_none.mp hfind b' (hall b')
      cases hlast : l.reverse.find? fun b => (c.buf b).refcnt = 0 with
      | some b => exact ⟨by simpa using List.find?_some hlast, hnone⟩
      | none =>
          exact fun b' => by simpa using List.find?_eq_none.mp hlast b' (by simpa using hall b')

theorem share_acquiring (l : List (Fin nbuf)) (b b' : Fin nbuf) (asleep : Bool) :
    share l (.acquiring b asleep) b' = share l .idle b' + if b = b' then 1 else 0 := by
  simp [share, locksOf, Activity.owning, Activity.leaving, Activity.waiting]

theorem locksOf_acquiring (l : List (Fin nbuf)) (b b' : Fin nbuf) (asleep : Bool) :
    locksOf l (.acquiring b asleep) b' = locksOf l .idle b' := rfl

theorem Good.reference (hw : Good n w) (hp : p < n) (hact : w.act p = .idle) {f : Buf → Buf}
    (hid : ((f (w.cache.buf b)).dev = (w.cache.buf b).dev ∧
        (f (w.cache.buf b)).blockno = (w.cache.buf b).blockno) ∨
      ∀ b', ¬ ((w.cache.buf b').dev = (f (w.cache.buf b)).dev ∧
        (w.cache.buf b').blockno = (f (w.cache.buf b)).blockno))
    (hrefcnt : (f (w.cache.buf b)).refcnt = UInt32.ofNat (w.refs n b + 1))
    (hsame : (f (w.cache.buf b)).locked = (w.cache.buf b).locked ∧
      (f (w.cache.buf b)).pid = (w.cache.buf b).pid)
    (hvalid : (f (w.cache.buf b)).valid = true → (w.cache.buf b).valid = true) :
    Good n { w with
      cache := w.cache.modify b f
      act := update w.act p (.acquiring b false) } := by
  refine hw.change hp rfl (update_eq_self _ _).symm rfl hw.ring hid (fun _ _ => rfl)
    (fun b' hb' => ?_) (fun b' _ => by rw [hact]; rfl) (fun r hr => ?_) (fun q => ?_)
    (fun b' h => by simp at h) (fun h => .inl (hvalid h)) hw.loops
  · rw [share_acquiring, hact, if_neg hb'.symm, Nat.add_zero]
  · rw [share_acquiring, hact, if_pos rfl] at hr
    rw [hrefcnt]
    congr 1
    simp only at hr
    omega
  · rw [hsame.1, hsame.2, ← hw.lock q b]
    by_cases hq : q = p
    · subst hq
      rw [if_pos rfl, locksOf_acquiring, ← hact]
    · rw [if_neg hq]

theorem Good.refcnt_toNat (hw : Good n w) (hsmall : w.Small n) (b : Fin nbuf) :
    (w.cache.buf b).refcnt.toNat = w.refs n b := by
  rw [hw.count b, UInt32.toNat_ofNat_of_lt' (hsmall b)]

theorem Good.bget (hw : Good n w) (hsmall : w.Small n) (hp : p < n) (hact : w.act p = .idle)
    (dev blockno : UInt32) : Good n (w.bget p dev blockno) := by
  obtain ⟨l, hall, hcirc⟩ := hw.ring
  have hspec := bgetScan_spec hall hcirc dev blockno
  unfold World.bget
  cases hscan : bgetScan w.cache dev blockno with
  | cached b =>
      refine hw.reference hp hact (.inl ⟨rfl, rfl⟩) ?_ ⟨rfl, rfl⟩ id
      rw [UInt32.ofNat_add, ← hw.count b]
      rfl
  | recycled b =>
      rw [hscan] at hspec
      obtain ⟨hzero, hfresh⟩ := hspec
      have hrefs := hw.refcnt_toNat hsmall b
      rw [hzero] at hrefs
      refine hw.reference hp hact (.inr hfresh) ?_ ⟨rfl, rfl⟩ fun h => ?_
      · rw [← hrefs]
        rfl
      · cases h
  | noBuffers => exact ⟨hw.ring, hw.unique, hw.count, hw.lock, hw.fill, by simp⟩
  | loops =>
      rw [hscan] at hspec
      exact hspec.elim

theorem Good.pin (hw : Good n w) (hp : p < n) (hact : w.act p = .idle) {f : Buf → Buf} {k r : Nat}
    (hk : r + w.pins b = w.refs n b + k)
    (hf : f (w.cache.buf b) = { w.cache.buf b with refcnt := UInt32.ofNat r }) :
    Good n { w with cache := w.cache.modify b f, pins := update w.pins b k } := by
  refine hw.change (a := .idle) hp (by rw [← hact, update_eq_self]) (update_eq_self _ _).symm
    (congrArg (update w.cache.buf b) hf) hw.ring (.inl ⟨rfl, rfl⟩) (fun b' hb' => update_of_ne hb' _ _)
    (fun b' _ => by rw [hact]) (fun b' _ => by rw [hact]) (fun r' hr => ?_) (fun q => ?_)
    (fun b' h => by simp at h) (fun h => .inl h) hw.loops
  · simp only [update_self, hact] at hr
    obtain rfl : r = r' := by omega
    rfl
  · rw [← hw.lock q b]
    by_cases hq : q = p
    · rw [if_pos hq, hq, hact]
    · rw [if_neg hq]

theorem Good.brelse (hw : Good n w) (hp : p < n) (hact : w.act p = .idle)
    (hheld : (w.cache.buf b).locked = true ∧ (w.cache.buf b).pid = p) :
    Good n { w with
      act := update w.act p (.releasing b)
      held := update w.held p ((w.held p).erase b) } := by
  have hmine := hw.lock p b
  rw [if_pos hheld, hact] at hmine
  have hcount : (w.held p).count b = 1 := hmine
  have hlocks : ∀ b', locksOf ((w.held p).erase b) (.releasing b) b' =
      locksOf (w.held p) (w.act p) b' := by
    intro b'
    rw [hact]
    by_cases hb' : b' = b
    · simp [locksOf, Activity.owning, hb', hcount]
    · simp [locksOf, Activity.owning, List.count_erase_of_ne hb', Ne.symm hb']
  refine hw.stay (b := b) hp rfl rfl (update_eq_self _ _).symm rfl rfl rfl ⟨rfl, rfl, rfl⟩ ⟨rfl, rfl⟩
    (fun b' => ?_) hlocks (fun b' h => by simp at h) fun h => .inl h
  rw [share, share, hlocks b', hact]
  rfl

end Steps

/-! ### Runs -/

/-- A `bunpin` has a `bpin` before it. A `brelse` without a `bread` panics. -/
def Event.Matched (w : World) : Event → Prop
  | .bunpin _ b => 0 < w.pins b
  | _ => True

theorem Cache.modify_eq_self {c : Cache} {b : Fin nbuf} {f : Buf → Buf} (hf : f (c.buf b) = c.buf b) :
    c.modify b f = c := by
  rw [modify, hf, update_eq_self]

section Step

variable {n p : Nat} {w : World}

theorem Good.run (hw : Good n w) (hp : p < n) : Good n (w.run p) := by
  unfold World.run
  split
  · rename_i b hact
    exact hw.acquiresleep hp hact
  · rename_i b hact
    split
    · rename_i hvalid
      have hsame : w.cache.modify b (fun buf => { buf with valid := true }) = w.cache :=
        Cache.modify_eq_self (by rw [← hvalid])
      have hret := hw.ret hp (.inl hact)
      rwa [hsame] at hret
    · rename_i hvalid
      refine hw.stay (b := b) hp rfl (update_eq_self _ _).symm (update_eq_self _ _).symm rfl rfl rfl
        ⟨rfl, rfl, rfl⟩ ⟨rfl, rfl⟩ (fun b' => by rw [hact]; rfl) (fun b' => by rw [hact]; rfl)
        (fun b' h => ?_) fun h => .inl h
      simp only [Activity.filling.injEq, reduceCtorEq, or_false] at h
      exact ⟨h.symm, by simpa using hvalid⟩
  · rename_i b hact
    exact hw.ret hp (.inr hact)
  · rename_i b hact
    exact hw.releasesleep hp hact
  · rename_i b hact
    exact hw.drop hp hact
  · exact hw

theorem Good.fill_data (hw : Good n w) (hp : p < n) {b : Fin nbuf} (hact : w.act p = .filling b)
    (data : Nat → UInt8) :
    Good n { w with
      cache := w.cache.modify b fun buf => { buf with data := data }
      act := update w.act p (.filled b) } := by
  refine hw.stay (b := b) hp rfl (update_eq_self _ _).symm rfl rfl rfl rfl ⟨rfl, rfl, rfl⟩ ⟨rfl, rfl⟩
    (fun b' => by rw [hact]; rfl) (fun b' => by rw [hact]; rfl) (fun b' h => ?_) fun h => .inl h
  simp only [Activity.filled.injEq, reduceCtorEq, false_or] at h
  exact ⟨h.symm, hw.fill p b (.inl hact)⟩

theorem Good.write (hw : Good n w) (hp : p < n) (hact : w.act p = .idle) (b : Fin nbuf)
    (data : Nat → UInt8) :
    Good n { w with cache := w.cache.modify b fun buf => { buf with data := data } } :=
  hw.stay (a := .idle) hp (by rw [← hact, update_eq_self]) (update_eq_self _ _).symm rfl rfl rfl rfl
    ⟨rfl, rfl, rfl⟩ ⟨rfl, rfl⟩ (fun b' => by rw [hact]) (fun b' => by rw [hact])
    (fun b' h => by simp at h) fun h => .inl h

theorem Good.call (hw : Good n w) (hsmall : w.Small n) {e : Event} (hp : e.proc < n)
    (hmatch : e.Matched w) (hact : w.act e.proc = .idle) : Good n (w.call e) := by
  cases e with
  | bread p dev blockno => exact hw.bget hsmall hp hact dev blockno
  | write p b data =>
      change Good n (if b ∈ w.held p then _ else w)
      split
      · exact hw.write hp hact b data
      · exact hw
  | brelse p b =>
      change Good n (if (w.cache.buf b).locked = true ∧ (w.cache.buf b).pid = p then _ else _)
      split
      · rename_i hheld
        exact hw.brelse hp hact hheld
      · exact ⟨hw.ring, hw.unique, hw.count, hw.lock, hw.fill, by simp⟩
  | bpin p b =>
      refine hw.pin (r := w.refs n b + 1) hp hact (by omega) ?_
      rw [UInt32.ofNat_add, ← hw.count b]
      rfl
  | bunpin p b =>
      have hpos : 0 < w.pins b := hmatch
      have hrefs : w.refs n b = w.refs n b - 1 + 1 := by
        simp only [World.refs]
        omega
      refine hw.pin (r := w.refs n b - 1) hp hact (by omega) ?_
      have hsub : UInt32.ofNat (w.refs n b - 1) = (w.cache.buf b).refcnt - 1 := by
        rw [hw.count b]
        nth_rewrite 2 [hrefs]
        rw [UInt32.ofNat_add]
        simp
      rw [hsub]
      rfl
  | run p => exact hw
  | disk p data => exact hw
  | kill p => exact hw

theorem step_good (hw : Good n w) (hsmall : w.Small n) {e : Event} (hp : e.proc < n)
    (hmatch : e.Matched w) : Good n (step w e) := by
  unfold step
  split
  · exact hw
  · split
    · exact hw.run hp
    · split
      · rename_i hact
        exact hw.fill_data hp hact _
      · exact hw
    · split
      · rename_i b asleep hact
        exact hw.reacquire hp hact false
      · exact hw
    · split
      · rename_i hact
        exact hw.call hsmall hp hmatch hact
      · exact hw

end Step

/-- Any run of `n` processes after `binit`, through worlds with the property `ok`. -/
inductive Run (n : Nat) (ok : World → Prop) : World → Prop where
  | start (links : Links (Fin nbuf)) : Run n ok (World.start links)
  | step {w : World} {e : Event} (hrun : Run n ok w) (hok : ok w) (hp : e.proc < n)
      (hmatch : e.Matched w) : Run n ok (step w e)

theorem binit_links (l : List (Fin nbuf)) (c : Cache) :
    (l.foldl (fun c b => { c.modify b initsleeplock with links := c.links.pushFront b }) c).links =
      l.foldl Links.pushFront c.links := by
  induction l generalizing c with
  | nil => rfl
  | cons b l ih => exact ih _

theorem binit_buf (l : List (Fin nbuf)) (c : Cache) (hbuf : ∀ b, initsleeplock (c.buf b) = c.buf b) :
    (l.foldl (fun c b => { c.modify b initsleeplock with links := c.links.pushFront b }) c).buf =
      c.buf := by
  induction l generalizing c with
  | nil => rfl
  | cons b l ih =>
      have hsame : (c.modify b initsleeplock).buf = c.buf := by
        rw [Cache.modify_eq_self (hbuf b)]
      exact (ih _ fun b' => by simp only [hsame, hbuf b']).trans hsame

theorem start_good (n : Nat) (links : Links (Fin nbuf)) : Good n (World.start links) := by
  have hbuf : (World.start links).cache.buf = fun _ => .zero := binit_buf _ _ fun _ => rfl
  have hring : (World.start links).cache.links.Circular ((List.finRange nbuf).reverse ++ []) := by
    simp only [World.start, binit, binit_links]
    refine (Links.circular_nil ?_ ?_).foldl_pushFront ?_
    · simp
    · simp
    · simpa using List.nodup_finRange nbuf
  refine ⟨⟨_, fun b => by simp, hring⟩, fun b b' _ _ hne => ?_, fun b => ?_, fun p b => ?_,
    fun p b h => ?_, by simp [World.start]⟩
  · rw [hbuf] at hne
    exact absurd rfl hne
  · rw [hbuf]
    simp [World.refs, World.start, Buf.zero, share, locksOf, Activity.owning, Activity.leaving, Activity.waiting]
  · rw [hbuf]
    simp [World.start, Buf.zero, locksOf, Activity.owning]
  · rw [hbuf]
    rfl

theorem Run.good {n : Nat} {w : World} (hrun : Run n (World.Small n) w) : Good n w := by
  induction hrun with
  | start links => exact start_good n links
  | step _ hok hp hmatch ih => exact step_good ih hok hp hmatch

/-! ### Buffers that are referred to -/

def World.Holds (w : World) (p : Nat) (b : Fin nbuf) : Prop :=
  b ∈ w.held p ∨ (w.act p).owning = some b

structure Buf.Keeps (old new : Buf) : Prop where
  dev : new.dev = old.dev
  blockno : new.blockno = old.blockno
  valid : old.valid = true → new.valid = true
  data : old.valid = true → new.data = old.data

theorem Buf.Keeps.refl (buf : Buf) : buf.Keeps buf := ⟨rfl, rfl, id, fun _ => rfl⟩

theorem keeps_of_update {c c' : Cache} {b : Fin nbuf} {nb : Buf} (hbuf : c'.buf = update c.buf b nb)
    (hnb : (c.buf b).Keeps nb) (b' : Fin nbuf) : (c.buf b').Keeps (c'.buf b') := by
  rw [hbuf]
  by_cases hb : b' = b
  · subst hb
    rwa [update_self]
  · rw [update_of_ne hb]
    exact .refl _

section Keeps

variable {n p : Nat} {w : World} {b : Fin nbuf}

theorem Good.holds_lock (hw : Good n w) (hholds : w.Holds p b) :
    (w.cache.buf b).locked = true ∧ (w.cache.buf b).pid = p := by
  by_contra hnot
  have hzero := hw.lock p b
  rw [if_neg hnot, locksOf] at hzero
  rcases hholds with hmem | howning
  · have := List.count_pos_iff.mpr hmem
    omega
  · rw [if_pos howning] at hzero
    omega

theorem Good.bget_keeps (hw : Good n w) (hsmall : w.Small n) (dev blockno : UInt32)
    (hrefs : 0 < w.refs n b) :
    (w.cache.buf b).Keeps ((w.bget p dev blockno).cache.buf b) := by
  obtain ⟨l, hall, hcirc⟩ := hw.ring
  have hspec := bgetScan_spec hall hcirc dev blockno
  unfold World.bget
  cases hscan : bgetScan w.cache dev blockno with
  | cached b' =>
      refine keeps_of_update rfl ?_ b
      exact ⟨rfl, rfl, id, fun _ => rfl⟩
  | recycled b' =>
      rw [hscan] at hspec
      have hne : b ≠ b' := by
        rintro rfl
        have := hw.refcnt_toNat hsmall b
        rw [hspec.1] at this
        simp only [UInt32.toNat_zero] at this
        omega
      simp only [Cache.modify, update_of_ne hne]
      exact .refl _
  | noBuffers => exact .refl _
  | loops => exact .refl _

theorem World.run_keeps : (w.cache.buf b).Keeps ((w.run p).cache.buf b) := by
  unfold World.run
  split
  · simp only [World.acquiresleep]
    split
    · exact .refl _
    · refine keeps_of_update rfl ?_ b
      exact ⟨rfl, rfl, id, fun _ => rfl⟩
  · split
    · exact .refl _
    · exact .refl _
  · refine keeps_of_update rfl ?_ b
    exact ⟨rfl, rfl, fun _ => rfl, fun _ => rfl⟩
  · refine keeps_of_update rfl ?_ b
    exact ⟨rfl, rfl, id, fun _ => rfl⟩
  · have hdrop : ∀ b', (w.cache.drop b').buf = (w.cache.modify b' Buf.decr).buf := fun b' => by
      simp only [Cache.drop]
      split <;> rfl
    simp only [hdrop]
    refine keeps_of_update rfl ?_ b
    exact ⟨rfl, rfl, id, fun _ => rfl⟩
  · exact .refl _

theorem Good.call_keeps (hw : Good n w) (hsmall : w.Small n) (hrefs : 0 < w.refs n b) (e : Event) :
    (w.cache.buf b).Keeps ((w.call e).cache.buf b) ∨
      ∃ p data, e = .write p b data ∧ b ∈ w.held p ∧
        (w.call e).cache.buf b = { w.cache.buf b with data := data } := by
  cases e with
  | bread p dev blockno => exact .inl (hw.bget_keeps hsmall dev blockno hrefs)
  | write p b' data =>
      by_cases hheld : b' ∈ w.held p
      · simp only [World.call, if_pos hheld]
        by_cases hb : b = b'
        · subst hb
          exact .inr ⟨p, data, rfl, hheld, by simp only [Cache.modify, update_self]⟩
        · simp only [Cache.modify, update_of_ne hb]
          exact .inl (.refl _)
      · simp only [World.call, if_neg hheld]
        exact .inl (.refl _)
  | brelse p b' =>
      simp only [World.call]
      split
      · exact .inl (.refl _)
      · exact .inl (.refl _)
  | bpin p b' =>
      refine .inl (keeps_of_update rfl ?_ b)
      exact ⟨rfl, rfl, id, fun _ => rfl⟩
  | bunpin p b' =>
      refine .inl (keeps_of_update rfl ?_ b)
      exact ⟨rfl, rfl, id, fun _ => rfl⟩
  | run p => exact .inl (.refl _)
  | disk p data => exact .inl (.refl _)
  | kill p => exact .inl (.refl _)

/-- A buffer that is referred to stays what it is. Its data is changed by its holder only. -/
theorem Good.step_keeps (hw : Good n w) (hsmall : w.Small n) (hrefs : 0 < w.refs n b) (e : Event) :
    (w.cache.buf b).Keeps ((step w e).cache.buf b) ∨
      ∃ p data, e = .write p b data ∧ b ∈ w.held p ∧
        (step w e).cache.buf b = { w.cache.buf b with data := data } := by
  unfold step
  split
  · exact .inl (.refl _)
  · split
    · exact .inl World.run_keeps
    · split
      · rename_i b' hact
        refine .inl (keeps_of_update rfl ?_ b)
        have hinvalid := hw.fill _ b' (.inl hact)
        refine ⟨rfl, rfl, id, fun h => ?_⟩
        rw [hinvalid] at h
        cases h
      · exact .inl (.refl _)
    · split
      · exact .inl (.refl _)
      · exact .inl (.refl _)
    · split
      · exact hw.call_keeps hsmall hrefs _
      · exact .inl (.refl _)

end Keeps

/-- The representation of the cache in every run in which no `refcnt` runs over. -/
theorem buffer_cache (n : Nat) (w : World) (hrun : Run n (World.Small n) w) (hsmall : w.Small n) :
    (∃ l, (∀ b, b ∈ l) ∧ w.cache.links.Circular l) ∧
    (∀ b b', (w.cache.buf b).dev = (w.cache.buf b').dev →
      (w.cache.buf b).blockno = (w.cache.buf b').blockno → 1 ≤ (w.cache.buf b).dev → b = b') ∧
    (∀ b, (w.cache.buf b).refcnt.toNat = w.holders n b + w.waiters n b + w.pins b) ∧
    (∀ b e, 0 < (w.cache.buf b).refcnt →
      ((step w e).cache.buf b).dev = (w.cache.buf b).dev ∧
        ((step w e).cache.buf b).blockno = (w.cache.buf b).blockno) ∧
    (∀ p q b b', w.Holds p b → w.Holds q b' → (w.cache.buf b).dev = (w.cache.buf b').dev →
      (w.cache.buf b).blockno = (w.cache.buf b').blockno → 1 ≤ (w.cache.buf b).dev →
      b = b' ∧ p = q) ∧
    (∀ b e, 0 < w.pins b → (w.cache.buf b).valid = true →
      ((step w e).cache.buf b).valid = true ∧
        (((step w e).cache.buf b).data = (w.cache.buf b).data ∨
          ∃ p data, e = .write p b data ∧ w.Holds p b ∧ ((step w e).cache.buf b).data = data)) ∧
    w.halt ≠ some .loops := by
  have hw := hrun.good
  have hunique : ∀ b b', (w.cache.buf b).dev = (w.cache.buf b').dev →
      (w.cache.buf b).blockno = (w.cache.buf b').blockno → 1 ≤ (w.cache.buf b).dev → b = b' :=
    fun b b' hdev hblk hone => hw.unique b b' hdev hblk fun hzero => by
      rw [hzero] at hone
      exact absurd hone (by decide)
  refine ⟨hw.ring, hunique, fun b => ?_, fun b e hpos => ?_, fun p q b b' hb hb' hdev hblk hone => ?_,
    fun b e hpins hvalid => ?_, hw.loops⟩
  · rw [hw.refcnt_toNat hsmall b, World.refs_eq]
  · have hrefs : 0 < w.refs n b := by
      rw [← hw.refcnt_toNat hsmall b]
      exact hpos
    rcases hw.step_keeps hsmall hrefs e with hkeeps | ⟨p, data, -, -, heq⟩
    · exact ⟨hkeeps.dev, hkeeps.blockno⟩
    · rw [heq]
      exact ⟨rfl, rfl⟩
  · obtain rfl := hunique b b' hdev hblk hone
    exact ⟨rfl, (hw.holds_lock hb).2.symm.trans (hw.holds_lock hb').2⟩
  · have hrefs : 0 < w.refs n b := by
      simp only [World.refs]
      omega
    rcases hw.step_keeps hsmall hrefs e with hkeeps | ⟨p, data, he, hheld, heq⟩
    · exact ⟨hkeeps.valid hvalid, .inl (hkeeps.data hvalid)⟩
    · rw [heq]
      exact ⟨hvalid, .inr ⟨p, data, he, .inl hheld, rfl⟩⟩

def noLinks : Links (Fin nbuf) := { next := fun _ => none, prev := fun _ => none }

def shared : World := step (step (World.start noLinks) (.bread 0 1 7)) (.bread 1 1 7)

theorem buffer_cache_shared :
    (shared.cache.buf ⟨0, by decide⟩).refcnt.toNat = shared.holders 2 ⟨0, by decide⟩ +
      shared.waiters 2 ⟨0, by decide⟩ + shared.pins ⟨0, by decide⟩ ∧
    shared.waiters 2 ⟨0, by decide⟩ = 2 := by
  have hstart : ∀ b, (World.start noLinks).refs 2 b < 2 ^ 32 := by decide +kernel
  have hone : ∀ b, (step (World.start noLinks) (.bread 0 1 7)).refs 2 b < 2 ^ 32 := by decide +kernel
  have htwo : ∀ b, shared.refs 2 b < 2 ^ 32 := by decide +kernel
  have hrun : Run 2 (World.Small 2) shared :=
    .step (e := .bread 1 1 7) (.step (e := .bread 0 1 7) (.start noLinks) hstart (by decide) trivial)
      hone (by decide) trivial
  exact ⟨(buffer_cache 2 shared hrun htwo).2.2.1 _, by decide +kernel⟩

/-! A machine word can count to 2³² - 1 only. -/

theorem run_foldl {n : Nat} {w : World} (hrun : Run n (fun _ => True) w) (events : List Event)
    (hevents : ∀ e ∈ events, e.proc < n ∧ ∀ w, e.Matched w) :
    Run n (fun _ => True) (events.foldl step w) := by
  induction events generalizing w with
  | nil => exact hrun
  | cons e events ih =>
      obtain ⟨hp, hmatch⟩ := hevents e (by simp)
      exact ih (.step hrun trivial hp (hmatch w)) fun e' he' => hevents e' (by simp [he'])

theorem foldl_bpin (k : Nat) {w : World} (hhalt : w.halt = none) (hact : w.act 0 = .idle)
    (b : Fin nbuf) : (List.replicate k (.bpin 0 b)).foldl step w =
      { w with
        cache := w.cache.modify b fun buf => { buf with refcnt := buf.refcnt + UInt32.ofNat k }
        pins := update w.pins b (w.pins b + k) } := by
  induction k generalizing w with
  | zero =>
      have hsame : w.cache.modify b (fun buf => { buf with refcnt := buf.refcnt + UInt32.ofNat 0 }) =
          w.cache := Cache.modify_eq_self (by simp)
      simp only [List.replicate_zero, List.foldl_nil, hsame, Nat.add_zero, update_eq_self]
  | succ k ih =>
      have hstep : step w (.bpin 0 b) =
          { w with cache := w.cache.modify b Buf.incr, pins := update w.pins b (w.pins b + 1) } := by
        simp only [step, Event.proc, World.call, hhalt, hact, ne_eq, not_true, if_false, if_true]
      rw [List.replicate_succ, List.foldl_cons, hstep, ih (by exact hhalt) (by exact hact)]
      simp only [Cache.modify, update_self, update_idem, Buf.incr, UInt32.add_assoc, Nat.add_assoc,
        Nat.add_comm k 1, UInt32.ofNat_add]
      rfl

def holder : World :=
  [.bread 0 1 7, .run 0, .run 0, .disk 0 fun _ => 0, .run 0].foldl step (World.start noLinks)

/-- The holder pins the buffer until `refcnt` is 0. The next `bread` recycles it. -/
theorem buffer_cache_overrun : ∃ w b, Run 1 (fun _ => True) w ∧ w.Holds 0 b ∧ 0 < w.pins b ∧
    (w.cache.buf b).refcnt.toNat ≠ w.holders 1 b + w.waiters 1 b + w.pins b ∧
    (w.cache.buf b).blockno = 7 ∧ ((step w (.bread 0 1 8)).cache.buf b).blockno = 8 := by
  have hhalt : holder.halt = none := by decide +kernel
  have hact : holder.act 0 = .idle := by decide +kernel
  have hrun : Run 1 (fun _ => True) holder :=
    run_foldl (.start noLinks) _ (by simp [Event.proc, Event.Matched])
  have hpins := run_foldl hrun (List.replicate (2 ^ 32 - 1) (.bpin 0 ⟨0, by decide⟩)) (by
    intro e he
    rw [List.eq_of_mem_replicate he]
    exact ⟨by decide, fun _ => trivial⟩)
  rw [foldl_bpin _ hhalt hact] at hpins
  refine ⟨_, ⟨0, by decide⟩, hpins, .inl ?_, ?_, ?_, ?_, ?_⟩
  · decide +kernel
  · decide +kernel
  · decide +kernel
  · decide +kernel
  · decide +kernel

end Xv6Mmap.Bio
