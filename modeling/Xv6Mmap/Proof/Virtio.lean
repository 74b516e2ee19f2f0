import Mathlib.Data.Finset.Card
import Xv6Mmap.Lib.Pool
import Xv6Mmap.Lib.Ring
import Xv6Mmap.Lib.Wp
import Xv6Mmap.Virtio

/-!
# Every request is completed once

The descriptors are free or belong to one request. A request goes from `avail` to the device, from
there to `used`, and on to the process that made it, and is nowhere twice. So the handler sees each
completion once, and a process returns when its own request has been completed.
-/

namespace Xv6Mmap.Virtio

open Sequential Ring

def slot (request : Nat → Option Request) (x : Nat × Nat) : Option Nat :=
  (request x.1).bind fun r => r.chain[x.2]?

def World.At (w : World) (s : Stage) (h : Nat) : Prop := ∃ r, w.request h = some r ∧ r.stage = s

def Activity.buf : Activity → Option Nat
  | .idle => none
  | .allocating b _ | .waiting b _ => some b

structure Formatted (desc : Nat → Desc) (h i j : Nat) : Prop where
  first : (desc h).hasNext = true ∧ (desc h).next = i
  second : (desc i).hasNext = true ∧ (desc i).next = j
  third : (desc j).hasNext = false ∧ (desc j).addr = .status h

theorem Formatted.congr {desc desc' : Nat → Desc} {h i j : Nat} (hfmt : Formatted desc h i j)
    (hh : desc' h = desc h) (hi : desc' i = desc i) (hj : desc' j = desc j) :
    Formatted desc' h i j :=
  ⟨hh ▸ hfmt.first, hi ▸ hfmt.second, hj ▸ hfmt.third⟩

structure Core (w : World) : Prop where
  pool : Pool.Exact {i | i < num} (fun i => !w.free i) (slot w.request) ∅
  chain : ∀ h r, w.request h = some r → ∃ i j, r.chain = [h, i, j] ∧ Formatted w.desc h i j
  info : ∀ h r, w.request h = some r → (w.info h).b = some r.buf
  caller : ∀ h r, w.request h = some r → w.proc r.caller = .waiting r.buf h
  waiting : ∀ p b h, w.proc p = .waiting b h → ∃ r, w.request h = some r ∧ r.caller = p
  distinct : ∀ p q b, (w.proc p).buf = some b → (w.proc q).buf = some b → p = q
  id_lt : ∀ h r, w.request h = some r → r.id < w.births
  id_unique : ∀ h h' r r', w.request h = some r → w.request h' = some r' → r.id = r'.id → h = h'

structure Queues (w : World) : Prop where
  status : ∀ h, w.At .completed h → (w.info h).status = 0
  disk : ∀ b, (w.buf b).disk = true ↔
    ∃ h r, w.request h = some r ∧ r.buf = b ∧ r.stage ≠ .processed
  avail : ∃ l, Queued num w.avail.ring w.seen w.avail.idx l ∧ l.Nodup ∧
    ∀ h, h ∈ l ↔ w.At .published h
  pending : w.pending.Nodup ∧ ∀ h, h ∈ w.pending ↔ w.At .fetched h
  used : ∃ l, Queued num w.used.ring w.usedIdx w.used.idx l ∧ l.Nodup ∧
    (∀ h, h ∈ l ↔ w.At .completed h) ∧
    w.completed = w.processed ++ l.filterMap fun h => (w.request h).map Request.id
  completed : ∀ h r, w.request h = some r →
    (r.id ∈ w.completed ↔ r.stage = .completed ∨ r.stage = .processed)
  processed : ∀ h r, w.request h = some r → (r.id ∈ w.processed ↔ r.stage = .processed)
  old : ∀ id ∈ w.completed, id < w.births
  once : w.completed.Nodup
  returned : ∀ id ∈ w.returned, id ∈ w.processed

structure Inv (w : World) : Prop where
  core : Core w
  queues : Queues w
  halt : w.halt = none

theorem Queues.frame {w : World} (hq : Queues w) (free : Nat → Bool) (desc : Nat → Desc)
    (proc : Nat → Activity) (asleep : Nat → Bool) (handler : Bool) :
    Queues { w with
      free := free
      desc := desc
      proc := proc
      asleep := asleep
      handler := handler } where
  status := hq.status
  disk := hq.disk
  avail := hq.avail
  pending := hq.pending
  used := hq.used
  completed := hq.completed
  processed := hq.processed
  old := hq.old
  once := hq.once
  returned := hq.returned

/-- What a step from `w` to `t` may do to a process. -/
inductive Moves (w t : World) (p : Nat) : Prop
  | stays (same : t.proc p = w.proc p) (kept : ∀ b h r, w.proc p = .waiting b h →
      w.request h = some r → ∃ r', t.request h = some r' ∧ r'.id = r.id)
  | calls (b : Nat) (write : Bool) (before : w.proc p = .idle) (after : t.proc p = .allocating b write)
  | publishes (b : Nat) (write : Bool) (h : Nat) (r : Request) (before : w.proc p = .allocating b write)
      (after : t.proc p = .waiting b h) (request : t.request h = some r) (caller : r.caller = p)
      (buf : r.buf = b) (id : r.id = w.births)
  | returns (b h : Nat) (r : Request) (before : w.proc p = .waiting b h) (after : t.proc p = .idle)
      (request : w.request h = some r) (caller : r.caller = p) (buf : r.buf = b)
      (stage : r.stage = .processed) (returned : t.returned = w.returned ++ [r.id])

/-- What a step does to the requests that are under way: `b->disk` is cleared when the next round of
`virtio_disk_intr` sees a completion for `b`, and a process stops waiting when its request has been
processed. -/
structure Reaction (w t : World) : Prop where
  disk : ∀ b, (w.buf b).disk = true → (t.buf b).disk = true ∨
    ∃ h r, w.request h = some r ∧ r.buf = b ∧ r.stage = .completed ∧ t.processed = w.processed ++ [r.id]
  births : w.births ≤ t.births
  moves : ∀ p, Moves w t p

def Kept (w t : World) : Prop :=
  ∀ h r, w.request h = some r → ∃ r', t.request h = some r' ∧ r'.id = r.id

theorem Kept.of_eq {w t : World} (hrequest : t.request = w.request) : Kept w t :=
  fun _ r hr => ⟨r, hrequest ▸ hr, rfl⟩

theorem Moves.of_eq {w t : World} {p : Nat} (hproc : t.proc p = w.proc p) (hkept : Kept w t) :
    Moves w t p :=
  .stays hproc fun _ h r _ hr => hkept h r hr

theorem Reaction.of_eq {w t : World} (hbuf : t.buf = w.buf) (hproc : t.proc = w.proc)
    (hbirths : t.births = w.births) (hkept : Kept w t) : Reaction w t :=
  ⟨fun _ h => .inl (hbuf ▸ h), hbirths.ge, fun p => .of_eq (congrFun hproc p) hkept⟩

/-! ### Heads -/

section Heads

variable {w : World} {h h' : Nat} {r : Request} {s s' : Stage}

theorem World.At.unique (hat : w.At s h) (hat' : w.At s' h) : s = s' := by
  obtain ⟨r, hr, rfl⟩ := hat
  obtain ⟨r', hr', rfl⟩ := hat'
  rw [hr, Option.some.injEq] at hr'
  rw [hr']

theorem Core.slot_head (hw : Core w) (hr : w.request h = some r) : slot w.request (h, 0) = some h := by
  obtain ⟨i, j, hchain, -⟩ := hw.chain h r hr
  simp [slot, hr, hchain]

theorem Core.head_lt (hw : Core w) (hr : w.request h = some r) : h < num :=
  (hw.pool.owned _ h (hw.slot_head hr)).1

theorem Core.eq_of_buf (hw : Core w) {r' : Request} (hr : w.request h = some r)
    (hr' : w.request h' = some r') (hbuf : r.buf = r'.buf) : h = h' := by
  have hp := hw.caller h r hr
  have hp' := hw.caller h' r' hr'
  have heq := hw.distinct r.caller r'.caller r.buf (by rw [hp]; rfl) (by rw [hp', hbuf]; rfl)
  rw [heq, hp', Activity.waiting.injEq] at hp
  exact hp.2.symm

theorem length_lt_num {l : List Nat} (hw : Core w) (hl : l.Nodup) (hmem : ∀ h ∈ l, w.At s h)
    (hh : h < num) (hnew : h ∉ l) : l.length < num := by
  have hsub : (h :: l).toFinset ⊆ Finset.range num := by
    intro x hx
    rcases List.mem_cons.mp (List.mem_toFinset.mp hx) with rfl | hx
    · exact Finset.mem_range.mpr hh
    · obtain ⟨r, hr, -⟩ := hmem x hx
      exact Finset.mem_range.mpr (hw.head_lt hr)
  have hcard := Finset.card_le_card hsub
  rw [List.toFinset_card_of_nodup (List.nodup_cons.mpr ⟨hnew, hl⟩), Finset.card_range] at hcard
  simpa [Nat.succ_le_iff] using hcard

end Heads

/-! ### A request comes to the next stage -/

section Stage

variable {w : World} {h h' : Nat} {r : Request} {s s' : Stage}

theorem setStage_self (hr : w.request h = some r) (s : Stage) :
    (w.setStage h s).request h = some { r with stage := s } := by
  simp [World.setStage, hr]

theorem setStage_of_ne (s : Stage) (hne : h' ≠ h) : (w.setStage h s).request h' = w.request h' :=
  upd_of_ne _ _ hne

theorem setStage_some {r' : Request} (hr : (w.setStage h s).request h' = some r') :
    ∃ r, w.request h' = some r ∧ r' = { r with stage := if h' = h then s else r.stage } := by
  by_cases hne : h' = h
  · subst hne
    simp only [World.setStage, upd_self, Option.map_eq_some_iff] at hr
    obtain ⟨r, hr, rfl⟩ := hr
    exact ⟨r, hr, by simp⟩
  · rw [setStage_of_ne s hne] at hr
    exact ⟨r', hr, by simp [hne]⟩

theorem kept_setStage (h : Nat) (s : Stage) : Kept w (w.setStage h s) := by
  intro h' r' hr'
  by_cases hne : h' = h
  · subst hne
    exact ⟨_, setStage_self hr' s, rfl⟩
  · exact ⟨r', (setStage_of_ne s hne).trans hr', rfl⟩

theorem slot_setStage (h : Nat) (s : Stage) : slot (w.setStage h s).request = slot w.request := by
  funext x
  by_cases hx : x.1 = h
  · simp only [slot, World.setStage, hx, upd_self, Option.bind_map]
    rfl
  · simp only [slot, setStage_of_ne s hx]

theorem Core.setStage (hw : Core w) (h : Nat) (s : Stage) : Core (w.setStage h s) where
  pool := by
    rw [slot_setStage]
    exact hw.pool
  chain := fun h' r' hr' => by
    obtain ⟨r, hr, rfl⟩ := setStage_some hr'
    exact hw.chain h' r hr
  info := fun h' r' hr' => by
    obtain ⟨r, hr, rfl⟩ := setStage_some hr'
    exact hw.info h' r hr
  caller := fun h' r' hr' => by
    obtain ⟨r, hr, rfl⟩ := setStage_some hr'
    exact hw.caller h' r hr
  waiting := fun p b h' hp => by
    obtain ⟨r, hr, hcaller⟩ := hw.waiting p b h' hp
    by_cases hne : h' = h
    · subst hne
      exact ⟨_, setStage_self hr s, hcaller⟩
    · exact ⟨r, by rw [setStage_of_ne s hne, hr], hcaller⟩
  distinct := hw.distinct
  id_lt := fun h' r' hr' => by
    obtain ⟨r, hr, rfl⟩ := setStage_some hr'
    exact hw.id_lt h' r hr
  id_unique := fun h1 h2 r1 r2 hr1 hr2 => by
    obtain ⟨r1', hr1', rfl⟩ := setStage_some hr1
    obtain ⟨r2', hr2', rfl⟩ := setStage_some hr2
    exact hw.id_unique h1 h2 r1' r2' hr1' hr2'

theorem at_setStage (hr : w.request h = some r) :
    (w.setStage h s).At s' h' ↔ if h' = h then s' = s else w.At s' h' := by
  by_cases hne : h' = h
  · subst hne
    simp only [World.At, setStage_self hr, Option.some.injEq, exists_eq_left', if_true]
    exact eq_comm
  · simp only [World.At, setStage_of_ne s hne, if_neg hne]

theorem live_setStage (hr : w.request h = some r) (hold : r.stage ≠ .processed)
    (hs : s ≠ .processed) (b : Nat) :
    (∃ h' r', (w.setStage h s).request h' = some r' ∧ r'.buf = b ∧ r'.stage ≠ .processed) ↔
      ∃ h' r', w.request h' = some r' ∧ r'.buf = b ∧ r'.stage ≠ .processed := by
  constructor
  · rintro ⟨h', r', hr', hbuf, hstage⟩
    obtain ⟨r0, hr0, rfl⟩ := setStage_some hr'
    refine ⟨h', r0, hr0, hbuf, ?_⟩
    by_cases hne : h' = h
    · subst hne
      rw [hr, Option.some.injEq] at hr0
      rwa [← hr0]
    · simpa [hne] using hstage
  · rintro ⟨h', r', hr', hbuf, hstage⟩
    by_cases hne : h' = h
    · subst hne
      rw [hr, Option.some.injEq] at hr'
      exact ⟨h', _, setStage_self hr s, by rw [hr', hbuf], hs⟩
    · exact ⟨h', r', by rw [setStage_of_ne s hne, hr'], hbuf, hstage⟩

theorem filterMap_setStage (h : Nat) (s : Stage) (l : List Nat) :
    (l.filterMap fun h' => ((w.setStage h s).request h').map Request.id) =
      l.filterMap fun h' => (w.request h').map Request.id := by
  congr 1
  funext h'
  by_cases hne : h' = h
  · subst hne
    simp [World.setStage, Function.comp_def]
  · rw [setStage_of_ne s hne]

theorem toNat_mod_num (x : UInt16) : (x % 8).toNat = x.toNat % num := UInt16.toNat_mod x 8

theorem num_dvd : num ∣ 2 ^ 16 := by decide

theorem Core.congr {w' : World} (hw : Core w) (hfree : w'.free = w.free) (hdesc : w'.desc = w.desc)
    (hreq : w'.request = w.request) (hinfo : ∀ h, (w'.info h).b = (w.info h).b)
    (hproc : w'.proc = w.proc) (hbirths : w'.births = w.births) : Core w' where
  pool := by
    rw [hfree, hreq]
    exact hw.pool
  chain := by
    rw [hreq, hdesc]
    exact hw.chain
  info := fun h r hr => by
    rw [hinfo]
    exact hw.info h r (hreq ▸ hr)
  caller := by
    rw [hreq, hproc]
    exact hw.caller
  waiting := by
    rw [hreq, hproc]
    exact hw.waiting
  distinct := by
    rw [hproc]
    exact hw.distinct
  id_lt := by
    rw [hreq, hbirths]
    exact hw.id_lt
  id_unique := by
    rw [hreq]
    exact hw.id_unique

section Moves

variable {l : List Nat} {s0 : Stage} (hr : w.request h = some r)

include hr

theorem mem_of_other (hmem : ∀ h', h' ∈ l ↔ w.At s0 h') (hold : r.stage ≠ s0) (hnew : s0 ≠ s)
    (h' : Nat) : h' ∈ l ↔ (w.setStage h s).At s0 h' := by
  rw [hmem h', at_setStage hr]
  by_cases hne : h' = h
  · subst hne
    rw [if_pos rfl]
    exact iff_of_false (fun hat => hold (World.At.unique ⟨r, hr, rfl⟩ hat)) hnew
  · rw [if_neg hne]

theorem mem_of_leave {l' : List Nat} (hmem : ∀ h', h' ∈ l ↔ w.At s0 h') (hnew : s0 ≠ s)
    (hl : ∀ h', h' ∈ l' ↔ h' ∈ l ∧ h' ≠ h) (h' : Nat) : h' ∈ l' ↔ (w.setStage h s).At s0 h' := by
  rw [hl h', hmem h', at_setStage hr]
  by_cases hne : h' = h
  · simp [hne, hnew]
  · simp [hne]

theorem mem_of_join {l' : List Nat} (hmem : ∀ h', h' ∈ l ↔ w.At s h')
    (hl : ∀ h', h' ∈ l' ↔ h' ∈ l ∨ h' = h) (h' : Nat) : h' ∈ l' ↔ (w.setStage h s).At s h' := by
  rw [hl h', hmem h', at_setStage hr]
  by_cases hne : h' = h
  · simp [hne]
  · simp [hne]

/-- The request has a fact about its stage, and the others keep theirs. -/
theorem forall_setStage {P : Nat → Request → Prop}
    (hold : ∀ h' ≠ h, ∀ r', w.request h' = some r' → P h' r')
    (hnew : P h { r with stage := s }) (h' : Nat) (r' : Request)
    (hr' : (w.setStage h s).request h' = some r') : P h' r' := by
  by_cases hne : h' = h
  · subst hne
    rw [setStage_self hr, Option.some.injEq] at hr'
    exact hr' ▸ hnew
  · rw [setStage_of_ne s hne] at hr'
    exact hold h' hne r' hr'

end Moves

theorem Inv.fetch (hw : Inv w) : Inv w.fetch := by
  unfold World.fetch
  split
  · exact hw
  · rename_i hne
    obtain ⟨hcore, hq, hhalt⟩ := hw
    obtain ⟨l, hqueue, hnodup, hmem⟩ := hq.avail
    cases l with
    | nil => exact absurd ((hqueue.eq_iff (by decide)).mpr rfl) hne
    | cons h l =>
        obtain ⟨hhead, hqueue'⟩ := hqueue.pop num_dvd
        obtain ⟨r, hr, hstage⟩ := (hmem h).mp (by simp)
        obtain ⟨hl, hnodup⟩ := List.nodup_cons.mp hnodup
        simp only [toNat_mod_num, hhead]
        have hpending : h ∉ w.pending := fun hin => by
          have := World.At.unique ⟨r, hr, hstage⟩ ((hq.pending.2 h).mp hin)
          cases this
        obtain ⟨lu, hused, hnodupu, hmemu, hcompleted⟩ := hq.used
        refine ⟨(hcore.setStage h .fetched).congr rfl rfl rfl (fun _ => rfl) rfl rfl,
          ⟨fun h' hat => hq.status h' ?_, fun b => ?_, ⟨l, hqueue', hnodup, ?_⟩, ⟨?_, ?_⟩,
            ⟨lu, hused, hnodupu, ?_, ?_⟩, ?_, ?_, hq.old, hq.once, hq.returned⟩, hhalt⟩
        · exact (hmemu h').mp ((mem_of_other hr hmemu (by simp [hstage]) (by simp) h').mpr hat)
        · exact (hq.disk b).trans (live_setStage hr (by simp [hstage]) (by simp) b).symm
        · exact mem_of_leave hr hmem (by simp) fun h' => by
            constructor
            · exact fun hin => ⟨List.mem_cons_of_mem _ hin, fun h => hl (h ▸ hin)⟩
            · exact fun hin => (List.mem_cons.mp hin.1).resolve_left hin.2
        · exact List.nodup_append.mpr ⟨hq.pending.1, List.nodup_singleton h, fun a ha b hb => by
            rw [List.mem_singleton.mp hb]
            exact fun h => hpending (h ▸ ha)⟩
        · exact mem_of_join hr hq.pending.2 fun h' => by simp
        · exact mem_of_other hr hmemu (by simp [hstage]) (by simp)
        · exact hcompleted.trans (congrArg _ (filterMap_setStage h .fetched lu).symm)
        · refine forall_setStage hr (fun h' _ => hq.completed h') ((hq.completed h r hr).trans ?_)
          simp [hstage]
        · refine forall_setStage hr (fun h' _ => hq.processed h') ((hq.processed h r hr).trans ?_)
          simp [hstage]

theorem Inv.complete (hw : Inv w) (h : Nat) : Inv (w.complete h) := by
  unfold World.complete
  split
  · rename_i hin
    obtain ⟨hcore, hq, hhalt⟩ := hw
    obtain ⟨r, hr, hstage⟩ := (hq.pending.2 h).mp hin
    obtain ⟨i, j, -, hfmt⟩ := hcore.chain h r hr
    obtain ⟨la, havail, hnodupa, hmema⟩ := hq.avail
    obtain ⟨lu, hused, hnodupu, hmemu, hcompleted⟩ := hq.used
    have hnotin : h ∉ lu := fun hin => by
      have := World.At.unique ⟨r, hr, hstage⟩ ((hmemu h).mp hin)
      cases this
    have hnew : r.id ∉ w.completed := fun hin => by
      have := (hq.completed h r hr).mp hin
      simp [hstage] at this
    have hlen := length_lt_num hcore hnodupu (fun h' hh' => (hmemu h').mp hh') (hcore.head_lt hr) hnotin
    simp only [hfmt.first.2, hfmt.second.2, hfmt.third.2, hr, Option.map_some, Option.toList_some]
    refine ⟨(hcore.setStage h .completed).congr rfl rfl rfl (fun h' => ?_) rfl rfl,
      ⟨fun h' hat => ?_, fun b => ?_, ⟨la, havail, hnodupa, ?_⟩, ⟨hq.pending.1.erase h, ?_⟩,
        ⟨lu ++ [h], hused.push num_dvd hlen ?_ fun k hk => ?_, ?_, ?_, ?_⟩, ?_, ?_, fun id hid => ?_, ?_,
        hq.returned⟩, hhalt⟩
    · by_cases hne : h' = h
      · subst hne
        simp [World.setStage]
      · simp [World.setStage, upd_of_ne _ _ hne]
    · by_cases hne : h' = h
      · subst hne
        simp
      · have hold : w.At .completed h' := by
          have hat' : (w.setStage h .completed).At .completed h' := hat
          rwa [at_setStage hr, if_neg hne] at hat'
        simpa [upd_of_ne _ _ hne] using hq.status h' hold
    · exact (hq.disk b).trans (live_setStage hr (by simp [hstage]) (by simp) b).symm
    · exact mem_of_other hr hmema (by simp [hstage]) (by simp)
    · exact mem_of_leave hr hq.pending.2 (by simp) fun h' => by
        rw [hq.pending.1.mem_erase_iff, and_comm]
    · rw [toNat_mod_num]
      exact upd_self _ _ _
    · rw [toNat_mod_num]
      exact upd_of_ne _ _ hk
    · exact List.nodup_append.mpr ⟨hnodupu, List.nodup_singleton h, fun a ha b hb => by
        rw [List.mem_singleton.mp hb]
        exact fun heq => hnotin (heq ▸ ha)⟩
    · exact mem_of_join hr hmemu fun h' => by simp
    · refine Eq.trans ?_ (congrArg (w.processed ++ ·) (filterMap_setStage h .completed _).symm)
      change w.completed ++ [r.id] = w.processed ++ _
      rw [List.filterMap_append, ← List.append_assoc, ← hcompleted]
      simp [hr]
    · refine forall_setStage hr (fun h' hne r' hr' => ?_) (by simp)
      have hid : r'.id ≠ r.id := fun heq => hne (hcore.id_unique h' h r' r hr' hr heq)
      simpa [hid] using hq.completed h' r' hr'
    · refine forall_setStage hr (fun h' _ => hq.processed h') ((hq.processed h r hr).trans ?_)
      simp [hstage]
    · rcases List.mem_append.mp hid with hid | hid
      · exact hq.old id hid
      · rw [List.mem_singleton.mp hid]
        exact hcore.id_lt h r hr
    · exact List.nodup_append.mpr ⟨hq.once, List.nodup_singleton _, fun a ha b hb => by
        rw [List.mem_singleton.mp hb]
        exact fun heq => hnew (heq ▸ ha)⟩
  · exact hw

theorem Core.cleared (hw : Core w) (hq : Queues w) (hr : w.request h = some r) (b : Nat) :
    (upd w.buf r.buf { w.buf r.buf with disk := false } b).disk = true ↔
      ∃ h' r', (w.setStage h .processed).request h' = some r' ∧ r'.buf = b ∧
        r'.stage ≠ .processed := by
  by_cases hb : b = r.buf
  · subst hb
    rw [upd_self]
    refine iff_of_false (by simp) ?_
    rintro ⟨h', r', hr', hbuf, hstage⟩
    obtain ⟨r0, hr0, rfl⟩ := setStage_some hr'
    obtain rfl := hw.eq_of_buf hr0 hr hbuf
    simp at hstage
  · rw [upd_of_ne _ _ hb, hq.disk b]
    constructor
    · rintro ⟨h', r', hr', hbuf, hstage⟩
      have hne : h' ≠ h := by
        rintro rfl
        rw [hr, Option.some.injEq] at hr'
        exact hb (by rw [hr', hbuf])
      exact ⟨h', r', by rw [setStage_of_ne _ hne, hr'], hbuf, hstage⟩
    · rintro ⟨h', r', hr', hbuf, hstage⟩
      obtain ⟨r0, hr0, rfl⟩ := setStage_some hr'
      have hne : h' ≠ h := by
        rintro rfl
        rw [hr, Option.some.injEq] at hr0
        exact hb (by rw [hr0, ← hbuf])
      exact ⟨h', r0, hr0, hbuf, by simpa [hne] using hstage⟩

theorem Inv.intrRound (hw : Inv w) :
    Wp intrRound (fun _ t => Inv t ∧ Reaction w t) (fun _ _ => False) w := by
  obtain ⟨hcore, hq, hhalt⟩ := hw
  obtain ⟨la, havail, hnodupa, hmema⟩ := hq.avail
  obtain ⟨lu, hused, hnodupu, hmemu, hcompleted⟩ := hq.used
  refine .get (.ite (fun _ => .of_ok rfl ⟨⟨hcore.congr rfl rfl rfl (fun _ => rfl) rfl rfl,
    hq.frame .., hhalt⟩, .of_eq rfl rfl rfl (.of_eq rfl)⟩) fun hne => ?_)
  cases lu with
  | nil => exact absurd ((hused.eq_iff (by decide)).mpr rfl) hne
  | cons h lu =>
      obtain ⟨hhead, hused'⟩ := hused.pop num_dvd
      obtain ⟨r, hr, hstage⟩ := (hmemu h).mp (by simp)
      obtain ⟨hl, hnodupu⟩ := List.nodup_cons.mp hnodupu
      have hids : w.completed = w.processed ++ [r.id] ++
          lu.filterMap fun h' => (w.request h').map Request.id := by
        rw [hcompleted, List.filterMap_cons, hr, List.append_assoc]
        rfl
      have hnew : r.id ∉ w.processed := fun hin => by
        have := (hq.processed h r hr).mp hin
        rw [hstage] at this
        cases this
      simp only [toNat_mod_num, hhead, hcore.info h r hr, hq.status h ⟨r, hr, hstage⟩, hr,
        Option.map_some, Option.toList_some]
      refine .ite (fun h => absurd rfl h) fun _ => .of_ok rfl ⟨⟨(hcore.setStage h .processed).congr
        rfl rfl rfl (fun _ => rfl) rfl rfl, ⟨fun h' hat => hq.status h' ?_, fun b => ?_,
          ⟨la, havail, hnodupa, ?_⟩, ⟨hq.pending.1, ?_⟩, ⟨lu, hused', hnodupu, ?_, ?_⟩, ?_, ?_, hq.old,
          hq.once, fun id hid => ?_⟩, hhalt⟩, fun b hb => ?_, le_rfl,
          fun _ => .of_eq rfl (kept_setStage h .processed)⟩
      · have hat' : (w.setStage h .processed).At .completed h' := hat
        rw [at_setStage hr] at hat'
        by_cases hne : h' = h
        · rw [if_pos hne] at hat'
          cases hat'
        · rwa [if_neg hne] at hat'
      · exact hcore.cleared hq hr b
      · exact mem_of_other hr hmema (by simp [hstage]) (by simp)
      · exact mem_of_other hr hq.pending.2 (by simp [hstage]) (by simp)
      · exact mem_of_leave hr hmemu (by simp) fun h' => by
          constructor
          · exact fun hin => ⟨List.mem_cons_of_mem _ hin, fun h => hl (h ▸ hin)⟩
          · exact fun hin => (List.mem_cons.mp hin.1).resolve_left hin.2
      · exact hids.trans (congrArg _ (filterMap_setStage h .processed lu).symm)
      · refine forall_setStage hr (fun h' _ => hq.completed h') ((hq.completed h r hr).trans ?_)
        simp [hstage]
      · refine forall_setStage hr (fun h' hne r' hr' => ?_) (by simp)
        have hid : r'.id ≠ r.id := fun heq => hne (hcore.id_unique h' h r' r hr' hr heq)
        simpa [hid] using hq.processed h' r' hr'
      · exact List.mem_append_left _ (hq.returned id hid)
      · by_cases hbuf : b = r.buf
        · exact .inr ⟨h, r, hr, hbuf.symm, hstage, rfl⟩
        · exact .inl ((congrArg Buf.disk (upd_of_ne _ _ hbuf)).trans hb)

end Stage

end Xv6Mmap.Virtio
