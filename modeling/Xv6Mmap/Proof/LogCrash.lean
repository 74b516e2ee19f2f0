import Xv6Mmap.Proof.Log

/-!
# A crash leaves no operation half done

The disk is at every moment one from which recovery gives the home blocks that the committed
transactions say. That is the condition the rules of `commit` and of `recover_from_log` keep at each
disk write, and the invariant of whole runs carries it from one step to the next.
-/

namespace Xv6Mmap

open Sequential (Wp)

def redo (start : Nat) (d : Nat → Block) : List (Nat × Block) :=
  Writes.upTo (fun i => d start (i + 1)) (fun i => d (start + i + 1)) (d start 0)

/-- Recovery from `d` gives `home` outside of the log. -/
structure Recoverable (l : Log) (home d : Nat → Block) : Prop where
  size : d l.start 0 < l.size
  blocks : ∀ i < d l.start 0, l.IsHome (d l.start (i + 1))
  outcome : ∀ b, l.IsHome b → Writes.apply (redo l.start d) d b = home b

variable {l : Log} {home d : Nat → Block}

theorem Recoverable.of_clean (hsize : 0 < l.size) (hclean : d l.start 0 = 0)
    (hhome : ∀ b, l.IsHome b → d b = home b) : Recoverable l home d where
  size := by omega
  blocks := fun i hi => by omega
  outcome := fun b hb => by
    rw [redo, hclean]
    exact hhome b hb

theorem Log.not_isHome_start {l : Log} (hsize : 0 < l.size) : ¬ l.IsHome l.start := by
  simp only [Log.IsHome]
  omega

theorem Log.not_isHome_slot {l : Log} {i : Nat} (hi : i + 1 < l.size) :
    ¬ l.IsHome (l.start + i + 1) := by
  simp only [Log.IsHome]
  omega

theorem Recoverable.apply_log (hrec : Recoverable l home d) {ws : List (Nat × Block)}
    (hws : ws ⊆ redo l.start d) {b : Nat} (hb : ¬ l.IsHome b) : Writes.apply ws d b = d b := by
  refine Writes.apply_of_notMem (fun w hw => ?_) d
  obtain ⟨i, hi, rfl⟩ := Writes.mem_upTo.mp (hws hw)
  intro heq
  exact hb (heq ▸ hrec.blocks i hi)

theorem redo_congr {start : Nat} {d d' : Nat → Block} (hhead : d' start = d start)
    (hslots : ∀ i < d start 0, d' (start + i + 1) = d (start + i + 1)) :
    redo start d' = redo start d := by
  rw [redo, redo, hhead]
  exact Writes.upTo_congr (fun _ _ => rfl) hslots

/-- Recovery may be cut off at any of its writes and start again. -/
theorem Recoverable.again (hrec : Recoverable l home d) {ws : List (Nat × Block)}
    (hws : ws ⊆ redo l.start d) : Recoverable l home (Writes.apply ws d) := by
  have hsize := hrec.size
  have hhead : Writes.apply ws d l.start = d l.start :=
    hrec.apply_log hws (Log.not_isHome_start (by omega))
  have hredo : redo l.start (Writes.apply ws d) = redo l.start d :=
    redo_congr hhead fun i hi => hrec.apply_log hws (Log.not_isHome_slot (by omega))
  refine ⟨by rwa [hhead], by rw [hhead]; exact hrec.blocks, fun b hb => ?_⟩
  rw [hredo, Writes.apply_apply_of_subset hws]
  exact hrec.outcome b hb

/-! ### Recovery -/

section Recovery

variable {s : LogState} {r : Nat → Nat} {pd : List LogWrite} {cm : List (List LogWrite)}
  {w : Bool}

/-- A state that a power cut left behind, from which recovery gives `home`; `cms` are the lists of
transactions that may have been committed by then. -/
structure Cut (l : Log) (home : List (List LogWrite) → Nat → Block)
    (cms : List (List (List LogWrite))) (e : Halt) (t : LogState) : Prop where
  power : e = .powerCut
  start : t.log.start = l.start
  size : t.log.size = l.size
  committed : t.committed ∈ cms
  disk : Recoverable l (home t.committed) t.disk

theorem Cut.of_view {home : List (List LogWrite) → Nat → Block} {cms : List (List (List LogWrite))}
    {t : LogState} {l' : Log} (hd : t.view.disk = d) (hl : t.view.log = l')
    (hc : t.view.committed = cm) (hstart : l'.start = l.start) (hsize : l'.size = l.size)
    (hmem : cm ∈ cms) (hrec : Recoverable l (home cm) d) : Cut l home cms .powerCut t := by
  subst hd hl hc
  exact ⟨rfl, hstart, hsize, hmem, hrec⟩

/-- What recovery leaves: the home blocks, an empty header and buffers that hold what the disk
holds. -/
structure Recovered (home : Nat → Block) (v : LogView) : Prop where
  clean : v.disk v.log.start 0 = 0
  home : ∀ b, v.log.IsHome b → v.disk b = home b
  cached : v.cached = v.disk
  empty : v.log.lh.n = 0

theorem recoverFromLog_wp {home : List (List LogWrite) → Nat → Block}
    (hv : s.view = ⟨d, d, r, l, pd, cm, w⟩) (hrec : Recoverable l (home cm) d) :
    Wp recoverFromLog (fun _ t => Recovered (home cm) t.view ∧ t.view.refcnt = r ∧
      t.view.pending = pd ∧ t.view.committed = cm ∧ ∃ lh, t.view.log = { l with lh := lh })
      (fun e t => w = false ∧ Cut l home [cm] e t) s := by
  refine .bind (readHead_wp hv fun t₁ h₁ => ?_)
  have hblock : ∀ i < d l.start 0, ((d l.start).header l.lh).block i = d l.start (i + 1) :=
    fun i hi => if_pos hi
  have hinstalls : ∀ k ≤ d l.start 0,
      LogView.installs ⟨d, d, r, { l with lh := (d l.start).header l.lh }, pd, cm, w⟩ k ⊆
        redo l.start d := fun k hk => by
    rw [LogView.installs, Writes.upTo_congr (fun i hi => hblock i (by omega)) fun _ _ => rfl]
    exact Writes.upTo_subset _ _ hk
  have hagain := fun k hk => hrec.again (hinstalls k hk)
  refine .bind (installTrans_wp h₁ ⟨hrec.size, fun i hi => ?_⟩ true (fun k hk t hd hl hc hw => ?_)
    fun t₂ h₂ => ?_)
  · exact (hblock i hi).symm ▸ hrec.blocks i hi
  · exact ⟨hw, .of_view hd hl hc rfl rfl (by simp) (hagain k hk.le)⟩
  · refine .bind (modifyLog_wp h₂ fun t₃ h₃ => writeHead_wp h₃ (fun t hd hl hc hw => ?_)
      fun t₄ h₄ => ?_)
    · exact ⟨hw, .of_view hd hl hc rfl rfl (by simp) (hagain _ le_rfl)⟩
    · rw [h₄]
      refine ⟨⟨?_, fun b hb => ?_, rfl, rfl⟩, rfl, rfl, rfl, _, rfl⟩
      · simp [LogHeader.words]
      · have hsize := hrec.size
        have hne : b ≠ l.start := fun h => Log.not_isHome_start (Nat.zero_lt_of_lt hsize) (h ▸ hb)
        show upd _ l.start _ b = _
        rw [upd_of_ne _ _ hne, ← hrec.outcome b hb]
        refine congrArg (fun ws => Writes.apply ws d b) ?_
        exact Writes.upTo_congr hblock fun _ _ => rfl

end Recovery

/-! ### Commit -/

def LogWrite.write (w : LogWrite) : Nat × Block := (w.blockno, w.data)

def applied (base : Nat → Block) (cm : List (List LogWrite)) : Nat → Block :=
  Writes.apply (cm.flatten.map LogWrite.write) base

theorem applied_concat (base : Nat → Block) (cm : List (List LogWrite)) (pd : List LogWrite) :
    applied base (cm ++ [pd]) = Writes.apply (pd.map LogWrite.write) (applied base cm) := by
  rw [applied, List.flatten_append, List.map_append, Writes.apply_append, List.flatten_singleton]
  rfl

/-- What `commit` finds: the disk holds the home blocks of the transactions before, and the cache
those of the one to be committed. -/
structure Ready (base : Nat → Block) (v : LogView) : Prop where
  fits : v.Fits
  distinct : ∀ i < v.log.lh.n, ∀ j < v.log.lh.n, v.log.lh.block i = v.log.lh.block j → i = j
  clean : v.disk v.log.start 0 = 0
  home : ∀ b, v.log.IsHome b → v.disk b = applied base v.committed b
  slots : ∀ b, ¬ v.log.IsHome b → v.cached b = v.disk b
  logged : ∀ i < v.log.lh.n, Writes.last (v.pending.map LogWrite.write) (v.log.lh.block i) =
    some (v.cached (v.log.lh.block i))
  others : ∀ b, (∀ i < v.log.lh.n, v.log.lh.block i ≠ b) →
    Writes.last (v.pending.map LogWrite.write) b = none

structure Emptied (base : Nat → Block) (v v' : LogView) : Prop where
  clean : v'.disk v.log.start 0 = 0
  home : ∀ b, v.log.IsHome b → v'.disk b = applied base v'.committed b
  installed : ∀ i < v.log.lh.n,
    v'.disk (v.log.lh.block i) = v.cached (v.log.lh.block i)
  untouched : ∀ b, v.log.IsHome b → (∀ i < v.log.lh.n, v.log.lh.block i ≠ b) → v'.disk b = v.disk b
  cached : ∀ b, v.log.IsHome b → v'.cached b = v.cached b
  slots : ∀ b, ¬ v.log.IsHome b → v'.cached b = v'.disk b
  refcnt : v'.refcnt = v.unpinned false v.log.lh.n
  log : v'.log = { v.log with lh := { v.log.lh with n := 0 } }
  pending : v'.pending = []
  committed : v'.committed = if 0 < v.log.lh.n then v.committed ++ [v.pending] else v.committed

section Commit

variable {base : Nat → Block} {v : LogView}

theorem Ready.pending_eq_nil (hready : Ready base v) (hn : v.log.lh.n = 0) : v.pending = [] := by
  cases hpd : v.pending with
  | nil => rfl
  | cons w ws =>
      have hnone := hready.others w.blockno (by omega)
      rw [hpd] at hnone
      exact absurd rfl (Writes.last_eq_none.mp hnone w.write (by simp))

theorem LogView.Fits.not_isHome_slot (hfits : v.Fits) {i : Nat} (hi : i < v.log.lh.n) :
    ¬ v.log.IsHome (v.log.start + i + 1) :=
  Log.not_isHome_slot (by have := hfits.size; omega)

theorem LogView.apply_copies_of_ne {b k : Nat} (hb : ∀ i < k, v.log.start + i + 1 ≠ b)
    (store : Nat → Block) : Writes.apply (v.copies k) store b = store b := by
  refine Writes.apply_of_notMem (fun w hw => ?_) store
  obtain ⟨i, hi, rfl⟩ := Writes.mem_upTo.mp hw
  exact hb i hi

theorem LogView.Fits.apply_copies_home (hfits : v.Fits) {b k : Nat} (hb : v.log.IsHome b)
    (hk : k ≤ v.log.lh.n) (store : Nat → Block) : Writes.apply (v.copies k) store b = store b :=
  v.apply_copies_of_ne (fun _ hi heq => hfits.not_isHome_slot (Nat.lt_of_lt_of_le hi hk)
    (heq ▸ hb)) store

theorem LogView.apply_copies_start (v : LogView) (k : Nat) (store : Nat → Block) :
    Writes.apply (v.copies k) store v.log.start = store v.log.start :=
  v.apply_copies_of_ne (fun i _ => by omega) store

theorem LogView.apply_copies_slot (v : LogView) {i k : Nat} (hi : i < k) (store : Nat → Block) :
    Writes.apply (v.copies k) store (v.log.start + i + 1) = v.cached (v.log.lh.block i) := by
  have hlast := Writes.last_upTo (fun i => v.log.start + i + 1)
    (fun i => v.cached (v.log.lh.block i)) (fun a _ b _ h => by omega) hi
  rw [Writes.apply, LogView.copies, hlast]
  rfl

def LogView.logged (v : LogView) : Nat → Block :=
  upd (Writes.apply (v.copies v.log.lh.n) v.disk) v.log.start
    (v.log.lh.words (Writes.apply (v.copies v.log.lh.n) v.cached v.log.start))

def LogView.transaction (v : LogView) : List (Nat × Block) :=
  Writes.upTo v.log.lh.block (fun i => v.cached (v.log.lh.block i)) v.log.lh.n

theorem LogView.logged_start (v : LogView) : v.logged v.log.start 0 = v.log.lh.n := by
  simp [logged, LogHeader.words]

theorem LogView.logged_block (v : LogView) {i : Nat} (hi : i < v.log.lh.n) :
    v.logged v.log.start (i + 1) = v.log.lh.block i := by
  simp [logged, LogHeader.words, hi]

theorem LogView.logged_slot (v : LogView) {i : Nat} (hi : i < v.log.lh.n) :
    v.logged (v.log.start + i + 1) = v.cached (v.log.lh.block i) := by
  rw [logged, upd_of_ne _ _ (by omega), v.apply_copies_slot hi]

theorem LogView.Fits.logged_home (hfits : v.Fits) {b : Nat} (hb : v.log.IsHome b) :
    v.logged b = v.disk b := by
  have hsize := hfits.size
  have hne : b ≠ v.log.start := fun h => Log.not_isHome_start (Nat.zero_lt_of_lt hsize) (h ▸ hb)
  rw [LogView.logged, upd_of_ne _ _ hne, hfits.apply_copies_home hb le_rfl]

theorem LogView.redo_logged (v : LogView) : redo v.log.start v.logged = v.transaction := by
  rw [redo, v.logged_start]
  exact Writes.upTo_congr (fun _ hi => v.logged_block hi) fun _ hi => v.logged_slot hi

theorem Ready.last_transaction (hready : Ready base v) (b : Nat) :
    Writes.last v.transaction b = Writes.last (v.pending.map LogWrite.write) b := by
  by_cases hb : ∃ i < v.log.lh.n, v.log.lh.block i = b
  · obtain ⟨i, hi, rfl⟩ := hb
    rw [hready.logged i hi]
    exact Writes.last_upTo v.log.lh.block _ hready.distinct hi
  · have hnot : ∀ i < v.log.lh.n, v.log.lh.block i ≠ b := fun i hi h => hb ⟨i, hi, h⟩
    rw [hready.others b hnot]
    exact Writes.last_upTo_of_notMem hnot

/-- The header write is the point at which the transaction commits. -/
theorem Ready.recoverable_logged (hready : Ready base v) :
    Recoverable v.log (applied base (v.committed ++ [v.pending])) v.logged where
  size := by
    rw [v.logged_start]
    exact hready.fits.size
  blocks := fun i hi => by
    rw [v.logged_start] at hi
    rw [v.logged_block hi]
    exact hready.fits.home i hi
  outcome := fun b hb => by
    rw [v.redo_logged, applied_concat, Writes.apply, Writes.apply, hready.last_transaction,
      hready.fits.logged_home hb, hready.home b hb]

theorem Ready.emptied_of_zero (hready : Ready base v) (hn : v.log.lh.n = 0) :
    Emptied base v v where
  clean := hready.clean
  home := hready.home
  installed := fun i hi => by omega
  untouched := fun _ _ _ => rfl
  cached := fun _ _ => rfl
  slots := hready.slots
  refcnt := by rw [hn, v.unpinned_zero]
  log := by
    obtain ⟨d, c, r, ⟨start, size, outstanding, committing, n, block⟩, pd, cm, w⟩ := v
    subst hn
    rfl
  pending := hready.pending_eq_nil hn
  committed := by simp [hn]

def LogView.loggedCache (v : LogView) : Nat → Block :=
  upd (Writes.apply (v.copies v.log.lh.n) v.cached) v.log.start
    (v.log.lh.words (Writes.apply (v.copies v.log.lh.n) v.cached v.log.start))

theorem LogView.Fits.loggedCache_home (hfits : v.Fits) {b : Nat} (hb : v.log.IsHome b) :
    v.loggedCache b = v.cached b := by
  have hsize := hfits.size
  have hne : b ≠ v.log.start := fun h => Log.not_isHome_start (Nat.zero_lt_of_lt hsize) (h ▸ hb)
  rw [LogView.loggedCache, upd_of_ne _ _ hne, hfits.apply_copies_home hb le_rfl]

theorem Ready.loggedCache_slots (hready : Ready base v) {b : Nat} (hb : ¬ v.log.IsHome b) :
    v.loggedCache b = v.logged b := by
  have hsame := Writes.apply_congr (v.copies v.log.lh.n) (hready.slots b hb)
  by_cases hstart : b = v.log.start
  · rw [hstart, LogView.loggedCache, LogView.logged, upd_self, upd_self]
  · rw [LogView.loggedCache, LogView.logged, upd_of_ne _ _ hstart, upd_of_ne _ _ hstart, hsame]

theorem LogView.installs_logged (v : LogView) {k : Nat} (hk : k ≤ v.log.lh.n) :
    LogView.installs { v with cached := v.loggedCache } k =
      Writes.upTo v.log.lh.block (fun i => v.cached (v.log.lh.block i)) k := by
  refine Writes.upTo_congr (fun _ _ => rfl) fun i hi => ?_
  show v.loggedCache (v.log.start + i + 1) = _
  rw [loggedCache, upd_of_ne _ _ (by omega), v.apply_copies_slot (by omega)]

theorem LogView.Fits.transaction_of_notMem (hfits : v.Fits) {b : Nat} (hb : ¬ v.log.IsHome b)
    (store : Nat → Block) : Writes.apply v.transaction store b = store b := by
  refine Writes.apply_of_notMem (fun w hw => ?_) store
  obtain ⟨i, hi, rfl⟩ := Writes.mem_upTo.mp hw
  exact fun heq => hb (heq ▸ hfits.home i hi)

theorem Ready.emptied (hready : Ready base v) (hn : 0 < v.log.lh.n) (hb : Block)
    (hzero : hb 0 = 0) :
    Emptied base v
      ⟨upd (Writes.apply v.transaction v.logged) v.log.start hb,
        upd (Writes.apply v.transaction v.loggedCache) v.log.start hb,
        v.unpinned false v.log.lh.n, { v.log with lh := { v.log.lh with n := 0 } }, [],
        v.committed ++ [v.pending], v.steady⟩ := by
  have hfits := hready.fits
  have hstart : ∀ b, v.log.IsHome b → b ≠ v.log.start := fun b hb h =>
    Log.not_isHome_start (Nat.zero_lt_of_lt hfits.size) (h ▸ hb)
  have hdisk : ∀ b, v.log.IsHome b → Writes.apply v.transaction v.logged b =
      applied base (v.committed ++ [v.pending]) b := fun b hb => by
    rw [← v.redo_logged]
    exact hready.recoverable_logged.outcome b hb
  have hlast : ∀ i < v.log.lh.n, ∀ store, Writes.apply v.transaction store (v.log.lh.block i) =
      v.cached (v.log.lh.block i) := fun i hi store => by
    rw [Writes.apply, hready.last_transaction, hready.logged i hi]
    rfl
  have hrest : ∀ b, (∀ i < v.log.lh.n, v.log.lh.block i ≠ b) → ∀ store,
      Writes.apply v.transaction store b = store b := fun b hb store => by
    rw [Writes.apply, hready.last_transaction, hready.others b hb]
    rfl
  constructor
  case clean =>
    show upd _ v.log.start hb v.log.start 0 = 0
    rw [upd_self, hzero]
  case home =>
    intro b hhome
    show upd _ v.log.start hb b = _
    rw [upd_of_ne _ _ (hstart b hhome), hdisk b hhome]
  case installed =>
    intro i hi
    show upd _ v.log.start hb (v.log.lh.block i) = _
    rw [upd_of_ne _ _ (hstart _ (hfits.home i hi)), hlast i hi]
  case untouched =>
    intro b hhome hnot
    show upd _ v.log.start hb b = _
    rw [upd_of_ne _ _ (hstart b hhome), hrest b hnot, hfits.logged_home hhome]
  case cached =>
    intro b hhome
    show upd _ v.log.start hb b = _
    rw [upd_of_ne _ _ (hstart b hhome)]
    by_cases hmem : ∃ i < v.log.lh.n, v.log.lh.block i = b
    · obtain ⟨i, hi, rfl⟩ := hmem
      exact hlast i hi _
    · rw [hrest b fun i hi h => hmem ⟨i, hi, h⟩, hfits.loggedCache_home hhome]
  case slots =>
    intro b hslot
    show upd _ v.log.start hb b = upd _ v.log.start hb b
    by_cases heq : b = v.log.start
    · rw [heq, upd_self, upd_self]
    · rw [upd_of_ne _ _ heq, upd_of_ne _ _ heq, hfits.transaction_of_notMem hslot,
        hfits.transaction_of_notMem hslot, hready.loggedCache_slots hslot]
  case refcnt => rfl
  case log => rfl
  case pending => rfl
  case committed => exact (if_pos hn).symm

theorem commit_wp {s : LogState} (hv : s.view = v) (hready : Ready base v) :
    Wp commit (fun _ t => Emptied base v t.view)
      (Cut v.log (applied base) [v.committed, v.committed ++ [v.pending]]) s := by
  have hfits := hready.fits
  have hpos : 0 < v.log.size := Nat.zero_lt_of_lt hfits.size
  have hlog : s.log = v.log := congrArg LogView.log hv
  refine .get ?_
  rw [hlog]
  refine .ite (fun hn => ?_) fun hn => .pure ?_
  · have hclean : ∀ k ≤ v.log.lh.n,
        Recoverable v.log (applied base v.committed) (Writes.apply (v.copies k) v.disk) :=
      fun k hk => .of_clean hpos (by rw [v.apply_copies_start, hready.clean]) fun b hb => by
        rw [hfits.apply_copies_home hb hk, hready.home b hb]
    have hagain : ∀ k ≤ v.log.lh.n,
        Recoverable v.log (applied base (v.committed ++ [v.pending]))
          (Writes.apply (LogView.installs { v with cached := v.loggedCache } k) v.logged) :=
      fun k hk => hready.recoverable_logged.again (by
        rw [v.installs_logged hk, v.redo_logged]
        exact Writes.upTo_subset _ _ hk)
    refine .bind (writeLog_wp hv hfits (fun k hk t hd hl hc hw => ?_) fun t₁ h₁ => ?_)
    · exact .of_view hd hl hc rfl rfl (by simp) (hclean k hk.le)
    refine .bind (writeHead_wp h₁ (fun t hd hl hc _ => ?_) fun t₂ h₂ => ?_)
    · exact .of_view hd hl hc rfl rfl (by simp) (hclean _ le_rfl)
    simp only [if_pos hn] at h₂
    refine .bind (installTrans_wp h₂ ⟨hfits.size, hfits.home⟩ false (fun k hk t hd hl hc hw => ?_)
      fun t₃ h₃ => ?_)
    · exact .of_view hd hl hc rfl rfl (by simp) (hagain k hk.le)
    refine .bind (modifyLog_wp h₃ fun t₄ h₄ => writeHead_wp h₄ (fun t hd hl hc hw => ?_)
      fun t₅ h₅ => ?_)
    · exact .of_view hd hl hc rfl rfl (by simp) (hagain _ le_rfl)
    have hpost := fun hb hzero => hready.emptied hn hb hzero
    rw [LogView.transaction, ← v.installs_logged le_rfl] at hpost
    rw [h₅]
    exact hpost _ (by simp [LogHeader.words])
  · rw [hv]
    exact hready.emptied_of_zero (by omega)

end Commit

end Xv6Mmap
