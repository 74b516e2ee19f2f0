import Xv6Mmap.Proof.Virtio

/-!
# The descriptors of a request

`alloc3_desc` takes three descriptors or none, a request is published with them, and `free_chain`
gives them back when it is complete.
-/

namespace Xv6Mmap.Virtio

open Sequential Ring

/-! ### Descriptors are taken and given back -/

/-- From `w`, descriptors have been taken or given back. Those in `loose` belong to no request. -/
def Taken (w : World) (loose : Set Nat) (t : World) : Prop :=
  ∃ free desc asleep, t = { w with free := free, desc := desc, asleep := asleep } ∧
    Pool.Exact {i | i < num} (fun i => !free i) (slot w.request) loose ∧
    ∀ x i, slot w.request x = some i → desc i = w.desc i

section Taken

variable {w t : World} {loose : Set Nat} {E : Halt → World → Prop}

theorem Taken.refl (hw : Core w) : Taken w ∅ w :=
  ⟨w.free, w.desc, w.asleep, rfl, hw.pool, fun _ _ _ => rfl⟩

theorem allocDesc_wp (ht : Taken w loose t) :
    Wp allocDesc (fun r u => match r with
      | some i => i ∉ loose ∧ Taken w (insert i loose) u
      | none => Taken w loose u) E t := by
  refine .get ?_
  cases hfind : (List.range num).find? fun i => t.free i with
  | none => exact .pure ht
  | some i =>
      have hlt : i < num := List.mem_range.mp (List.mem_of_find?_eq_some hfind)
      have hfree : t.free i = true := by simpa using List.find?_some hfind
      obtain ⟨free, desc, asleep, rfl, hpool, hdesc⟩ := ht
      have hfree : free i = true := hfree
      refine .bind (.of_ok rfl (.pure ⟨fun hin => ?_, upd free i false, desc, asleep, rfl,
        hpool.take hlt (by simp [hfree]) (by simp) fun j hj => by simp [upd_of_ne _ _ hj], hdesc⟩))
      have := (hpool.inUse i hin).2
      simp [hfree] at this

theorem freeDesc_wp (ht : Taken w loose t) {i : Nat} (hi : i ∈ loose) :
    Wp (freeDesc i) (fun _ u => Taken w (loose \ {i}) u ∧ ∀ k ≠ i, u.desc k = t.desc k) E t := by
  obtain ⟨free, desc, asleep, rfl, hpool, hdesc⟩ := ht
  obtain ⟨hlt, hused⟩ := hpool.inUse i hi
  have hlt : i < num := hlt
  have hused : free i = false := by simpa using hused
  refine .get ?_
  rw [if_neg (Nat.not_le_of_lt hlt), if_neg (by simp [hused])]
  refine .of_ok rfl ⟨⟨_, _, _, rfl, hpool.release hi (by simp) fun j hj => by simp [upd_of_ne _ _ hj],
    fun x k hx => ?_⟩, fun k hk => upd_of_ne _ _ hk⟩
  have hne : k ≠ i := fun h => (hpool.owned x k hx).2.2 (h ▸ hi)
  exact (upd_of_ne _ _ hne).trans (hdesc x k hx)

theorem freeAll_wp (l : List Nat) (ht : Taken w loose t) (hl : ∀ i ∈ l, i ∈ loose) (hnodup : l.Nodup) :
    Wp (l.forM freeDesc) (fun _ u => Taken w (loose \ {i | i ∈ l}) u) E t := by
  induction l generalizing loose t with
  | nil =>
      refine .pure ?_
      simpa using ht
  | cons i l ih =>
      obtain ⟨hi, hnodup⟩ := List.nodup_cons.mp hnodup
      refine .bind ((freeDesc_wp ht (hl i (by simp))).imp fun _ u hu => ?_)
      refine (ih hu.1 (fun j hj => ⟨hl j (by simp [hj]), fun h => hi (h ▸ hj)⟩) hnodup).imp
        fun _ v hv => ?_
      have hset : (loose \ {i}) \ {j | j ∈ l} = loose \ {j | j ∈ i :: l} := by
        ext j
        simp [and_assoc]
      rwa [hset] at hv

theorem alloc3From_wp (left : Nat) {idx : List Nat} (ht : Taken w {i | i ∈ idx} t)
    (hnodup : idx.Nodup) :
    Wp (alloc3From left idx) (fun r u => match r with
      | some l => l.length = idx.length + left ∧ l.Nodup ∧ Taken w {i | i ∈ l} u
      | none => Taken w ∅ u) E t := by
  induction left generalizing idx t with
  | zero => exact .pure ⟨rfl, hnodup, ht⟩
  | succ left ih =>
      refine .bind ((allocDesc_wp ht).imp fun r u hu => ?_)
      cases r with
      | none =>
          refine .bind ((freeAll_wp idx hu (fun _ h => h) hnodup).imp fun _ v hv => .pure ?_)
          simpa using hv
      | some i =>
          obtain ⟨hi, hu⟩ := hu
          have hset : insert i {j | j ∈ idx} = {j | j ∈ idx ++ [i]} := by
            ext j
            simp [or_comm]
          rw [hset] at hu
          refine (ih hu ?_).imp fun r v hv => ?_
          · exact List.nodup_append.mpr ⟨hnodup, List.nodup_singleton i, fun a ha b hb => by
              rw [List.mem_singleton.mp hb]
              exact fun heq => hi (heq ▸ ha)⟩
          · cases r with
            | none => exact hv
            | some l =>
                simp only [List.length_append, List.length_singleton] at hv
                exact ⟨by omega, hv.2⟩

theorem Inv.of_taken (hw : Inv w) (ht : Taken w ∅ t) : Inv t := by
  obtain ⟨free, desc, asleep, rfl, hpool, hdesc⟩ := ht
  obtain ⟨hcore, hq, hhalt⟩ := hw
  refine ⟨⟨hpool, fun h r hr => ?_, hcore.info, hcore.caller, hcore.waiting, hcore.distinct,
    hcore.id_lt, hcore.id_unique⟩, hq.frame .., hhalt⟩
  obtain ⟨i, j, hchain, hfmt⟩ := hcore.chain h r hr
  have hslot : ∀ k d, [h, i, j][k]? = some d → desc d = w.desc d := fun k d hd =>
    hdesc (h, k) d (by simpa [slot, show w.request h = some r from hr, hchain] using hd)
  exact ⟨i, j, hchain, hfmt.congr (hslot 0 h rfl) (hslot 1 i rfl) (hslot 2 j rfl)⟩

end Taken

/-! ### A request is published -/

section Publish

variable {w t : World} {p b i0 i1 i2 : Nat} {write : Bool}

theorem upd_eq_some {request : Nat → Option Request} {new r : Request} {h h' : Nat}
    (hr : upd request h (some new) h' = some r) :
    (h' = h ∧ r = new) ∨ (h' ≠ h ∧ request h' = some r) := by
  by_cases hne : h' = h
  · subst hne
    rw [upd_self, Option.some.injEq] at hr
    exact .inl ⟨rfl, hr.symm⟩
  · rw [upd_of_ne _ _ hne] at hr
    exact .inr ⟨hne, hr⟩

theorem Core.publish (hw : Core w) (hp : w.proc p = .allocating b write) (hnodup : [i0, i1, i2].Nodup)
    (ht : Taken w {i | i ∈ [i0, i1, i2]} t) : Core (t.publish p b write i0 i1 i2) := by
  obtain ⟨free, desc, asleep, rfl, hpool, hdesc⟩ := ht
  have hfresh : ∀ h r, w.request h = some r → ∀ d ∈ r.chain, d ∉ [i0, i1, i2] := fun h r hr d hd => by
    obtain ⟨k, hk⟩ := List.mem_iff_getElem?.mp hd
    exact (hpool.owned (h, k) d (by simpa [slot, hr] using hk)).2.2
  have hne : ∀ h r, w.request h = some r → h ≠ i0 := fun h r hr heq => by
    obtain ⟨i, j, hchain, -⟩ := hw.chain h r hr
    exact hfresh h r hr h (by simp [hchain]) (by simp [heq])
  have hnone : w.request i0 = none := by
    cases hr : w.request i0 with
    | none => rfl
    | some r => exact absurd rfl (hne i0 r hr)
  have hbuf : ∀ q, (upd w.proc p (.waiting b i0) q).buf = (w.proc q).buf := fun q => by
    by_cases hq : q = p
    · rw [hq, upd_self, hp]
      rfl
    · rw [upd_of_ne _ _ hq]
  simp only [List.nodup_cons, List.mem_cons, List.not_mem_nil, or_false, not_or] at hnodup
  obtain ⟨⟨h01, h02⟩, h12, -⟩ := hnodup
  refine ⟨?_, fun h r hr => ?_, fun h r hr => ?_, fun h r hr => ?_, fun q b' h hq => ?_,
    fun q q' b' hq hq' => ?_, fun h r hr => ?_, fun h h' r r' hr hr' hid => ?_⟩
  · refine hpool.attachRow (h := i0) (l := [i0, i1, i2]) (fun d => Iff.rfl) (by simp [h01, h02, h12])
      (fun k => ?_) (fun k => ?_) fun x hx => ?_
    · simp [slot, hnone]
    · simp [slot, World.publish]
    · simp only [slot, World.publish, upd_of_ne _ _ hx]
  · rcases upd_eq_some hr with ⟨rfl, rfl⟩ | ⟨-, hr⟩
    · refine ⟨i1, i2, rfl, ⟨?_, ?_⟩, ⟨?_, ?_⟩, ?_, ?_⟩
      all_goals simp [World.publish, upd, h01, h02, h12]
    · obtain ⟨i, j, hchain, hfmt⟩ := hw.chain h r hr
      have hkeep : ∀ d ∈ [h, i, j], ∀ a0 a1 a2,
          upd (upd (upd desc i0 a0) i1 a1) i2 a2 d = w.desc d := fun d hd a0 a1 a2 => by
        have hout := hfresh h r hr d (hchain ▸ hd)
        simp only [List.mem_cons, List.not_mem_nil, or_false, not_or] at hout
        obtain ⟨k, hk⟩ := List.mem_iff_getElem?.mp hd
        rw [upd_of_ne _ _ hout.2.2, upd_of_ne _ _ hout.2.1, upd_of_ne _ _ hout.1]
        exact hdesc (h, k) d (by simpa [slot, show w.request h = some r from hr, hchain] using hk)
      exact ⟨i, j, hchain, hfmt.congr (hkeep h (by simp) _ _ _) (hkeep i (by simp) _ _ _)
        (hkeep j (by simp) _ _ _)⟩
  · rcases upd_eq_some hr with ⟨rfl, rfl⟩ | ⟨hne, hr⟩
    · simp [World.publish]
    · simp only [World.publish, upd_of_ne _ _ hne]
      exact hw.info h r hr
  · rcases upd_eq_some hr with ⟨rfl, rfl⟩ | ⟨hne, hr⟩
    · simp [World.publish]
    · have hcaller := hw.caller h r hr
      have hcp : r.caller ≠ p := fun heq => by
        rw [heq, hp] at hcaller
        cases hcaller
      simp only [World.publish, upd_of_ne _ _ hcp]
      exact hcaller
  · by_cases hqp : q = p
    · subst hqp
      simp only [World.publish, upd_self, Activity.waiting.injEq] at hq
      obtain ⟨rfl, rfl⟩ := hq
      exact ⟨_, upd_self _ _ _, rfl⟩
    · simp only [World.publish, upd_of_ne _ _ hqp] at hq
      obtain ⟨r, hr, hcaller⟩ := hw.waiting q b' h hq
      exact ⟨r, (upd_of_ne _ _ (hne h r hr)).trans hr, hcaller⟩
  · exact hw.distinct q q' b' ((hbuf q).symm.trans hq) ((hbuf q').symm.trans hq')
  · rcases upd_eq_some hr with ⟨rfl, rfl⟩ | ⟨-, hr⟩
    · exact Nat.lt_succ_self _
    · exact Nat.lt_succ_of_lt (hw.id_lt h r hr)
  · rcases upd_eq_some hr with ⟨hh, rfl⟩ | ⟨-, hr⟩
    · rcases upd_eq_some hr' with ⟨hh', rfl⟩ | ⟨-, hr'⟩
      · rw [hh, hh']
      · exact absurd hid.symm (Nat.ne_of_lt (hw.id_lt h' r' hr'))
    · rcases upd_eq_some hr' with ⟨hh', rfl⟩ | ⟨-, hr'⟩
      · exact absurd hid (Nat.ne_of_lt (hw.id_lt h r hr))
      · exact hw.id_unique h h' r r' hr hr' hid

theorem at_publish (hnone : w.request i0 = none) {s : Stage} {h : Nat} {new : Request}
    (hnew : new.stage = .published) :
    (∃ r, upd w.request i0 (some new) h = some r ∧ r.stage = s) ↔
      w.At s h ∨ (h = i0 ∧ s = .published) := by
  by_cases hne : h = i0
  · subst hne
    have hnot : ¬ w.At s h := fun ⟨r, hr, _⟩ => by
      rw [hnone] at hr
      cases hr
    simp only [upd_self, Option.some.injEq, exists_eq_left', hnew, hnot, true_and, false_or]
    exact eq_comm
  · simp only [upd_of_ne _ _ hne, hne, false_and, or_false]
    rfl

theorem Queues.publish (hq : Queues w) (hw : Core w) (p b : Nat) (write : Bool)
    (hnone : w.request i0 = none) (hlt : i0 < num) (i1 i2 : Nat) :
    Queues (w.publish p b write i0 i1 i2) := by
  obtain ⟨la, havail, hnodupa, hmema⟩ := hq.avail
  obtain ⟨lu, hused, hnodupu, hmemu, hcompleted⟩ := hq.used
  have hother : ∀ {s h}, w.At s h → h ≠ i0 := fun ⟨r, hr, _⟩ heq => by
    rw [heq, hnone] at hr
    cases hr
  have hfresh : w.births ∉ w.completed := fun hin => Nat.lt_irrefl _ (hq.old _ hin)
  have hfresh' : w.births ∉ w.processed := fun hin => hfresh (by
    rw [hcompleted]
    exact List.mem_append_left _ hin)
  have hlen := length_lt_num hw hnodupa (fun h hh => (hmema h).mp hh) hlt
    fun hin => hother ((hmema i0).mp hin) rfl
  refine ⟨fun h hat => ?_, fun b' => ?_, ⟨la ++ [i0], havail.push num_dvd hlen ?_ fun k hk => ?_, ?_,
    fun h => ?_⟩, ⟨hq.pending.1, fun h => ?_⟩, ⟨lu, hused, hnodupu, fun h => ?_, ?_⟩, fun h r hr => ?_,
    fun h r hr => ?_, fun id hid => Nat.lt_succ_of_lt (hq.old id hid), hq.once, hq.returned⟩
  · have hold : w.At .completed h := by simpa using (at_publish hnone rfl).mp hat
    simp only [World.publish, upd_of_ne _ _ (hother hold)]
    exact hq.status h hold
  · by_cases hb : b' = b
    · subst hb
      simp only [World.publish, upd_self, true_iff]
      exact ⟨i0, _, upd_self _ _ _, rfl, by simp⟩
    · simp only [World.publish, upd_of_ne _ _ hb]
      rw [hq.disk b']
      constructor
      · rintro ⟨h, r, hr, hrb, hstage⟩
        exact ⟨h, r, (upd_of_ne _ _ (hother ⟨r, hr, rfl⟩)).trans hr, hrb, hstage⟩
      · rintro ⟨h, r, hr, hrb, hstage⟩
        rcases upd_eq_some hr with ⟨-, rfl⟩ | ⟨-, hr⟩
        · exact absurd hrb.symm hb
        · exact ⟨h, r, hr, hrb, hstage⟩
  · simp only [World.publish, toNat_mod_num, upd_self]
  · simp only [World.publish, toNat_mod_num, upd_of_ne _ _ hk]
  · exact List.nodup_append.mpr ⟨hnodupa, List.nodup_singleton i0, fun a ha c hc => by
      rw [List.mem_singleton.mp hc]
      exact hother ((hmema a).mp ha)⟩
  · refine Iff.trans ?_ (at_publish hnone rfl).symm
    simp [hmema h]
  · refine ((hq.pending.2 h).trans ?_).trans (at_publish hnone rfl).symm
    simp
  · refine Iff.trans ?_ (at_publish hnone rfl).symm
    simp [hmemu h]
  · refine hcompleted.trans (congrArg (w.processed ++ ·) (List.filterMap_congr fun h hh => ?_))
    simp only [World.publish, upd_of_ne _ _ (hother ((hmemu h).mp hh))]
  · rcases upd_eq_some hr with ⟨-, rfl⟩ | ⟨-, hr⟩
    · exact iff_of_false hfresh (by simp)
    · exact hq.completed h r hr
  · rcases upd_eq_some hr with ⟨-, rfl⟩ | ⟨-, hr⟩
    · exact iff_of_false hfresh' (by simp)
    · exact hq.processed h r hr

theorem Taken.request_none {loose : Set Nat} (hw : Core w) (ht : Taken w loose t) {i : Nat}
    (hi : i ∈ loose) : w.request i = none := by
  obtain ⟨free, desc, asleep, rfl, hpool, -⟩ := ht
  cases hr : w.request i with
  | none => rfl
  | some r => exact absurd hi (hpool.owned _ i (hw.slot_head hr)).2.2

theorem Inv.publish (hw : Inv w) (hp : w.proc p = .allocating b write) (hnodup : [i0, i1, i2].Nodup)
    (ht : Taken w {i | i ∈ [i0, i1, i2]} t) (asleep : Nat → Bool) :
    Inv { t.publish p b write i0 i1 i2 with asleep := asleep } := by
  have hcore := hw.core.publish hp hnodup ht
  have hin : i0 ∈ {i | i ∈ [i0, i1, i2]} := by simp
  have hnone := ht.request_none hw.core hin
  obtain ⟨free, desc, asleep', rfl, hpool, hdesc⟩ := ht
  have hq := hw.queues.publish hw.core p b write hnone (hpool.inUse i0 hin).1 i1 i2
  exact ⟨hcore.congr rfl rfl rfl (fun _ => rfl) rfl rfl, hq.frame .., hw.halt⟩

end Publish

/-! ### A request is reclaimed -/

section Reclaim

variable {w t : World} {p b h i j : Nat} {r : Request} {E : Halt → World → Prop}

theorem freeChain_wp {base : World} {fuel : Nat} (hfuel : 3 ≤ fuel) (hfmt : Formatted t.desc h i j)
    (hnodup : [h, i, j].Nodup) (ht : Taken base {k | k ∈ [h, i, j]} t) :
    Wp (freeChain fuel h) (fun _ u => Taken base ∅ u) E t := by
  simp only [List.nodup_cons, List.mem_cons, List.not_mem_nil, or_false, not_or] at hnodup
  obtain ⟨⟨hhi, hhj⟩, hij, -⟩ := hnodup
  obtain ⟨fuel, rfl⟩ : ∃ k, fuel = k + 3 := ⟨fuel - 3, by omega⟩
  refine .get (.bind ((freeDesc_wp ht (by simp)).imp fun _ t1 ht1 => ?_))
  rw [if_pos hfmt.first.1, hfmt.first.2]
  refine .get (.bind ((freeDesc_wp ht1.1 (by simp [Ne.symm hhi])).imp fun _ t2 ht2 => ?_))
  have hi1 : t1.desc i = t.desc i := ht1.2 i (Ne.symm hhi)
  rw [hi1, if_pos hfmt.second.1, hfmt.second.2]
  refine .get (.bind ((freeDesc_wp ht2.1 (by simp [Ne.symm hhj, Ne.symm hij])).imp fun _ t3 ht3 => ?_))
  have hj2 : t2.desc j = t.desc j := (ht2.2 j (Ne.symm hij)).trans (ht1.2 j (Ne.symm hhj))
  rw [hj2, if_neg (by simp [hfmt.third.1])]
  have hset : (({k | k ∈ [h, i, j]} \ {h}) \ {i}) \ {j} = (∅ : Set Nat) := by
    ext k
    simp only [List.mem_cons, List.not_mem_nil, or_false, Set.mem_sdiff, Set.mem_ofPred_eq,
      Set.mem_singleton_iff, Set.mem_empty_iff_false, iff_false]
    tauto
  have ht3 := ht3.1
  rw [hset] at ht3
  exact .pure ht3

def World.forget (w : World) (h : Nat) : World :=
  { w with info := upd w.info h { w.info h with b := none }, request := upd w.request h none }

theorem forget_some {h' : Nat} {r' : Request} (hr' : (w.forget h).request h' = some r') :
    h' ≠ h ∧ w.request h' = some r' := by
  by_cases hne : h' = h
  · subst hne
    simp [World.forget] at hr'
  · exact ⟨hne, (upd_of_ne _ _ hne).symm.trans hr'⟩

theorem Core.forget_taken (hw : Core w) (hr : w.request h = some r) (hchain : r.chain = [h, i, j]) :
    Taken (w.forget h) {k | k ∈ [h, i, j]} (w.forget h) := by
  refine ⟨w.free, w.desc, w.asleep, rfl, ?_, fun _ _ _ => rfl⟩
  have hpool := hw.pool.detach (slot (w.forget h).request) {x | x.1 = h}
    (fun x hx => by simp [slot, World.forget, show x.1 = h from hx])
    fun x hx => by simp only [slot, World.forget, upd_of_ne _ _ (show x.1 ≠ h from hx)]
  have hset : (∅ ∪ {d | ∃ x ∈ {x : Nat × Nat | x.1 = h}, slot w.request x = some d}) =
      {k | k ∈ [h, i, j]} := by
    ext d
    simp only [Set.empty_union, Set.mem_ofPred_eq, List.mem_iff_getElem?]
    constructor
    · rintro ⟨⟨h', k⟩, rfl, hx⟩
      exact ⟨k, by simpa [slot, hr, hchain] using hx⟩
    · rintro ⟨k, hk⟩
      exact ⟨(h, k), rfl, by simpa [slot, hr, hchain] using hk⟩
  rwa [hset] at hpool

theorem Core.chain_nodup (hw : Core w) (hr : w.request h = some r) : r.chain.Nodup := by
  rw [List.nodup_iff_injective_get]
  intro k k' heq
  have hslot : ∀ k : Fin r.chain.length, slot w.request (h, k) = some (r.chain.get k) := fun k => by
    simp [slot, hr]
  have := hw.pool.unique _ _ _ (hslot k) (heq ▸ hslot k')
  exact Fin.ext (Prod.mk.inj this).2

theorem at_forget (hstage : w.At .processed h) {s : Stage} (hs : s ≠ .processed) (h' : Nat) :
    (w.forget h).At s h' ↔ w.At s h' := by
  constructor
  · rintro ⟨r', hr', hstage'⟩
    exact ⟨r', (forget_some hr').2, hstage'⟩
  · rintro ⟨r', hr', hstage'⟩
    have hne : h' ≠ h := by
      rintro rfl
      exact hs (World.At.unique ⟨r', hr', hstage'⟩ hstage)
    exact ⟨r', (upd_of_ne _ _ hne).trans hr', hstage'⟩

theorem Core.reclaim (hw : Core w) (hp : w.proc p = .waiting b h) (hr : w.request h = some r)
    (hcaller : r.caller = p) (ht : Taken (w.forget h) ∅ t) (returned : List Nat) :
    Core { t with proc := upd t.proc p .idle, returned := returned } := by
  obtain ⟨free, desc, asleep, rfl, hpool, hdesc⟩ := ht
  refine ⟨hpool, fun h' r' hr' => ?_, fun h' r' hr' => ?_, fun h' r' hr' => ?_, fun q b' h' hq => ?_,
    fun q q' b' hq hq' => ?_, fun h' r' hr' => hw.id_lt h' r' (forget_some hr').2,
    fun h1 h2 r1 r2 hr1 hr2 => hw.id_unique h1 h2 r1 r2 (forget_some hr1).2 (forget_some hr2).2⟩
  · obtain ⟨i, j, hchain, hfmt⟩ := hw.chain h' r' (forget_some hr').2
    have hslot : ∀ k d, [h', i, j][k]? = some d → desc d = w.desc d := fun k d hd =>
      hdesc (h', k) d (by
        simpa [slot, show (w.forget h).request h' = some r' from hr', hchain] using hd)
    exact ⟨i, j, hchain, hfmt.congr (hslot 0 h' rfl) (hslot 1 i rfl) (hslot 2 j rfl)⟩
  · obtain ⟨hne, hr'⟩ := forget_some hr'
    exact (congrArg Info.b (upd_of_ne _ _ hne)).trans (hw.info h' r' hr')
  · obtain ⟨hne, hr'⟩ := forget_some hr'
    have hq := hw.caller h' r' hr'
    have hqp : r'.caller ≠ p := fun heq => by
      rw [heq, hp, Activity.waiting.injEq] at hq
      exact hne hq.2.symm
    exact (upd_of_ne _ _ hqp).trans hq
  · have hqp : q ≠ p := fun heq => by
      rw [heq] at hq
      simp at hq
    have hq : w.proc q = .waiting b' h' := (upd_of_ne _ _ hqp).symm.trans hq
    obtain ⟨r', hr', hcaller'⟩ := hw.waiting q b' h' hq
    have hne : h' ≠ h := by
      rintro rfl
      rw [hr, Option.some.injEq] at hr'
      exact hqp (by rw [← hcaller', ← hr', hcaller])
    exact ⟨r', (upd_of_ne _ _ hne).trans hr', hcaller'⟩
  · have hnot : ∀ q, (upd w.proc p .idle q).buf = some b' → (w.proc q).buf = some b' := fun q hq => by
      by_cases hqp : q = p
      · rw [hqp, upd_self] at hq
        cases hq
      · rwa [upd_of_ne _ _ hqp] at hq
    exact hw.distinct q q' b' (hnot q hq) (hnot q' hq')

theorem Queues.forget (hq : Queues w) (hr : w.request h = some r) (hstage : r.stage = .processed) :
    Queues (w.forget h) := by
  obtain ⟨la, havail, hnodupa, hmema⟩ := hq.avail
  obtain ⟨lu, hused, hnodupu, hmemu, hcompleted⟩ := hq.used
  have hat : w.At .processed h := ⟨r, hr, hstage⟩
  refine ⟨fun h' hat' => ?_, fun b => (hq.disk b).trans ?_,
    ⟨la, havail, hnodupa, fun h' => (hmema h').trans (at_forget hat (by simp) h').symm⟩,
    ⟨hq.pending.1, fun h' => (hq.pending.2 h').trans (at_forget hat (by simp) h').symm⟩,
    ⟨lu, hused, hnodupu, fun h' => (hmemu h').trans (at_forget hat (by simp) h').symm, ?_⟩,
    fun h' r' hr' => hq.completed h' r' (forget_some hr').2,
    fun h' r' hr' => hq.processed h' r' (forget_some hr').2, hq.old, hq.once, hq.returned⟩
  · have hne : h' ≠ h := fun heq => by
      obtain ⟨r', hr', -⟩ := hat'
      exact (forget_some hr').1 heq
    exact (congrArg Info.status (upd_of_ne _ _ hne)).trans
      (hq.status h' ((at_forget hat (by simp) h').mp hat'))
  · constructor
    · rintro ⟨h', r', hr', hbuf, hstage'⟩
      have hne : h' ≠ h := by
        rintro rfl
        rw [hr, Option.some.injEq] at hr'
        exact hstage' (hr' ▸ hstage)
      exact ⟨h', r', (upd_of_ne _ _ hne).trans hr', hbuf, hstage'⟩
    · rintro ⟨h', r', hr', hbuf, hstage'⟩
      exact ⟨h', r', (forget_some hr').2, hbuf, hstage'⟩
  · refine hcompleted.trans (congrArg (w.processed ++ ·) (List.filterMap_congr fun h' hh' => ?_))
    have hne : h' ≠ h := by
      rintro rfl
      have := World.At.unique ((hmemu h').mp hh') hat
      cases this
    simp only [World.forget, upd_of_ne _ _ hne]

/-- The rest of `virtio_disk_rw`, when the request is complete. -/
theorem Inv.reclaim (hw : Inv w) (hp : w.proc p = .waiting b h) (hdisk : ¬ (w.buf b).disk = true) :
    Wp (do
      set (w.forget h)
      freeChain (num + 1) h
      modify fun w' =>
        { w' with
          proc := upd w'.proc p .idle
          returned := w'.returned ++ ((w.request h).map Request.id).toList })
      (fun _ t => Inv t ∧ Reaction w t) E w := by
  obtain ⟨hcore, hq, hhalt⟩ := hw
  obtain ⟨r, hr, hcaller⟩ := hcore.waiting p b h hp
  obtain ⟨i, j, hchain, hfmt⟩ := hcore.chain h r hr
  have hbuf : r.buf = b := by
    have hpr := hcore.caller h r hr
    rw [hcaller, hp, Activity.waiting.injEq] at hpr
    exact hpr.1.symm
  have hstage : r.stage = .processed := by
    by_contra hne
    exact hdisk ((hq.disk b).mpr ⟨h, r, hr, hbuf, hne⟩)
  have hfree := freeChain_wp (E := E) (t := w.forget h) (show 3 ≤ num + 1 by decide) hfmt
    (hchain ▸ hcore.chain_nodup hr) (hcore.forget_taken hr hchain)
  refine .bind (.of_ok rfl (.bind (hfree.imp fun _ t ht => Wp.of_ok rfl ?_)))
  refine ⟨⟨hcore.reclaim hp hr hcaller ht _, ?_, ?_⟩, ?_⟩
  · have hq' := hq.forget hr hstage
    obtain ⟨free, desc, asleep, rfl, -, -⟩ := ht
    refine ⟨hq'.status, hq'.disk, hq'.avail, hq'.pending, hq'.used, hq'.completed, hq'.processed,
      hq'.old, hq'.once, fun id hid => ?_⟩
    rw [hr] at hid
    rcases List.mem_append.mp hid with hid | hid
    · exact hq'.returned id hid
    · simp only [Option.map_some, Option.toList_some, List.mem_singleton] at hid
      rw [hid]
      exact (hq.processed h r hr).mpr hstage
  · obtain ⟨free, desc, asleep, rfl, -, -⟩ := ht
    exact hhalt
  · obtain ⟨free, desc, asleep, rfl, -, -⟩ := ht
    refine ⟨fun b' hb' => .inl hb', le_rfl, fun q => ?_⟩
    by_cases hqp : q = p
    · subst hqp
      exact .returns b h r hp (upd_self ..) hr hcaller hbuf hstage (by rw [hr]; rfl)
    · refine .stays (upd_of_ne _ _ hqp) fun b' h' r' hq' hr' => ⟨r', ?_, rfl⟩
      have hne : h' ≠ h := by
        rintro rfl
        obtain ⟨r'', hr'', hq''⟩ := hcore.waiting q b' h' hq'
        rw [hr, Option.some.injEq] at hr''
        exact hqp (by rw [← hq'', ← hr'', hcaller])
      exact (upd_of_ne _ _ hne).trans hr'

end Reclaim

end Xv6Mmap.Virtio
