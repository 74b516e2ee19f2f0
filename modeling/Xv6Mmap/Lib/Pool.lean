import Mathlib.Data.Set.Insert

/-!
# A pool of blocks and the slots that own them

Each block of an area is free or in use, and what is in use belongs to exactly one slot, except for
the loose blocks, which are in use and belong to nobody: they were just taken, or are about to be given
back.
-/

namespace Pool

variable {ι β : Type} {area loose : Set β} {used used' : β → Bool} {slot slot' : ι → Option β}

structure Exact (area : Set β) (used : β → Bool) (slot : ι → Option β) (loose : Set β) : Prop where
  owned : ∀ x b, slot x = some b → b ∈ area ∧ used b = true ∧ b ∉ loose
  unique : ∀ x y b, slot x = some b → slot y = some b → x = y
  inUse : ∀ b ∈ loose, b ∈ area ∧ used b = true
  covered : ∀ b ∈ area, used b = true → b ∈ loose ∨ ∃ x, slot x = some b

namespace Exact

theorem take (hpool : Exact area used slot loose) {b : β} (hb : b ∈ area) (hfree : used b = false)
    (hused : used' b = true) (hother : ∀ c ≠ b, used' c = used c) :
    Exact area used' slot (insert b loose) where
  owned := fun x c hx => by
    obtain ⟨harea, huse, hloose⟩ := hpool.owned x c hx
    have hne : c ≠ b := by
      rintro rfl
      rw [hfree] at huse
      cases huse
    exact ⟨harea, by rw [hother c hne, huse], by simp [hne, hloose]⟩
  unique := hpool.unique
  inUse := fun c hc => by
    rcases hc with rfl | hc
    · exact ⟨hb, hused⟩
    · obtain ⟨harea, huse⟩ := hpool.inUse c hc
      by_cases hne : c = b
      · exact ⟨harea, hne ▸ hused⟩
      · exact ⟨harea, by rw [hother c hne, huse]⟩
  covered := fun c hc huse => by
    by_cases hne : c = b
    · exact .inl (.inl hne)
    · rw [hother c hne] at huse
      exact (hpool.covered c hc huse).imp .inr id

theorem release (hpool : Exact area used slot loose) {b : β} (hb : b ∈ loose)
    (hfree : used' b = false) (hother : ∀ c ≠ b, used' c = used c) :
    Exact area used' slot (loose \ {b}) where
  owned := fun x c hx => by
    obtain ⟨harea, huse, hloose⟩ := hpool.owned x c hx
    have hne : c ≠ b := by
      rintro rfl
      exact hloose hb
    exact ⟨harea, by rw [hother c hne, huse], fun h => hloose h.1⟩
  unique := hpool.unique
  inUse := fun c hc => by
    obtain ⟨harea, huse⟩ := hpool.inUse c hc.1
    exact ⟨harea, by rw [hother c hc.2, huse]⟩
  covered := fun c hc huse => by
    have hne : c ≠ b := by
      rintro rfl
      rw [hfree] at huse
      cases huse
    rw [hother c hne] at huse
    exact (hpool.covered c hc huse).imp (fun h => ⟨h, hne⟩) id

theorem attach (hpool : Exact area used slot loose) {b : β} (hb : b ∈ loose) {x : ι}
    (hempty : slot x = none) (hslot : slot' x = some b) (hother : ∀ y ≠ x, slot' y = slot y) :
    Exact area used slot' (loose \ {b}) := by
  have hold : ∀ y c, slot' y = some c → (y = x ∧ c = b) ∨ (y ≠ x ∧ slot y = some c) := by
    intro y c hy
    by_cases hyx : y = x
    · subst hyx
      rw [hslot, Option.some.injEq] at hy
      exact .inl ⟨rfl, hy.symm⟩
    · rw [hother y hyx] at hy
      exact .inr ⟨hyx, hy⟩
  constructor
  case owned =>
    intro y c hy
    rcases hold y c hy with ⟨-, rfl⟩ | ⟨-, hy⟩
    · obtain ⟨harea, huse⟩ := hpool.inUse c hb
      exact ⟨harea, huse, by simp⟩
    · obtain ⟨harea, huse, hloose⟩ := hpool.owned y c hy
      exact ⟨harea, huse, fun h => hloose h.1⟩
  case unique =>
    intro y z c hy hz
    rcases hold y c hy with ⟨hyx, hcb⟩ | ⟨-, hy⟩ <;> rcases hold z c hz with ⟨hzx, hcb'⟩ | ⟨-, hz⟩
    · rw [hyx, hzx]
    · exact absurd (hcb ▸ hb) (hpool.owned z c hz).2.2
    · exact absurd (hcb' ▸ hb) (hpool.owned y c hy).2.2
    · exact hpool.unique y z c hy hz
  case inUse => exact fun c hc => hpool.inUse c hc.1
  case covered =>
    intro c hc huse
    by_cases hcb : c = b
    · exact .inr ⟨x, hcb ▸ hslot⟩
    · refine (hpool.covered c hc huse).imp (fun h => ⟨h, hcb⟩) fun ⟨y, hy⟩ => ⟨y, ?_⟩
      have hyx : y ≠ x := by
        rintro rfl
        rw [hempty] at hy
        cases hy
      rw [hother y hyx, hy]

theorem attachRow {κ : Type} {slot slot' : κ × Nat → Option β} (hpool : Exact area used slot loose)
    {h : κ} {l : List β} (hl : ∀ b, b ∈ l ↔ b ∈ loose) (hnodup : l.Nodup)
    (hempty : ∀ k, slot (h, k) = none) (hslot : ∀ k, slot' (h, k) = l[k]?)
    (hother : ∀ x, x.1 ≠ h → slot' x = slot x) : Exact area used slot' ∅ := by
  have hold : ∀ x b, slot' x = some b →
      (x.1 = h ∧ l[x.2]? = some b ∧ b ∈ loose) ∨ (x.1 ≠ h ∧ slot x = some b) := by
    rintro ⟨h', k⟩ b hx
    by_cases hh : h' = h
    · subst hh
      rw [hslot] at hx
      exact .inl ⟨rfl, hx, (hl b).mp (List.mem_of_getElem? hx)⟩
    · rw [hother _ hh] at hx
      exact .inr ⟨hh, hx⟩
  constructor
  case owned =>
    intro x b hx
    rcases hold x b hx with ⟨-, -, hb⟩ | ⟨-, hx⟩
    · exact ⟨(hpool.inUse b hb).1, (hpool.inUse b hb).2, id⟩
    · exact ⟨(hpool.owned x b hx).1, (hpool.owned x b hx).2.1, id⟩
  case unique =>
    intro x y b hx hy
    rcases hold x b hx with ⟨hxh, hx, hb⟩ | ⟨-, hx⟩ <;> rcases hold y b hy with ⟨hyh, hy, hb'⟩ | ⟨-, hy⟩
    · obtain ⟨hlt, -⟩ := List.getElem?_eq_some_iff.mp hx
      exact Prod.ext (hxh.trans hyh.symm) ((List.getElem?_inj hlt hnodup).mp (hx.trans hy.symm))
    · exact absurd hb (hpool.owned y b hy).2.2
    · exact absurd hb' (hpool.owned x b hx).2.2
    · exact hpool.unique x y b hx hy
  case inUse => exact fun b hb => hb.elim
  case covered =>
    intro b hb huse
    refine .inr ?_
    rcases hpool.covered b hb huse with hloose | ⟨x, hx⟩
    · obtain ⟨k, hk⟩ := List.mem_iff_getElem?.mp ((hl b).mpr hloose)
      exact ⟨(h, k), (hslot k).trans hk⟩
    · have hne : x.1 ≠ h := by
        rintro rfl
        rw [hempty x.2] at hx
        cases hx
      exact ⟨x, (hother x hne).trans hx⟩

theorem detach (hpool : Exact area used slot loose) (slot' : ι → Option β) (gone : Set ι)
    (hempty : ∀ x ∈ gone, slot' x = none) (hother : ∀ x ∉ gone, slot' x = slot x) :
    Exact area used slot' (loose ∪ {b | ∃ x ∈ gone, slot x = some b}) := by
  have hold : ∀ y c, slot' y = some c → y ∉ gone ∧ slot y = some c := by
    intro y c hy
    by_cases hgone : y ∈ gone
    · rw [hempty y hgone] at hy
      cases hy
    · exact ⟨hgone, by rw [← hother y hgone, hy]⟩
  constructor
  case owned =>
    intro y c hy
    obtain ⟨hgone, hy⟩ := hold y c hy
    obtain ⟨harea, huse, hloose⟩ := hpool.owned y c hy
    refine ⟨harea, huse, fun h => ?_⟩
    rcases h with h | ⟨x, hx, hxc⟩
    · exact hloose h
    · exact hgone (hpool.unique x y c hxc hy ▸ hx)
  case unique => exact fun y z c hy hz => hpool.unique y z c (hold y c hy).2 (hold z c hz).2
  case inUse =>
    intro c hc
    rcases hc with hc | ⟨x, -, hx⟩
    · exact hpool.inUse c hc
    · exact ⟨(hpool.owned x c hx).1, (hpool.owned x c hx).2.1⟩
  case covered =>
    intro c hc huse
    rcases hpool.covered c hc huse with h | ⟨x, hx⟩
    · exact .inl (.inl h)
    · by_cases hgone : x ∈ gone
      · exact .inl (.inr ⟨x, hgone, hx⟩)
      · exact .inr ⟨x, by rw [hother x hgone, hx]⟩

end Exact

end Pool
