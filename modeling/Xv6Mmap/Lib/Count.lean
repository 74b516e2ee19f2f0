import Mathlib.Algebra.BigOperators.Group.Finset.Sigma
import Mathlib.Algebra.Order.BigOperators.Group.Finset
import Mathlib.Order.Interval.Finset.Nat

/-!
# Counting and searching

How the number of elements with a property moves when the property changes at one element, and what
a search through an initial segment of the natural numbers finds.
-/

theorem List.find?_range_some {n a : Nat} {P : Nat → Prop} [DecidablePred P]
    (hfind : (List.range n).find? (fun i => decide (P i)) = some a) : a < n ∧ P a := by
  have hmem := List.mem_of_find?_eq_some hfind
  have hprop := List.find?_some hfind
  exact ⟨List.mem_range.mp hmem, by simpa using hprop⟩

theorem List.find?_range_none {n : Nat} {P : Nat → Prop} [DecidablePred P]
    (hfind : (List.range n).find? (fun i => decide (P i)) = none) : ∀ a < n, ¬ P a := by
  intro a ha
  have hnot := List.find?_eq_none.mp hfind a (List.mem_range.mpr ha)
  simpa using hnot

namespace Finset

variable {α : Type} [DecidableEq α] {S : Finset α} {P P' : α → Prop}
  [DecidablePred P] [DecidablePred P'] {a : α}

omit [DecidableEq α] in
theorem card_filter_congr (hiff : ∀ x ∈ S, P' x ↔ P x) :
    (S.filter P').card = (S.filter P).card :=
  congrArg card (filter_congr hiff)

theorem card_filter_gain (ha : a ∈ S) (hother : ∀ x ∈ S, x ≠ a → (P' x ↔ P x))
    (hbefore : ¬ P a) (hafter : P' a) : (S.filter P').card = (S.filter P).card + 1 := by
  have hfilter : S.filter P' = insert a (S.filter P) := by
    ext x
    simp only [mem_filter, mem_insert]
    by_cases hx : x = a
    · subst hx
      simp [ha, hafter]
    · simp only [hx, false_or]
      exact and_congr_right fun hmem => hother x hmem hx
  rw [hfilter, card_insert_of_notMem]
  simp [hbefore]

theorem card_filter_loss (ha : a ∈ S) (hother : ∀ x ∈ S, x ≠ a → (P' x ↔ P x))
    (hbefore : P a) (hafter : ¬ P' a) : (S.filter P').card + 1 = (S.filter P).card :=
  (card_filter_gain ha (fun x hmem hx => (hother x hmem hx).symm) hafter hbefore).symm

/-- How much the count moves when the property changes at `a` at most. -/
theorem card_filter_change (P P' : α → Prop) [DecidablePred P] [DecidablePred P'] (ha : a ∈ S)
    (hother : ∀ x ∈ S, x ≠ a → (P' x ↔ P x)) :
    ((S.filter P').card : Int) =
      (S.filter P).card + (if P' a then 1 else 0) - (if P a then 1 else 0) := by
  have hsame : (P' a ↔ P a) → (S.filter P').card = (S.filter P).card := fun ha' =>
    card_filter_congr fun x hx => by
      by_cases hxa : x = a
      · rw [hxa]
        exact ha'
      · exact hother x hx hxa
  by_cases hafter : P' a <;> by_cases hbefore : P a <;>
    simp only [hafter, hbefore, if_true, if_false]
  · rw [hsame (iff_of_true hafter hbefore)]
    omega
  · rw [card_filter_gain ha hother hbefore hafter]
    omega
  · rw [← card_filter_loss ha hother hbefore hafter]
    omega
  · rw [hsame (iff_of_false hafter hbefore)]
    omega

/-- The numbers below `n * m` come in `n` blocks of `m`. -/
theorem card_filter_div (P : Nat → Prop) [DecidablePred P] (n m : Nat) :
    ((range (n * m)).filter fun i => P (i / m)).card = ((range n).filter P).card * m := by
  have hdiv : ∀ {b j : Nat}, j < m → (b * m + j) / m = b := fun {b j} hj => by
    rw [Nat.add_comm, Nat.add_mul_div_right _ _ (by omega), Nat.div_eq_of_lt hj, Nat.zero_add]
  have hblocks : ((range (n * m)).filter fun i => P (i / m)) =
      ((range n).filter P ×ˢ range m).image fun x => x.1 * m + x.2 := by
    ext i
    simp only [mem_filter, mem_range, mem_image, mem_product, Prod.exists]
    constructor
    · rintro ⟨hi, hP⟩
      have hm : 0 < m := Nat.pos_of_ne_zero fun hzero => by simp [hzero] at hi
      exact ⟨i / m, i % m, ⟨⟨Nat.div_lt_of_lt_mul (by rwa [Nat.mul_comm]), hP⟩, Nat.mod_lt i hm⟩,
        Nat.div_add_mod' i m⟩
    · rintro ⟨b, j, ⟨⟨hb, hP⟩, hj⟩, rfl⟩
      refine ⟨?_, by rwa [hdiv hj]⟩
      calc b * m + j < b * m + m := by omega
        _ = (b + 1) * m := by rw [Nat.add_mul, Nat.one_mul]
        _ ≤ n * m := Nat.mul_le_mul_right m hb
  rw [hblocks, card_image_of_injOn, card_product, card_range]
  rintro ⟨b, j⟩ hx ⟨c, l⟩ hy heq
  simp only [coe_product, Set.mem_prod, mem_coe, mem_range] at hx hy heq
  have hb : b = c := by rw [← hdiv (b := b) hx.2, heq, hdiv hy.2]
  subst hb
  have hj : j = l := by omega
  rw [hj]

/-- The rows below `n` have as many slots together as the interval has numbers. When all slots hold
different numbers of the interval, every number is in a slot. -/
theorem exists_of_card_slots {n lo hi : Nat} {m : Nat → Nat} {f : Nat → Nat → Nat}
    (hbound : ∀ i < n, ∀ k < m i, lo ≤ f i k ∧ f i k < hi)
    (hunique : ∀ i k i' k', k < m i → k' < m i' → f i k = f i' k' → i = i' ∧ k = k')
    (hcount : hi = lo + ∑ i ∈ range n, m i) {b : Nat} (hlow : lo ≤ b) (hhigh : b < hi) :
    ∃ i k, k < m i ∧ f i k = b := by
  let slots := (range n).sigma fun i => range (m i)
  let value : (Σ _ : Nat, Nat) → Nat := fun x => f x.1 x.2
  have hmem : ∀ x ∈ slots, x.1 < n ∧ x.2 < m x.1 := by
    intro x hx
    obtain ⟨hi, hk⟩ := mem_sigma.mp hx
    exact ⟨mem_range.mp hi, mem_range.mp hk⟩
  have hinj : Set.InjOn value slots := by
    intro x hx y hy heq
    obtain ⟨hfst, hsnd⟩ := hunique x.1 x.2 y.1 y.2 (hmem x hx).2 (hmem y hy).2 heq
    exact Sigma.ext hfst (heq_of_eq hsnd)
  have hsub : slots.image value ⊆ Ico lo hi := by
    intro a ha
    obtain ⟨x, hx, rfl⟩ := mem_image.mp ha
    exact mem_Ico.mpr (hbound x.1 (hmem x hx).1 x.2 (hmem x hx).2)
  have hcard : (Ico lo hi).card ≤ (slots.image value).card := by
    have hslots : slots.card = ∑ i ∈ range n, m i := by
      rw [card_sigma]
      exact sum_congr rfl fun i _ => card_range _
    rw [card_image_of_injOn hinj, Nat.card_Ico, hslots, hcount, Nat.add_sub_cancel_left]
  have hall : b ∈ slots.image value := by
    rw [eq_of_subset_of_card_le hsub hcard]
    exact mem_Ico.mpr ⟨hlow, hhigh⟩
  obtain ⟨x, hx, hvalue⟩ := mem_image.mp hall
  exact ⟨x.1, x.2, (hmem x hx).2, hvalue⟩

end Finset
