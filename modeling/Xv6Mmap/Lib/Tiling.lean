import Mathlib.Algebra.GroupWithZero.Nat
import Mathlib.Order.Interval.Finset.Nat
import Mathlib.Tactic.Common

/-!
# Tilings by intervals

Blocks are given by where they start and how long they are. They tile a set of addresses when they
do not overlap and cover it. Neighbours can be merged and a block can be split.
-/

namespace Tiling

structure Tiles (B : Finset Nat) (len : Nat → Nat) (X : Set Nat) : Prop where
  pos : ∀ x ∈ B, 0 < len x
  apart : ∀ x ∈ B, ∀ y ∈ B, x < y → x + len x ≤ y
  cover : ∀ a, a ∈ X ↔ ∃ x ∈ B, x ≤ a ∧ a < x + len x

section Tiles

variable {B : Finset Nat} {len len' : Nat → Nat} {X : Set Nat} {x y n : Nat}

theorem Tiles.congr (htiles : Tiles B len X) (hsame : ∀ z ∈ B, len' z = len z) : Tiles B len' X where
  pos z hz := hsame z hz ▸ htiles.pos z hz
  apart z hz w hw := hsame z hz ▸ htiles.apart z hz w hw
  cover a := by
    rw [htiles.cover]
    refine exists_congr fun z => and_congr_right fun hz => ?_
    rw [hsame z hz]

theorem Tiles.merge (htiles : Tiles B len X) (hx : x ∈ B) (hy : y ∈ B) (hadj : x + len x = y)
    (hlen : len' x = len x + len y) (hsame : ∀ z ∈ B, z ≠ x → z ≠ y → len' z = len z) :
    Tiles (B.erase y) len' X := by
  have hxpos := htiles.pos x hx
  refine ⟨fun z hz => ?_, fun z hz w hw hlt => ?_, fun a => ?_⟩
  · obtain ⟨hzy, hz⟩ := Finset.mem_erase.mp hz
    have hpos := htiles.pos z hz
    by_cases hzx : z = x
    · rw [hzx, hlen]
      omega
    · rwa [hsame z hz hzx hzy]
  · obtain ⟨hzy, hz⟩ := Finset.mem_erase.mp hz
    obtain ⟨hwy, hw⟩ := Finset.mem_erase.mp hw
    have hle := htiles.apart z hz w hw hlt
    by_cases hzx : z = x
    · subst hzx
      have hyw := htiles.apart y hy w hw (by omega)
      omega
    · rwa [hsame z hz hzx hzy]
  · rw [htiles.cover]
    constructor
    · rintro ⟨z, hz, hza, haz⟩
      by_cases hzx : z = x
      · subst hzx
        exact ⟨z, Finset.mem_erase.mpr ⟨by omega, hz⟩, hza, by omega⟩
      · by_cases hzy : z = y
        · subst hzy
          exact ⟨x, Finset.mem_erase.mpr ⟨by omega, hx⟩, by omega, by omega⟩
        · exact ⟨z, Finset.mem_erase.mpr ⟨hzy, hz⟩, hza, by rwa [hsame z hz hzx hzy]⟩
    · rintro ⟨z, hz, hza, haz⟩
      obtain ⟨hzy, hz⟩ := Finset.mem_erase.mp hz
      by_cases hzx : z = x
      · subst hzx
        by_cases hya : y ≤ a
        · exact ⟨y, hy, hya, by omega⟩
        · exact ⟨z, hz, hza, by omega⟩
      · exact ⟨z, hz, hza, by rwa [hsame z hz hzx hzy] at haz⟩

theorem Tiles.not_mem (htiles : Tiles B len X) (hx : x ∈ B) (hlt : x < y) (hend : y < x + len x) :
    y ∉ B := fun hy => absurd (htiles.apart x hx y hy hlt) (by omega)

theorem Tiles.split (htiles : Tiles B len X) (hx : x ∈ B) (hn : 0 < n) (hlt : n < len x)
    (hy : y = x + (len x - n)) (hlenx : len' x = len x - n) (hleny : len' y = n)
    (hsame : ∀ z ∈ B, z ≠ x → len' z = len z) : Tiles (insert y B) len' X := by
  have hxy : x < y := by omega
  have hend : y < x + len x := by omega
  refine ⟨fun z hz => ?_, fun z hz w hw hzw => ?_, fun a => ?_⟩
  · rcases Finset.mem_insert.mp hz with rfl | hz
    · omega
    · by_cases hzx : z = x
      · rw [hzx]
        omega
      · rw [hsame z hz hzx]
        exact htiles.pos z hz
  · rcases Finset.mem_insert.mp hz with hzy | hzB <;> rcases Finset.mem_insert.mp hw with hwy | hwB
    · omega
    · have hle := htiles.apart x hx w hwB (by omega)
      rw [hzy]
      omega
    · by_cases hzx : z = x
      · rw [hzx]
        omega
      · rw [hsame z hzB hzx]
        rcases lt_or_gt_of_ne hzx with h | h
        · have hle := htiles.apart z hzB x hx h
          omega
        · have hle := htiles.apart x hx z hzB h
          omega
    · have hle := htiles.apart z hzB w hwB hzw
      by_cases hzx : z = x
      · subst hzx
        omega
      · rwa [hsame z hzB hzx]
  · rw [htiles.cover]
    constructor
    · rintro ⟨z, hz, hza, haz⟩
      by_cases hzx : z = x
      · subst hzx
        by_cases hya : y ≤ a
        · exact ⟨y, Finset.mem_insert_self y B, hya, by omega⟩
        · exact ⟨z, Finset.mem_insert_of_mem hz, hza, by omega⟩
      · exact ⟨z, Finset.mem_insert_of_mem hz, hza, by rwa [hsame z hz hzx]⟩
    · rintro ⟨z, hz, hza, haz⟩
      rcases Finset.mem_insert.mp hz with rfl | hz
      · exact ⟨x, hx, by omega, by omega⟩
      · by_cases hzx : z = x
        · subst hzx
          exact ⟨z, hz, hza, by omega⟩
        · exact ⟨z, hz, hza, by rwa [hsame z hz hzx] at haz⟩

theorem Tiles.add (htiles : Tiles B len X) (hn : 0 < n) (habove : ∀ a ∈ X, a < y)
    (hlen : len' y = n) (hsame : ∀ z ∈ B, len' z = len z) :
    Tiles (insert y B) len' (X ∪ Set.Ico y (y + n)) := by
  have hbelow : ∀ z ∈ B, z + len z ≤ y := by
    intro z hz
    have hpos := htiles.pos z hz
    have hlt := habove (z + len z - 1) ((htiles.cover _).mpr ⟨z, hz, by omega, by omega⟩)
    omega
  refine ⟨fun z hz => ?_, fun z hz w hw hzw => ?_, fun a => ?_⟩
  · rcases Finset.mem_insert.mp hz with rfl | hz
    · omega
    · rw [hsame z hz]
      exact htiles.pos z hz
  · rcases Finset.mem_insert.mp hz with hzy | hzB <;> rcases Finset.mem_insert.mp hw with hwy | hwB
    · omega
    · have hle := hbelow w hwB
      omega
    · rw [hsame z hzB, hwy]
      exact hbelow z hzB
    · rw [hsame z hzB]
      exact htiles.apart z hzB w hwB hzw
  · rw [Set.mem_union, htiles.cover, Set.mem_Ico]
    constructor
    · rintro (⟨z, hz, hza, haz⟩ | ⟨hya, hay⟩)
      · exact ⟨z, Finset.mem_insert_of_mem hz, hza, by rwa [hsame z hz]⟩
      · exact ⟨y, Finset.mem_insert_self y B, hya, by omega⟩
    · rintro ⟨z, hz, hza, haz⟩
      rcases Finset.mem_insert.mp hz with rfl | hz
      · exact Or.inr ⟨hza, by omega⟩
      · exact Or.inl ⟨z, hz, hza, by rwa [hsame z hz] at haz⟩

end Tiles

/-! ### Areas -/

/-- The addresses in a list of areas, each given by its start and its length. -/
def covered (A : List (Nat × Nat)) : Set Nat := {a | ∃ r ∈ A, r.1 ≤ a ∧ a < r.1 + r.2}

def total (A : List (Nat × Nat)) : Nat := (A.map Prod.snd).sum

section Areas

variable {A : List (Nat × Nat)} {B : Finset Nat} {len : Nat → Nat} {x p n : Nat}

theorem covered_append : covered (A ++ [(p, n)]) = covered A ∪ Set.Ico p (p + n) := by
  ext a
  simp [covered, or_and_right, exists_or]

theorem total_append : total (A ++ [(p, n)]) = total A + n := by
  simp [total]

/-- Areas that lie one above the other between `lo` and `hi`. -/
theorem total_le {lo hi : Nat} (hsorted : A.Pairwise fun r q => r.1 + r.2 ≤ q.1) (hlo : lo ≤ hi)
    (hstart : ∀ r ∈ A, lo ≤ r.1) (hend : ∀ r ∈ A, r.1 + r.2 ≤ hi) : lo + total A ≤ hi := by
  induction A generalizing lo with
  | nil => simpa [total] using hlo
  | cons r A ih =>
      obtain ⟨hr, hsorted⟩ := List.pairwise_cons.mp hsorted
      have hrest := ih hsorted (hend r List.mem_cons_self) hr fun q hq =>
        hend q (List.mem_cons_of_mem r hq)
      have hlo' := hstart r List.mem_cons_self
      have htotal : total (r :: A) = r.2 + total A := by simp [total]
      omega

def cells : List (Nat × Nat) → Finset Nat
  | [] => ∅
  | r :: A => Finset.Ico r.1 (r.1 + r.2) ∪ cells A

theorem mem_cells {a : Nat} : a ∈ cells A ↔ a ∈ covered A := by
  induction A with
  | nil => simp [cells, covered]
  | cons r A ih =>
      rw [cells, Finset.mem_union, ih, Finset.mem_Ico]
      simp [covered]

theorem card_cells_le : (cells A).card ≤ total A := by
  induction A with
  | nil => simp [cells, total]
  | cons r A ih =>
      calc (cells (r :: A)).card
          ≤ (Finset.Ico r.1 (r.1 + r.2)).card + (cells A).card := Finset.card_union_le _ _
        _ = r.2 + (cells A).card := by rw [Nat.card_Ico, Nat.add_sub_cancel_left]
        _ ≤ r.2 + total A := Nat.add_le_add_left ih _
        _ = total (r :: A) := by simp [total]

theorem Tiles.len_le (htiles : Tiles B len (covered A)) (hx : x ∈ B) : len x ≤ total A := by
  have hsub : Finset.Ico x (x + len x) ⊆ cells A := by
    intro a ha
    obtain ⟨hxa, hax⟩ := Finset.mem_Ico.mp ha
    exact mem_cells.mpr ((htiles.cover a).mpr ⟨x, hx, hxa, hax⟩)
  calc len x = (Finset.Ico x (x + len x)).card := by rw [Nat.card_Ico, Nat.add_sub_cancel_left]
    _ ≤ (cells A).card := Finset.card_le_card hsub
    _ ≤ total A := card_cells_le

end Areas

end Tiling
