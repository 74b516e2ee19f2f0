import Mathlib.Data.List.Basic
import Mathlib.Data.Nat.ModEq
import Mathlib.Tactic.Common

/-!
# Ring buffers

A ring of `cap` cells holds the values that were put in and not taken out yet. The counters of what
was put in and taken out run freely; a cell is found by reducing them modulo `cap`.
-/

namespace Ring

variable {α : Type} {cap : Nat}

def content (cap : Nat) (cell : Nat → α) (r n : Nat) : List α :=
  (List.range n).map fun k => cell ((r + k) % cap)

@[simp]
theorem length_content (cell : Nat → α) (r n : Nat) : (content cap cell r n).length = n := by
  simp [content]

theorem content_succ (cell : Nat → α) (r n : Nat) :
    content cap cell r (n + 1) = cell (r % cap) :: content cap cell (r + 1) n := by
  simp only [content, List.range_succ_eq_map, List.map_cons, List.map_map, Nat.add_zero]
  congr 1
  refine List.map_congr_left fun k _ => ?_
  simp only [Function.comp_apply, Nat.succ_eq_add_one, Nat.add_assoc, Nat.add_comm 1 k]

theorem mod_ne_of_lt {r k n : Nat} (hk : k < n) (hn : n < cap) : (r + k) % cap ≠ (r + n) % cap := by
  intro heq
  have hsub : (r + n - (r + k)) % cap = 0 := Nat.sub_mod_eq_zero_of_mod_eq heq.symm
  rw [show r + n - (r + k) = n - k by omega, Nat.mod_eq_of_lt (by omega)] at hsub
  omega

theorem content_put {cell cell' : Nat → α} {r n : Nat} {a : α} (hn : n < cap)
    (hnew : cell' ((r + n) % cap) = a) (hold : ∀ j ≠ (r + n) % cap, cell' j = cell j) :
    content cap cell' r (n + 1) = content cap cell r n ++ [a] := by
  simp only [content, List.range_succ, List.map_append, List.map_cons, List.map_nil, hnew]
  congr 1
  refine List.map_congr_left fun k hk => hold _ ?_
  exact mod_ne_of_lt (List.mem_range.mp hk) hn

/-! ### Counters of 16 bits -/

/-- The values in the ring are `l`, the oldest first: `r` counts what was taken out and `w` what was put
in, both modulo 2¹⁶. -/
structure Queued (cap : Nat) (cell : Nat → α) (r w : UInt16) (l : List α) : Prop where
  count : w = r + UInt16.ofNat l.length
  le : l.length ≤ cap
  content : content cap cell r.toNat l.length = l

section Queued

variable {cell cell' : Nat → α} {r w : UInt16} {l : List α} {a : α}

theorem Queued.nil (cell : Nat → α) (r : UInt16) : Queued cap cell r r [] := by
  refine ⟨?_, Nat.zero_le _, rfl⟩
  simp

theorem Queued.toNat_eq (h : Queued cap cell r w l) : w.toNat = (r.toNat + l.length) % 2 ^ 16 := by
  rw [h.count, UInt16.toNat_add, UInt16.toNat_ofNat']
  simp

theorem Queued.eq_iff (h : Queued cap cell r w l) (hcap : cap < 2 ^ 16) : r = w ↔ l = [] := by
  constructor
  · intro heq
    have hcount := h.toNat_eq
    have hlt := w.toNat_lt
    have hle := h.le
    rw [heq] at hcount
    refine List.eq_nil_of_length_eq_zero ?_
    omega
  · rintro rfl
    exact (by simpa using h.count.symm : r = w)

/-- The counters wrap at a multiple of the size of the ring. -/
theorem Queued.push (h : Queued cap cell r w l) (hcap : cap ∣ 2 ^ 16) (hlt : l.length < cap)
    (hnew : cell' (w.toNat % cap) = a) (hold : ∀ j ≠ w.toNat % cap, cell' j = cell j) :
    Queued cap cell' r (w + 1) (l ++ [a]) := by
  have hcell : w.toNat % cap = (r.toNat + l.length) % cap := by
    rw [h.toNat_eq, Nat.mod_mod_of_dvd _ hcap]
  rw [hcell] at hnew hold
  refine ⟨?_, ?_, ?_⟩
  · rw [h.count, List.length_append, List.length_singleton, UInt16.ofNat_add, UInt16.add_assoc]
    rfl
  · simpa [Nat.succ_le_iff] using hlt
  · rw [List.length_append, List.length_singleton, content_put hlt hnew hold, h.content]

theorem Queued.pop (h : Queued cap cell r w (a :: l)) (hcap : cap ∣ 2 ^ 16) :
    cell (r.toNat % cap) = a ∧ Queued cap cell (r + 1) w l := by
  have hcontent := h.content
  rw [List.length_cons, content_succ, List.cons.injEq] at hcontent
  refine ⟨hcontent.1, ?_, ?_, ?_⟩
  · rw [h.count, List.length_cons, UInt16.ofNat_add, UInt16.add_comm (UInt16.ofNat l.length),
      ← UInt16.add_assoc]
    rfl
  · have := h.le
    rw [List.length_cons] at this
    omega
  · refine Eq.trans (List.map_congr_left fun k _ => ?_) hcontent.2
    have hnext : (r + 1).toNat = (r.toNat + 1) % 2 ^ 16 := UInt16.toNat_add _ _
    rw [hnext, Nat.add_mod, Nat.mod_mod_of_dvd _ hcap, ← Nat.add_mod]

end Queued

end Ring
