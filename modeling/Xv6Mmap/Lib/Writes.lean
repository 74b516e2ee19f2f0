import Mathlib.Data.List.Basic
import Mathlib.Tactic.Common

/-!
# Lists of writes

A list of writes to a store: the last write to a key wins, and the other keys keep what they had.
Applying a whole list after any part of it is the same as applying it alone, which is what makes a
redo log safe to replay.
-/

namespace Writes

variable {κ α : Type}

def upTo (key : Nat → κ) (val : Nat → α) (n : Nat) : List (κ × α) :=
  (List.range n).map fun i => (key i, val i)

theorem upTo_succ (key : Nat → κ) (val : Nat → α) (n : Nat) :
    upTo key val (n + 1) = upTo key val n ++ [(key n, val n)] := by
  simp [upTo, List.range_succ]

theorem mem_upTo {key : Nat → κ} {val : Nat → α} {n : Nat} {w : κ × α} :
    w ∈ upTo key val n ↔ ∃ i < n, (key i, val i) = w := by
  simp [upTo]

theorem upTo_subset (key : Nat → κ) (val : Nat → α) {m n : Nat} (hmn : m ≤ n) :
    upTo key val m ⊆ upTo key val n := by
  intro w hw
  obtain ⟨i, hi, heq⟩ := mem_upTo.mp hw
  exact mem_upTo.mpr ⟨i, by omega, heq⟩

theorem upTo_congr {key key' : Nat → κ} {val val' : Nat → α} {n : Nat}
    (hkey : ∀ i < n, key i = key' i) (hval : ∀ i < n, val i = val' i) :
    upTo key val n = upTo key' val' n := by
  refine List.map_congr_left fun i hi => ?_
  have hlt := List.mem_range.mp hi
  rw [hkey i hlt, hval i hlt]

variable [DecidableEq κ]

/-- What the last write to `x` wrote. -/
def last : List (κ × α) → κ → Option α
  | [], _ => none
  | w :: ws, x => (last ws x).or (if w.1 = x then some w.2 else none)

def apply (ws : List (κ × α)) (store : κ → α) : κ → α := fun x => (last ws x).getD (store x)

@[simp]
theorem last_nil (x : κ) : last ([] : List (κ × α)) x = none := rfl

theorem last_append (ws vs : List (κ × α)) (x : κ) :
    last (ws ++ vs) x = (last vs x).or (last ws x) := by
  induction ws with
  | nil => simp
  | cons w ws ih => simp only [List.cons_append, last, ih, Option.or_assoc]

theorem last_concat (ws : List (κ × α)) (k : κ) (v : α) (x : κ) :
    last (ws ++ [(k, v)]) x = if k = x then some v else last ws x := by
  rw [last_append]
  by_cases hx : k = x
  · simp [last, hx]
  · simp [last, hx]

theorem last_eq_none {ws : List (κ × α)} {x : κ} : last ws x = none ↔ ∀ w ∈ ws, w.1 ≠ x := by
  induction ws with
  | nil => simp
  | cons w ws ih =>
      by_cases hx : w.1 = x
      · simp [last, hx]
      · simp [last, hx, ih]

theorem apply_of_notMem {ws : List (κ × α)} {x : κ} (hnot : ∀ w ∈ ws, w.1 ≠ x) (store : κ → α) :
    apply ws store x = store x := by
  rw [apply, last_eq_none.mpr hnot, Option.getD_none]

theorem apply_append (ws vs : List (κ × α)) (store : κ → α) :
    apply (ws ++ vs) store = apply vs (apply ws store) := by
  funext x
  simp only [apply, last_append]
  cases last vs x <;> simp

theorem apply_concat (ws : List (κ × α)) (k : κ) (v : α) (store : κ → α) :
    apply (ws ++ [(k, v)]) store = Function.update (apply ws store) k v := by
  funext x
  simp only [apply, last_concat, Function.update_apply, eq_comm (a := x)]
  split <;> simp

theorem apply_congr (ws : List (κ × α)) {store store' : κ → α} {x : κ}
    (hstore : store x = store' x) : apply ws store x = apply ws store' x := by
  rw [apply, apply, hstore]

/-- Writes that were made before as a part of the list are made again. -/
theorem apply_apply_of_subset {ws vs : List (κ × α)} (hsub : vs ⊆ ws) (store : κ → α) :
    apply ws (apply vs store) = apply ws store := by
  funext x
  simp only [apply]
  cases hlast : last ws x with
  | some v => rfl
  | none =>
      have hnone : last vs x = none :=
        last_eq_none.mpr fun w hw => last_eq_none.mp hlast w (hsub hw)
      rw [hnone]
      rfl

theorem last_upTo (key : Nat → κ) (val : Nat → α) {n i : Nat}
    (hinj : ∀ i < n, ∀ j < n, key i = key j → i = j) (hi : i < n) :
    last (upTo key val n) (key i) = some (val i) := by
  induction n with
  | zero => omega
  | succ n ih =>
      rw [upTo_succ, last_concat]
      by_cases heq : key n = key i
      · rw [if_pos heq, hinj n (by omega) i hi heq]
      · have hne : i ≠ n := fun h => heq (by rw [h])
        rw [if_neg heq]
        exact ih (fun a ha b hb => hinj a (by omega) b (by omega)) (by omega)

theorem last_upTo_of_notMem {key : Nat → κ} {val : Nat → α} {n : Nat} {x : κ}
    (hnot : ∀ i < n, key i ≠ x) : last (upTo key val n) x = none := by
  refine last_eq_none.mpr fun w hw => ?_
  obtain ⟨i, hi, rfl⟩ := mem_upTo.mp hw
  exact hnot i hi

end Writes
