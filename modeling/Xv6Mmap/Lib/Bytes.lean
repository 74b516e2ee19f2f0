import Mathlib.Data.Nat.ModEq
import Mathlib.Tactic.Ring

/-!
# Numbers in bytes

Memory is a function from positions to bytes. A number of `w` bytes is stored with its least
significant byte first; copying a part of memory moves the numbers that lie inside it and leaves those
that lie outside.
-/

namespace Bytes

variable {p q src dst : Nat → UInt8} {off w n v : Nat}

/-- The first `n` bytes of `src`, copied over `dst` at `off`. -/
def splice (dst src : Nat → UInt8) (off n : Nat) : Nat → UInt8 := fun j =>
  if off ≤ j ∧ j < off + n then src (j - off) else dst j

def ofNat (v : Nat) : Nat → UInt8 := fun k => UInt8.ofNat (v / 256 ^ k)

/-- The number in the `w` bytes at `off`. -/
def get (p : Nat → UInt8) : Nat → Nat → Nat
  | _, 0 => 0
  | off, w + 1 => (p off).toNat + 256 * get p (off + 1) w

theorem splice_in (src dst : Nat → UInt8) {k : Nat} (hk : k < n) :
    splice dst src off n (off + k) = src k := by
  rw [splice, if_pos ⟨by omega, by omega⟩, Nat.add_sub_cancel_left]

theorem splice_out (src dst : Nat → UInt8) {j : Nat} (hj : j < off ∨ off + n ≤ j) :
    splice dst src off n j = dst j := by
  rw [splice, if_neg (by omega)]

theorem get_congr (hpq : ∀ j, off ≤ j → j < off + w → p j = q j) : get p off w = get q off w := by
  induction w generalizing off with
  | zero => rfl
  | succ w ih =>
      rw [get, get, hpq off (by omega) (by omega),
        ih fun j hj hlt => hpq j (by omega) (by omega)]

theorem get_shift (hpq : ∀ k < w, p (off + k) = q k) : get p off w = get q 0 w := by
  have hshift : ∀ w a, (∀ k < w, p (off + a + k) = q (a + k)) → get p (off + a) w = get q a w := by
    intro w
    induction w with
    | zero => exact fun _ _ => rfl
    | succ w ih =>
        intro a ha
        have hnext := ih (a + 1) fun k hk => by
          simpa [Nat.add_assoc, Nat.add_comm 1 k] using ha (k + 1) (by omega)
        have hfirst : p (off + a) = q a := ha 0 (by omega)
        rw [get, get, hfirst, ← hnext, Nat.add_assoc]
  exact hshift w 0 (by simpa using hpq)

theorem get_ofNat (v w : Nat) : get (ofNat v) 0 w = v % 256 ^ w := by
  induction w generalizing v with
  | zero => simp [get, Nat.mod_one]
  | succ w ih =>
      have hnext : get (ofNat v) (0 + 1) w = get (ofNat (v / 256)) 0 w := get_shift fun k _ => by
        simp only [ofNat, Nat.div_div_eq_div_mul]
        congr 2
        ring
      rw [get, hnext, ih, pow_succ', Nat.mod_mul]
      simp [ofNat]

theorem get_lt (p : Nat → UInt8) (off w : Nat) : get p off w < 256 ^ w := by
  induction w generalizing off with
  | zero => simp [get]
  | succ w ih =>
      have hbyte : (p off).toNat < 256 := (p off).toNat_lt
      have hrest := ih (off + 1)
      rw [get, pow_succ']
      omega

theorem get_zero (hzero : ∀ j, off ≤ j → j < off + w → p j = 0) : get p off w = 0 := by
  induction w generalizing off with
  | zero => rfl
  | succ w ih =>
      rw [get, hzero off (by omega) (by omega), ih fun j hj hlt => hzero j (by omega) (by omega)]
      rfl

theorem get_splice_in (src dst : Nat → UInt8) {a : Nat} (ha : a + w ≤ n) :
    get (splice dst src off n) (off + a) w = get src a w := by
  have hleft : get (splice dst src off n) (off + a) w = get (fun k => src (a + k)) 0 w :=
    get_shift fun k hk => by rw [Nat.add_assoc, splice_in src dst (by omega)]
  exact hleft.trans (get_shift fun _ _ => rfl).symm

theorem get_splice_out (src dst : Nat → UInt8) {a : Nat} (ha : a + w ≤ off ∨ off + n ≤ a) :
    get (splice dst src off n) a w = get dst a w :=
  get_congr fun j hj hlt => splice_out src dst (by omega)

/-- A number that was stored is read back, as far as it fits. -/
theorem get_splice_mod (dst : Nat → UInt8) (v : Nat) :
    get (splice dst (ofNat v) off w) off w = v % 256 ^ w := by
  have hin : get (splice dst (ofNat v) off w) (off + 0) w = get (ofNat v) 0 w :=
    get_splice_in (ofNat v) dst (by omega)
  rw [Nat.add_zero] at hin
  rw [hin, get_ofNat]

theorem get_splice_ofNat (dst : Nat → UInt8) (hv : v < 256 ^ w) :
    get (splice dst (ofNat v) off w) off w = v := by
  rw [get_splice_mod, Nat.mod_eq_of_lt hv]

theorem get_add (p : Nat → UInt8) (off m w : Nat) :
    get p off (m + w) = get p off m + 256 ^ m * get p (off + m) w := by
  induction m generalizing off with
  | zero => rw [Nat.zero_add, Nat.add_zero, pow_zero, Nat.one_mul, get, Nat.zero_add]
  | succ m ih =>
      rw [Nat.add_right_comm, get, get, ih, Nat.add_right_comm off 1 m, Nat.add_assoc off m 1]
      ring

end Bytes
