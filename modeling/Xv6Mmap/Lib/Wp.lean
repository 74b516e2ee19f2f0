import Mathlib.Tactic.Common

/-!
# Weakest preconditions for programs that can stop

`Wp x Q E s` says what a run of `x` from `s` ends in: `Q` of the value and the state when it
returns, `E` of the error and the state when it stops. The rules follow the structure of a program.
-/

namespace Sequential

variable {ε σ α β : Type} {Q Q' : α → σ → Prop} {E E' : ε → σ → Prop} {s : σ}

structure Wp (x : EStateM ε σ α) (Q : α → σ → Prop) (E : ε → σ → Prop) (s : σ) : Prop where
  outcome : match x s with
    | .ok a s' => Q a s'
    | .error e s' => E e s'

theorem Wp.of_ok {x : EStateM ε σ α} {a : α} {s' : σ} (hrun : x s = .ok a s') (hpost : Q a s') :
    Wp x Q E s :=
  ⟨by simpa only [hrun] using hpost⟩

theorem Wp.of_error {x : EStateM ε σ α} {e : ε} {s' : σ} (hrun : x s = .error e s')
    (hpost : E e s') : Wp x Q E s :=
  ⟨by simpa only [hrun] using hpost⟩

theorem Wp.ok {x : EStateM ε σ α} {a : α} {s' : σ} (hwp : Wp x Q E s) (hrun : x s = .ok a s') :
    Q a s' := by
  simpa only [hrun] using hwp.outcome

theorem Wp.error {x : EStateM ε σ α} {e : ε} {s' : σ} (hwp : Wp x Q E s)
    (hrun : x s = .error e s') : E e s' := by
  simpa only [hrun] using hwp.outcome

/-- The value that a run returns, for runs that can be evaluated. -/
def value : EStateM.Result ε σ α → Option α
  | .ok a _ => some a
  | .error _ _ => none

def final : EStateM.Result ε σ α → σ
  | .ok _ t => t
  | .error _ t => t

theorem run_of_value {x : EStateM ε σ α} {a : α} (hvalue : value (x s) = some a) :
    x s = .ok a (final (x s)) := by
  cases hrun : x s with
  | ok b t =>
      rw [hrun] at hvalue
      rw [Option.some.inj hvalue]
      rfl
  | error e t =>
      rw [hrun] at hvalue
      cases hvalue

theorem value_of_run {x : EStateM ε σ α} {a b : α} {t : σ} (hvalue : value (x s) = some a)
    (hrun : x s = .ok b t) : a = b := by
  rw [hrun] at hvalue
  exact (Option.some.inj hvalue).symm

theorem Wp.returns {x : EStateM ε σ α} (hwp : Wp x Q (fun _ _ => False) s) :
    ∃ a s', x s = .ok a s' ∧ Q a s' := by
  cases hrun : x s with
  | ok a s' => exact ⟨a, s', rfl, hwp.ok hrun⟩
  | error e s' => exact (hwp.error hrun).elim

theorem Wp.mono {x : EStateM ε σ α} (hwp : Wp x Q E s) (hpost : ∀ a s', Q a s' → Q' a s')
    (herror : ∀ e s', E e s' → E' e s') : Wp x Q' E' s := by
  cases hrun : x s with
  | ok a s' => exact .of_ok hrun (hpost a s' (hwp.ok hrun))
  | error e s' => exact .of_error hrun (herror e s' (hwp.error hrun))

theorem Wp.imp {x : EStateM ε σ α} (hwp : Wp x Q E s) (hpost : ∀ a s', Q a s' → Q' a s') :
    Wp x Q' E s :=
  hwp.mono hpost fun _ _ h => h

theorem Wp.and {x : EStateM ε σ α} (hwp : Wp x Q E s) (hwp' : Wp x Q' E' s) :
    Wp x (fun a s' => Q a s' ∧ Q' a s') (fun e s' => E e s' ∧ E' e s') s := by
  cases hrun : x s with
  | ok a s' => exact .of_ok hrun ⟨hwp.ok hrun, hwp'.ok hrun⟩
  | error e s' => exact .of_error hrun ⟨hwp.error hrun, hwp'.error hrun⟩

theorem Wp.any (x : EStateM ε σ α) (s : σ) : Wp x (fun _ _ => True) (fun _ _ => True) s := by
  cases hrun : x s with
  | ok a t => exact .of_ok hrun trivial
  | error e t => exact .of_error hrun trivial

/-- Programs that run the same way from `s`. -/
theorem Wp.congr {x y : EStateM ε σ α} (hrun : x s = y s) (hwp : Wp y Q E s) : Wp x Q E s :=
  ⟨by simpa only [hrun] using hwp.outcome⟩

theorem Wp.pure {a : α} (hpost : Q a s) : Wp (pure a : EStateM ε σ α) Q E s := ⟨hpost⟩

theorem Wp.bind {x : EStateM ε σ β} {f : β → EStateM ε σ α}
    (hwp : Wp x (fun b s' => Wp (f b) Q E s') E s) : Wp (x >>= f) Q E s := by
  constructor
  show match EStateM.bind x f s with | .ok a s' => Q a s' | .error e s' => E e s'
  unfold EStateM.bind
  cases hrun : x s with
  | ok b s' => exact (hwp.ok hrun).outcome
  | error e s' => exact hwp.error hrun

theorem Wp.get {f : σ → EStateM ε σ α} (hwp : Wp (f s) Q E s) :
    Wp (MonadState.get >>= f) Q E s :=
  ⟨hwp.outcome⟩

theorem Wp.ite {c : Prop} [Decidable c] {x y : EStateM ε σ α} (hthen : c → Wp x Q E s)
    (helse : ¬ c → Wp y Q E s) : Wp (if c then x else y) Q E s := by
  by_cases hc : c
  · rw [if_pos hc]
    exact hthen hc
  · rw [if_neg hc]
    exact helse hc

theorem Wp.when {c : Prop} [Decidable c] {x : EStateM ε σ Unit} {f : Unit → EStateM ε σ α}
    (P : σ → Prop) (hthen : c → Wp x (fun _ => P) E s) (helse : ¬ c → P s)
    (hnext : ∀ s', P s' → Wp (f ()) Q E s') : Wp (if c then x >>= f else f ()) Q E s :=
  .ite (fun hc => .bind ((hthen hc).imp fun _ => hnext)) fun hc => hnext s (helse hc)

/-! ### Running -/

theorem run_pure (a : α) (s : σ) : (Pure.pure a : EStateM ε σ α) s = .ok a s := rfl

theorem run_pure_bind (b : β) (f : β → EStateM ε σ α) (s : σ) :
    (Pure.pure b >>= f) s = f b s := rfl

theorem run_get_bind (f : σ → EStateM ε σ α) (s : σ) : (MonadState.get >>= f) s = f s s := rfl

theorem run_modify_bind (g : σ → σ) (f : PUnit → EStateM ε σ α) (s : σ) :
    (modify g >>= f) s = f ⟨⟩ (g s) := rfl

theorem run_ite {c : Prop} [Decidable c] (x y : EStateM ε σ α) (s : σ) :
    (if c then x else y) s = if c then x s else y s := by
  split <;> rfl

theorem run_bind_ok {x : EStateM ε σ β} {b : β} {s s' : σ} (hrun : x s = .ok b s')
    (f : β → EStateM ε σ α) : (x >>= f) s = f b s' := by
  show EStateM.bind x f s = f b s'
  simp only [EStateM.bind, hrun]

theorem run_bind_congr {x y : EStateM ε σ β} {s s' : σ} (hrun : x s = y s')
    (f : β → EStateM ε σ α) : (x >>= f) s = (y >>= f) s' := by
  show EStateM.bind x f s = EStateM.bind y f s'
  simp only [EStateM.bind, hrun]

theorem run_bind_error {x : EStateM ε σ β} {e : ε} {s s' : σ} (hrun : x s = .error e s')
    (f : β → EStateM ε σ α) : (x >>= f) s = .error e s' := by
  show EStateM.bind x f s = .error e s'
  simp only [EStateM.bind, hrun]

/-! ### Counted loops -/

/-- A `for` loop of `n` rounds whose counter starts at `a` and moves by `step`. -/
def forUp (step : Nat) (body : Nat → EStateM ε σ Unit) : Nat → Nat → EStateM ε σ Unit
  | 0, _ => Pure.pure ()
  | n + 1, a => do
    body a
    forUp step body n (a + step)

/-- `I i` holds when `i` rounds are done. -/
theorem Wp.forUp {step n a : Nat} {body : Nat → EStateM ε σ Unit} {Q : Unit → σ → Prop}
    (I : Nat → σ → Prop) (hinit : I 0 s)
    (hround : ∀ i < n, ∀ t, I i t → Wp (body (a + i * step)) (fun _ t' => I (i + 1) t') E t)
    (hdone : ∀ t, I n t → Q () t) : Wp (Sequential.forUp step body n a) Q E s := by
  induction n generalizing a s I with
  | zero => exact .pure (hdone s hinit)
  | succ n ih =>
      have hfirst := hround 0 (Nat.succ_pos n) s hinit
      rw [Nat.zero_mul, Nat.add_zero] at hfirst
      refine Wp.bind (hfirst.imp fun _ t ht => ?_)
      refine ih (fun i => I (i + 1)) ht (fun i hi t' ht' => ?_) hdone
      have hnext := hround (i + 1) (by omega) t' ht'
      rwa [Nat.add_mul, Nat.one_mul, Nat.add_comm (i * step), ← Nat.add_assoc] at hnext

/-! ### Bounded loops -/

/-- `x` runs as `y` does, unless it gives up with `e`. -/
def Approx (e : ε) (x y : EStateM ε σ α) : Prop := ∀ s, (∃ t, x s = .error e t) ∨ x s = y s

section Approx

variable {e : ε} {x y z : EStateM ε σ α}

theorem Approx.refl (e : ε) (x : EStateM ε σ α) : Approx e x x := fun _ => Or.inr rfl

theorem Approx.trans (hxy : Approx e x y) (hyz : Approx e y z) : Approx e x z := by
  intro s
  rcases hxy s with h | h
  · exact Or.inl h
  · rw [h]
    exact hyz s

theorem Approx.throw (e : ε) (y : EStateM ε σ α) : Approx e (throw e) y := fun s => Or.inl ⟨s, rfl⟩

theorem Approx.bind {x y : EStateM ε σ β} {f g : β → EStateM ε σ α} (hxy : Approx e x y)
    (hfg : ∀ b, Approx e (f b) (g b)) : Approx e (x >>= f) (y >>= g) := by
  intro s
  rcases hxy s with ⟨t, h⟩ | h
  · exact Or.inl ⟨t, run_bind_error h f⟩
  · cases hrun : x s with
    | ok b t =>
        rw [run_bind_ok hrun, run_bind_ok (h ▸ hrun)]
        exact hfg b t
    | error e' t =>
        rw [run_bind_error hrun, run_bind_error (h ▸ hrun)]
        exact Or.inr rfl

theorem Approx.ite {c : Prop} [Decidable c] {x x' y y' : EStateM ε σ α} (hx : Approx e x x')
    (hy : Approx e y y') : Approx e (if c then x else y) (if c then x' else y') := by
  split
  · exact hx
  · exact hy

theorem Approx.ok {a : α} {s t : σ} (hxy : Approx e x y) (hrun : x s = .ok a t) : y s = .ok a t := by
  rcases hxy s with ⟨t', h⟩ | h
  · rw [hrun] at h
    cases h
  · rw [← h, hrun]

/-- A bound that is raised step by step. -/
theorem Approx.mono {f : Nat → EStateM ε σ α} (hstep : ∀ n, Approx e (f n) (f (n + 1))) {m n : Nat}
    (hle : m ≤ n) : Approx e (f m) (f n) := by
  induction hle with
  | refl => exact .refl e _
  | step _ ih => exact ih.trans (hstep _)

end Approx

end Sequential
