import Xv6Mmap.Lib.Wp

/-!
# What a program leaves alone

`Keeps f x` says that `x` does not change the part `f` of the state, and `Maintains I x` that `I`
still holds after `x` when it held before, whether `x` returns or stops. The rules follow the
structure of a program, so a function keeps what all its callees keep.
-/

namespace Sequential

variable {ε σ γ α β : Type} {f : σ → γ} {I : σ → Prop}

def Keeps (f : σ → γ) (x : EStateM ε σ α) : Prop :=
  ∀ s, Wp x (fun _ t => f t = f s) (fun _ t => f t = f s) s

namespace Keeps

theorem pure (a : α) : Keeps f (pure a : EStateM ε σ α) := fun _ => .pure rfl

theorem get : Keeps f (MonadState.get : EStateM ε σ σ) := fun _ => ⟨rfl⟩

theorem modify {g : σ → σ} (hg : ∀ s, f (g s) = f s) : Keeps f (modify g : EStateM ε σ PUnit) :=
  fun s => ⟨hg s⟩

theorem bind {x : EStateM ε σ β} {g : β → EStateM ε σ α} (hx : Keeps f x)
    (hg : ∀ b, Keeps f (g b)) : Keeps f (x >>= g) := fun s =>
  .bind ((hx s).imp fun b _ ht => (hg b _).mono (fun _ _ h => h.trans ht) fun _ _ h => h.trans ht)

theorem ite {c : Prop} [Decidable c] {x y : EStateM ε σ α} (hx : Keeps f x) (hy : Keeps f y) :
    Keeps f (if c then x else y) := fun s =>
  .ite (fun _ => hx s) fun _ => hy s

/-- An `if` without `else`, and what follows it. -/
theorem when {c : Prop} [Decidable c] {x : EStateM ε σ PUnit} {g : PUnit → EStateM ε σ α}
    (hx : Keeps f x) (hg : ∀ u, Keeps f (g u)) : Keeps f (if c then x >>= g else g ⟨⟩) :=
  .ite (.bind hx hg) (hg _)

theorem branch {c : Prop} [Decidable c] {x y : EStateM ε σ β} {g : β → EStateM ε σ α}
    (hx : Keeps f x) (hy : Keeps f y) (hg : ∀ b, Keeps f (g b)) :
    Keeps f (if c then x >>= g else y >>= g) :=
  .ite (.bind hx hg) (.bind hy hg)

/-- What depends only on a part that is kept is kept. -/
theorem of_part {δ : Type} {g : σ → δ} {x : EStateM ε σ α} (hx : Keeps f x)
    (hg : ∀ s t, f t = f s → g t = g s) : Keeps g x := fun s =>
  (hx s).mono (fun _ t ht => hg s t ht) fun _ t ht => hg s t ht

theorem forUp {step : Nat} {body : Nat → EStateM ε σ Unit} (hbody : ∀ a, Keeps f (body a))
    (n a : Nat) : Keeps f (forUp step body n a) := by
  induction n generalizing a with
  | zero => exact .pure ()
  | succ n ih => exact .bind (hbody a) fun _ => ih (a + step)

end Keeps

def Maintains (I : σ → Prop) (x : EStateM ε σ α) : Prop :=
  ∀ s, I s → Wp x (fun _ => I) (fun _ => I) s

namespace Maintains

theorem of_keeps {x : EStateM ε σ α} (hx : Keeps f x) (hI : ∀ s t, f t = f s → I s → I t) :
    Maintains I x := fun s hs =>
  (hx s).mono (fun _ t ht => hI s t ht hs) fun _ t ht => hI s t ht hs

theorem pure (a : α) : Maintains I (pure a : EStateM ε σ α) := fun _ hs => .pure hs

theorem modify {g : σ → σ} (hg : ∀ s, I s → I (g s)) :
    Maintains I (modify g : EStateM ε σ PUnit) := fun s hs => ⟨hg s hs⟩

theorem bind {x : EStateM ε σ β} {g : β → EStateM ε σ α} (hx : Maintains I x)
    (hg : ∀ b, Maintains I (g b)) : Maintains I (x >>= g) := fun s hs =>
  .bind ((hx s hs).imp fun b t ht => hg b t ht)

/-- What is read from a state can be assumed to come from one where `I` holds. -/
theorem get {g : σ → EStateM ε σ α} (hg : ∀ s, I s → Maintains I (g s)) :
    Maintains I (MonadState.get >>= g) := fun s hs => .get (hg s hs s hs)

theorem ite {c : Prop} [Decidable c] {x y : EStateM ε σ α} (hx : c → Maintains I x)
    (hy : ¬ c → Maintains I y) : Maintains I (if c then x else y) := fun s hs =>
  .ite (fun hc => hx hc s hs) fun hc => hy hc s hs

theorem when {c : Prop} [Decidable c] {x : EStateM ε σ PUnit} {g : PUnit → EStateM ε σ α}
    (hx : c → Maintains I x) (hg : ∀ u, Maintains I (g u)) :
    Maintains I (if c then x >>= g else g ⟨⟩) :=
  .ite (fun hc => .bind (hx hc) hg) fun _ => hg _

theorem branch {c : Prop} [Decidable c] {x y : EStateM ε σ β} {g : β → EStateM ε σ α}
    (hx : Maintains I x) (hy : Maintains I y) (hg : ∀ b, Maintains I (g b)) :
    Maintains I (if c then x >>= g else y >>= g) :=
  .ite (fun _ => .bind hx hg) fun _ => .bind hy hg

theorem forUp {step : Nat} {body : Nat → EStateM ε σ Unit} (hbody : ∀ a, Maintains I (body a))
    (n a : Nat) : Maintains I (forUp step body n a) := by
  induction n generalizing a with
  | zero => exact .pure ()
  | succ n ih => exact .bind (hbody a) fun _ => ih (a + step)

end Maintains

theorem Wp.final {x : EStateM ε σ α} {s : σ} (hwp : Wp x (fun _ => I) (fun _ => I) s) :
    I (final (x s)) := by
  cases hrun : x s with
  | ok a t => exact hwp.ok hrun
  | error e t => exact hwp.error hrun

end Sequential
