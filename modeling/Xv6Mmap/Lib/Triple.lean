import Xv6Mmap.Lib.Keeps

/-!
# Triples

`Triple E P x Q`: from a state with `P`, the program `x` either returns in a state with `Q`, or stops
for a reason that `E` allows.
-/

namespace Sequential

variable {ε σ γ α β : Type} {E : ε → Prop} {P P' : σ → Prop} {Q Q' : α → σ → Prop}

def Triple (E : ε → Prop) (P : σ → Prop) (x : EStateM ε σ α) (Q : α → σ → Prop) : Prop :=
  ∀ s, P s → Wp x Q (fun e _ => E e) s

namespace Triple

theorem pure {a : α} (hpost : ∀ s, P s → Q a s) : Triple E P (pure a) Q := fun s hs =>
  .pure (hpost s hs)

theorem bind {x : EStateM ε σ β} {f : β → EStateM ε σ α} {R : β → σ → Prop}
    (hx : Triple E P x R) (hf : ∀ b, Triple E (R b) (f b) Q) : Triple E P (x >>= f) Q := fun s hs =>
  .bind ((hx s hs).imp fun b t ht => hf b t ht)

theorem conseq {x : EStateM ε σ α} (hx : Triple E P' x Q') (hpre : ∀ s, P s → P' s)
    (hpost : ∀ a s, Q' a s → Q a s) : Triple E P x Q := fun s hs =>
  (hx s (hpre s hs)).imp hpost

theorem pre {x : EStateM ε σ α} (hx : Triple E P' x Q) (hpre : ∀ s, P s → P' s) : Triple E P x Q :=
  hx.conseq hpre fun _ _ h => h

theorem post {x : EStateM ε σ α} (hx : Triple E P x Q') (hpost : ∀ a s, Q' a s → Q a s) :
    Triple E P x Q :=
  hx.conseq (fun _ h => h) hpost

theorem lift {x : EStateM ε σ α} {c : Prop} (hx : c → Triple E P x Q) :
    Triple E (fun s => c ∧ P s) x Q := fun s hs => hx hs.1 s hs.2

theorem ite {c : Prop} [Decidable c] {x y : EStateM ε σ α} (hx : c → Triple E P x Q)
    (hy : ¬ c → Triple E P y Q) : Triple E P (if c then x else y) Q := fun s hs =>
  .ite (fun hc => hx hc s hs) fun hc => hy hc s hs

theorem when {c : Prop} [Decidable c] {x : EStateM ε σ PUnit} {g : PUnit → EStateM ε σ α}
    (hx : c → Triple E P x fun _ => P) (hg : ∀ u, Triple E P (g u) Q) :
    Triple E P (if c then x >>= g else g ⟨⟩) Q :=
  .ite (fun hc => .bind (hx hc) hg) fun _ => hg _

theorem branch {c : Prop} [Decidable c] {x y : EStateM ε σ β} {g : β → EStateM ε σ α}
    {R : β → σ → Prop} (hx : Triple E P x R) (hy : Triple E P y R)
    (hg : ∀ b, Triple E (R b) (g b) Q) : Triple E P (if c then x >>= g else y >>= g) Q :=
  .ite (fun _ => .bind hx hg) fun _ => .bind hy hg

/-- What is read from a state is known to come from one with `P`. -/
theorem get {f : σ → EStateM ε σ α} (hf : ∀ s, P s → Triple E P (f s) Q) :
    Triple E P (MonadState.get >>= f) Q := fun s hs => .get (hf s hs s hs)

theorem of_keeps {x : EStateM ε σ α} {f : σ → γ} (hx : Keeps f x) (hE : ∀ e, E e)
    (hP : ∀ s t, f t = f s → P s → P t) : Triple E P x fun _ => P := fun s hs =>
  (hx s).mono (fun _ t ht => hP s t ht hs) fun e _ _ => hE e

end Triple

end Sequential
