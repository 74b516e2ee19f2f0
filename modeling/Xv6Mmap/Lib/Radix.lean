import Mathlib.Algebra.Group.Nat.Defs
import Mathlib.Data.Set.Insert
import Mathlib.Order.Basic
import Mathlib.Tactic.Common

/-!
# Radix trees in paged memory

A tree of fixed height whose nodes are pages of `width` words. A word above the bottom level is empty
or refers to the page of the node below it; a word of the bottom level is the entry of one key. The
shape of the tree is kept apart from the memory it lies in, as a partial function from the place of a
node, its level and its index in the level, to its page. Node `i` of a level has the nodes
`i * width + j` below it.
-/

namespace Radix

/-- The format of the words: the page a word above the bottom refers to, and what may stand there. -/
structure Format (W : Type) where
  width : Nat
  height : Nat
  page : W → Option Nat
  inner : W → Prop
  empty : W
  width_pos : 0 < width
  page_empty : page empty = none
  inner_empty : inner empty

section Index

variable {W : Type} (F : Format W) {i j : Nat}

theorem Format.child_div (hj : j < F.width) : (i * F.width + j) / F.width = i := by
  rw [Nat.mul_comm, Nat.mul_add_div F.width_pos, Nat.div_eq_of_lt hj, Nat.add_zero]

theorem Format.child_mod (hj : j < F.width) : (i * F.width + j) % F.width = j := by
  rw [Nat.mul_comm, Nat.mul_add_mod, Nat.mod_eq_of_lt hj]

end Index

/-- The page of a node, given by its level and its index. -/
abbrev Shape := Nat → Nat → Option Nat

def Shape.graft (T : Shape) (l i q : Nat) : Shape := fun l' i' =>
  if l' = l ∧ i' = i then some q else T l' i'

def Shape.pages (T : Shape) : Set Nat := { q | ∃ l i, T l i = some q }

/-- The memories differ in one word, which is `w` in the second. -/
structure Stores {W : Type} (m m' : Nat → Nat → W) (q j : Nat) (w : W) : Prop where
  stored : m' q j = w
  row : ∀ j', j' ≠ j → m' q j' = m q j'
  rest : ∀ q', q' ≠ q → m' q' = m q'

section Shape

variable {T : Shape} {l i l' i' q : Nat}

theorem Shape.mem_pages (h : T l i = some q) : q ∈ T.pages := ⟨l, i, h⟩

theorem Shape.graft_self : T.graft l i q l i = some q := if_pos ⟨rfl, rfl⟩

theorem Shape.graft_of_ne (h : ¬ (l' = l ∧ i' = i)) : T.graft l i q l' i' = T l' i' := if_neg h

theorem Shape.graft_eq_some {q' : Nat} (h : T.graft l i q l' i' = some q') :
    (l' = l ∧ i' = i ∧ q' = q) ∨ (¬ (l' = l ∧ i' = i) ∧ T l' i' = some q') := by
  by_cases hplace : l' = l ∧ i' = i
  · rw [hplace.1, hplace.2, graft_self] at h
    exact Or.inl ⟨hplace.1, hplace.2, (Option.some.inj h).symm⟩
  · rw [graft_of_ne hplace] at h
    exact Or.inr ⟨hplace, h⟩

theorem Shape.graft_mono (hnone : T l i = none) {q' : Nat} (h : T l' i' = some q') :
    T.graft l i q l' i' = some q' := by
  rw [graft_of_ne, h]
  rintro ⟨rfl, rfl⟩
  rw [hnone] at h
  cases h

theorem Shape.pages_graft (hnone : T l i = none) : (T.graft l i q).pages = insert q T.pages := by
  ext x
  constructor
  · rintro ⟨l', i', h⟩
    rcases graft_eq_some h with ⟨-, -, rfl⟩ | ⟨-, hold⟩
    · exact Set.mem_insert _ _
    · exact Set.mem_insert_of_mem _ ⟨l', i', hold⟩
  · rintro (rfl | ⟨l', i', hold⟩)
    · exact ⟨l, i, graft_self⟩
    · exact ⟨l', i', graft_mono hnone hold⟩

end Shape

section Tree

variable {W : Type} (F : Format W)

/-- The words of memory link the pages as the shape says. -/
structure Tree (m : Nat → Nat → W) (T : Shape) : Prop where
  link : ∀ {l i q}, T (l + 1) i = some q → ∀ j < F.width,
    F.page (m q j) = T l (i * F.width + j) ∧ F.inner (m q j)
  parent : ∀ {l i q}, T l i = some q → l < F.height → ∃ p, T (l + 1) (i / F.width) = some p
  inj : ∀ {l i l' i' q}, T l i = some q → T l' i' = some q → l = l' ∧ i = i'
  inside : ∀ {l i q}, T l i = some q → l ≤ F.height ∧ i / F.width ^ (F.height - l) = 0

def entry (m : Nat → Nat → W) (T : Shape) (n : Nat) : W :=
  match T 0 (n / F.width) with
  | some q => m q (n % F.width)
  | none => F.empty

variable {F} {m m' : Nat → Nat → W} {T : Shape} {n q : Nat}

theorem entry_of_some (h : T 0 (n / F.width) = some q) : entry F m T n = m q (n % F.width) := by
  simp only [entry, h]

theorem entry_of_none (h : T 0 (n / F.width) = none) : entry F m T n = F.empty := by
  simp only [entry, h]

/-- A tree depends on nothing but the words of its own pages. -/
theorem Tree.frame_words (htree : Tree F m T)
    (hsame : ∀ q ∈ T.pages, ∀ j < F.width, m' q j = m q j) : Tree F m' T where
  link := by
    intro l i q hq j hj
    rw [hsame q ⟨_, _, hq⟩ j hj]
    exact htree.link hq j hj
  parent := htree.parent
  inj := htree.inj
  inside := htree.inside

theorem entry_frame_words (hsame : ∀ q ∈ T.pages, ∀ j < F.width, m' q j = m q j) (n : Nat) :
    entry F m' T n = entry F m T n := by
  cases h : T 0 (n / F.width) with
  | none => rw [entry_of_none h, entry_of_none h]
  | some q =>
      rw [entry_of_some h, entry_of_some h, hsame q ⟨_, _, h⟩ _ (Nat.mod_lt _ F.width_pos)]

theorem Tree.frame (htree : Tree F m T) (hsame : ∀ q ∈ T.pages, m' q = m q) : Tree F m' T :=
  htree.frame_words fun q hq j _ => congrFun (hsame q hq) j

theorem entry_frame (hsame : ∀ q ∈ T.pages, m' q = m q) (n : Nat) :
    entry F m' T n = entry F m T n :=
  entry_frame_words (fun q hq j _ => congrFun (hsame q hq) j) n

/-! ### Setting an entry -/

theorem Tree.above_ne (htree : Tree F m T) {b l i q' : Nat} (hq : T 0 b = some q)
    (hq' : T (l + 1) i = some q') : q' ≠ q := by
  rintro rfl
  have hlevel := (htree.inj hq hq').1
  omega

theorem Tree.set (htree : Tree F m T) {b j : Nat} {w : W} (hq : T 0 b = some q)
    (hstore : Stores m m' q j w) : Tree F m' T where
  link := by
    intro l i q' hq' j' hj'
    rw [hstore.rest q' (htree.above_ne hq hq')]
    exact htree.link hq' j' hj'
  parent := htree.parent
  inj := htree.inj
  inside := htree.inside

theorem Tree.entry_set (htree : Tree F m T) {w : W} (hq : T 0 (n / F.width) = some q)
    (hstore : Stores m m' q (n % F.width) w) (k : Nat) :
    entry F m' T k = if k = n then w else entry F m T k := by
  by_cases hk : k = n
  · rw [if_pos hk, hk, entry_of_some hq, hstore.stored]
  rw [if_neg hk]
  cases hnode : T 0 (k / F.width) with
  | none => rw [entry_of_none hnode, entry_of_none hnode]
  | some q' =>
      rw [entry_of_some hnode, entry_of_some hnode]
      by_cases hpage : q' = q
      · -- another word of the same page
        have hdiv : k / F.width = n / F.width := by
          rw [hpage] at hnode
          exact (htree.inj hnode hq).2
        have hmod : k % F.width ≠ n % F.width := by
          intro hmod
          rw [← Nat.div_add_mod k F.width, ← Nat.div_add_mod n F.width, hdiv, hmod] at hk
          exact hk rfl
        rw [hpage, hstore.row _ hmod]
      · rw [hstore.rest _ hpage]

/-! ### Adding a node -/

section Attach

variable {l i p : Nat} {w : W}

theorem Tree.none_below (htree : Tree F m T) (hnone : T (l + 1) i = none) (hl : l < F.height)
    {j : Nat} (hj : j < F.width) : T l (i * F.width + j) = none := by
  cases h : T l (i * F.width + j) with
  | none => rfl
  | some q =>
      obtain ⟨p, hp⟩ := htree.parent h hl
      rw [F.child_div hj, hnone] at hp
      cases hp

theorem Tree.attach (htree : Tree F m T) (hnone : T l i = none) (hl : l < F.height)
    (hparent : T (l + 1) (i / F.width) = some p) (hfresh : q ∉ T.pages)
    (hempty : ∀ j < F.width, m q j = F.empty) (hstore : Stores m m' p (i % F.width) w)
    (hpage : F.page w = some q) (hinner : F.inner w) : Tree F m' (T.graft l i q) where
  link := by
    intro l' i' q' hq' j hj
    rcases Shape.graft_eq_some hq' with ⟨hl', rfl, rfl⟩ | ⟨-, hold⟩
    · -- the new node is empty
      have hne : q' ≠ p := fun h => hfresh ⟨_, _, h ▸ hparent⟩
      rw [hstore.rest _ hne, hempty j hj, F.page_empty, Shape.graft_of_ne (by omega)]
      rw [← hl'] at hnone
      exact ⟨(htree.none_below hnone (by omega) hj).symm, F.inner_empty⟩
    have hchild : i' * F.width + j = i → i' = i / F.width ∧ j = i % F.width := by
      rintro rfl
      exact ⟨(F.child_div hj).symm, (F.child_mod hj).symm⟩
    by_cases hq'p : q' = p
    · obtain ⟨hlevel, rfl⟩ := htree.inj (hq'p ▸ hold) hparent
      obtain rfl : l' = l := by omega
      by_cases hji : j = i % F.width
      · -- the word that refers to the new node
        rw [hq'p, hji, hstore.stored, hpage, Nat.div_add_mod', Shape.graft_self]
        exact ⟨rfl, hinner⟩
      · rw [hq'p, hstore.row _ hji, Shape.graft_of_ne fun h => hji (hchild h.2).2]
        exact htree.link hparent j hj
    · rw [hstore.rest _ hq'p]
      rw [Shape.graft_of_ne]
      · exact htree.link hold j hj
      · rintro ⟨rfl, hindex⟩
        rw [(hchild hindex).1, hparent] at hold
        exact hq'p (Option.some.inj hold).symm
  parent := by
    intro l' i' q' hq' hlt
    rcases Shape.graft_eq_some hq' with ⟨rfl, rfl, -⟩ | ⟨-, hold⟩
    · exact ⟨p, Shape.graft_mono hnone hparent⟩
    · obtain ⟨p', hp'⟩ := htree.parent hold hlt
      exact ⟨p', Shape.graft_mono hnone hp'⟩
  inj := by
    intro l₁ i₁ l₂ i₂ q' h₁ h₂
    rcases Shape.graft_eq_some h₁ with ⟨rfl, rfl, rfl⟩ | ⟨-, hold₁⟩ <;>
      rcases Shape.graft_eq_some h₂ with ⟨rfl, rfl, hq₂⟩ | ⟨-, hold₂⟩
    · exact ⟨rfl, rfl⟩
    · exact (hfresh ⟨_, _, hold₂⟩).elim
    · exact (hfresh ⟨_, _, hq₂ ▸ hold₁⟩).elim
    · exact htree.inj hold₁ hold₂
  inside := by
    intro l' i' q' hq'
    rcases Shape.graft_eq_some hq' with ⟨rfl, rfl, -⟩ | ⟨-, hold⟩
    · have hroot := (htree.inside hparent).2
      rw [Nat.div_div_eq_div_mul, ← Nat.pow_succ'] at hroot
      rw [show F.height - l' = F.height - (l' + 1) + 1 by omega]
      exact ⟨hl.le, hroot⟩
    · exact htree.inside hold

/-- A new node brings no entries. -/
theorem Tree.entry_attach (htree : Tree F m T) (hnone : T l i = none)
    (hparent : T (l + 1) (i / F.width) = some p) (hfresh : q ∉ T.pages)
    (hempty : ∀ j < F.width, m q j = F.empty) (hstore : Stores m m' p (i % F.width) w) (n : Nat) :
    entry F m' (T.graft l i q) n = entry F m T n := by
  have hqp : q ≠ p := fun h => hfresh ⟨_, _, h ▸ hparent⟩
  by_cases hnew : 0 = l ∧ n / F.width = i
  · obtain ⟨rfl, rfl⟩ := hnew
    rw [entry_of_some Shape.graft_self, entry_of_none hnone, hstore.rest _ hqp,
      hempty _ (Nat.mod_lt _ F.width_pos)]
  cases hnode : T 0 (n / F.width) with
  | none =>
      rw [entry_of_none hnode, entry_of_none]
      rw [Shape.graft_of_ne hnew, hnode]
  | some q' =>
      have hne : q' ≠ p := (htree.above_ne hnode hparent).symm
      rw [entry_of_some hnode, entry_of_some (Shape.graft_mono hnone hnode), hstore.rest _ hne]

end Attach

/-! ### Subtrees -/

/-- The pages of the subtree under node `i` of level `l`. -/
def Shape.below (T : Shape) (width l i : Nat) : Set Nat :=
  { x | ∃ l' i', l' ≤ l ∧ T l' i' = some x ∧ i' / width ^ (l - l') = i }

section Below

variable {l i i' x : Nat}

theorem Shape.mem_below_zero {width : Nat} : x ∈ T.below width 0 i ↔ T 0 i = some x := by
  constructor
  · rintro ⟨l', i', hl, h, rfl⟩
    obtain rfl : l' = 0 := Nat.le_zero.mp hl
    rwa [Nat.sub_self, Nat.pow_zero, Nat.div_one]
  · exact fun h => ⟨0, i, le_rfl, h, by rw [Nat.sub_self, Nat.pow_zero, Nat.div_one]⟩

theorem Shape.mem_below_succ : x ∈ T.below F.width (l + 1) i ↔
    T (l + 1) i = some x ∨ ∃ j < F.width, x ∈ T.below F.width l (i * F.width + j) := by
  constructor
  · rintro ⟨l', i', hl, h, rfl⟩
    rcases Nat.lt_or_ge l' (l + 1) with hlt | hge
    · have hpow : l + 1 - l' = l - l' + 1 := by omega
      refine Or.inr ⟨i' / F.width ^ (l - l') % F.width, Nat.mod_lt _ F.width_pos, l', i',
        Nat.lt_succ_iff.mp hlt, h, ?_⟩
      rw [hpow, Nat.pow_succ, ← Nat.div_div_eq_div_mul, Nat.div_add_mod']
    · obtain rfl : l' = l + 1 := by omega
      refine Or.inl ?_
      rwa [Nat.sub_self, Nat.pow_zero, Nat.div_one]
  · rintro (h | ⟨j, hj, l', i', hl, h, hi⟩)
    · exact ⟨l + 1, i, le_rfl, h, by rw [Nat.sub_self, Nat.pow_zero, Nat.div_one]⟩
    · refine ⟨l', i', hl.trans (Nat.le_succ l), h, ?_⟩
      rw [show l + 1 - l' = l - l' + 1 by omega, Nat.pow_succ, ← Nat.div_div_eq_div_mul, hi,
        F.child_div hj]

theorem Tree.below_root (htree : Tree F m T) : T.below F.width F.height 0 = T.pages := by
  ext x
  constructor
  · rintro ⟨l', i', -, h, -⟩
    exact ⟨l', i', h⟩
  · rintro ⟨l', i', h⟩
    obtain ⟨hl, hi⟩ := htree.inside h
    exact ⟨l', i', hl, h, hi⟩

theorem Tree.below_inj (htree : Tree F m T) (hx : x ∈ T.below F.width l i)
    (hx' : x ∈ T.below F.width l i') : i = i' := by
  obtain ⟨l₁, i₁, -, h₁, rfl⟩ := hx
  obtain ⟨l₂, i₂, -, h₂, rfl⟩ := hx'
  obtain ⟨rfl, rfl⟩ := htree.inj h₁ h₂
  rfl

theorem Tree.notMem_below (htree : Tree F m T) (hq : T (l + 1) i = some q) :
    q ∉ T.below F.width l i' := by
  rintro ⟨l', i₁, hl, h, -⟩
  have hlevel := (htree.inj hq h).1
  omega

theorem Tree.below_of_none (htree : Tree F m T) (hl : l ≤ F.height) (hnone : T l i = none) :
    T.below F.width l i = ∅ := by
  rw [Set.eq_empty_iff_forall_notMem]
  induction l generalizing i with
  | zero =>
      intro x hx
      rw [Shape.mem_below_zero, hnone] at hx
      cases hx
  | succ l ih =>
      intro x hx
      rcases Shape.mem_below_succ.mp hx with h | ⟨j, hj, hx⟩
      · rw [hnone] at h
        cases h
      · exact ih (by omega) (htree.none_below hnone hl hj) x hx

end Below

end Tree

end Radix
