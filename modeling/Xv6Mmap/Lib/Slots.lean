import Mathlib.Data.List.Nodup
import Mathlib.Logic.Function.Basic
import Mathlib.Tactic.Common

/-!
# Tables of slots

A list of slots, some of which are in use. When the slots in use have different keys, the table is a
finite map from keys to values: filling a slot that is not in use inserts a key, and emptying a slot
removes one.
-/

namespace Slots

/-- The slot `j`, which is one of those there are or the next one, becomes `a`. -/
def put {α : Type} (l : List α) (j : Nat) (a : α) : List α :=
  if j < l.length then l.set j a else l ++ [a]

theorem getElem?_put {α : Type} {l : List α} {j : Nat} (hj : j ≤ l.length) (a : α) (i : Nat) :
    (put l j a)[i]? = if i = j then some a else l[i]? := by
  unfold put
  split
  · rename_i hlt
    by_cases hij : i = j
    · subst hij
      simp [hlt]
    · simp [hij, List.getElem?_set_ne (Ne.symm hij)]
  · have hlen : j = l.length := by omega
    subst hlen
    by_cases hij : i = l.length
    · simp [hij]
    · rw [if_neg hij]
      by_cases hlt : i < l.length
      · rw [List.getElem?_append_left hlt]
      · rw [List.getElem?_eq_none (by simp; omega), List.getElem?_eq_none (by omega)]

theorem length_put {α : Type} {l : List α} {j : Nat} (hj : j ≤ l.length) (a : α) :
    (put l j a).length = max l.length (j + 1) := by
  unfold put
  split <;> simp <;> omega

variable {α κ ν : Type} (live : α → Prop) (key : α → κ) (val : α → ν)

/-- The table `l` is the map `m`. -/
structure Rep (l : List α) (m : κ → Option ν) : Prop where
  iff : ∀ k v, m k = some v ↔ ∃ (j : Nat) (a : α), l[j]? = some a ∧ live a ∧ key a = k ∧ val a = v
  unique : ∀ (i j : Nat) (a b : α), l[i]? = some a → l[j]? = some b → live a → live b → key a = key b → i = j

variable {live key val} {l : List α} {m : κ → Option ν}

theorem Rep.eq_none (h : Rep live key val l m) {k : κ} (hfree : ∀ a ∈ l, live a → key a ≠ k) :
    m k = none := by
  refine Option.eq_none_iff_forall_ne_some.mpr fun v hv => ?_
  obtain ⟨j, a, hj, hlive, hkey, -⟩ := (h.iff k v).mp hv
  exact hfree a (List.mem_of_getElem? hj) hlive hkey

theorem Rep.eq_some (h : Rep live key val l m) {j : Nat} {a : α} (hj : l[j]? = some a)
    (hlive : live a) : m (key a) = some (val a) :=
  (h.iff _ _).mpr ⟨j, a, hj, hlive, rfl, rfl⟩

theorem Rep.change (h : Rep live key val l m) {j : Nat} (hj : j ≤ l.length) (a : α)
    {m' : κ → Option ν}
    (hiff : ∀ k v, m' k = some v ↔ (live a ∧ key a = k ∧ val a = v) ∨
      ∃ (i : Nat) (b : α), i ≠ j ∧ l[i]? = some b ∧ live b ∧ key b = k ∧ val b = v)
    (hnew : live a → ∀ (i : Nat) (b : α), i ≠ j → l[i]? = some b → live b → key b ≠ key a) :
    Rep live key val (put l j a) m' where
  iff := fun k v => by
    rw [hiff]
    constructor
    · rintro (⟨hlive, hkey, hval⟩ | ⟨i, b, hij, hi, hb⟩)
      · exact ⟨j, a, by rw [getElem?_put hj, if_pos rfl], hlive, hkey, hval⟩
      · exact ⟨i, b, by rw [getElem?_put hj, if_neg hij, hi], hb⟩
    · rintro ⟨i, b, hi, hb⟩
      rw [getElem?_put hj] at hi
      by_cases hij : i = j
      · rw [if_pos hij, Option.some.injEq] at hi
        exact .inl (hi ▸ hb)
      · rw [if_neg hij] at hi
        exact .inr ⟨i, b, hij, hi, hb⟩
  unique := fun i i' b b' hi hi' hb hb' hkey => by
    rw [getElem?_put hj] at hi hi'
    by_cases hij : i = j <;> by_cases hij' : i' = j
    · rw [hij, hij']
    · rw [if_pos hij, Option.some.injEq] at hi
      rw [if_neg hij'] at hi'
      exact absurd (hi ▸ hkey).symm (hnew (hi ▸ hb) i' b' hij' hi' hb')
    · rw [if_neg hij] at hi
      rw [if_pos hij', Option.some.injEq] at hi'
      exact absurd (hi' ▸ hkey) (hnew (hi' ▸ hb') i b hij hi hb)
    · rw [if_neg hij] at hi
      rw [if_neg hij'] at hi'
      exact h.unique i i' b b' hi hi' hb hb' hkey

variable [DecidableEq κ]

theorem Rep.of_nodup {d : List α} (hlive : ∀ a ∈ l, live a) (hdead : ∀ a ∈ d, ¬ live a)
    (hnodup : (l.map key).Nodup) :
    Rep live key val (l ++ d) fun k => (l.find? fun a => key a = k).map val := by
  have hleft : ∀ (i : Nat) (a : α), (l ++ d)[i]? = some a → live a → l[i]? = some a := by
    intro i a hi ha
    by_cases hlt : i < l.length
    · rwa [List.getElem?_append_left hlt] at hi
    · rw [List.getElem?_append_right (Nat.le_of_not_lt hlt)] at hi
      exact absurd ha (hdead a (List.mem_of_getElem? hi))
  have hunique : ∀ (i j : Nat) (a b : α), l[i]? = some a → l[j]? = some b → key a = key b → i = j := by
    intro i j a b hi hj hkey
    have hsame : (l.map key)[i]? = (l.map key)[j]? := by
      rw [List.getElem?_map, List.getElem?_map, hi, hj, Option.map_some, Option.map_some, hkey]
    have hlen := (List.getElem?_eq_some_iff.mp hi).1
    have hlen' := (List.getElem?_eq_some_iff.mp hj).1
    have hne := List.nodup_iff_getElem?_ne_getElem?.mp hnodup
    rcases Nat.lt_trichotomy i j with hij | hij | hij
    · exact absurd hsame (hne i j hij (by simpa using hlen'))
    · exact hij
    · exact absurd hsame.symm (hne j i hij (by simpa using hlen))
  refine ⟨fun k v => ?_, fun i j a b hi hj ha hb =>
    hunique i j a b (hleft i a hi ha) (hleft j b hj hb)⟩
  constructor
  · intro hv
    obtain ⟨a, hfind, rfl⟩ := Option.map_eq_some_iff.mp hv
    obtain ⟨i, hi⟩ := List.mem_iff_getElem?.mp (List.mem_of_find?_eq_some hfind)
    have hkey : key a = k := by simpa using List.find?_some hfind
    exact ⟨i, a, List.getElem?_append_left (List.getElem?_eq_some_iff.mp hi).1 ▸ hi,
      hlive a (List.mem_of_find?_eq_some hfind), hkey, rfl⟩
  · rintro ⟨i, a, hi, ha, rfl, rfl⟩
    have hi := hleft i a hi ha
    cases hfind : l.find? (fun b => key b = key a) with
    | none =>
        exact absurd (decide_eq_true rfl) (List.find?_eq_none.mp hfind a (List.mem_of_getElem? hi))
    | some b =>
        obtain ⟨j, hj⟩ := List.mem_iff_getElem?.mp (List.mem_of_find?_eq_some hfind)
        have hij := hunique j i b a hj hi (by simpa using List.find?_some hfind)
        rw [hij, hi, Option.some.injEq] at hj
        rw [hj]
        rfl

theorem Rep.insert (h : Rep live key val l m) {j : Nat} (hj : j ≤ l.length)
    (hdead : ∀ b, l[j]? = some b → ¬ live b) {a : α} (hlive : live a) (habsent : m (key a) = none) :
    Rep live key val (put l j a) (Function.update m (key a) (some (val a))) := by
  have hnew : ∀ (i : Nat) (b : α), l[i]? = some b → live b → key b ≠ key a := fun i b hi hb hkey => by
    have hsome := h.eq_some hi hb
    rw [hkey, habsent] at hsome
    cases hsome
  refine h.change hj a (fun k v => ?_) fun _ i b _ hi hb => hnew i b hi hb
  by_cases hk : k = key a
  · subst hk
    rw [Function.update_self, Option.some.injEq]
    constructor
    · exact fun hval => .inl ⟨hlive, rfl, hval⟩
    · rintro (⟨-, -, hval⟩ | ⟨i, b, -, hi, hb, hkey, -⟩)
      · exact hval
      · exact absurd hkey (hnew i b hi hb)
  · rw [Function.update_of_ne hk, h.iff]
    constructor
    · rintro ⟨i, b, hi, hb⟩
      refine .inr ⟨i, b, ?_, hi, hb⟩
      rintro rfl
      exact hdead b hi hb.1
    · rintro (⟨-, hkey, -⟩ | ⟨i, b, -, hi, hb⟩)
      · exact absurd hkey.symm hk
      · exact ⟨i, b, hi, hb⟩

theorem Rep.erase (h : Rep live key val l m) {j : Nat} {b : α} (hj : l[j]? = some b) (hb : live b)
    {a : α} (hdead : ¬ live a) :
    Rep live key val (put l j a) (Function.update m (key b) none) := by
  have hlen : j < l.length := (List.getElem?_eq_some_iff.mp hj).1
  refine h.change (Nat.le_of_lt hlen) a (fun k v => ?_) fun hlive => absurd hlive hdead
  by_cases hk : k = key b
  · subst hk
    rw [Function.update_self]
    constructor
    · intro hnone
      cases hnone
    · rintro (⟨hlive, -⟩ | ⟨i, c, hij, hi, hc, hkey, -⟩)
      · exact absurd hlive hdead
      · exact absurd (h.unique i j c b hi hj hc hb hkey) hij
  · rw [Function.update_of_ne hk, h.iff]
    constructor
    · rintro ⟨i, c, hi, hc⟩
      refine .inr ⟨i, c, ?_, hi, hc⟩
      rintro rfl
      rw [hj, Option.some.injEq] at hi
      exact hk (hi ▸ hc.2.1).symm
    · rintro (⟨hlive, -⟩ | ⟨i, c, -, hi, hc⟩)
      · exact absurd hlive hdead
      · exact ⟨i, c, hi, hc⟩

end Slots
