import Mathlib.Data.Finset.Max
import Mathlib.Data.Finset.Sort
import Mathlib.Tactic.Common

/-!
# Circular lists in ascending order

The nodes of a circular list are a finite set, and each node is followed by the least node above it,
the greatest one by the least of all. A new node has one place in such a list. A walk along the
links meets every node before it comes back.
-/

namespace Cyclic

variable {α : Type} {next : α → α} {a b c x : α}

/-- The links lead from `a` along the nodes of the list to `b`. -/
def Walk (next : α → α) : α → List α → α → Prop
  | a, [], b => a = b
  | a, x :: l, b => x = a ∧ Walk next (next a) l b

theorem Walk.append {l l' : List α} (hl : Walk next a l b) (hl' : Walk next b l' c) :
    Walk next a (l ++ l') c := by
  induction l generalizing a with
  | nil => exact hl ▸ hl'
  | cons x l ih => exact ⟨hl.1, ih hl.2⟩

variable [LinearOrder α] {S : Finset α}

/-- `b` comes after `a` in the circular list of `S`. -/
structure Follows (S : Finset α) (a b : α) : Prop where
  mem : b ∈ S
  next : (a < b ∧ ∀ c ∈ S, a < c → b ≤ c) ∨ ((∀ c ∈ S, c ≤ a) ∧ ∀ c ∈ S, b ≤ c)

def Between (a x b : α) : Prop := (a < x ∧ x < b) ∨ (b ≤ a ∧ (a < x ∨ x < b))

theorem Follows.unique (hb : Follows S a b) (hc : Follows S a c) : b = c := by
  have hb' := hb.mem
  have hc' := hc.mem
  rcases hb.next with ⟨hab, hb⟩ | ⟨hab, hb⟩ <;> rcases hc.next with ⟨hac, hc⟩ | ⟨hac, hc⟩
  · exact le_antisymm (hb c hc' hac) (hc b hb' hab)
  · exact absurd (hac b hb') (not_le.mpr hab)
  · exact absurd (hab c hc') (not_le.mpr hac)
  · exact le_antisymm (hb c hc') (hc b hb')

theorem Follows.injective (ha : a ∈ S) (hb : b ∈ S) (hac : Follows S a c) (hbc : Follows S b c) :
    a = b := by
  have hc := hac.mem
  rcases hac.next with ⟨hlt, hac⟩ | ⟨hmax, hmin⟩ <;>
    rcases hbc.next with ⟨hlt', hbc⟩ | ⟨hmax', hmin'⟩
  · rcases lt_trichotomy a b with h | h | h
    · exact absurd (hac b hb h) (not_le.mpr hlt')
    · exact h
    · exact absurd (hbc a ha h) (not_le.mpr hlt)
  · exact absurd (hmin' a ha) (not_le.mpr hlt)
  · exact absurd (hmin b hb) (not_le.mpr hlt')
  · exact le_antisymm (hmax' a ha) (hmax b hb)

theorem Follows.eq_of_self (haa : Follows S a a) (hc : c ∈ S) : c = a := by
  rcases haa.next with h | ⟨hmax, hmin⟩
  · exact absurd h.1 (lt_irrefl a)
  · exact le_antisymm (hmax c hc) (hmin c hc)

/-! ### One more node -/

theorem Follows.insert_before (hab : Follows S a b) (hx : Between a x b) :
    Follows (insert x S) a x := by
  refine ⟨Finset.mem_insert_self x S, ?_⟩
  rcases hx with ⟨hax, hxb⟩ | ⟨hba, hx⟩
  · refine Or.inl ⟨hax, fun c hc hac => ?_⟩
    rcases Finset.mem_insert.mp hc with rfl | hc
    · exact le_rfl
    · rcases hab.next with ⟨-, hleast⟩ | ⟨hmax, -⟩
      · exact hxb.le.trans (hleast c hc hac)
      · exact absurd (hmax c hc) (not_le.mpr hac)
  · obtain ⟨hmax, hmin⟩ := hab.next.resolve_left fun h => absurd h.1 (not_lt.mpr hba)
    rcases hx with hax | hxb
    · refine Or.inl ⟨hax, fun c hc hac => ?_⟩
      rcases Finset.mem_insert.mp hc with rfl | hc
      · exact le_rfl
      · exact absurd (hmax c hc) (not_le.mpr hac)
    · have hxa : x ≤ a := hxb.le.trans hba
      refine Or.inr ⟨fun c hc => ?_, fun c hc => ?_⟩ <;> rcases Finset.mem_insert.mp hc with rfl | hc
      · exact hxa
      · exact hmax c hc
      · exact le_rfl
      · exact hxb.le.trans (hmin c hc)

theorem Follows.insert_after (hab : Follows S a b) (hx : Between a x b) :
    Follows (insert x S) x b := by
  refine ⟨Finset.mem_insert_of_mem hab.mem, ?_⟩
  rcases hx with ⟨hax, hxb⟩ | ⟨hba, hx⟩
  · refine Or.inl ⟨hxb, fun c hc hxc => ?_⟩
    have hc := (Finset.mem_insert.mp hc).resolve_left hxc.ne'
    rcases hab.next with ⟨-, hleast⟩ | ⟨hmax, -⟩
    · exact hleast c hc (hax.trans hxc)
    · exact absurd (hmax c hc) (not_le.mpr (hax.trans hxc))
  · obtain ⟨hmax, hmin⟩ := hab.next.resolve_left fun h => absurd h.1 (not_lt.mpr hba)
    rcases hx with hax | hxb
    · refine Or.inr ⟨fun c hc => ?_, fun c hc => ?_⟩ <;> rcases Finset.mem_insert.mp hc with rfl | hc
      · exact le_rfl
      · exact (hmax c hc).trans hax.le
      · exact hba.trans hax.le
      · exact hmin c hc
    · refine Or.inl ⟨hxb, fun c hc hxc => ?_⟩
      exact hmin c ((Finset.mem_insert.mp hc).resolve_left hxc.ne')

theorem Follows.insert_other {d : α} (ha : a ∈ S) (hc : c ∈ S) (hca : c ≠ a) (hab : Follows S a b)
    (hx : Between a x b) (hcd : Follows S c d) : Follows (insert x S) c d := by
  have hd := hcd.mem
  have hb := hab.mem
  refine ⟨Finset.mem_insert_of_mem hd, ?_⟩
  have hdb : d ≠ b := fun h => hca (hcd.injective hc ha (h ▸ hab))
  rcases hcd.next with ⟨hlt, hleast⟩ | ⟨hmax, hmin⟩
  · refine Or.inl ⟨hlt, fun e he hce => ?_⟩
    rcases Finset.mem_insert.mp he with rfl | he
    · by_contra hlt'
      have hed := not_le.mp hlt'
      rcases hx with ⟨hae, heb⟩ | ⟨hba, hae | heb⟩
      · rcases lt_or_ge c a with h | h
        · exact absurd (hleast a ha h) (not_le.mpr (hae.trans hed))
        · rcases hab.next with ⟨-, hleast'⟩ | ⟨hmax', -⟩
          · exact absurd (hleast' c hc (lt_of_le_of_ne h hca.symm)) (not_le.mpr (hce.trans heb))
          · exact hca (le_antisymm (hmax' c hc) h)
      · obtain ⟨hmax', -⟩ := hab.next.resolve_left fun h => absurd h.1 (not_lt.mpr hba)
        exact absurd (hmax' d hd) (not_le.mpr (hae.trans hed))
      · obtain ⟨-, hmin'⟩ := hab.next.resolve_left fun h => absurd h.1 (not_lt.mpr hba)
        exact absurd (hmin' c hc) (not_le.mpr (hce.trans heb))
    · exact hleast e he hce
  · -- `c` is the greatest node and `d` the least, so the new node is between two others
    have hac : a < c := lt_of_le_of_ne (hmax a ha) hca.symm
    have hab' : a < b := by
      rcases hab.next with h | h
      · exact h.1
      · exact absurd (h.1 c hc) (not_le.mpr hac)
    have hx' : a < x ∧ x < b := hx.resolve_right fun h => absurd h.1 (not_le.mpr hab')
    refine Or.inr ⟨fun e he => ?_, fun e he => ?_⟩ <;> rcases Finset.mem_insert.mp he with rfl | he
    · exact hx'.2.le.trans (hmax b hb)
    · exact hmax e he
    · exact (hmin a ha).trans hx'.1.le
    · exact hmin e he

theorem ring_insert {next' : α → α} (hnext : ∀ c ∈ S, Follows S c (next c)) (ha : a ∈ S) (hx : x ∉ S)
    (hbetween : Between a x (next a)) (hprev : next' a = x) (hnew : next' x = next a)
    (hsame : ∀ c ∈ S, c ≠ a → next' c = next c) :
    ∀ c ∈ insert x S, Follows (insert x S) c (next' c) := by
  intro c hc
  have hfollows := hnext a ha
  rcases Finset.mem_insert.mp hc with rfl | hc
  · rw [hnew]
    exact hfollows.insert_after hbetween
  · by_cases hca : c = a
    · rw [hca, hprev]
      exact hfollows.insert_before hbetween
    · rw [hsame c hc hca]
      exact Follows.insert_other ha hc hca hfollows hbetween (hnext c hc)

theorem exists_between (hne : S.Nonempty) (hx : x ∉ S)
    (hnext : ∀ a ∈ S, Follows S a (next a)) : ∃ a ∈ S, Between a x (next a) := by
  by_cases hbelow : (S.filter (· < x)).Nonempty
  · -- the greatest node below the new one
    obtain ⟨a, ha, hmax⟩ := (S.filter (· < x)).exists_max_image id hbelow
    obtain ⟨haS, hax⟩ := Finset.mem_filter.mp ha
    refine ⟨a, haS, ?_⟩
    have hfollows := hnext a haS
    rcases hfollows.next with ⟨hlt, -⟩ | ⟨hmax', -⟩
    · left
      refine ⟨hax, ?_⟩
      by_contra hge
      have hbx : next a < x := lt_of_le_of_ne (not_lt.mp hge) fun h => hx (h ▸ hfollows.mem)
      have hle : next a ≤ a := hmax _ (Finset.mem_filter.mpr ⟨hfollows.mem, hbx⟩)
      exact absurd hlt (not_lt.mpr hle)
    · exact Or.inr ⟨hmax' _ hfollows.mem, Or.inl hax⟩
  · -- there is none: the greatest of all nodes
    obtain ⟨a, ha, hmax⟩ := S.exists_max_image id hne
    have hfollows := hnext a ha
    refine ⟨a, ha, Or.inr ⟨hmax _ hfollows.mem, Or.inr ?_⟩⟩
    refine lt_of_le_of_ne (not_lt.mp fun h => ?_) fun h => hx (h ▸ hfollows.mem)
    exact hbelow ⟨next a, Finset.mem_filter.mpr ⟨hfollows.mem, h⟩⟩

/-! ### One node less -/

theorem Follows.erase_other (hcb : c ≠ b) (hac : Follows S a c) :
    Follows (S.erase b) a c := by
  refine ⟨Finset.mem_erase.mpr ⟨hcb, hac.mem⟩, hac.next.imp (fun h => ⟨h.1, fun d hd => ?_⟩)
    fun h => ⟨fun d hd => ?_, fun d hd => ?_⟩⟩
  · exact h.2 d (Finset.mem_of_mem_erase hd)
  · exact h.1 d (Finset.mem_of_mem_erase hd)
  · exact h.2 d (Finset.mem_of_mem_erase hd)

theorem Follows.erase_next (hab : Follows S a b) (hbc : Follows S b c) (hcb : c ≠ b) :
    Follows (S.erase b) a c := by
  refine ⟨Finset.mem_erase.mpr ⟨hcb, hbc.mem⟩, ?_⟩
  rcases hab.next with ⟨hlt, hleast⟩ | ⟨hmax, hmin⟩ <;>
    rcases hbc.next with ⟨hlt', hleast'⟩ | ⟨hmax', hmin'⟩
  · refine Or.inl ⟨hlt.trans hlt', fun d hd had => ?_⟩
    obtain ⟨hdb, hd⟩ := Finset.mem_erase.mp hd
    exact hleast' d hd (lt_of_le_of_ne (hleast d hd had) hdb.symm)
  · refine Or.inr ⟨fun d hd => ?_, fun d hd => hmin' d (Finset.mem_of_mem_erase hd)⟩
    obtain ⟨hdb, hd⟩ := Finset.mem_erase.mp hd
    by_contra had
    exact hdb (le_antisymm (hmax' d hd) (hleast d hd (not_le.mp had)))
  · refine Or.inr ⟨fun d hd => hmax d (Finset.mem_of_mem_erase hd), fun d hd => ?_⟩
    obtain ⟨hdb, hd⟩ := Finset.mem_erase.mp hd
    exact hleast' d hd (lt_of_le_of_ne (hmin d hd) hdb.symm)
  · exact absurd (le_antisymm (hmax' c hbc.mem) (hmin c hbc.mem)) hcb

theorem ring_erase {next' : α → α} (hnext : ∀ c ∈ S, Follows S c (next c)) (ha : a ∈ S)
    (hab : next a = b) (hb : next b ≠ b) (hprev : next' a = next b)
    (hsame : ∀ c ∈ S, c ≠ a → c ≠ b → next' c = next c) :
    ∀ c ∈ S.erase b, Follows (S.erase b) c (next' c) := by
  intro c hc
  obtain ⟨hcb, hc⟩ := Finset.mem_erase.mp hc
  have hfollows : Follows S a b := hab ▸ hnext a ha
  by_cases hca : c = a
  · rw [hca, hprev]
    exact hfollows.erase_next (hnext b hfollows.mem) hb
  · rw [hsame c hc hca hcb]
    refine (hnext c hc).erase_other fun heq => hca ?_
    exact (hnext c hc).injective hc ha (heq ▸ hfollows)

/-! ### Going round -/

section Sorted

variable {l low high : List α}

theorem follows_of_sort (hsort : S.sort = low ++ a :: b :: high) : Follows S a b := by
  have hpair := hsort ▸ S.sortedLT_sort.pairwise
  have hmem : ∀ c, c ∈ S ↔ c ∈ low ++ a :: b :: high := fun c => by
    rw [← hsort, Finset.mem_sort]
  obtain ⟨-, htail, hlow⟩ := List.pairwise_append.mp hpair
  obtain ⟨hahead, htail⟩ := List.pairwise_cons.mp htail
  refine ⟨(hmem b).mpr (by simp), Or.inl ⟨hahead b List.mem_cons_self, fun c hc hac => ?_⟩⟩
  rcases List.mem_append.mp ((hmem c).mp hc) with hc | hc
  · exact absurd hac (hlow c hc a List.mem_cons_self).not_gt
  · rcases List.mem_cons.mp hc with rfl | hc
    · exact absurd hac (lt_irrefl c)
    · rcases List.mem_cons.mp hc with rfl | hc
      · exact le_rfl
      · exact ((List.pairwise_cons.mp htail).1 c hc).le

theorem follows_of_ends (hhead : S.sort = b :: l) (hlast : S.sort = low ++ [a]) : Follows S a b := by
  have hmem : ∀ c, c ∈ S ↔ c ∈ S.sort := fun c => (Finset.mem_sort _).symm
  refine ⟨(hmem b).mpr (hhead ▸ List.mem_cons_self), Or.inr ⟨fun c hc => ?_, fun c hc => ?_⟩⟩
  · have hpair := hlast ▸ S.sortedLT_sort.pairwise
    rcases List.mem_append.mp (hlast ▸ (hmem c).mp hc) with hc | hc
    · exact ((List.pairwise_append.mp hpair).2.2 c hc a List.mem_cons_self).le
    · exact (List.mem_singleton.mp hc).le
  · have hpair := hhead ▸ S.sortedLT_sort.pairwise
    rcases List.mem_cons.mp (hhead ▸ (hmem c).mp hc) with rfl | hc
    · exact le_rfl
    · exact ((List.pairwise_cons.mp hpair).1 c hc).le

theorem walk_of_sort (hnext : ∀ a ∈ S, Follows S a (next a)) {mid : List α}
    (hsort : S.sort = low ++ a :: (mid ++ b :: high)) : Walk next a (a :: mid) b := by
  have hmem : a ∈ S := (Finset.mem_sort (· ≤ ·)).mp (hsort ▸ by simp)
  induction mid generalizing a low with
  | nil => exact ⟨rfl, (hnext a hmem).unique (follows_of_sort hsort)⟩
  | cons c mid ih =>
      have hac : next a = c := (hnext a hmem).unique (follows_of_sort hsort)
      have hsort' : S.sort = (low ++ [a]) ++ c :: (mid ++ b :: high) := by
        rw [hsort]
        simp
      refine ⟨rfl, ?_⟩
      rw [hac]
      exact ih hsort' ((Finset.mem_sort (· ≤ ·)).mp (hsort' ▸ by simp))

/-- From a node up to the greatest one, then from the least one back to the node. -/
theorem walk_round (hnext : ∀ a ∈ S, Follows S a (next a)) (hsort : S.sort = low ++ a :: high) :
    Walk next a (a :: high ++ low) a := by
  have hmem : ∀ c ∈ S.sort, c ∈ S := fun c => (Finset.mem_sort (· ≤ ·)).mp
  have hne : S.sort ≠ [] := hsort ▸ by simp
  obtain ⟨b, l, hhead⟩ := List.exists_cons_of_ne_nil hne
  have hup : Walk next a (a :: high) b := by
    rcases List.eq_nil_or_concat high with rfl | ⟨mid, m, rfl⟩
    · exact ⟨rfl, (hnext a (hmem a (hsort ▸ by simp))).unique (follows_of_ends hhead hsort)⟩
    · have hlast : S.sort = (low ++ a :: mid) ++ [m] := by
        rw [hsort]
        simp
      rw [List.concat_eq_append] at hsort ⊢
      refine (walk_of_sort hnext hsort).append (l := a :: mid) ⟨rfl, ?_⟩
      exact (hnext m (hmem m (hlast ▸ by simp))).unique (follows_of_ends hhead hlast)
  refine hup.append ?_
  cases low with
  | nil => exact (List.cons.inj (hhead.symm.trans hsort)).1
  | cons c low =>
      obtain rfl : b = c := (List.cons.inj (hhead.symm.trans hsort)).1
      have hsort' : S.sort = [] ++ b :: (low ++ a :: high) := hsort
      exact walk_of_sort hnext hsort'

end Sorted

/-- The list seen from one of its nodes ascends, starts again from below once and comes back. -/
structure Round (S : Finset α) (next : α → α) (a : α) (low high : List α) : Prop where
  sorted : (low ++ a :: high).Pairwise (· < ·)
  nodes : ∀ x, x ∈ low ++ a :: high ↔ x ∈ S
  walk : Walk next a (a :: high ++ low) a

theorem Round.length {low high : List α} (h : Round S next a low high) :
    (a :: high ++ low).length = S.card := by
  have hnodup : (low ++ a :: high).Nodup := h.sorted.imp fun hlt => hlt.ne
  have hset : (low ++ a :: high).toFinset = S := by
    ext x
    rw [List.mem_toFinset, h.nodes]
  rw [← hset, List.toFinset_card_of_nodup hnodup]
  simp only [List.length_append, List.length_cons]
  omega

theorem exists_round (hnext : ∀ a ∈ S, Follows S a (next a)) (ha : a ∈ S) :
    ∃ low high, Round S next a low high := by
  obtain ⟨low, high, hsort⟩ := List.append_of_mem ((Finset.mem_sort (· ≤ ·)).mpr ha)
  refine ⟨low, high, hsort ▸ S.sortedLT_sort.pairwise, fun x => ?_, walk_round hnext hsort⟩
  rw [← hsort, Finset.mem_sort]

end Cyclic
