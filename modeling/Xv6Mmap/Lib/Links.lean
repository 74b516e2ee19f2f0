import Mathlib.Data.List.Nodup
import Mathlib.Logic.Function.Basic

/-!
# Doubly linked rings

A ring of elements of `α` and a head that is none of them: a pointer is an `Option α`, where `none`
points to the head. The elements on the ring are a list, in the order of the `next` pointers from the
head on.
-/

structure Links (α : Type) where
  next : Option α → Option α
  prev : Option α → Option α

namespace Links

variable {α : Type}

def swap (lk : Links α) : Links α := { next := lk.prev, prev := lk.next }

/-- From `x` one comes to `y` through the elements of the list, and back. -/
def Path (lk : Links α) : Option α → List α → Option α → Prop
  | x, [], y => lk.next x = y ∧ lk.prev y = x
  | x, b :: l, y => lk.next x = some b ∧ lk.prev (some b) = x ∧ lk.Path (some b) l y

/-- The elements of the list are on the ring, each of them once, and there are no others. -/
def Circular (lk : Links α) (l : List α) : Prop := l.Nodup ∧ lk.Path none l none

section Path

variable {lk lk' : Links α} {x y : Option α} {l m : List α} {b : α}

theorem path_append : lk.Path x (l ++ b :: m) y ↔ lk.Path x l (some b) ∧ lk.Path (some b) m y := by
  induction l generalizing x with
  | nil => simp only [List.nil_append, Path, and_assoc]
  | cons a l ih => simp only [List.cons_append, Path, ih, and_assoc]

theorem path_swap : lk.swap.Path y l.reverse x ↔ lk.Path x l y := by
  induction l generalizing x with
  | nil => exact and_comm
  | cons a l ih =>
      rw [List.reverse_cons, path_append, ih]
      simp only [Path, swap]
      constructor
      · rintro ⟨hpath, hprev, hnext⟩
        exact ⟨hnext, hprev, hpath⟩
      · rintro ⟨hnext, hprev, hpath⟩
        exact ⟨hpath, hprev, hnext⟩

/-- A path reads the `next` pointers of all but its end, and the `prev` pointers of all but its start. -/
theorem Path.congr (h : lk.Path x l y) (hnext : ∀ z ∈ x :: l.map some, lk'.next z = lk.next z)
    (hprev : ∀ z ∈ y :: l.map some, lk'.prev z = lk.prev z) : lk'.Path x l y := by
  induction l generalizing x with
  | nil =>
      exact ⟨(hnext x (by simp)).trans h.1, (hprev y (by simp)).trans h.2⟩
  | cons a l ih =>
      obtain ⟨hn, hp, hpath⟩ := h
      refine ⟨(hnext x (by simp)).trans hn, (hprev _ (by simp)).trans hp, ih hpath ?_ ?_⟩
      · exact fun z hz => hnext z (List.mem_cons_of_mem _ (by simpa using hz))
      · intro z hz
        refine hprev z ?_
        rcases List.mem_cons.mp hz with rfl | hz
        · exact List.mem_cons_self
        · exact List.mem_cons_of_mem _ (by simpa using Or.inr (List.mem_map.mp hz))

theorem Path.prev_mem (h : lk.Path x l y) : lk.prev y ∈ x :: l.map some := by
  induction l generalizing x with
  | nil => simp [h.2]
  | cons a l ih =>
      have := ih h.2.2
      simpa using Or.inr (by simpa using this)

theorem Path.retarget {z : Option α} (h : lk.Path x l y) (hnodup : (x :: l.map some).Nodup)
    (hnext : ∀ u ∈ x :: l.map some, u ≠ lk.prev y → lk'.next u = lk.next u)
    (hprev : ∀ u ∈ l.map some, lk'.prev u = lk.prev u) (hlast : lk'.next (lk.prev y) = z)
    (hback : lk'.prev z = lk.prev y) : lk'.Path x l z := by
  induction l generalizing x with
  | nil =>
      rw [h.2] at hlast hback
      exact ⟨hlast, hback⟩
  | cons a l ih =>
      obtain ⟨hn, hp, hpath⟩ := h
      have hmem := hpath.prev_mem
      obtain ⟨hx, hnodup⟩ := List.nodup_cons.mp hnodup
      refine ⟨?_, ?_, ih hpath hnodup (fun u hu => hnext u (List.mem_cons_of_mem _ hu))
        fun u hu => hprev u (List.mem_cons_of_mem _ hu)⟩
      · rw [hnext x List.mem_cons_self fun h => hx (h ▸ hmem), hn]
      · rw [hprev _ (by simp), hp]

end Path

/-! ### Walking along the ring -/

/-- Follow `next` to the first element with the property, or to the head. There is no answer when the
head is not reached in time. -/
def walk (next : Option α → Option α) (p : α → Bool) : Nat → Option α → Option (Option α)
  | 0, _ => none
  | _ + 1, none => some none
  | fuel + 1, some b => if p b then some (some b) else walk next p fuel (next (some b))

theorem walk_eq_find? (lk : Links α) {x : Option α} {l : List α} {fuel : Nat} (h : lk.Path x l none)
    (p : α → Bool) (hfuel : l.length < fuel) :
    walk lk.next p fuel (lk.next x) = some (l.find? p) := by
  induction l generalizing x fuel with
  | nil =>
      obtain ⟨fuel, rfl⟩ := Nat.exists_eq_add_of_lt hfuel
      rw [h.1]
      simp only [walk, List.find?_nil]
  | cons a l ih =>
      obtain ⟨fuel, rfl⟩ : ∃ m, fuel = m + 1 := ⟨fuel - 1, by simp at hfuel; omega⟩
      obtain ⟨hn, -, hpath⟩ := h
      rw [hn, walk, ih hpath (by simpa using hfuel)]
      cases hp : p a <;> simp [hp]

section Ring

variable {lk : Links α} {l : List α} {fuel : Nat}

theorem Circular.walk_next (h : lk.Circular l) (p : α → Bool) (hfuel : l.length < fuel) :
    walk lk.next p fuel (lk.next none) = some (l.find? p) :=
  walk_eq_find? lk h.2 p hfuel

theorem Circular.walk_prev (h : lk.Circular l) (p : α → Bool) (hfuel : l.length < fuel) :
    walk lk.prev p fuel (lk.prev none) = some (l.reverse.find? p) :=
  walk_eq_find? lk.swap (path_swap.mpr h.2) p (by rwa [List.length_reverse])

end Ring

/-! ### Taking an element out and putting it in front -/

section Splice

variable [DecidableEq α]

/-- `b->next->prev = b->prev; b->prev->next = b->next`. -/
def unlink (lk : Links α) (b : α) : Links α :=
  let lk := { lk with prev := Function.update lk.prev (lk.next (some b)) (lk.prev (some b)) }
  { lk with next := Function.update lk.next (lk.prev (some b)) (lk.next (some b)) }

/-- `b->next = head.next; b->prev = &head; head.next->prev = b; head.next = b`. -/
def pushFront (lk : Links α) (b : α) : Links α :=
  let lk := { lk with next := Function.update lk.next (some b) (lk.next none) }
  let lk := { lk with prev := Function.update lk.prev (some b) none }
  let lk := { lk with prev := Function.update lk.prev (lk.next none) (some b) }
  { lk with next := Function.update lk.next none (some b) }

variable {lk : Links α} {l : List α} {b : α}

theorem Circular.pushFront (h : lk.Circular l) (hb : b ∉ l) : (lk.pushFront b).Circular (b :: l) := by
  obtain ⟨hnodup, hpath⟩ := h
  refine ⟨List.nodup_cons.mpr ⟨hb, hnodup⟩, ?_⟩
  cases l with
  | nil =>
      obtain ⟨hnext, -⟩ := hpath
      simp [Path, Links.pushFront, hnext]
  | cons a l =>
      obtain ⟨hnext, -, hpath⟩ := hpath
      have hba : b ≠ a := fun h => hb (by simp [h])
      have hal : a ∉ l := (List.nodup_cons.mp hnodup).1
      have hbl : b ∉ l := fun h => hb (List.mem_cons_of_mem _ h)
      refine ⟨by simp [Links.pushFront], ?_, ?_, ?_, hpath.congr ?_ ?_⟩
      · simp [Links.pushFront, hnext, hba]
      · simp [Links.pushFront, hnext]
      · simp [Links.pushFront, hnext]
      · intro z hz
        have hz' : z ≠ none ∧ z ≠ some b := by
          rcases List.mem_cons.mp hz with rfl | hz
          · exact ⟨by simp, by simpa using hba.symm⟩
          · obtain ⟨c, hc, rfl⟩ := List.mem_map.mp hz
            exact ⟨by simp, fun h => hbl (by simpa using Option.some.inj h ▸ hc)⟩
        simp [Links.pushFront, hz'.1, hz'.2]
      · intro z hz
        have hz' : z ≠ some a ∧ z ≠ some b := by
          rcases List.mem_cons.mp hz with rfl | hz
          · exact ⟨by simp, by simp⟩
          · obtain ⟨c, hc, rfl⟩ := List.mem_map.mp hz
            exact ⟨fun h => hal (by simpa using Option.some.inj h ▸ hc),
              fun h => hbl (by simpa using Option.some.inj h ▸ hc)⟩
        simp [Links.pushFront, hnext, hz'.1, hz'.2]

theorem Circular.unlink (h : lk.Circular l) (hb : b ∈ l) : (lk.unlink b).Circular (l.erase b) := by
  obtain ⟨hnodup, hpath⟩ := h
  refine ⟨hnodup.erase b, ?_⟩
  obtain ⟨m, t, rfl⟩ := List.append_of_mem hb
  obtain ⟨hm, hbt, hdisj⟩ := List.nodup_append.mp hnodup
  obtain ⟨hbt, ht⟩ := List.nodup_cons.mp hbt
  have hbm : b ∉ m := fun h => hdisj b h b (by simp) rfl
  obtain ⟨hpath, hpath'⟩ := path_append.mp hpath
  rw [List.erase_append_right _ hbm, List.erase_cons_head]
  have hlast := hpath.prev_mem
  have hne : lk.next (some b) ≠ some b := by
    cases t with
    | nil => rw [hpath'.1]; simp
    | cons c t =>
        rw [hpath'.1]
        exact fun h => hbt (by simpa using Or.inl (Option.some.inj h).symm)
  have hprevb : (lk.unlink b).prev = Function.update lk.prev (lk.next (some b)) (lk.prev (some b)) :=
    rfl
  have hnextb : (lk.unlink b).next = Function.update lk.next (lk.prev (some b)) (lk.next (some b)) := by
    simp only [Links.unlink, Function.update_of_ne hne.symm]
  have hnodup' : (none :: m.map some).Nodup := by
    refine List.nodup_cons.mpr ⟨by simp, List.Nodup.map (fun _ _ h => Option.some.inj h) hm⟩
  -- the path to `b` is led to what comes after `b`
  have hfirst : ∀ u ∈ m.map some, u ≠ lk.next (some b) := by
    intro u hu
    obtain ⟨c, hc, rfl⟩ := List.mem_map.mp hu
    cases t with
    | nil => rw [hpath'.1]; simp
    | cons d t =>
        rw [hpath'.1]
        exact fun h => hdisj c hc d (by simp) (Option.some.inj h)
  have hjoin : (lk.unlink b).Path none m (lk.next (some b)) := by
    refine hpath.retarget hnodup' (fun u _ hu => ?_) (fun u hu => ?_) ?_ ?_
    · rw [hnextb, Function.update_of_ne hu]
    · rw [hprevb, Function.update_of_ne (hfirst u hu)]
    · rw [hnextb, Function.update_self]
    · rw [hprevb, Function.update_self]
  cases t with
  | nil =>
      rw [hpath'.1] at hjoin
      rwa [List.append_nil]
  | cons c t =>
      obtain ⟨hc, -, hrest⟩ := hpath'
      rw [hc] at hjoin
      refine path_append.mpr ⟨hjoin, hrest.congr (fun u hu => ?_) fun u hu => ?_⟩
      · rw [hnextb, Function.update_of_ne]
        rintro rfl
        rw [← List.map_cons] at hu
        obtain ⟨d, hd, hdeq⟩ := List.mem_map.mp hu
        rw [← hdeq] at hlast
        simp only [List.mem_cons, reduceCtorEq, List.mem_map, Option.some.injEq, exists_eq_right,
          false_or] at hlast
        exact hdisj d hlast d (List.mem_cons_of_mem _ hd) rfl
      · rw [hprevb, hc, Function.update_of_ne]
        rintro rfl
        simp only [List.mem_cons, reduceCtorEq, List.mem_map, Option.some.injEq, exists_eq_right,
          false_or] at hu
        exact (List.nodup_cons.mp ht).1 hu

theorem Circular.foldl_pushFront {m : List α} (h : lk.Circular l) (hnodup : (m.reverse ++ l).Nodup) :
    (m.foldl Links.pushFront lk).Circular (m.reverse ++ l) := by
  induction m generalizing lk l with
  | nil => exact h
  | cons b m ih =>
      rw [List.reverse_cons, List.append_assoc] at hnodup ⊢
      have hb : b ∉ l := by
        have := (List.nodup_append.mp hnodup).2.1
        exact (List.nodup_cons.mp this).1
      exact ih (h.pushFront hb) hnodup

omit [DecidableEq α] in
theorem circular_nil {lk : Links α} (hnext : lk.next none = none) (hprev : lk.prev none = none) :
    lk.Circular [] :=
  ⟨List.nodup_nil, hnext, hprev⟩

end Splice

end Links
