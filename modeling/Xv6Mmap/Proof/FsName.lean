import Mathlib.Data.List.TakeWhile
import Xv6Mmap.Sysfile

/-!
# Names of directory entries

`strncmp` and `strncpy` see a name up to its first zero byte, and no more than `DIRSIZ` bytes of it.
That part is the key under which a directory has an entry.
-/

namespace Xv6Mmap.Fs

def cut (n : Nat) (name : Name) : Name := (name.takeWhile fun c => c ≠ 0).take n

/-- What a directory keeps of a name. -/
def key (name : Name) : Name := cut dirsiz name

theorem cut_nil (n : Nat) : cut n [] = [] := by simp [cut]

theorem cut_cons (n c : Nat) (name : Name) :
    cut (n + 1) (c :: name) = if c = 0 then [] else c :: cut n name := by
  by_cases hc : c = 0 <;> simp [cut, hc]

theorem strncmp_eq_zero (n : Nat) (p q : Name) : strncmp n p q = 0 ↔ cut n p = cut n q := by
  induction n generalizing p q with
  | zero => simp [strncmp, cut]
  | succ n ih =>
      cases p with
      | nil => cases q with
        | nil => simp [strncmp]
        | cons b q => by_cases hb : b = 0 <;> simp [strncmp, cut_nil, cut_cons, hb]
      | cons a p => cases q with
        | nil => by_cases ha : a = 0 <;> simp [strncmp, cut_nil, cut_cons, ha]
        | cons b q =>
          by_cases ha : a = 0
          · by_cases hb : b = 0 <;> simp [strncmp, cut_cons, ha, hb]
          · by_cases hab : a = b
            · subst hab
              simp [strncmp, cut_cons, ha, ih]
            · have hdiff : (a : Int) - b ≠ 0 := by omega
              by_cases hb : b = 0 <;> simp [strncmp, cut_cons, ha, hab, hb, hdiff]

theorem namecmp_eq_zero (s t : Name) : namecmp s t = 0 ↔ key s = key t := strncmp_eq_zero _ _ _

def Dirent.Matches (name : Name) (de : Dirent) : Prop := de.inum ≠ 0 ∧ key de.name = key name

instance (name : Name) : DecidablePred (Dirent.Matches name) :=
  fun _ => inferInstanceAs (Decidable (_ ∧ _))

theorem matches_iff (name : Name) (de : Dirent) :
    (de.inum ≠ 0 ∧ namecmp name de.name = 0) ↔ de.Matches name := by
  rw [namecmp_eq_zero, Dirent.Matches, eq_comm (a := key name)]

theorem length_strncpy (n : Nat) (t : Name) : (strncpy n t).length = n := by
  induction n generalizing t with
  | zero => rfl
  | succ n ih =>
      unfold strncpy
      split
      · simp
      · simp [ih]

theorem mem_strncpy {n c : Nat} {t : Name} (hc : c ∈ strncpy n t) : c = 0 ∨ c ∈ t := by
  induction n generalizing t with
  | zero => simp [strncpy] at hc
  | succ n ih =>
      unfold strncpy at hc
      split at hc
      · exact .inl (List.eq_of_mem_replicate hc)
      · rename_i hhead
        cases t with
        | nil => simp at hhead
        | cons a t =>
          rcases List.mem_cons.mp hc with rfl | hc
          · simp
          · exact (ih hc).imp_right (List.mem_cons_of_mem _)

theorem takeWhile_strncpy (n : Nat) (t : Name) :
    ((strncpy n t).takeWhile fun c => c ≠ 0) = cut n t := by
  induction n generalizing t with
  | zero => simp [strncpy, cut]
  | succ n ih =>
      unfold strncpy
      cases t with
      | nil => simp [cut, List.replicate_succ]
      | cons a t =>
        by_cases ha : a = 0
        · simp [cut, ha, List.replicate_succ]
        · simpa [ha, cut_cons] using ih t

theorem cut_eq_self {n : Nat} {name : Name} (hlen : name.length ≤ n) (hchars : ∀ c ∈ name, c ≠ 0) :
    cut n name = name := by
  rw [cut, List.takeWhile_eq_self_iff.mpr fun c hc => by simpa using hchars c hc,
    List.take_of_length_le hlen]

theorem length_key (name : Name) : (key name).length ≤ dirsiz := List.length_take_le _ _

theorem key_chars {name : Name} {c : Nat} (hc : c ∈ key name) : c ≠ 0 ∧ c ∈ name := by
  have hmem : c ∈ name.takeWhile fun c => c ≠ 0 := List.mem_of_mem_take hc
  exact ⟨by simpa using List.mem_takeWhile_imp hmem, (List.takeWhile_sublist _).mem hmem⟩

theorem key_key (name : Name) : key (key name) = key name :=
  cut_eq_self (length_key name) fun _ hc => (key_chars hc).1

theorem length_toBytes (de : Dirent) : de.toBytes.length = direntSize := by
  simp [Dirent.toBytes, length_strncpy, direntSize, dirsiz]

end Xv6Mmap.Fs
