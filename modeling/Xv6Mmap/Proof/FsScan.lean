import Xv6Mmap.Proof.FsInode

/-!
# Loops over a directory

`dirlookup`, `dirlink` and `isdirempty` each read the entries of a directory one after the other. As
reading changes nothing, each of the loops comes down to a search in the list of entries.
-/

namespace Xv6Mmap.Fs

open Sequential

section Scan

variable {s : State} {dp : Nat} {es : List Dirent}
  (hread : ∀ k, readDirent dp (direntSize * k) s = .ok es[k]? s)

include hread

/-- The three loops stop at the first entry of a kind, or at the end, where the read fails if the size
is not a number of entries. -/
theorem scan_eq {β : Type} (loop : Nat → Nat → F β) (hit : Dirent → Prop) [DecidablePred hit]
    (found : Nat → Nat → F β) (last : Nat → F β) (short : Stop) (hzero : ∀ off, loop 0 off = last off)
    (hsucc : ∀ n off, loop (n + 1) off = do
      match ← readDirent dp off with
      | none => stop short
      | some de => if hit de then found de.inum off else loop n (off + direntSize))
    {n k : Nat} (hn : es.length ≤ k + n) :
    loop n (direntSize * k) s =
      match (es.drop k).findIdx? hit with
      | some j => found ((es[k + j]?.map Dirent.inum).getD 0) (direntSize * (k + j)) s
      | none => if n ≤ es.length - k then last (direntSize * (k + n)) s else .error short s := by
  induction n generalizing k with
  | zero =>
      rw [List.drop_eq_nil_of_le (by omega), List.findIdx?_nil, if_pos (Nat.zero_le _), hzero]
      rfl
  | succ n ih =>
      rw [hsucc, run_bind_ok (hread k)]
      cases hget : es[k]? with
      | none =>
          have hk := List.getElem?_eq_none_iff.mp hget
          rw [List.drop_eq_nil_of_le hk, List.findIdx?_nil, if_neg (by omega)]
          rfl
      | some de =>
          obtain ⟨hlt, hde⟩ := List.getElem?_eq_some_iff.mp hget
          rw [List.drop_eq_getElem_cons hlt, List.findIdx?_cons, hde]
          by_cases hhit : hit de
          · simp only [hhit, decide_true, if_true, Nat.add_zero, hget, Option.map_some,
              Option.getD_some]
          · have hnext := ih (k := k + 1) (by omega)
            have hleft : n ≤ es.length - (k + 1) ↔ n + 1 ≤ es.length - k := by omega
            rw [Nat.mul_succ] at hnext
            simp only [hhit, decide_false, Bool.false_eq_true, if_false, hnext, hleft]
            cases (es.drop (k + 1)).findIdx? hit with
            | none => simp only [Option.map_none, Nat.add_assoc, Nat.add_comm 1]
            | some j => simp only [Option.map_some, Nat.add_assoc, Nat.add_comm 1]

theorem emptyDirentFrom_eq {n : Nat} (hn : es.length ≤ n) :
    emptyDirentFrom dp n 0 s =
      match es.findIdx? (fun de => de.inum = 0) with
      | some j => .ok (direntSize * j) s
      | none => if n ≤ es.length then .ok (direntSize * n) s else .error .dirlinkRead s := by
  have hscan := scan_eq hread (emptyDirentFrom dp) (fun de => de.inum = 0) (fun _ off => pure off) pure
    .dirlinkRead (fun _ => rfl) (fun _ _ => rfl) (n := n) (k := 0) (by rwa [Nat.zero_add])
  simp only [Nat.zero_add, List.drop_zero] at hscan
  exact hscan

theorem isdiremptyFrom_eq {n : Nat} (hn : es.length ≤ 2 + n) :
    isdiremptyFrom dp n (2 * direntSize) s =
      match (es.drop 2).findIdx? (fun de => de.inum ≠ 0) with
      | some _ => .ok false s
      | none => if n ≤ es.length - 2 then .ok true s else .error .isdiremptyReadi s :=
  scan_eq hread (isdiremptyFrom dp) (fun de => de.inum ≠ 0) (fun _ _ => pure false)
    (fun _ => pure true) .isdiremptyReadi (fun _ => rfl) (fun _ _ => rfl) hn

theorem dirlookup_eq (hdir : (s.itable dp).copy.type = .dir)
    (hlen : es.length ≤ direntCount (s.itable dp).copy.size) (name : Name) :
    dirlookup dp name s =
      match es.findIdx? (Dirent.Matches name) with
      | some k => (do
          let ip ← iget ((es[k]?.map Dirent.inum).getD 0)
          pure (some (ip, direntSize * k))) s
      | none => if direntCount (s.itable dp).copy.size ≤ es.length then .ok none s
          else .error .dirlookupRead s := by
  have hscan := scan_eq hread (dirlookupFrom dp name)
    (fun de => de.inum ≠ 0 ∧ namecmp name de.name = 0)
    (fun inum off => do
      let ip ← iget inum
      pure (some (ip, off))) (fun _ => pure none) .dirlookupRead (fun _ => rfl) (fun _ _ => rfl)
    (n := direntCount (s.itable dp).copy.size) (k := 0) (by rwa [Nat.zero_add])
  unfold dirlookup
  rw [run_bind_ok (show getInode dp s = .ok (s.itable dp) s from rfl), if_neg (by rw [hdir]; decide)]
  simp only [Nat.zero_add, List.drop_zero, matches_iff] at hscan
  exact hscan

end Scan

end Xv6Mmap.Fs
