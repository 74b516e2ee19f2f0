import Xv6Mmap.Copyin
import Xv6Mmap.System
import Xv6Mmap.Proof.Walk

/-!
# `copyinstr` copies the user's string

The two nested loops of `copyinstr` amount to one loop over the bytes that the page table gives to
consecutive user addresses, which ends at a NUL, at an address without a page, or after `max` bytes.
-/

namespace Xv6Mmap

open Sequential

def userByte (m : Mem) (r va : Nat) : Option Nat :=
  if userFrame m r va = 0 then none else some (m.byte (userFrame m r va + va % 4096))

def IsString (m : Mem) (r va k : Nat) : Prop :=
  (∀ j < k, ∃ c, c ≠ 0 ∧ userByte m r (va + j) = some c) ∧ userByte m r (va + k) = some 0

/-- At most `n` bytes from `va` up. Says whether a NUL was met, and which bytes were read. -/
def scan (m : Mem) (r : Nat) : Nat → Nat → Bool × List (Nat × Nat)
  | 0, _ => (false, [])
  | n + 1, va =>
    match userByte m r va with
    | none => (false, [])
    | some c =>
      if c = 0 then (true, [(va, 0)])
      else ((scan m r n (va + 1)).1, (va, c) :: (scan m r n (va + 1)).2)

section Scan

variable {m : Mem} {r n va c : Nat}

theorem scan_none (hbyte : userByte m r va = none) : scan m r n va = (false, []) := by
  cases n with
  | zero => rfl
  | succ n => rw [scan, hbyte]

theorem scan_nul (hbyte : userByte m r va = some 0) : scan m r (n + 1) va = (true, [(va, 0)]) := by
  rw [scan, hbyte]
  rfl

theorem scan_byte (hbyte : userByte m r va = some c) (hc : c ≠ 0) : scan m r (n + 1) va =
    ((scan m r n (va + 1)).1, (va, c) :: (scan m r n (va + 1)).2) := by
  rw [scan, hbyte]
  exact if_neg hc

theorem length_scan_le (m : Mem) (r n va : Nat) : (scan m r n va).2.length ≤ n := by
  induction n generalizing va with
  | zero => exact Nat.le_refl 0
  | succ n ih =>
      cases hbyte : userByte m r va with
      | none =>
          rw [scan_none hbyte]
          exact Nat.zero_le _
      | some c =>
          by_cases hc : c = 0
          · rw [scan_nul (hc ▸ hbyte)]
            exact Nat.succ_le_succ (Nat.zero_le n)
          · rw [scan_byte hbyte hc]
            exact Nat.succ_le_succ (ih (va + 1))

theorem isString_zero : IsString m r va 0 ↔ userByte m r va = some 0 :=
  ⟨fun h => h.2, fun h => ⟨fun _ hj => absurd hj (Nat.not_lt_zero _), h⟩⟩

theorem isString_succ {k : Nat} :
    IsString m r va (k + 1) ↔ (∃ c, c ≠ 0 ∧ userByte m r va = some c) ∧ IsString m r (va + 1) k := by
  have hshift : ∀ j, va + (j + 1) = va + 1 + j := fun j => by omega
  constructor
  · rintro ⟨hbytes, hnul⟩
    refine ⟨hbytes 0 (Nat.succ_pos k), fun j hj => ?_, ?_⟩
    · rw [← hshift]
      exact hbytes (j + 1) (Nat.succ_lt_succ hj)
    · rwa [← hshift]
  · rintro ⟨hfirst, hbytes, hnul⟩
    refine ⟨fun j hj => ?_, by rwa [hshift]⟩
    cases j with
    | zero => exact hfirst
    | succ j =>
        rw [hshift]
        exact hbytes j (Nat.lt_of_succ_lt_succ hj)

theorem scan_found_iff : (scan m r n va).1 = true ↔ ∃ k < n, IsString m r va k := by
  induction n generalizing va with
  | zero => exact ⟨fun h => absurd h Bool.false_ne_true, fun ⟨k, hk, _⟩ => absurd hk (Nat.not_lt_zero k)⟩
  | succ n ih =>
      cases hbyte : userByte m r va with
      | none =>
          rw [scan_none hbyte]
          refine ⟨fun h => absurd h Bool.false_ne_true, ?_⟩
          rintro ⟨k, _, hstring⟩
          cases k with
          | zero =>
              rw [isString_zero, hbyte] at hstring
              cases hstring
          | succ k =>
              obtain ⟨⟨c, _, hsome⟩, _⟩ := isString_succ.mp hstring
              rw [hbyte] at hsome
              cases hsome
      | some c =>
          by_cases hc : c = 0
          · subst hc
            rw [scan_nul hbyte]
            exact ⟨fun _ => ⟨0, Nat.succ_pos n, isString_zero.mpr hbyte⟩, fun _ => rfl⟩
          · rw [scan_byte hbyte hc, ih]
            constructor
            · rintro ⟨k, hk, hstring⟩
              exact ⟨k + 1, Nat.succ_lt_succ hk, isString_succ.mpr ⟨⟨c, hc, hbyte⟩, hstring⟩⟩
            · rintro ⟨k, hk, hstring⟩
              cases k with
              | zero =>
                  rw [isString_zero, hbyte] at hstring
                  exact absurd (Option.some.inj hstring) hc
              | succ k => exact ⟨k, Nat.lt_of_succ_lt_succ hk, (isString_succ.mp hstring).2⟩

theorem scan_bytes {k : Nat} (hk : k < n) (hstring : IsString m r va k) :
    (scan m r n va).2.map Prod.snd =
      (List.range (k + 1)).map fun j => (userByte m r (va + j)).getD 0 := by
  induction n generalizing va k with
  | zero => exact absurd hk (Nat.not_lt_zero k)
  | succ n ih =>
      cases k with
      | zero =>
          have hbyte := isString_zero.mp hstring
          rw [scan_nul hbyte]
          simp only [List.map_cons, List.map_nil, Nat.zero_add, List.range_one, Nat.add_zero, hbyte,
            Option.getD_some]
      | succ k =>
          obtain ⟨⟨c, hc, hbyte⟩, hrest⟩ := isString_succ.mp hstring
          rw [scan_byte hbyte hc, List.map_cons, ih (Nat.lt_of_succ_lt_succ hk) hrest]
          conv_rhs => rw [List.range_succ_eq_map, List.map_cons, List.map_map, Nat.add_zero, hbyte]
          refine congrArg _ (List.map_congr_left fun j _ => ?_)
          simp only [Function.comp_apply, Nat.succ_eq_add_one, Nat.add_assoc, Nat.add_comm 1]

theorem scan_reads {k : Nat} (hstring : IsString m r va k) {x : Nat × Nat}
    (hx : x ∈ (scan m r n va).2) : x.1 ≤ va + k := by
  induction n generalizing va k with
  | zero => exact absurd hx List.not_mem_nil
  | succ n ih =>
      cases k with
      | zero =>
          rw [scan_nul (isString_zero.mp hstring)] at hx
          rw [List.mem_singleton.mp hx]
          exact Nat.le_refl va
      | succ k =>
          obtain ⟨⟨c, hc, hbyte⟩, hrest⟩ := isString_succ.mp hstring
          rw [scan_byte hbyte hc] at hx
          rcases List.mem_cons.mp hx with rfl | hx
          · exact Nat.le_add_right va _
          · have hle := ih hrest hx
            omega

/-! ### The bytes of one page -/

theorem scan_add (hbytes : ∀ j < n, userByte m r (va + j) ≠ none) (k : Nat) :
    scan m r (n + k) va =
      if (scan m r n va).1 then scan m r n va
      else ((scan m r k (va + n)).1, (scan m r n va).2 ++ (scan m r k (va + n)).2) := by
  induction n generalizing va with
  | zero =>
      rw [Nat.zero_add]
      rfl
  | succ n ih =>
      have hfirst := hbytes 0 (Nat.succ_pos n)
      have hrest : ∀ j < n, userByte m r (va + 1 + j) ≠ none := fun j hj => by
        rw [show va + 1 + j = va + (j + 1) by omega]
        exact hbytes (j + 1) (Nat.succ_lt_succ hj)
      rw [Nat.add_zero] at hfirst
      obtain ⟨c, hbyte⟩ := Option.ne_none_iff_exists'.mp hfirst
      rw [show n + 1 + k = n + k + 1 by omega]
      by_cases hc : c = 0
      · subst hc
        rw [scan_nul hbyte, scan_nul hbyte]
        rfl
      · rw [scan_byte hbyte hc, scan_byte hbyte hc, ih hrest, show va + 1 + n = va + (n + 1) by omega]
        dsimp only
        by_cases hfound : (scan m r n (va + 1)).1 = true
        · rw [if_pos hfound, if_pos hfound]
        · rw [if_neg hfound, if_neg hfound]
          rfl

theorem userFrame_congr {va' : Nat} (hpage : va / 4096 = va' / 4096) :
    userFrame m r va = userFrame m r va' := by
  have hiff : va < maxva ↔ va' < maxva := by
    unfold maxva
    omega
  simp only [userFrame, hpage, hiff]

theorem NoHuge.frame (hpt : NoHuge m r) (hframe : userFrame m r va ≠ 0) :
    ∃ q, RamPage q ∧ userFrame m r va = q * 4096 := by
  unfold userFrame at hframe ⊢
  by_cases huser : va < maxva ∧ isValid (level0 m r (va / 4096)) ∧
      level0 m r (va / 4096) &&& pteU ≠ 0
  · rw [if_pos huser] at hframe ⊢
    have hq := (hpt.leaf _ huser.2.1 huser.2.2).resolve_left hframe
    exact ⟨_, hq, hq.pte2pa⟩
  · rw [if_neg huser] at hframe
    exact absurd rfl hframe

theorem copyinstrPage_eq {s : Kernel} (hpt : NoHuge s.mem r) (hframe : userFrame s.mem r va ≠ 0)
    (hn : va % 4096 + n ≤ 4096) :
    copyinstrPage n (userFrame s.mem r va + va % 4096) va s = .ok (scan s.mem r n va) s := by
  induction n generalizing va with
  | zero => rfl
  | succ n ih =>
      obtain ⟨q, hq, hframeq⟩ := hpt.frame hframe
      have hram : inRam (userFrame s.mem r va + va % 4096) = true := by
        rw [hframeq]
        exact hq.inRam_byte (by omega)
      have hbyte : userByte s.mem r va = some (s.mem.byte (userFrame s.mem r va + va % 4096)) :=
        if_neg hframe
      have hload : loadByte (userFrame s.mem r va + va % 4096) s =
          .ok (s.mem.byte (userFrame s.mem r va + va % 4096)) s := if_pos hram
      unfold copyinstrPage
      rw [run_bind_ok hload]
      by_cases hc : s.mem.byte (userFrame s.mem r va + va % 4096) = 0
      · rw [if_pos hc, scan_nul (hc ▸ hbyte)]
        rfl
      rw [if_neg hc, scan_byte hbyte hc]
      cases n with
      | zero => rfl
      | succ n =>
          have hsame : userFrame s.mem r (va + 1) = userFrame s.mem r va :=
            userFrame_congr (by omega)
          have hnext := @ih (va + 1) (by rwa [hsame]) (by omega)
          rw [hsame, show (va + 1) % 4096 = va % 4096 + 1 by omega, ← Nat.add_assoc] at hnext
          rw [run_bind_ok hnext]
          rfl

theorem copyinstrFrom_eq {s : Kernel} (hpt : NoHuge s.mem r) {rounds srcva max : Nat}
    (hrounds : max ≤ rounds) :
    copyinstrFrom (r * 4096) rounds srcva max s =
      .ok (if (scan s.mem r max srcva).1 then 0 else -1, (scan s.mem r max srcva).2) s := by
  induction rounds generalizing srcva max with
  | zero =>
      obtain rfl : max = 0 := Nat.eq_zero_of_le_zero hrounds
      rfl
  | succ rounds ih =>
      cases max with
      | zero => rfl
      | succ max =>
          have hpage : pgrounddown srcva / 4096 = srcva / 4096 := by
            unfold pgrounddown pgsize
            omega
          have hoff : srcva - pgrounddown srcva = srcva % 4096 := by
            unfold pgrounddown pgsize
            omega
          have hsame : userFrame s.mem r (pgrounddown srcva) = userFrame s.mem r srcva :=
            userFrame_congr hpage
          unfold copyinstrFrom
          rw [run_bind_ok (walkaddr_read hpt _), hsame, hoff]
          by_cases hframe : userFrame s.mem r srcva = 0
          · rw [if_pos hframe, scan_none (if_pos hframe)]
            rfl
          rw [if_neg hframe]
          dsimp only
          generalize hn : min (pgsize - srcva % 4096) (max + 1) = n
          have hmod : srcva % 4096 < 4096 := Nat.mod_lt _ (by decide)
          unfold pgsize at hn
          rw [run_bind_ok (copyinstrPage_eq hpt hframe (by omega))]
          have hbytes : ∀ j < n, userByte s.mem r (srcva + j) ≠ none := by
            intro j hj hnone
            have hj' : userFrame s.mem r (srcva + j) = userFrame s.mem r srcva :=
              userFrame_congr (by omega)
            rw [userByte, hj', if_neg hframe] at hnone
            cases hnone
          have hsplit := scan_add hbytes (max + 1 - n)
          rw [show n + (max + 1 - n) = max + 1 by omega] at hsplit
          rw [hsplit]
          by_cases hfound : (scan s.mem r n srcva).1 = true
          · rw [if_pos hfound, if_pos hfound, if_pos hfound]
            rfl
          rw [if_neg hfound, if_neg hfound, run_bind_ok (ih (by omega))]
          -- either the page was read to its end, or nothing is left to read
          by_cases hend : n = 4096 - srcva % 4096
          · have hva : srcva < maxva := by
              by_contra hge
              exact hframe (if_neg fun h => hge h.1)
            have hnext : uint64 (pgrounddown srcva + pgsize) = srcva + n := by
              unfold uint64 pgrounddown pgsize
              unfold maxva at hva
              omega
            rw [hnext]
            rfl
          · rw [show max + 1 - n = 0 by omega]
            rfl

end Scan

/-- What `copyinstr` may return and store for the string at `srcva`. -/
structure CopiesString (m : Mem) (r srcva max : Nat) (ret : Int) (copied : List (Nat × Nat)) :
    Prop where
  found : ret = 0 ↔ ∃ k < max, IsString m r srcva k
  failed : ret ≠ 0 → ret = -1
  exact : ∀ k < max, IsString m r srcva k →
    copied.map Prod.snd = (List.range (k + 1)).map fun j => (userByte m r (srcva + j)).getD 0
  atMost : copied.length ≤ max
  reads : ∀ k, IsString m r srcva k → ∀ x ∈ copied, x.1 ≤ srcva + k

/-- `copyinstr` succeeds exactly on strings of fewer than `max` bytes that lie on user pages. -/
theorem copyinstr_copies {s : Kernel} {r : Nat} (hpt : NoHuge s.mem r) (srcva max : Nat) :
    ∃ ret copied, copyinstr (r * 4096) srcva max s = .ok (ret, copied) s ∧
      CopiesString s.mem r srcva max ret copied := by
  refine ⟨_, _, copyinstrFrom_eq hpt (Nat.le_refl max), ?_, ?_, fun k hk hstring => scan_bytes hk hstring,
    length_scan_le _ _ _ _, fun k hstring x hx => scan_reads hstring hx⟩
  · rw [← scan_found_iff]
    cases (scan s.mem r max srcva).1 <;> decide
  · cases (scan s.mem r max srcva).1 <;> decide

/-- One page table of three pages; the string `hi` ends with the last byte of the page at address 0. -/
def stringMem : Mem := fun p i =>
  if p = 0x80000 ∧ i = 0 then 0x80001 * 1024 + 1
  else if p = 0x80001 ∧ i = 0 then 0x80002 * 1024 + 1
  else if p = 0x80002 ∧ i = 0 then 0x80003 * 1024 + 0x13
  else if p = 0x80003 ∧ i = 511 then 0x006968 * 256 ^ 5
  else 0

theorem stringMem_root (g : Nat) : stringMem 0x80000 g = if g = 0 then 0x80001 * 1024 + 1 else 0 := by
  unfold stringMem
  by_cases hg : g = 0 <;> simp [hg]

theorem stringMem_level1 (b : Nat) :
    level1 stringMem 0x80000 b = if b = 0 then 0x80002 * 1024 + 1 else 0 := by
  by_cases hblock : b / 512 = 0
  · have hmid : (0x80001 * 1024 + 1) / 1024 = 0x80001 := by decide
    have hvalid : isValid (0x80001 * 1024 + 1) = true := by decide
    rw [level1, stringMem_root, if_pos hblock, if_pos ⟨by omega, hvalid⟩, hmid,
      show b % 512 = b by omega]
    unfold stringMem
    by_cases hb : b = 0 <;> simp [hb]
  · rw [level1, stringMem_root, if_neg hblock, isValid_zero, if_neg fun h => Bool.false_ne_true h.2,
      if_neg (by omega)]

theorem stringMem_level0 (n : Nat) :
    level0 stringMem 0x80000 n = if n = 0 then 0x80003 * 1024 + 0x13 else 0 := by
  by_cases hblock : n / 512 = 0
  · have hlow : (0x80002 * 1024 + 1) / 1024 = 0x80002 := by decide
    have htable : isTable (0x80002 * 1024 + 1) = true := by decide
    rw [level0, stringMem_level1, if_pos hblock, if_pos htable, hlow, show n % 512 = n by omega]
    unfold stringMem
    by_cases hn : n = 0 <;> simp [hn]
  · rw [level0, stringMem_level1, if_neg hblock, if_neg (by decide), if_neg (by omega)]

theorem stringMem_noHuge : NoHuge stringMem 0x80000 where
  root := ⟨by decide, by decide⟩
  mid := by
    intro g _ hvalid
    rw [stringMem_root] at hvalid ⊢
    by_cases hg : g = 0
    · rw [if_pos hg]
      exact ⟨by decide, by decide, by decide⟩
    · rw [if_neg hg] at hvalid
      exact absurd hvalid (by decide)
  low := by
    intro b hvalid
    rw [stringMem_level1] at hvalid ⊢
    by_cases hb : b = 0
    · rw [if_pos hb]
      exact ⟨by decide, by decide, by decide⟩
    · rw [if_neg hb] at hvalid
      exact absurd hvalid (by decide)
  leaf := by
    intro n hvalid _
    rw [stringMem_level0] at hvalid ⊢
    by_cases hn : n = 0
    · rw [if_pos hn]
      exact .inr ⟨by decide, by decide⟩
    · rw [if_neg hn] at hvalid
      exact absurd hvalid (by decide)

theorem copyinstr_copies_hi :
    ∃ copied, copyinstr (0x80000 * 4096) 4093 16 (powerOn 0x800344d0 stringMem) =
      .ok (0, copied) (powerOn 0x800344d0 stringMem) ∧ copied.map Prod.snd = [0x68, 0x69, 0] := by
  obtain ⟨ret, copied, hrun, hcopies⟩ :=
    copyinstr_copies (s := powerOn 0x800344d0 stringMem) stringMem_noHuge 4093 16
  have hstring : IsString stringMem 0x80000 4093 2 := by
    refine ⟨fun j hj => ?_, by decide⟩
    obtain rfl | rfl : j = 0 ∨ j = 1 := by omega
    · exact ⟨0x68, by decide, by decide⟩
    · exact ⟨0x69, by decide, by decide⟩
  have hzero : ret = 0 := hcopies.found.mpr ⟨2, by decide, hstring⟩
  subst hzero
  exact ⟨copied, hrun, (hcopies.exact 2 (by decide) hstring).trans (by decide)⟩

end Xv6Mmap
