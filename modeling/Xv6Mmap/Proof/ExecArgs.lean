import Xv6Mmap.Proof.Copyin
import Xv6Mmap.Proof.ExecLoad

/-!
# The arguments of a new program

`exec` pushes the argument strings and then the array of pointers to them, each in a block of a
multiple of 16 bytes, downwards from the end of the stack page. Places on the stack are given by their
offset in that page.
-/

namespace Xv6Mmap

open Sequential
open Radix (Shape)

def stackBlock (n : Nat) : Nat := (n + 15) / 16 * 16

def argBlocks : List (List Nat) → Nat
  | [] => 0
  | arg :: argv => stackBlock (arg.length + 1) + argBlocks argv

def offsets : List (List Nat) → Nat → List Nat
  | [], _ => []
  | arg :: argv, h => (h - stackBlock (arg.length + 1)) :: offsets argv (h - stackBlock (arg.length + 1))

def argArray (n : Nat) (argv : List (List Nat)) : List Nat :=
  (offsets argv 4096).map (n * 4096 + ·) ++ [0]

def HasBytes (m : Mem) (a : Nat) (xs : List Nat) : Prop := ∀ j < xs.length, m.byte (a + j) = xs.getD j 0

def HasStrings (m : Mem) (q : Nat) : List (List Nat) → Nat → Prop
  | [], _ => True
  | arg :: argv, h => HasBytes m (q * 4096 + (h - stackBlock (arg.length + 1))) (arg ++ [0]) ∧
    HasStrings m q argv (h - stackBlock (arg.length + 1))

/-- Nothing has changed but bytes of page `q` below offset `h`. -/
structure WritesBelow (s t : Kernel) (q h : Nat) : Prop where
  kmem : t.kmem = s.kmem
  proc : t.proc = s.proc
  other : ∀ x, x ≠ q → ∀ j < 512, t.mem x j = s.mem x j
  above : ∀ o, h ≤ o → o < 4096 → t.mem.byte (q * 4096 + o) = s.mem.byte (q * 4096 + o)

section Pushing

variable {s t u : Kernel} {r n q h h' o : Nat} {T : Shape} {xs arg : List Nat}
  {argv : List (List Nat)} {ustack : List Nat}

theorem WritesBelow.refl (s : Kernel) (q h : Nat) : WritesBelow s s q h :=
  ⟨rfl, rfl, fun _ _ _ _ => rfl, fun _ _ _ => rfl⟩

theorem WritesBelow.trans (hw : WritesBelow s t q h) (hw' : WritesBelow t u q h') (hle : h' ≤ h) :
    WritesBelow s u q h where
  kmem := hw'.kmem.trans hw.kmem
  proc := hw'.proc.trans hw.proc
  other := fun x hx j hj => (hw'.other x hx j hj).trans (hw.other x hx j hj)
  above := fun o ho ho' => (hw'.above o (by omega) ho').trans (hw.above o ho ho')

theorem WritesBelow.userPage (hw : WritesBelow s t q h) (hpage : UserPage s r T n q) :
    UserPage t r T n q :=
  hpage.write hw.kmem hw.other

theorem writesBelow_setBytes (ho : o + xs.length ≤ h) (hh : h ≤ 4096) :
    WritesBelow s { s with mem := s.mem.setBytes (q * 4096 + o) xs } q h where
  kmem := rfl
  proc := rfl
  other := fun _ hx _ hj => setBytes_of_ne s.mem (by omega) hx hj
  above := fun o' ho' _ => by
    rw [byte_setBytes, if_neg (by omega)]

theorem hasBytes_setBytes (m : Mem) (a : Nat) (hxs : ∀ x ∈ xs, x < 256) :
    HasBytes (m.setBytes a xs) a xs := by
  intro j hj
  rw [byte_setBytes, if_pos (by omega), Nat.add_sub_cancel_left, List.getD_eq_getElem _ _ hj]
  exact Nat.mod_eq_of_lt (hxs _ (List.getElem_mem hj))

theorem HasBytes.keep (hhas : HasBytes s.mem (q * 4096 + o) xs) (hw : WritesBelow s t q h)
    (ho : h ≤ o) (hend : o + xs.length ≤ 4096) : HasBytes t.mem (q * 4096 + o) xs := by
  intro j hj
  rw [← hhas j hj, Nat.add_assoc]
  exact hw.above (o + j) (by omega) (by omega)

theorem le_stackBlock (n : Nat) : n ≤ stackBlock n := by
  rw [stackBlock]
  omega

theorem stackBlock_mod (n : Nat) : stackBlock n % 16 = 0 := by
  rw [stackBlock]
  omega

theorem push_eq (base k : Nat) (hbase : base % 4096 = 0) (hmax : base < maxva) (hlow : 4096 ≤ base)
    (hk : k ≤ 4096) (hh : h ≤ 4096) (hh16 : h % 16 = 0) :
    uint64 (base + h + 0x10000000000000000 - k) - uint64 (base + h + 0x10000000000000000 - k) % 16 =
      base + h - stackBlock k := by
  rw [maxva] at hmax
  simp only [uint64, stackBlock]
  omega

theorem execArgs_spec (sz : Nat) (hpage : UserPage s r T n q) (hn : 1 ≤ n) (hh : h ≤ 4096) (hh16 : h % 16 = 0)
    (hlen : ∀ arg ∈ argv, arg.length < pgsize) (hchars : ∀ arg ∈ argv, ∀ c ∈ arg, c < 256)
    (hroom : ustack.length + argv.length < maxarg) :
    ∃ out t, execArgs (r * 4096) sz (n * 4096) argv (n * 4096 + h) ustack s = .ok out t ∧
      WritesBelow s t q h ∧
      (argBlocks argv ≤ h → HasStrings t.mem q argv h ∧
        out = .next (n * 4096 + (h - argBlocks argv), ustack ++ (offsets argv h).map (n * 4096 + ·))) ∧
      (h < argBlocks argv → out = .bad sz) := by
  induction argv generalizing s h ustack with
  | nil =>
      refine ⟨_, s, rfl, .refl s q h, fun _ => ⟨trivial, ?_⟩, fun hlt => absurd hlt (Nat.not_lt_zero h)⟩
      rw [offsets, List.map_nil, List.append_nil, argBlocks, Nat.sub_zero]
  | cons arg argv ih =>
      have harg := hlen arg List.mem_cons_self
      rw [pgsize] at harg
      rw [List.length_cons] at hroom
      have hpush := push_eq (n * 4096) (arg.length + 1) (by omega) hpage.limit (by omega)
        (by omega) hh hh16
      have hblock := le_stackBlock (arg.length + 1)
      have hmod := stackBlock_mod (arg.length + 1)
      unfold execArgs
      dsimp only
      rw [if_neg (by omega), hpush]
      by_cases hfit : stackBlock (arg.length + 1) ≤ h
      swap
      · rw [if_pos (by omega)]
        refine ⟨_, s, rfl, .refl s q h, fun hle => ?_, fun _ => rfl⟩
        rw [argBlocks] at hle
        omega
      rw [if_neg (by omega), show n * 4096 + h - stackBlock (arg.length + 1) =
        n * 4096 + (h - stackBlock (arg.length + 1)) by omega]
      have hbytes : (arg ++ [0]).length = arg.length + 1 := by
        rw [List.length_append, List.length_singleton]
      have hend : h - stackBlock (arg.length + 1) + (arg ++ [0]).length ≤ h := by omega
      have hcopy := hpage.copyout_eq (List.append_ne_nil_of_right_ne_nil arg (List.cons_ne_nil 0 []))
        (hend.trans hh)
      rw [run_bind_ok hcopy, if_neg (by decide)]
      have hw := writesBelow_setBytes (s := s) (q := q) hend hh
      have hmod' : (h - stackBlock (arg.length + 1)) % 16 = 0 := by omega
      have hroom' : (ustack ++ [n * 4096 + (h - stackBlock (arg.length + 1))]).length + argv.length <
          maxarg := by
        rw [List.length_append, List.length_singleton]
        omega
      obtain ⟨out, t, hrun, hw', hok, hbad⟩ := ih (hw.userPage hpage) (by omega) hmod'
        (fun a ha => hlen a (List.mem_cons_of_mem _ ha))
        (fun a ha => hchars a (List.mem_cons_of_mem _ ha)) hroom'
      refine ⟨out, t, hrun, hw.trans hw' (by omega), fun hle => ?_, fun hlt => ?_⟩
      · rw [argBlocks] at hle ⊢
        obtain ⟨hstrings, hout⟩ := hok (by omega)
        refine ⟨⟨?_, hstrings⟩, ?_⟩
        · refine (hasBytes_setBytes s.mem _ ?_).keep hw' le_rfl (by omega)
          intro x hx
          rcases List.mem_append.mp hx with hx | hx
          · exact hchars arg List.mem_cons_self x hx
          · rw [List.mem_singleton.mp hx]
            decide
        · rw [hout, offsets, List.map_cons, List.append_assoc, List.singleton_append, Nat.sub_sub]
      · rw [argBlocks] at hlt
        exact hbad (by omega)

end Pushing

/-! ### Reading the block back -/

section Layout

variable {m : Mem} {q h : Nat} {argv : List (List Nat)}

theorem length_offsets (argv : List (List Nat)) (h : Nat) : (offsets argv h).length = argv.length := by
  induction argv generalizing h with
  | nil => rfl
  | cons arg argv ih => rw [offsets, List.length_cons, List.length_cons, ih]

theorem length_argArray (n : Nat) (argv : List (List Nat)) :
    (argArray n argv).length = argv.length + 1 := by
  rw [argArray, List.length_append, List.length_map, length_offsets, List.length_singleton]

theorem argBlocks_mod (argv : List (List Nat)) : argBlocks argv % 16 = 0 := by
  induction argv with
  | nil => rfl
  | cons arg argv ih =>
      have hmod := stackBlock_mod (arg.length + 1)
      rw [argBlocks]
      omega

theorem offsets_spec (hfit : argBlocks argv ≤ h) (hh16 : h % 16 = 0) (hstrings : HasStrings m q argv h)
    {i : Nat} (hi : i < argv.length) :
    (offsets argv h).getD i 0 % 16 = 0 ∧ h - argBlocks argv ≤ (offsets argv h).getD i 0 ∧
      (offsets argv h).getD i 0 + (argv.getD i []).length + 1 ≤ h ∧
      HasBytes m (q * 4096 + (offsets argv h).getD i 0) (argv.getD i [] ++ [0]) := by
  induction argv generalizing h i with
  | nil => exact absurd hi (Nat.not_lt_zero i)
  | cons arg argv ih =>
      have hblock := le_stackBlock (arg.length + 1)
      have hmod := stackBlock_mod (arg.length + 1)
      rw [argBlocks] at hfit ⊢
      rw [offsets]
      cases i with
      | zero =>
          rw [List.getD_cons_zero, List.getD_cons_zero]
          exact ⟨by omega, by omega, by omega, hstrings.1⟩
      | succ i =>
          rw [List.getD_cons_succ, List.getD_cons_succ]
          obtain ⟨h₁, h₂, h₃, h₄⟩ := ih (h := h - stackBlock (arg.length + 1)) (by omega) (by omega)
            hstrings.2 (Nat.lt_of_succ_lt_succ hi)
          exact ⟨h₁, by omega, by omega, h₄⟩

theorem offsets_lt (hfit : argBlocks argv ≤ h) (hh16 : h % 16 = 0) (hstrings : HasStrings m q argv h)
    {i j : Nat} (hij : i < j) (hj : j < argv.length) :
    (offsets argv h).getD j 0 + (argv.getD j []).length + 1 ≤ (offsets argv h).getD i 0 := by
  induction argv generalizing h i j with
  | nil => exact absurd hj (Nat.not_lt_zero j)
  | cons arg argv ih =>
      have hmod := stackBlock_mod (arg.length + 1)
      rw [argBlocks] at hfit
      rw [offsets]
      cases j with
      | zero => exact absurd hij (Nat.not_lt_zero i)
      | succ j =>
          rw [List.getD_cons_succ, List.getD_cons_succ]
          have hj := Nat.lt_of_succ_lt_succ hj
          cases i with
          | zero =>
              rw [List.getD_cons_zero]
              exact (offsets_spec (by omega) (by omega) hstrings.2 hj).2.2.1
          | succ i =>
              rw [List.getD_cons_succ]
              exact ih (by omega) (by omega) hstrings.2 (Nat.lt_of_succ_lt_succ hij) hj

theorem length_bytesOfWord (n w : Nat) : (bytesOfWord n w).length = n := by
  induction n generalizing w with
  | zero => rfl
  | succ n ih => rw [bytesOfWord, List.length_cons, ih]

theorem getD_bytesOfWord {n w k : Nat} (hk : k < n) :
    (bytesOfWord n w).getD k 0 = w / 256 ^ k % 256 := by
  induction n generalizing w k with
  | zero => exact absurd hk (Nat.not_lt_zero k)
  | succ n ih =>
      rw [bytesOfWord]
      cases k with
      | zero => rw [List.getD_cons_zero, Nat.pow_zero, Nat.div_one]
      | succ k =>
          rw [List.getD_cons_succ, ih (Nat.lt_of_succ_lt_succ hk), Nat.div_div_eq_div_mul,
            ← Nat.pow_succ']

theorem length_words (ws : List Nat) : (ws.flatMap (bytesOfWord 8)).length = 8 * ws.length := by
  induction ws with
  | nil => rfl
  | cons w ws ih =>
      rw [List.flatMap_cons, List.length_append, length_bytesOfWord, ih, List.length_cons]
      omega

theorem getD_words {ws : List Nat} {i k : Nat} (hi : i < ws.length) (hk : k < 8) :
    (ws.flatMap (bytesOfWord 8)).getD (8 * i + k) 0 = ws.getD i 0 / 256 ^ k % 256 := by
  induction ws generalizing i with
  | nil => exact absurd hi (Nat.not_lt_zero i)
  | cons w ws ih =>
      rw [List.flatMap_cons]
      cases i with
      | zero =>
          rw [Nat.mul_zero, Nat.zero_add, List.getD_append _ _ _ _ (by rw [length_bytesOfWord]; exact hk),
            getD_bytesOfWord hk, List.getD_cons_zero]
      | succ i =>
          rw [List.getD_append_right _ _ _ _ (by rw [length_bytesOfWord]; omega), length_bytesOfWord,
            show 8 * (i + 1) + k - 8 = 8 * i + k by omega, ih (Nat.lt_of_succ_lt_succ hi),
            List.getD_cons_succ]

theorem mem_words_lt {ws : List Nat} {x : Nat} (hx : x ∈ ws.flatMap (bytesOfWord 8)) : x < 256 := by
  obtain ⟨w, -, hx⟩ := List.mem_flatMap.mp hx
  obtain ⟨k, hk, rfl⟩ := List.mem_iff_getElem.mp hx
  rw [length_bytesOfWord] at hk
  rw [← List.getD_eq_getElem _ 0, getD_bytesOfWord hk]
  exact Nat.mod_lt _ (by decide)

theorem HasStrings.keep {s t : Kernel} (hstrings : HasStrings s.mem q argv h)
    (hw : WritesBelow s t q (h - argBlocks argv)) (hfit : argBlocks argv ≤ h) (hh : h ≤ 4096) :
    HasStrings t.mem q argv h := by
  induction argv generalizing h with
  | nil => trivial
  | cons arg argv ih =>
      have hblock := le_stackBlock (arg.length + 1)
      have hlen : (arg ++ [0]).length = arg.length + 1 := by
        rw [List.length_append, List.length_singleton]
      rw [argBlocks] at hw hfit
      refine ⟨hstrings.1.keep hw (by omega) (by omega), ih hstrings.2 ?_ (by omega) (by omega)⟩
      rwa [Nat.sub_sub]

end Layout

/-! ### What the program finds -/

def HasWord (m : Mem) (r va w : Nat) : Prop :=
  w < 0x10000000000000000 ∧ ∀ k < 8, userByte m r (va + k) = some (w / 256 ^ k % 256)

def HasString (m : Mem) (r va : Nat) (str : List Nat) : Prop :=
  IsString m r va str.length ∧ ∀ j < str.length, userByte m r (va + j) = some (str.getD j 0)

/-- The stack page of a program that is started with `argv`, seen from its stack pointer. -/
structure ArgBlock (m : Mem) (r sz sp : Nat) (argv : List (List Nat)) : Prop where
  aligned : sp % 16 = 0
  above : sz - pgsize ≤ sp
  below : sp + 8 * (argv.length + 1) ≤ sz
  vector : ∃ ptr : Nat → Nat,
    (∀ i < argv.length, HasWord m r (sp + 8 * i) (ptr i)) ∧
    HasWord m r (sp + 8 * argv.length) 0 ∧
    (∀ i < argv.length, ptr i % 16 = 0 ∧ HasString m r (ptr i) (argv.getD i []) ∧
      sp + 8 * (argv.length + 1) ≤ ptr i ∧ ptr i + (argv.getD i []).length + 1 ≤ sz) ∧
    ∀ i j, i < j → j < argv.length → ptr j + (argv.getD j []).length + 1 ≤ ptr i

/-- The blocks of the strings and of the array fit on one page. -/
def Fits (argv : List (List Nat)) : Prop :=
  argBlocks argv + stackBlock (8 * (argv.length + 1)) ≤ pgsize

instance (argv : List (List Nat)) : Decidable (Fits argv) := inferInstanceAs (Decidable (_ ≤ _))

section Block

variable {s t : Kernel} {r n q o sz : Nat} {T : Shape} {argv : List (List Nat)}

theorem UserPage.userByte_eq (hpage : UserPage s r T n q) (ho : o < 4096) :
    userByte s.mem r (n * 4096 + o) = some (s.mem.byte (q * 4096 + o)) := by
  have hdiv : (n * 4096 + o) / 4096 = n := by omega
  have hmod : (n * 4096 + o) % 4096 = o := by omega
  have hva := offset_lt_maxva hpage.limit ho
  have hframe : userFrame s.mem r (n * 4096 + o) = q * 4096 := by
    rw [userFrame, hdiv, ← hpage.table.pteOf_eq_level0, if_pos ⟨hva, hpage.valid, hpage.user⟩,
      hpage.pte2pa_eq]
  rw [userByte, hframe, if_neg hpage.ram.addr_ne_zero, hmod]

theorem UserPage.hasString (hpage : UserPage s r T n q) {str : List Nat}
    (hend : o + str.length + 1 ≤ 4096) (hchars : ∀ c ∈ str, 0 < c)
    (hbytes : HasBytes s.mem (q * 4096 + o) (str ++ [0])) :
    HasString s.mem r (n * 4096 + o) str := by
  have hlen : (str ++ [0]).length = str.length + 1 := by
    rw [List.length_append, List.length_singleton]
  have hbyte : ∀ j, j ≤ str.length →
      userByte s.mem r (n * 4096 + o + j) = some ((str ++ [0]).getD j 0) := by
    intro j hj
    rw [Nat.add_assoc, hpage.userByte_eq (by omega), ← hbytes j (by omega), Nat.add_assoc]
  have hchar : ∀ j < str.length, userByte s.mem r (n * 4096 + o + j) = some (str.getD j 0) := by
    intro j hj
    rw [hbyte j hj.le, List.getD_append _ _ _ _ hj]
  refine ⟨⟨fun j hj => ⟨_, ?_, hchar j hj⟩, ?_⟩, hchar⟩
  · rw [List.getD_eq_getElem _ _ hj]
    exact (hchars _ (List.getElem_mem hj)).ne'
  · rw [hbyte _ le_rfl, List.getD_append_right _ _ _ _ le_rfl, Nat.sub_self]
    rfl

theorem UserPage.hasWord (hpage : UserPage s r T n q) {ws : List Nat} {i : Nat} (hi : i < ws.length)
    (hend : o + 8 * ws.length ≤ 4096) (hw : ws.getD i 0 < 0x10000000000000000)
    (hbytes : HasBytes s.mem (q * 4096 + o) (ws.flatMap (bytesOfWord 8))) :
    HasWord s.mem r (n * 4096 + o + 8 * i) (ws.getD i 0) := by
  refine ⟨hw, fun k hk => ?_⟩
  rw [show n * 4096 + o + 8 * i + k = n * 4096 + (o + (8 * i + k)) by omega,
    hpage.userByte_eq (by omega), ← getD_words hi hk, ← hbytes (8 * i + k), Nat.add_assoc]
  rw [length_words]
  omega

theorem argBlock (hpage : UserPage s r T n q) (hstrings : HasStrings s.mem q argv 4096)
    (hfit : Fits argv) (hchars : ∀ arg ∈ argv, ∀ c ∈ arg, 0 < c)
    (harray : HasBytes s.mem
      (q * 4096 + (4096 - argBlocks argv - stackBlock (8 * (argv.length + 1))))
      ((argArray n argv).flatMap (bytesOfWord 8))) :
    ArgBlock s.mem r (n * 4096 + 4096)
      (n * 4096 + (4096 - argBlocks argv - stackBlock (8 * (argv.length + 1)))) argv := by
  rw [Fits, pgsize] at hfit
  have hmod := argBlocks_mod argv
  have hmod' := stackBlock_mod (8 * (argv.length + 1))
  have hroom := le_stackBlock (8 * (argv.length + 1))
  have hlen := length_argArray n argv
  have hptr : ∀ i < argv.length, (argArray n argv).getD i 0 =
      n * 4096 + (offsets argv 4096).getD i 0 := by
    intro i hi
    have hi' : i < (offsets argv 4096).length := by rwa [length_offsets]
    rw [argArray, List.getD_append _ _ _ _ (by rwa [List.length_map]), List.getD_eq_getElem _ _ hi',
      List.getD_eq_getElem _ _ (by rwa [List.length_map]), List.getElem_map]
  have hnull : (argArray n argv).getD argv.length 0 = 0 := by
    rw [argArray, List.getD_append_right _ _ _ _ (by rw [List.length_map, length_offsets]), List.length_map,
      length_offsets, Nat.sub_self]
    rfl
  have hspec := fun i (hi : i < argv.length) =>
    offsets_spec (i := i) (show argBlocks argv ≤ 4096 by omega) rfl hstrings hi
  refine ⟨by omega, by rw [pgsize]; omega, by omega,
    fun i => n * 4096 + (offsets argv 4096).getD i 0, ?_, ?_, ?_, ?_⟩
  · intro i hi
    have hbound := hspec i hi
    have hmax : n * 4096 + (offsets argv 4096).getD i 0 < 0x10000000000000000 :=
      (offset_lt_maxva hpage.limit (by omega)).trans (by decide)
    have hword := hpage.hasWord (i := i) (by rw [hlen]; omega) (by rw [hlen]; omega)
      (by rw [hptr i hi]; exact hmax) harray
    rwa [hptr i hi] at hword
  · have hword := hpage.hasWord (i := argv.length) (by rw [hlen]; omega) (by rw [hlen]; omega)
      (by rw [hnull]; decide) harray
    rwa [hnull] at hword
  · intro i hi
    obtain ⟨h₁, h₂, h₃, h₄⟩ := hspec i hi
    refine ⟨by dsimp only; omega, ?_, by dsimp only; omega, by dsimp only; omega⟩
    refine hpage.hasString h₃ (hchars _ ?_) h₄
    rw [List.getD_eq_getElem _ _ hi]
    exact List.getElem_mem hi
  · intro i j hij hj
    have hlt := offsets_lt (by omega) rfl hstrings hij hj
    dsimp only
    omega

end Block

/-! ### The stack of a new program -/

section Stack

variable {s s₀ s₁ : Kernel} {r n sz sz₁ : Nat} {T : Shape} {argv : List (List Nat)} {h : Nat → Nat}

/-- A guard page: an entry of `uvmalloc` loses its user bit and stays a leaf. -/
theorem Image.uvmclear_eq {n' : Nat} (himage : Image s₀ s r T n' h) (hn : n < n')
    (hflags : pteOf s.mem T n % 1024 = 0x17) :
    ∃ t, uvmclear (r * 4096) (n * 4096) s = .ok () t ∧ Image s₀ t r T n' h ∧
      ∀ k, k ≠ n → pteOf t.mem T k = pteOf s.mem T k := by
  have hspace := himage.space
  have hlimit := lt_of_le_of_lt hspace.backed.le npages_lt_trapframe
  have hleaf := hspace.backed.leaf n (Nat.zero_le n) hn
  obtain ⟨q, hq, hram, hslot, hword, hwalk⟩ :=
    hspace.table.walk_valid (page_lt_maxva (hn.trans hlimit)) (isValid_of_isLeaf hleaf)
  have hj : n % 512 < 512 := Nat.mod_lt _ (by decide)
  have hbit : s.mem q (n % 512) - (s.mem q (n % 512) &&& pteU) = pteOf s.mem T n - 16 := by
    rw [hword, and_low _ (by decide), hflags]
    rfl
  unfold uvmclear
  rw [run_bind_ok hwalk, if_neg hslot]
  dsimp only
  rw [run_loadWord_bind (hram.inRam_slot hj), word_slot _ hj, run_storeWord (hram.inRam_slot hj),
    setWord_slot _ _ hj, hbit]
  refine ⟨_, rfl, ?_⟩
  generalize ht : ({ s with mem := upd s.mem q (upd (s.mem q) (n % 512) (pteOf s.mem T n - 16)) } :
    Kernel) = t
  obtain ⟨hset, hpte⟩ := hspace.table.setEntry hq (pteOf s.mem T n - 16) (t := t) (by rw [← ht])
    (by rw [← ht]) (by rw [← ht])
  have hkmem : t.kmem = s.kmem := by rw [← ht]
  have hother : ∀ k, k ≠ n → pteOf t.mem T k = pteOf s.mem T k := fun k hk => by rw [hpte k, if_neg hk]
  have hframe : ∀ k, frameOf t.mem T k = frameOf s.mem T k := by
    intro k
    rw [frameOf, hpte k]
    split
    · next h =>
      rw [h, frameOf]
      omega
    · rfl
  refine ⟨⟨⟨hset.table hspace.table, ⟨fun k hk hk' => ?_, fun k hk hk' => ?_, fun k hk hk' => ?_,
    fun k k' hk hk₁ hk' hk₂ => ?_⟩, fun k hk hk' => ?_⟩, fun k hk => ?_, ?_, fun x hx j' hj' => ?_,
    hset.proc.trans himage.proc⟩, hother⟩
  · rw [hpte k]
    split
    · rw [isLeaf_mod, show (pteOf s.mem T n - 16) % 1024 = 7 by omega]
      decide
    · exact hspace.backed.leaf k hk hk'
  · rw [hframe, hkmem]
    exact hspace.backed.sole k hk hk'
  · rw [hframe]
    exact hspace.backed.apart k hk hk'
  · rw [hframe, hframe]
    exact hspace.backed.inj k k' hk hk₁ hk' hk₂
  · rw [hother k (by omega)]
    exact hspace.rest k hk hk'
  · rw [hother k (by omega)]
    exact himage.high k hk
  · rw [hkmem, show frames t.mem T 0 n' = frames s.mem T 0 n' by simp only [frames, hframe]]
    exact himage.lent
  · rw [hset.mem x (himage.notMem hx) (Set.notMem_empty x)]
    exact himage.kept x hx j' hj'

/-- The pages that `execStack` adds: a guard without the user bit, and the stack. -/
theorem Image.stackPage (himage : Image s₀ s r T (pagesFor sz) h)
    (halloc : uvmalloc (r * 4096) (pgroundup sz) (pgroundup sz + 2 * pgsize) pteW s = .ok sz₁ s₁)
    (hne : sz₁ ≠ 0) : sz₁ = (pagesFor sz + 2) * 4096 ∧
      ∃ s₂ T' q, uvmclear (r * 4096) (sz₁ - 2 * pgsize) s₁ = .ok () s₂ ∧
        Image s₀ s₂ r T' (pagesFor sz + 2) h ∧ UserPage s₂ r T' (pagesFor sz + 1) q := by
  have hlimit := himage.space.backed.le
  rw [npages] at hlimit
  have hround : pagesFor (pagesFor sz * 4096) = pagesFor sz := by
    rw [pagesFor_eq (by omega)]
    omega
  have hround' : pagesFor (pagesFor sz * 4096 + 2 * pgsize) = pagesFor sz + 2 := by
    rw [pgsize, pagesFor_eq (by omega)]
    omega
  rw [pgroundup_eq] at halloc
  obtain ⟨T', N, hcase⟩ := (uvmalloc_spec (E := fun _ _ => True) (f := 0x17)
    (by rw [hround]; exact himage.space) (by omega) (Nat.le_add_right _ _) rfl (by decide)
    (by decide)).ok halloc
  rcases hcase with ⟨rfl, -⟩ | ⟨rfl, -, -, hspace, hext⟩
  · exact absurd rfl hne
  rw [hround'] at hspace hext
  rw [hround] at hext
  have hend : pagesFor sz * 4096 + 2 * pgsize = (pagesFor sz + 2) * 4096 := by
    rw [pgsize]
    omega
  refine ⟨hend, ?_⟩
  rw [show pagesFor sz * 4096 + 2 * pgsize - 2 * pgsize = pagesFor sz * 4096 by omega]
  obtain ⟨s₂, hclear, himage', hpte⟩ := (himage.extend (Nat.le_add_right _ 2) hspace
    hext).uvmclear_eq (n := pagesFor sz) (by omega) (hext.flags _ le_rfl (by omega))
  have hstack := hpte (pagesFor sz + 1) (by omega)
  have hbacked := himage'.space.backed
  refine ⟨s₂, T', frameOf s₂.mem T' (pagesFor sz + 1), hclear, himage', himage'.space.table, ?_, ?_,
    ?_, rfl, ?_, ?_⟩
  · exact page_lt_maxva (lt_of_lt_of_le (by omega) (hbacked.le.trans npages_lt_trapframe.le))
  · exact isValid_of_isLeaf (hbacked.leaf _ (Nat.zero_le _) (by omega))
  · rw [hstack, and_low _ (by decide), hext.flags _ (by omega) (by omega)]
    decide
  · exact (hbacked.sole _ (Nat.zero_le _) (by omega)).1.ramPage
  · exact hbacked.apart _ (Nat.zero_le _) (by omega)

def pushArgs (pagetable sz stackbase : Nat) (argv : List (List Nat)) : K (Phase (Nat × Nat)) := do
  match ← execArgs pagetable sz stackbase argv sz [] with
  | .bad sz => pure (.bad sz)
  | .next (sp, ustack) =>
    let ustack := ustack ++ [0]
    let sp := uint64 (sp + 0x10000000000000000 - 8 * ustack.length)
    let sp := sp - sp % 16
    if sp < stackbase then
      pure (.bad sz)
    else
      let r ← copyout pagetable sp (ustack.flatMap (bytesOfWord 8))
      if r < 0 then pure (.bad sz) else pure (.next (sz, sp))

theorem execStack_eq
    (halloc : uvmalloc (r * 4096) (pgroundup sz) (pgroundup sz + 2 * pgsize) pteW s = .ok sz₁ s₁)
    (hne : sz₁ ≠ 0) {s₂ : Kernel}
    (hclear : uvmclear (r * 4096) (sz₁ - 2 * pgsize) s₁ = .ok () s₂) :
    execStack (r * 4096) sz argv s = pushArgs (r * 4096) sz₁ (sz₁ - pgsize) argv s₂ := by
  unfold execStack
  dsimp only
  rw [run_bind_ok halloc, if_neg hne, run_bind_ok hclear]
  rfl

theorem pushArgs_spec {q : Nat} (hpage : UserPage s r T n q) (hn : 1 ≤ n)
    (hargc : argv.length < maxarg)
    (hargs : ∀ arg ∈ argv, arg.length < pgsize ∧ ∀ c ∈ arg, 0 < c ∧ c < 256) :
    ∃ out t, pushArgs (r * 4096) (n * 4096 + 4096) (n * 4096) argv s = .ok out t ∧
      WritesBelow s t q 4096 ∧
      (Fits argv → ∃ sp, out = .next (n * 4096 + 4096, sp) ∧
        ArgBlock t.mem r (n * 4096 + 4096) sp argv) ∧
      (¬ Fits argv → out = .bad (n * 4096 + 4096)) := by
  have hargc' : ([] : List Nat).length + argv.length < maxarg := by
    rwa [List.length_nil, Nat.zero_add]
  obtain ⟨out, t, hrun, hw, hok, hbad⟩ := execArgs_spec (n * 4096 + 4096) hpage hn le_rfl rfl
    (fun arg harg => (hargs arg harg).1) (fun arg harg c hc => ((hargs arg harg).2 c hc).2) hargc'
  have hmod := argBlocks_mod argv
  have hroom := le_stackBlock (8 * (argv.length + 1))
  unfold pushArgs
  rw [run_bind_ok hrun]
  by_cases hstrings : argBlocks argv ≤ 4096
  swap
  · rw [hbad (by omega)]
    refine ⟨_, t, rfl, hw, fun hfit => ?_, fun _ => rfl⟩
    rw [Fits, pgsize] at hfit
    omega
  obtain ⟨hhas, rfl⟩ := hok hstrings
  have hlen := length_argArray n argv
  have hwords := length_words (argArray n argv)
  rw [hlen] at hwords
  rw [maxarg] at hargc
  dsimp only
  rw [List.nil_append, ← argArray, hlen, push_eq (n * 4096) (8 * (argv.length + 1)) (by omega)
    hpage.limit (by omega) (by omega) (by omega) (by omega)]
  by_cases hfit : argBlocks argv + stackBlock (8 * (argv.length + 1)) ≤ 4096
  swap
  · rw [if_pos (by omega)]
    exact ⟨_, t, rfl, hw, fun h => absurd h hfit, fun _ => rfl⟩
  rw [if_neg (by omega),
    show n * 4096 + (4096 - argBlocks argv) - stackBlock (8 * (argv.length + 1)) =
      n * 4096 + (4096 - argBlocks argv - stackBlock (8 * (argv.length + 1))) by omega]
  have hend : 4096 - argBlocks argv - stackBlock (8 * (argv.length + 1)) +
      ((argArray n argv).flatMap (bytesOfWord 8)).length ≤ 4096 - argBlocks argv := by omega
  have hnonempty : (argArray n argv).flatMap (bytesOfWord 8) ≠ [] := by
    intro hnil
    rw [hnil, List.length_nil] at hwords
    omega
  have hcopy := (hw.userPage hpage).copyout_eq hnonempty (hend.trans (Nat.sub_le _ _))
  have hw' := writesBelow_setBytes (s := t) (q := q) hend (Nat.sub_le _ _)
  rw [run_bind_ok hcopy, if_neg (by decide)]
  refine ⟨_, _, rfl, hw.trans hw' (Nat.sub_le _ _), fun _ => ⟨_, rfl, ?_⟩, fun h => absurd hfit h⟩
  refine argBlock (hw'.userPage (hw.userPage hpage)) (hhas.keep hw' hstrings le_rfl) hfit
    (fun arg harg c hc => ((hargs arg harg).2 c hc).1) ?_
  exact hasBytes_setBytes t.mem _ fun x hx => mem_words_lt hx

end Stack

end Xv6Mmap
