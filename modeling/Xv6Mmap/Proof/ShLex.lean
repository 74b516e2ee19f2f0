import Xv6Mmap.Sh
import Xv6Mmap.Lib.Wp
import Mathlib.Tactic.Common

/-!
# The tokens of a line

The tokens of a line are defined on its bytes, from left to right. A pointer into the line stands for
the tokens from there on; `peek` looks at the first of them and `gettoken` takes it.
-/

namespace Xv6Mmap.Sh

open Sequential

/-! ### What the tokens of a text are -/

def symbolTok (c : Nat) : Tok :=
  if c = '|'.toNat then .bar
  else if c = '('.toNat then .lparen
  else if c = ')'.toNat then .rparen
  else if c = ';'.toNat then .semi
  else if c = '&'.toNat then .amp
  else .lt

def endWord (start : Option Nat) (pos : Nat) : List Token :=
  match start with
  | none => []
  | some q => [⟨.word, q, pos⟩]

/-- The tokens of the text at `pos`, in front of which a word may have begun. -/
def lexFrom : Option Nat → Nat → List Nat → List Token
  | start, pos, [] => endWord start pos
  | start, pos, c :: cs =>
    if isWordChar c then lexFrom (some (start.getD pos)) (pos + 1) cs
    else endWord start pos ++
      (if strchr whitespace c then lexFrom none (pos + 1) cs
      else if c = '>'.toNat then
        match cs with
        | [] => [⟨.gt, pos, pos + 1⟩]
        | c' :: cs' =>
          if c' = '>'.toNat then ⟨.append, pos, pos + 2⟩ :: lexFrom none (pos + 2) cs'
          else ⟨.gt, pos, pos + 1⟩ :: lexFrom none (pos + 1) (c' :: cs')
      else ⟨symbolTok c, pos, pos + 1⟩ :: lexFrom none (pos + 1) cs)

def tokens (s : Nat) (line : List Nat) : List Token := lexFrom none s line

example : tokens 0 (chars ['a', '>', '>', 'b', ' ', '&']) =
    [⟨.word, 0, 1⟩, ⟨.append, 1, 3⟩, ⟨.word, 3, 4⟩, ⟨.amp, 5, 6⟩] := by decide

theorem lexFrom_nil (start : Option Nat) (pos : Nat) : lexFrom start pos [] = endWord start pos := by
  rw [lexFrom]

theorem lexFrom_space {c : Nat} (hc : strchr whitespace c = true) (pos : Nat) (cs : List Nat) :
    lexFrom none pos (c :: cs) = lexFrom none (pos + 1) cs := by
  have hword : isWordChar c = false := by simp [isWordChar, hc]
  rw [lexFrom.eq_def]
  simp [hword, hc, endWord]

theorem lexFrom_wordChar {c : Nat} (hc : isWordChar c = true) (start : Option Nat) (pos : Nat)
    (cs : List Nat) :
    lexFrom start pos (c :: cs) = lexFrom (some (start.getD pos)) (pos + 1) cs := by
  rw [lexFrom.eq_def]
  simp [hc]

theorem lexFrom_endWord {c : Nat} (hc : isWordChar c = false) (q pos : Nat) (cs : List Nat) :
    lexFrom (some q) pos (c :: cs) = ⟨.word, q, pos⟩ :: lexFrom none pos (c :: cs) := by
  rw [lexFrom.eq_def, lexFrom.eq_def none]
  simp [hc, endWord]

theorem lexFrom_symbol {c : Nat} (hc : c ∈ symbols) (hgt : c ≠ '>'.toNat) (pos : Nat) (cs : List Nat) :
    lexFrom none pos (c :: cs) = ⟨symbolTok c, pos, pos + 1⟩ :: lexFrom none (pos + 1) cs := by
  have hword : isWordChar c = false := by simp [isWordChar, strchr, hc]
  have hspace : strchr whitespace c = false := by
    revert c
    decide
  rw [lexFrom.eq_def]
  simp only [hword, hspace, hgt, endWord, Bool.false_eq_true, ↓reduceIte, List.nil_append]

theorem lexFrom_append (pos : Nat) (cs : List Nat) :
    lexFrom none pos ('>'.toNat :: '>'.toNat :: cs) =
      ⟨.append, pos, pos + 2⟩ :: lexFrom none (pos + 2) cs := by
  rw [lexFrom.eq_def]
  rfl

theorem lexFrom_gt {pos : Nat} {cs : List Nat} (hcs : ∀ c cs', cs = c :: cs' → c ≠ '>'.toNat) :
    lexFrom none pos ('>'.toNat :: cs) = ⟨.gt, pos, pos + 1⟩ :: lexFrom none (pos + 1) cs := by
  rw [lexFrom.eq_def]
  cases cs with
  | nil => rfl
  | cons c cs' =>
      have hword : isWordChar '>'.toNat = false := by decide
      have hspace : strchr whitespace '>'.toNat = false := by decide
      simp only [hword, hspace, hcs c cs' rfl, endWord, Bool.false_eq_true, ↓reduceIte,
        List.nil_append]

theorem lexFrom_spaces (pos : Nat) (cs : List Nat) : lexFrom none pos cs =
    lexFrom none (pos + (cs.takeWhile (strchr whitespace)).length)
      (cs.dropWhile (strchr whitespace)) := by
  induction cs generalizing pos with
  | nil => rfl
  | cons c cs ih =>
      by_cases hc : strchr whitespace c = true
      · rw [lexFrom_space hc, ih, List.takeWhile_cons_of_pos hc, List.dropWhile_cons_of_pos hc,
          List.length_cons, Nat.add_assoc, Nat.add_comm 1]
      · rw [List.takeWhile_cons_of_neg hc, List.dropWhile_cons_of_neg hc]
        rfl

theorem lexFrom_word (q pos : Nat) (cs : List Nat) : lexFrom (some q) pos cs =
    ⟨.word, q, pos + (cs.takeWhile isWordChar).length⟩ ::
      lexFrom none (pos + (cs.takeWhile isWordChar).length) (cs.dropWhile isWordChar) := by
  induction cs generalizing pos with
  | nil => rfl
  | cons c cs ih =>
      by_cases hc : isWordChar c = true
      · rw [lexFrom_wordChar hc, Option.getD_some, ih, List.takeWhile_cons_of_pos hc,
          List.dropWhile_cons_of_pos hc, List.length_cons, Nat.add_assoc, Nat.add_comm 1]
      · rw [List.takeWhile_cons_of_neg hc, List.dropWhile_cons_of_neg hc,
          lexFrom_endWord (Bool.eq_false_iff.mpr hc)]
        rfl

/-! ### The line in memory -/

def CString (mem : Bytes) : Nat → List Nat → Prop
  | s, [] => mem s = 0
  | s, c :: cs => mem s = c ∧ c ≠ 0 ∧ CString mem (s + 1) cs

def At (mem : Bytes) (es s : Nat) (L : List Token) : Prop :=
  ∃ cs, CString mem s cs ∧ es = s + cs.length ∧ lexFrom none s cs = L

section Memory

variable {mem : Bytes} {es s : Nat} {cs : List Nat} {L : List Token}

theorem CString.skip (p : Nat → Bool) (h : CString mem s cs) :
    skipWhile p mem cs.length s = s + (cs.takeWhile p).length ∧
      CString mem (s + (cs.takeWhile p).length) (cs.dropWhile p) := by
  induction cs generalizing s with
  | nil => exact ⟨rfl, h⟩
  | cons c cs ih =>
      obtain ⟨hc, hne, hcs⟩ := h
      rw [List.length_cons, skipWhile, hc]
      by_cases hp : p c = true
      · obtain ⟨hskip, hrest⟩ := ih hcs
        rw [if_pos hp, List.takeWhile_cons_of_pos hp, List.dropWhile_cons_of_pos hp, List.length_cons,
          ← Nat.add_assoc, Nat.add_right_comm]
        exact ⟨hskip, hrest⟩
      · rw [if_neg hp, List.takeWhile_cons_of_neg hp, List.dropWhile_cons_of_neg hp]
        exact ⟨rfl, hc, hne, hcs⟩

theorem CString.skip_length (p : Nat → Bool) (s : Nat) (cs : List Nat) :
    s + (cs.takeWhile p).length + (cs.dropWhile p).length = s + cs.length := by
  rw [Nat.add_assoc, ← List.length_append, List.takeWhile_append_dropWhile]

theorem At.skip (h : At mem es s L) : ∃ cs, CString mem (skipSpace mem es s) cs ∧
    es = skipSpace mem es s + cs.length ∧ lexFrom none (skipSpace mem es s) cs = L ∧
    ∀ c cs', cs = c :: cs' → strchr whitespace c = false := by
  obtain ⟨cs, hcs, hes, hlex⟩ := h
  have hlen : es - s = cs.length := by omega
  obtain ⟨hskip, hrest⟩ := hcs.skip (strchr whitespace)
  have hend : skipSpace mem es s = s + (cs.takeWhile (strchr whitespace)).length := by
    rw [skipSpace, hlen, hskip]
  rw [hend]
  refine ⟨cs.dropWhile (strchr whitespace), hrest, ?_, ?_, ?_⟩
  · rw [CString.skip_length, hes]
  · rw [← lexFrom_spaces, hlex]
  · intro c cs' heq
    have hhead := List.head?_dropWhile_not (strchr whitespace) cs
    rw [heq] at hhead
    simpa using hhead

theorem At.skipSpace (h : At mem es s L) : At mem es (Sh.skipSpace mem es s) L := by
  obtain ⟨cs, hcs, hes, hlex, -⟩ := h.skip
  exact ⟨cs, hcs, hes, hlex⟩

end Memory

/-! ### `peek` and `gettoken` -/

/-- The character with which a token begins; none of the symbols for a word. -/
def Tok.char : Tok → Nat
  | .eof => 0
  | .bar => '|'.toNat
  | .lparen => '('.toNat
  | .rparen => ')'.toNat
  | .semi => ';'.toNat
  | .amp => '&'.toNat
  | .lt => '<'.toNat
  | .gt => '>'.toNat
  | .append => '>'.toNat
  | .word => 0

section Scan

variable {mem : Bytes} {es s c : Nat} {cs : List Nat} {L : List Token}

/-- What `scan` finds is the first token of the text. -/
structure Scanned (mem : Bytes) (es s c : Nat) (cs : List Nat) : Prop where
  rest : ∃ cs', lexFrom none s (c :: cs) =
      ⟨(scan mem es s).1, s, (scan mem es s).2⟩ :: lexFrom none (scan mem es s).2 cs' ∧
    CString mem (scan mem es s).2 cs' ∧ es = (scan mem es s).2 + cs'.length
  ne : (scan mem es s).1 ≠ .eof
  char : (scan mem es s).1.char = if c ∈ symbols then c else 0

theorem scanned_of_eq {tok : Tok} {eq : Nat} {cs' : List Nat} (hscan : scan mem es s = (tok, eq))
    (hlex : lexFrom none s (c :: cs) = ⟨tok, s, eq⟩ :: lexFrom none eq cs') (hcs : CString mem eq cs')
    (hes : es = eq + cs'.length) (hne : tok ≠ .eof) (hchar : tok.char = if c ∈ symbols then c else 0) :
    Scanned mem es s c cs := by
  refine ⟨⟨cs', ?_⟩, ?_, ?_⟩ <;> rw [hscan]
  · exact ⟨hlex, hcs, hes⟩
  · exact hne
  · exact hchar

theorem CString.scan_symbol (h : CString mem s (c :: cs)) (hes : es = s + (c :: cs).length)
    (hc : c ∈ symbols) (hgt : c ≠ '>'.toNat) : Scanned mem es s c cs := by
  obtain ⟨hmem, hne, hcs⟩ := h
  rw [List.length_cons] at hes
  have hscan : scan mem es s = (symbolTok c, s + 1) ∧ symbolTok c ≠ .eof ∧ (symbolTok c).char = c := by
    unfold scan
    rw [hmem]
    simp only [symbols, chars, List.map_cons, List.map_nil, List.mem_cons, List.not_mem_nil,
      or_false] at hc
    rcases hc with rfl | rfl | rfl | rfl | rfl | rfl | rfl
    all_goals first | exact absurd rfl hgt | exact ⟨rfl, by decide, by decide⟩
  refine scanned_of_eq hscan.1 (lexFrom_symbol hc hgt s cs) hcs (by omega) hscan.2.1 ?_
  rw [if_pos hc, hscan.2.2]

theorem CString.scan_gt (h : CString mem s ('>'.toNat :: cs))
    (hes : es = s + ('>'.toNat :: cs).length) : Scanned mem es s '>'.toNat cs := by
  obtain ⟨hmem, hne, hcs⟩ := h
  rw [List.length_cons] at hes
  have hscan : scan mem es s =
      if mem (s + 1) = '>'.toNat then (.append, s + 2) else (.gt, s + 1) := by
    unfold scan
    rw [hmem]
    rfl
  have hchar : ('>'.toNat = if '>'.toNat ∈ symbols then '>'.toNat else 0) := by decide
  by_cases hnext : mem (s + 1) = '>'.toNat
  · rw [if_pos hnext] at hscan
    cases cs with
    | nil =>
        have hzero : mem (s + 1) = 0 := hcs
        rw [hnext] at hzero
        exact absurd hzero (by decide)
    | cons c cs' =>
        obtain ⟨hc, -, hcs'⟩ := hcs
        obtain rfl : c = '>'.toNat := hc.symm.trans hnext
        rw [List.length_cons] at hes
        exact scanned_of_eq hscan (lexFrom_append s cs') hcs' (by omega) (by decide) hchar
  · rw [if_neg hnext] at hscan
    refine scanned_of_eq hscan (lexFrom_gt fun c cs' heq hc => ?_) hcs (by omega) (by decide) hchar
    subst heq
    exact hnext (hcs.1.trans hc)

theorem CString.scan_word (h : CString mem s (c :: cs)) (hes : es = s + (c :: cs).length)
    (hc : isWordChar c = true) : Scanned mem es s c cs := by
  have hsymbol : c ∉ symbols := by
    intro hmem
    simp [isWordChar, strchr, hmem] at hc
  have hlen : es - s = (c :: cs).length := by omega
  obtain ⟨hskip, hrest⟩ := h.skip isWordChar
  have hscan : scan mem es s = (.word, s + ((c :: cs).takeWhile isWordChar).length) := by
    obtain ⟨hmem, hne, -⟩ := h
    have hnot : ∀ x ∈ symbols, c ≠ x := fun x hx heq => hsymbol (heq ▸ hx)
    unfold scan
    rw [hlen, hskip, hmem, if_neg hne]
    rw [if_neg (hnot _ (by decide)), if_neg (hnot _ (by decide)), if_neg (hnot _ (by decide)),
      if_neg (hnot _ (by decide)), if_neg (hnot _ (by decide)), if_neg (hnot _ (by decide)),
      if_neg (hnot _ (by decide))]
  refine scanned_of_eq hscan ?_ hrest ?_ (by decide) (if_neg hsymbol).symm
  · rw [lexFrom_wordChar hc, Option.getD_none, lexFrom_word, List.takeWhile_cons_of_pos hc,
      List.dropWhile_cons_of_pos hc, List.length_cons, Nat.add_assoc s 1, Nat.add_comm 1]
  · rw [CString.skip_length, hes]

theorem CString.scanned (h : CString mem s (c :: cs)) (hes : es = s + (c :: cs).length)
    (hspace : strchr whitespace c = false) : Scanned mem es s c cs := by
  by_cases hc : c ∈ symbols
  · by_cases hgt : c = '>'.toNat
    · subst hgt
      exact h.scan_gt hes
    · exact h.scan_symbol hes hc hgt
  · refine h.scan_word hes ?_
    have hsymbol : strchr symbols c = false := by
      rw [strchr]
      simpa using hc
    rw [isWordChar, hspace, hsymbol]
    rfl

def starts (toks : List Nat) : List Token → Bool
  | [] => false
  | x :: _ => strchr toks x.tok.char

theorem At.peek (h : At mem es s L) (toks : List Nat) (htoks : toks ⊆ symbols) :
    ∃ s', Sh.peek mem es toks s = .ok (starts toks L) s' ∧ At mem es s' L := by
  refine ⟨Sh.skipSpace mem es s, ?_, h.skipSpace⟩
  obtain ⟨cs, hcs, hes, hlex, hspace⟩ := h.skip
  have hvalue : (decide (mem (Sh.skipSpace mem es s) ≠ 0) &&
      strchr toks (mem (Sh.skipSpace mem es s))) = starts toks L := by
    cases cs with
    | nil =>
        have hzero : mem (Sh.skipSpace mem es s) = 0 := hcs
        rw [← hlex, lexFrom_nil, hzero]
        rfl
    | cons c cs =>
        obtain ⟨⟨cs', hfirst, -, -⟩, -, hchar⟩ := hcs.scanned hes (hspace c cs rfl)
        obtain ⟨hmem, hne, -⟩ := hcs
        rw [← hlex, hfirst, starts, hchar, hmem]
        by_cases hc : c ∈ symbols
        · simp [hc, hne]
        · have hnot : strchr toks c = false := by
            rw [strchr]
            simpa using fun h => hc (htoks h)
          have hzero : strchr toks 0 = false := by
            rw [strchr]
            simpa using fun h => absurd (htoks h) (by decide)
          rw [if_neg hc, hnot, hzero, Bool.and_false]
  rw [← hvalue]
  rfl

theorem At.gettoken_cons {x : Token} (h : At mem es s (x :: L)) :
    ∃ s', gettoken mem es s = .ok x s' ∧ At mem es s' L ∧ x.tok ≠ .eof := by
  obtain ⟨cs, hcs, hes, hlex, hspace⟩ := h.skip
  cases cs with
  | nil =>
      rw [lexFrom_nil] at hlex
      cases hlex
  | cons c cs =>
      obtain ⟨⟨cs', hfirst, hcs', hes'⟩, hne, -⟩ := hcs.scanned hes (hspace c cs rfl)
      obtain ⟨rfl, rfl⟩ := List.cons.inj (hfirst.symm.trans hlex)
      have hat : At mem es (scan mem es (Sh.skipSpace mem es s)).2
          (lexFrom none (scan mem es (Sh.skipSpace mem es s)).2 cs') := ⟨cs', hcs', hes', rfl⟩
      exact ⟨_, rfl, hat.skipSpace, hne⟩

theorem At.gettoken_nil (h : At mem es s []) :
    ∃ x s', gettoken mem es s = .ok x s' ∧ At mem es s' [] ∧ x.tok = .eof := by
  obtain ⟨cs, hcs, hes, hlex, hspace⟩ := h.skip
  cases cs with
  | nil =>
      have hscan : scan mem es (Sh.skipSpace mem es s) = (.eof, Sh.skipSpace mem es s) := if_pos hcs
      have hrun : gettoken mem es s = .ok ⟨(scan mem es (Sh.skipSpace mem es s)).1,
        Sh.skipSpace mem es s, (scan mem es (Sh.skipSpace mem es s)).2⟩
        (Sh.skipSpace mem es (scan mem es (Sh.skipSpace mem es s)).2) := rfl
      rw [hscan] at hrun
      exact ⟨_, _, hrun, h.skipSpace.skipSpace, rfl⟩
  | cons c cs =>
      obtain ⟨⟨cs', hfirst, -⟩, -⟩ := hcs.scanned hes (hspace c cs rfl)
      rw [hfirst] at hlex
      cases hlex

theorem At.end_iff (h : At mem es s L) : Sh.skipSpace mem es s = es ↔ L = [] := by
  obtain ⟨cs, hcs, hes, hlex, hspace⟩ := h.skip
  cases cs with
  | nil =>
      rw [lexFrom_nil] at hlex
      exact ⟨fun _ => hlex.symm, fun _ => hes.symm⟩
  | cons c cs =>
      obtain ⟨⟨cs', hfirst, -⟩, -⟩ := hcs.scanned hes (hspace c cs rfl)
      rw [hfirst] at hlex
      refine ⟨fun heq => ?_, fun hnil => ?_⟩
      · rw [List.length_cons] at hes
        omega
      · rw [hnil] at hlex
        cases hlex

end Scan

end Xv6Mmap.Sh
