import Xv6Mmap.Proof.ShParse

/-!
# The command that the shell runs

The terminators are written behind words, where no other word can be. So `parsecmd` leaves every
argument and every file of a redirection as the text of its token.
-/

namespace Xv6Mmap.Sh

open Sequential

/-! ### The words of a command -/

def Cmd.words : Cmd → List (Nat × Nat)
  | .exec argv => argv
  | .redir cmd file efile _ _ => cmd.words ++ [(file, efile)]
  | .pipe left right => left.words ++ right.words
  | .list left right => left.words ++ right.words
  | .back cmd => cmd.words

theorem nulterminate_eq (c : Cmd) (mem : Bytes) :
    nulterminate c mem = c.words.foldl (fun mem w => upd mem w.2 0) mem := by
  induction c generalizing mem with
  | exec argv => rfl
  | redir cmd file efile mode fd ih => rw [nulterminate, ih, Cmd.words, List.foldl_append]; rfl
  | pipe left right ihl ihr => rw [nulterminate, ihl, ihr, Cmd.words, List.foldl_append]
  | list left right ihl ihr => rw [nulterminate, ihl, ihr, Cmd.words, List.foldl_append]
  | back cmd ih => rw [nulterminate, ih, Cmd.words]

theorem words_around {c : Cmd} {r : Token × Token} {w : Nat × Nat}
    (hw : w ∈ (c.around r).words) : w ∈ c.words ∨ w = (r.2.q, r.2.eq) := by
  unfold Cmd.around at hw
  cases hop : r.1.tok with
  | lt => simpa [hop, Cmd.words] using hw
  | gt => simpa [hop, Cmd.words] using hw
  | append => simpa [hop, Cmd.words] using hw
  | _ => exact Or.inl (by simpa [hop] using hw)

theorem words_wrap {c : Cmd} {rs : List (Token × Token)} {w : Nat × Nat} (hw : w ∈ (c.wrap rs).words) :
    w ∈ c.words ∨ ∃ r ∈ rs, w = (r.2.q, r.2.eq) := by
  induction rs generalizing c with
  | nil => exact Or.inl hw
  | cons r rs ih =>
      rcases ih hw with hw | ⟨r', hr', hw⟩
      · rcases words_around hw with hw | hw
        · exact Or.inl hw
        · exact Or.inr ⟨r, List.mem_cons_self, hw⟩
      · exact Or.inr ⟨r', List.mem_cons_of_mem r hr', hw⟩

theorem words_backs (n : Nat) (c : Cmd) : (c.backs n).words = c.words := by
  induction n generalizing c with
  | zero => rfl
  | succ n ih => exact ih (.back c)

def IsWordOf (D : List Token) (w : Nat × Nat) : Prop := ⟨.word, w.1, w.2⟩ ∈ D

theorem isWordOf_of_tok {D : List Token} {x : Token} (hx : x ∈ D) (htok : x.tok = .word) :
    IsWordOf D (x.q, x.eq) := by
  obtain ⟨t, q, e⟩ := x
  obtain rfl : t = .word := htok
  exact hx

theorem Redirs.words {D : List Token} {rs : List (Token × Token)} (h : Redirs D rs) :
    ∀ r ∈ rs, IsWordOf D (r.2.q, r.2.eq) := by
  induction h with
  | nil => exact fun r hr => absurd hr List.not_mem_nil
  | @cons op file d rs _ hfile _ ih =>
      intro r hr
      rcases List.mem_cons.mp hr with rfl | hr
      · exact isWordOf_of_tok (List.mem_cons_of_mem _ List.mem_cons_self) hfile
      · exact List.mem_cons_of_mem _ (List.mem_cons_of_mem _ (ih r hr))

theorem Items.words {D : List Token} {argv : List (Nat × Nat)} {rs : List (Token × Token)}
    (h : Items D argv rs) :
    (∀ w ∈ argv, IsWordOf D w) ∧ ∀ r ∈ rs, IsWordOf D (r.2.q, r.2.eq) := by
  induction h with
  | nil => exact ⟨fun w hw => absurd hw List.not_mem_nil, fun r hr => absurd hr List.not_mem_nil⟩
  | @word x d argv rs hx _ ih =>
      refine ⟨fun w hw => ?_, fun r hr => List.mem_cons_of_mem _ (ih.2 r hr)⟩
      rcases List.mem_cons.mp hw with rfl | hw
      · exact isWordOf_of_tok List.mem_cons_self hx
      · exact List.mem_cons_of_mem _ (ih.1 w hw)
  | @redir op file d argv rs _ hfile _ ih =>
      refine ⟨fun w hw => List.mem_cons_of_mem _ (List.mem_cons_of_mem _ (ih.1 w hw)), fun r hr => ?_⟩
      rcases List.mem_cons.mp hr with rfl | hr
      · exact isWordOf_of_tok (List.mem_cons_of_mem _ List.mem_cons_self) hfile
      · exact List.mem_cons_of_mem _ (List.mem_cons_of_mem _ (ih.2 r hr))

mutual

theorem Line.words {D : List Token} {c : Cmd} : Line D c → ∀ w ∈ c.words, IsWordOf D w
  | .last hpipe _ => fun w hw =>
      List.mem_append_left _ (hpipe.words w (words_backs _ _ ▸ hw))
  | .more hpipe _ _ hline => fun w hw =>
      (List.mem_append.mp hw).elim
        (fun hw => List.mem_append_left _ (hpipe.words w (words_backs _ _ ▸ hw)))
        (fun hw => List.mem_append_right _ (List.mem_append_right _ (List.mem_cons_of_mem _ (hline.words w hw))))

theorem Pipe.words {D : List Token} {c : Cmd} : Pipe D c → ∀ w ∈ c.words, IsWordOf D w
  | .last hcommand => hcommand.words
  | .more hcommand _ hpipe => fun w hw =>
      (List.mem_append.mp hw).elim
        (fun hw => List.mem_append_left _ (hcommand.words w hw))
        (fun hw => List.mem_append_right _ (List.mem_cons_of_mem _ (hpipe.words w hw)))

theorem Command.words {D : List Token} {c : Cmd} : Command D c → ∀ w ∈ c.words, IsWordOf D w
  | .block _ hline _ hredirs => fun w hw => by
      refine List.mem_cons_of_mem _ ?_
      rcases words_wrap hw with hw | ⟨r, hr, rfl⟩
      · exact List.mem_append_left _ (hline.words w hw)
      · exact List.mem_append_right _ (List.mem_cons_of_mem _ (hredirs.words r hr))
  | .simple hitems _ => fun w hw => by
      rcases words_wrap hw with hw | ⟨r, hr, rfl⟩
      · exact hitems.words.1 w hw
      · exact hitems.words.2 r hr

end

/-! ### Where the words stand -/

/-- The bytes from `q` to `eq` can be part of a word and the one behind them cannot. -/
structure Delimited (mem : Bytes) (q eq : Nat) : Prop where
  le : q ≤ eq
  inside : ∀ i, q ≤ i → i < eq → mem i ≠ 0 ∧ isWordChar (mem i) = true
  behind : mem eq = 0 ∨ isWordChar (mem eq) = false

def Begun (mem : Bytes) (start : Option Nat) (pos : Nat) : Prop :=
  ∀ q, start = some q → q ≤ pos ∧ ∀ i, q ≤ i → i < pos → mem i ≠ 0 ∧ isWordChar (mem i) = true

theorem Begun.none (mem : Bytes) (pos : Nat) : Begun mem none pos := fun _ h => by cases h

theorem Begun.char {mem : Bytes} {start : Option Nat} {pos : Nat} (h : Begun mem start pos)
    (hne : mem pos ≠ 0) (hword : isWordChar (mem pos) = true) :
    Begun mem (some (start.getD pos)) (pos + 1) := by
  intro q hq
  obtain rfl := Option.some.inj hq
  have hlast : ∀ i, pos ≤ i → i < pos + 1 → mem i ≠ 0 ∧ isWordChar (mem i) = true := by
    intro i hle hlt
    obtain rfl : i = pos := by omega
    exact ⟨hne, hword⟩
  cases hstart : start with
  | none => exact ⟨Nat.le_succ pos, hlast⟩
  | some q =>
      obtain ⟨hle, hchars⟩ := h q hstart
      refine ⟨Nat.le_succ_of_le hle, fun i hi hlt => ?_⟩
      rcases Nat.lt_or_ge i pos with hi' | hi'
      · exact hchars i hi hi'
      · exact hlast i hi' hlt

theorem Begun.endWord {mem : Bytes} {start : Option Nat} {pos : Nat} (h : Begun mem start pos)
    (hend : mem pos = 0 ∨ isWordChar (mem pos) = false) :
    ∀ x ∈ Sh.endWord start pos, Delimited mem x.q x.eq := by
  intro x hx
  cases hstart : start with
  | none => simp [hstart, Sh.endWord] at hx
  | some q =>
      obtain rfl : x = ⟨.word, q, pos⟩ := by simpa [hstart, Sh.endWord] using hx
      obtain ⟨hle, hchars⟩ := h q hstart
      exact ⟨hle, hchars, hend⟩

theorem symbolTok_ne_word (c : Nat) : symbolTok c ≠ .word := by
  unfold symbolTok
  split_ifs <;> decide

theorem lexFrom_end {c : Nat} (hc : isWordChar c = false) (start : Option Nat) (pos : Nat)
    (cs : List Nat) : lexFrom start pos (c :: cs) = endWord start pos ++ lexFrom none pos (c :: cs) := by
  cases start with
  | none => rfl
  | some q => exact lexFrom_endWord hc q pos cs

/-- The words among the tokens are as long as they can be. -/
theorem lexFrom_delimited {mem : Bytes} {start : Option Nat} {pos : Nat} {cs : List Nat}
    (hcs : CString mem pos cs) (hstart : Begun mem start pos) :
    ∀ x ∈ lexFrom start pos cs, x.tok = .word → Delimited mem x.q x.eq := by
  -- the text gets shorter by one character, or by two with `>>`
  induction hn : cs.length using Nat.strong_induction_on generalizing start pos cs with
  | _ n ih =>
  cases cs with
  | nil => exact fun x hx _ => hstart.endWord (Or.inl hcs) x hx
  | cons c cs =>
      obtain ⟨rfl, hne, hcs⟩ := hcs
      rw [List.length_cons] at hn
      by_cases hword : isWordChar (mem pos) = true
      · rw [lexFrom_wordChar hword]
        exact ih cs.length (by omega) hcs (hstart.char hne hword) rfl
      rw [Bool.not_eq_true] at hword
      rw [lexFrom_end hword]
      have hnone : ∀ x ∈ lexFrom none pos (mem pos :: cs), x.tok = .word → Delimited mem x.q x.eq := by
        have hrest := ih cs.length (by omega) hcs (.none mem (pos + 1)) rfl
        by_cases hspace : strchr whitespace (mem pos) = true
        · rwa [lexFrom_space hspace]
        have hsymbol : mem pos ∈ symbols := by
          rw [Bool.not_eq_true] at hspace
          rw [isWordChar, hspace] at hword
          simpa [strchr] using hword
        by_cases hgt : mem pos = '>'.toNat
        · rw [hgt]
          by_cases happend : ∃ cs', cs = '>'.toNat :: cs'
          · obtain ⟨cs', rfl⟩ := happend
            rw [lexFrom_append]
            rw [List.length_cons] at hn
            exact List.forall_mem_cons.mpr ⟨fun h => (by cases h),
              ih cs'.length (by omega) hcs.2.2 (.none mem (pos + 2)) rfl⟩
          · rw [lexFrom_gt fun c cs' heq hc => happend ⟨cs', hc ▸ heq⟩]
            exact List.forall_mem_cons.mpr ⟨fun h => (by cases h), hrest⟩
        · rw [lexFrom_symbol hsymbol hgt]
          exact List.forall_mem_cons.mpr ⟨fun h => absurd h (symbolTok_ne_word _), hrest⟩
      intro x hx htok
      rcases List.mem_append.mp hx with hx | hx
      · exact hstart.endWord (Or.inr hword) x hx
      · exact hnone x hx htok

/-! ### The terminators -/

def slice (mem : Bytes) (q eq : Nat) : List Nat := (List.range' q (eq - q)).map mem

theorem CString.of_slice {mem mem' : Bytes} {q eq : Nat} (hle : q ≤ eq)
    (hinside : ∀ i, q ≤ i → i < eq → mem i ≠ 0 ∧ mem' i = mem i) (hend : mem' eq = 0) :
    CString mem' q (slice mem q eq) := by
  obtain ⟨n, rfl⟩ : ∃ n, eq = q + n := ⟨eq - q, by omega⟩
  rw [slice, Nat.add_sub_cancel_left]
  induction n generalizing q with
  | zero => exact hend
  | succ n ih =>
      obtain ⟨hne, hmem⟩ := hinside q le_rfl (by omega)
      refine ⟨hmem, hne, ih (by omega) (fun i hi hlt => hinside i (by omega) (by omega)) ?_⟩
      rwa [Nat.add_right_comm]

theorem foldl_upd_eq_zero {ws : List (Nat × Nat)} {i : Nat} {mem : Bytes}
    (h : mem i = 0 ∨ ∃ w ∈ ws, w.2 = i) : ws.foldl (fun mem w => upd mem w.2 0) mem i = 0 := by
  induction ws generalizing mem with
  | nil =>
      rcases h with h | ⟨w, hw, -⟩
      · exact h
      · cases hw
  | cons v ws ih =>
      rw [List.foldl_cons]
      refine ih ?_
      by_cases hv : i = v.2
      · subst hv
        exact Or.inl (upd_self mem v.2 0)
      · rcases h with h | ⟨w, hw, hwi⟩
        · exact Or.inl ((upd_of_ne mem 0 hv).trans h)
        · rcases List.mem_cons.mp hw with rfl | hw
          · exact absurd hwi.symm hv
          · exact Or.inr ⟨w, hw, hwi⟩

theorem foldl_upd_of_not_mem {ws : List (Nat × Nat)} {i : Nat} (hi : ∀ w ∈ ws, w.2 ≠ i) (mem : Bytes) :
    ws.foldl (fun mem w => upd mem w.2 0) mem i = mem i := by
  induction ws generalizing mem with
  | nil => rfl
  | cons v ws ih =>
      obtain ⟨hv, hws⟩ := List.forall_mem_cons.mp hi
      rw [List.foldl_cons, ih hws, upd_of_ne _ _ hv.symm]

section Terminators

variable {mem : Bytes} {c : Cmd} (hwords : ∀ w ∈ c.words, Delimited mem w.1 w.2)

include hwords

theorem nulterminate_inside {q eq : Nat} (h : Delimited mem q eq) {i : Nat} (hi : q ≤ i) (hlt : i < eq) :
    nulterminate c mem i = mem i := by
  rw [nulterminate_eq]
  refine foldl_upd_of_not_mem (fun v hv heq => ?_) mem
  obtain ⟨hne, hword⟩ := h.inside i hi hlt
  rcases (hwords v hv).behind with hend | hend
  · exact hne (heq ▸ hend)
  · rw [heq, hword] at hend
    cases hend

theorem nulterminate_word {w : Nat × Nat} (hw : w ∈ c.words) :
    CString (nulterminate c mem) w.1 (slice mem w.1 w.2) := by
  have hword := hwords w hw
  refine .of_slice hword.le (fun i hi hlt => ⟨(hword.inside i hi hlt).1, ?_⟩) ?_
  · exact nulterminate_inside hwords hword hi hlt
  · rw [nulterminate_eq]
    exact foldl_upd_eq_zero (Or.inr ⟨w, hw, rfl⟩)

end Terminators

/-! ### `parsecmd` -/

theorem strlenFrom_eq {mem : Bytes} {s n fuel : Nat} {cs : List Nat} (h : CString mem (s + n) cs)
    (hfuel : cs.length < fuel) (σ : Nat) : strlenFrom mem fuel s n σ = .ok (n + cs.length) σ := by
  induction fuel generalizing n cs with
  | zero => exact absurd hfuel (Nat.not_lt_zero _)
  | succ fuel ih =>
      rw [strlenFrom, run_ite]
      cases cs with
      | nil => exact if_pos h
      | cons c cs =>
          obtain ⟨hc, hne, hcs⟩ := h
          rw [List.length_cons] at hfuel ⊢
          rw [if_neg (hc ▸ hne), ih hcs (by omega), Nat.add_assoc, Nat.add_comm 1]

section Line

variable {mem : Bytes} {s fuel : Nat} {line : List Nat} {E : Stop → Nat → Prop}

theorem parsecmd_wp (h : CString mem s line) (hfuel : line.length < fuel) {Q : Cmd × Bytes → Nat → Prop}
    (hline : Wp (parseline mem (s + line.length) fuel)
      (fun c s' => ∃ L, At mem (s + line.length) s' L ∧ (L = [] → ∀ t, Q (c, nulterminate c mem) t) ∧
        (L ≠ [] → ∀ t, E (.panic "syntax") t)) E s) : Wp (parsecmd mem fuel) Q E s := by
  have hlen := strlenFrom_eq (n := 0) h hfuel s
  rw [Nat.zero_add] at hlen
  refine .get (.bind (.of_ok hlen (.bind (hline.imp fun c s' hpost => ?_))))
  obtain ⟨L, hat, hdone, hleft⟩ := hpost
  have hpeek : peek mem (s + line.length) [] s' = .ok _ (skipSpace mem (s + line.length) s') := rfl
  refine .bind (.of_ok hpeek (.get (.ite (fun hne => ?_) fun heq => ?_)))
  · exact .of_error rfl (hleft (fun hL => hne (hat.end_iff.mpr hL)) _)
  · exact .pure (hdone (hat.end_iff.mp (not_not.mp heq)) _)

theorem parsecmd_sound (h : CString mem s line)
    (hfuel : line.length + 4 * (tokens s line).length + 3 < fuel) :
    Wp (parsecmd mem fuel) (fun r _ => Line (tokens s line) r.1 ∧ r.2 = nulterminate r.1 mem)
      (fun e _ => e ≠ .loops) s := by
  have hat : At mem (s + line.length) s (tokens s line) := ⟨line, h, rfl, rfl⟩
  have hline := (parse_sound mem (s + line.length) fuel (tokens s line)).2.2.2 (by omega) s hat
  refine parsecmd_wp h (by omega) (hline.imp fun c s' hpost => ?_)
  obtain ⟨D, L, heq, hat', hD⟩ := hpost
  refine ⟨L, hat', fun hL t => ⟨?_, rfl⟩, fun _ t => by decide⟩
  rw [heq, hL, List.append_nil]
  exact hD

theorem parsecmd_complete (h : CString mem s line)
    (hfuel : line.length + 4 * (tokens s line).length + 3 < fuel) {c : Cmd}
    (hc : Line (tokens s line) c) :
    Wp (parsecmd mem fuel) (fun r _ => r.1 = c) (fun _ _ => False) s := by
  have hat : At mem (s + line.length) s (tokens s line ++ []) :=
    ⟨line, h, rfl, (List.append_nil _).symm⟩
  have hnext : Next [.rparen] [] := fun x l heq => by cases heq
  have hline := (parse_complete mem (s + line.length) fuel (tokens s line) [] c).2.2 hc hnext
    (by rw [List.append_nil]; omega) s hat
  refine parsecmd_wp h (by omega) (hline.imp fun c' s' hpost => ?_)
  exact ⟨[], hpost.2, fun _ t => hpost.1, fun hne => absurd rfl hne⟩

end Line

/-- The shell parses the lines of its grammar and no others, each to the one command it stands for.
Every argument and every file ends up as the text of its own token, and no word loses a byte. -/
theorem parsecmd_correct {mem : Bytes} {s : Nat} {line : List Nat} (h : CString mem s line) :
    ∃ N, ∀ fuel, N ≤ fuel →
      (∃ c mem' s', parsecmd mem fuel s = .ok (c, mem') s' ∧
        Line (tokens s line) c ∧ (∀ c', Line (tokens s line) c' → c' = c) ∧
        (∀ w ∈ c.words, IsWordOf (tokens s line) w ∧ CString mem' w.1 (slice mem w.1 w.2)) ∧
        ∀ x ∈ tokens s line, x.tok = .word → ∀ i, x.q ≤ i → i < x.eq → mem' i = mem i) ∨
      (∃ msg s', parsecmd mem fuel s = .error (.panic msg) s' ∧ ∀ c, ¬ Line (tokens s line) c) := by
  refine ⟨line.length + 4 * (tokens s line).length + 4, fun fuel hfuel => ?_⟩
  have hsound := parsecmd_sound h hfuel
  have hcomplete : ∀ c, Line (tokens s line) c →
      Wp (parsecmd mem fuel) (fun r _ => r.1 = c) (fun _ _ => False) s :=
    fun c hc => parsecmd_complete h hfuel hc
  cases hrun : parsecmd mem fuel s with
  | ok r s' =>
      obtain ⟨c, mem'⟩ := r
      obtain ⟨hc, rfl⟩ : Line (tokens s line) c ∧ mem' = nulterminate c mem := hsound.ok hrun
      have htokens := lexFrom_delimited h (.none mem s)
      have hwords : ∀ w ∈ c.words, Delimited mem w.1 w.2 := fun w hw =>
        htokens _ (hc.words w hw) rfl
      refine Or.inl ⟨c, _, s', rfl, hc, fun c' hc' => ((hcomplete c' hc').ok hrun).symm,
        fun w hw => ⟨hc.words w hw, nulterminate_word hwords hw⟩, fun x hx htok i hi hlt => ?_⟩
      exact nulterminate_inside hwords (htokens x hx htok) hi hlt
  | error e s' =>
      refine Or.inr ?_
      have hnot : ∀ c, ¬ Line (tokens s line) c := fun c hc => (hcomplete c hc).error hrun
      cases e with
      | panic msg => exact ⟨msg, s', rfl, hnot⟩
      | loops => exact absurd rfl (hsound.error hrun)

def pipeline : Bytes := fun i => (chars ['a', '|', 'b']).getD i 0

theorem pipeline_cstring : CString pipeline 0 (chars ['a', '|', 'b']) := by
  simp [CString, pipeline, chars]

theorem pipeline_line : Line (tokens 0 (chars ['a', '|', 'b']))
    (.pipe (.exec [(0, 1)]) (.exec [(2, 3)])) := by
  have htokens : tokens 0 (chars ['a', '|', 'b']) = [⟨.word, 0, 1⟩, ⟨.bar, 1, 2⟩, ⟨.word, 2, 3⟩] := by
    decide
  have hleft : Command [⟨.word, 0, 1⟩] (.exec [(0, 1)]) := .simple (.word rfl .nil) (by decide)
  have hright : Command [⟨.word, 2, 3⟩] (.exec [(2, 3)]) := .simple (.word rfl .nil) (by decide)
  have hpipe : Pipe ([⟨.word, 0, 1⟩] ++ ⟨.bar, 1, 2⟩ :: [⟨.word, 2, 3⟩])
      (.pipe (.exec [(0, 1)]) (.exec [(2, 3)])) := .more hleft rfl (.last hright)
  rw [htokens]
  exact @Line.last _ [] _ hpipe (by simp)

theorem parsecmd_correct_pipeline :
    ∃ N, ∀ fuel, N ≤ fuel → ∃ mem' s',
      parsecmd pipeline fuel 0 = .ok (.pipe (.exec [(0, 1)]) (.exec [(2, 3)]), mem') s' ∧
      (∀ c, Line (tokens 0 (chars ['a', '|', 'b'])) c → c = .pipe (.exec [(0, 1)]) (.exec [(2, 3)])) ∧
      CString mem' 0 (chars ['a']) ∧ CString mem' 2 (chars ['b']) := by
  obtain ⟨N, hN⟩ := parsecmd_correct pipeline_cstring
  refine ⟨N, fun fuel hfuel => ?_⟩
  rcases hN fuel hfuel with ⟨c, mem', s', hrun, -, honly, hwords, -⟩ | ⟨msg, s', -, hnone⟩
  · have hc := honly _ pipeline_line
    subst hc
    refine ⟨mem', s', hrun, honly, ?_, ?_⟩
    · exact (hwords (0, 1) (by decide)).2
    · exact (hwords (2, 3) (by decide)).2
  · exact absurd pipeline_line (hnone _)

/-- The terminator of `a` falls on the `|`, a token of the line too. -/
theorem parsecmd_overwrites_bar : CString pipeline 0 (chars ['a', '|', 'b']) ∧
    (⟨.bar, 1, 2⟩ : Token) ∈ tokens 0 (chars ['a', '|', 'b']) ∧ pipeline 1 = '|'.toNat ∧
    ∃ c mem' s', parsecmd pipeline 100 0 = .ok (c, mem') s' ∧
      c = .pipe (.exec [(0, 1)]) (.exec [(2, 3)]) ∧ mem' 1 = 0 :=
  ⟨pipeline_cstring, by decide, rfl, _, _, 3, rfl, rfl, rfl⟩

end Xv6Mmap.Sh
