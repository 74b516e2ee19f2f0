import Xv6Mmap.Proof.ShLex

/-!
# What the parser of the shell accepts

The grammar is a relation between a list of tokens and the command that it denotes. What the parser
returns is such a command for the tokens that it has consumed, and it returns the command of every list
of tokens that the grammar has one for.
-/

namespace Xv6Mmap.Sh

open Sequential

/-! ### The grammar -/

def Tok.IsRedir (t : Tok) : Prop := t = .lt ∨ t = .gt ∨ t = .append

inductive Redirs : List Token → List (Token × Token) → Prop where
  | nil : Redirs [] []
  | cons {op file : Token} {d : List Token} {rs : List (Token × Token)} : op.tok.IsRedir →
      file.tok = .word → Redirs d rs → Redirs (op :: file :: d) ((op, file) :: rs)

inductive Items : List Token → List (Nat × Nat) → List (Token × Token) → Prop where
  | nil : Items [] [] []
  | word {x : Token} {d : List Token} {argv : List (Nat × Nat)} {rs : List (Token × Token)} :
      x.tok = .word → Items d argv rs → Items (x :: d) ((x.q, x.eq) :: argv) rs
  | redir {op file : Token} {d : List Token} {argv : List (Nat × Nat)} {rs : List (Token × Token)} :
      op.tok.IsRedir → file.tok = .word → Items d argv rs →
      Items (op :: file :: d) argv ((op, file) :: rs)

/-- The node of a redirection: `<` opens the file to read it as standard input, `>` and `>>` create it
and write it as standard output, and `>` empties it first. -/
def Cmd.around (cmd : Cmd) (r : Token × Token) : Cmd :=
  match r.1.tok with
  | .lt => .redir cmd r.2.q r.2.eq 0 0
  | .gt => .redir cmd r.2.q r.2.eq 0x601 1
  | .append => .redir cmd r.2.q r.2.eq 0x201 1
  | _ => cmd

def Cmd.wrap (cmd : Cmd) (rs : List (Token × Token)) : Cmd := rs.foldl Cmd.around cmd

def Cmd.backs : Nat → Cmd → Cmd
  | 0, cmd => cmd
  | n + 1, cmd => Cmd.backs n (.back cmd)

mutual

inductive Line : List Token → Cmd → Prop where
  | last {d amps : List Token} {c : Cmd} : Pipe d c → (∀ x ∈ amps, x.tok = .amp) →
      Line (d ++ amps) (c.backs amps.length)
  | more {d amps d' : List Token} {semi : Token} {c c' : Cmd} : Pipe d c →
      (∀ x ∈ amps, x.tok = .amp) → semi.tok = .semi → Line d' c' →
      Line (d ++ (amps ++ semi :: d')) (.list (c.backs amps.length) c')

inductive Pipe : List Token → Cmd → Prop where
  | last {d : List Token} {c : Cmd} : Command d c → Pipe d c
  | more {d d' : List Token} {bar : Token} {c c' : Cmd} : Command d c → bar.tok = .bar →
      Pipe d' c' → Pipe (d ++ bar :: d') (.pipe c c')

inductive Command : List Token → Cmd → Prop where
  | block {l r : Token} {d ds : List Token} {c : Cmd} {rs : List (Token × Token)} :
      l.tok = .lparen → Line d c → r.tok = .rparen → Redirs ds rs →
      Command (l :: (d ++ r :: ds)) (c.wrap rs)
  | simple {d : List Token} {argv : List (Nat × Nat)} {rs : List (Token × Token)} :
      Items d argv rs → argv.length < maxargs → Command d ((Cmd.exec argv).wrap rs)

end

theorem Redirs.items {d d' : List Token} {argv : List (Nat × Nat)} {rs rs' : List (Token × Token)}
    (hd : Redirs d rs) (hd' : Items d' argv rs') : Items (d ++ d') argv (rs ++ rs') := by
  induction hd with
  | nil => exact hd'
  | cons hop hfile _ ih => exact .redir hop hfile ih

theorem Items.split {d : List Token} {argv : List (Nat × Nat)} {rs : List (Token × Token)}
    (h : Items d argv rs) : ∃ d₁ d₂ rs₁ rs₂, d = d₁ ++ d₂ ∧ rs = rs₁ ++ rs₂ ∧ Redirs d₁ rs₁ ∧
      Items d₂ argv rs₂ ∧ ∀ x l, d₂ = x :: l → x.tok = .word := by
  induction h with
  | nil => exact ⟨[], [], [], [], rfl, rfl, .nil, .nil, fun x l h => by cases h⟩
  | @word x d argv rs hx h _ =>
      refine ⟨[], x :: d, [], rs, rfl, rfl, .nil, .word hx h, fun y l heq => ?_⟩
      obtain ⟨rfl, -⟩ := List.cons.inj heq
      exact hx
  | @redir op file d argv rs hop hfile _ ih =>
      obtain ⟨d₁, d₂, rs₁, rs₂, rfl, rfl, hredirs, hitems, hfirst⟩ := ih
      exact ⟨op :: file :: d₁, d₂, (op, file) :: rs₁, rs₂, rfl, rfl, .cons hop hfile hredirs, hitems,
        hfirst⟩

theorem Cmd.wrap_append (c : Cmd) (rs rs' : List (Token × Token)) :
    c.wrap (rs ++ rs') = (c.wrap rs).wrap rs' :=
  List.foldl_append

theorem Cmd.redirect_eq_around (c : Cmd) (op file : Token) :
    c.redirect op.tok file.q file.eq = c.around (op, file) := by
  unfold Cmd.redirect Cmd.around
  cases op.tok <;> rfl

theorem Cmd.addArg_around (c : Cmd) (r : Token × Token) (q eq : Nat) :
    (c.around r).addArg q eq = (c.addArg q eq).around r := by
  unfold Cmd.around
  cases r.1.tok <;> rfl

theorem Cmd.addArg_wrap (c : Cmd) (rs : List (Token × Token)) (q eq : Nat) :
    (c.wrap rs).addArg q eq = (c.addArg q eq).wrap rs := by
  induction rs generalizing c with
  | nil => rfl
  | cons r rs ih =>
      show ((c.around r).wrap rs).addArg q eq = _
      rw [ih, Cmd.addArg_around]
      rfl

/-! ### Which tokens the parser looks for -/

section Starts

variable {L : List Token}

theorem starts_redir : starts (chars ['<', '>']) L = true ↔ ∃ x l, L = x :: l ∧ x.tok.IsRedir := by
  cases L with
  | nil => simp [starts]
  | cons x l =>
      obtain ⟨t, q, e⟩ := x
      cases t <;> simp [starts, strchr, chars, Tok.char, Tok.IsRedir]

theorem starts_single {c : Char} {t : Tok} (hc : ∀ t', strchr (chars [c]) t'.char = true ↔ t' = t) :
    starts (chars [c]) L = true ↔ ∃ x l, L = x :: l ∧ x.tok = t := by
  cases L with
  | nil => simp [starts]
  | cons x l => simp [starts, hc]

theorem starts_amp : starts (chars ['&']) L = true ↔ ∃ x l, L = x :: l ∧ x.tok = .amp :=
  starts_single fun t => by cases t <;> decide

theorem starts_semi : starts (chars [';']) L = true ↔ ∃ x l, L = x :: l ∧ x.tok = .semi :=
  starts_single fun t => by cases t <;> decide

theorem starts_bar : starts (chars ['|']) L = true ↔ ∃ x l, L = x :: l ∧ x.tok = .bar :=
  starts_single fun t => by cases t <;> decide

theorem starts_lparen : starts (chars ['(']) L = true ↔ ∃ x l, L = x :: l ∧ x.tok = .lparen :=
  starts_single fun t => by cases t <;> decide

theorem starts_rparen : starts (chars [')']) L = true ↔ ∃ x l, L = x :: l ∧ x.tok = .rparen :=
  starts_single fun t => by cases t <;> decide

theorem starts_end : starts (chars ['|', ')', '&', ';']) L = true ↔
    ∃ x l, L = x :: l ∧ (x.tok = .bar ∨ x.tok = .rparen ∨ x.tok = .amp ∨ x.tok = .semi) := by
  cases L with
  | nil => simp [starts]
  | cons x l =>
      obtain ⟨t, q, e⟩ := x
      cases t <;> simp [starts, strchr, chars, Tok.char]

end Starts

/-! ### What is returned is a command of the grammar -/

section Sound

variable {mem : Bytes} {es s : Nat} {L : List Token}

/-- `L` is split into what has been consumed, of which `R` holds, and what is left at `s`. -/
def Consumed (mem : Bytes) (es s : Nat) (L : List Token) (R : List Token → Prop) : Prop :=
  ∃ D L', L = D ++ L' ∧ At mem es s L' ∧ R D

theorem parseredirs_sound {fuel : Nat} (c : Cmd) (h : At mem es s L) (hfuel : L.length < fuel) :
    Wp (parseredirs mem es fuel c) (fun c' s' => ∃ rs, c' = c.wrap rs ∧
      Consumed mem es s' L (Redirs · rs)) (fun e _ => e ≠ .loops) s := by
  induction fuel generalizing s L c with
  | zero => exact absurd hfuel (Nat.not_lt_zero _)
  | succ fuel ih =>
      obtain ⟨s₁, hpeek, h₁⟩ := h.peek (chars ['<', '>']) (by decide)
      refine .bind (.of_ok hpeek (.ite (fun hstarts => ?_) fun _ => ?_))
      · obtain ⟨op, L, rfl, hop⟩ := starts_redir.mp hstarts
        obtain ⟨s₂, hget, h₂, -⟩ := h₁.gettoken_cons
        refine .bind (.of_ok hget ?_)
        cases L with
        | nil =>
            obtain ⟨file, s₃, hget', -, heof⟩ := h₂.gettoken_nil
            refine .bind (.of_ok hget' ?_)
            rw [if_pos (by rw [heof]; decide)]
            exact .of_error rfl (by decide)
        | cons file L =>
            obtain ⟨s₃, hget', h₃, -⟩ := h₂.gettoken_cons
            refine .bind (.of_ok hget' (.ite (fun _ => .of_error rfl (by decide)) fun hword => ?_))
            rw [List.length_cons, List.length_cons] at hfuel
            rw [Cmd.redirect_eq_around]
            refine (ih _ h₃ (by omega)).imp fun c' s' hc' => ?_
            obtain ⟨rs, rfl, D, L', rfl, hat, hredirs⟩ := hc'
            exact ⟨(op, file) :: rs, rfl, op :: file :: D, L', rfl, hat,
              .cons hop (not_not.mp hword) hredirs⟩
      · exact .pure ⟨[], rfl, [], L, rfl, h₁, .nil⟩

theorem parseargs_sound {fuel argc : Nat} (argv : List (Nat × Nat)) (rs : List (Token × Token))
    (h : At mem es s L) (hfuel : L.length < fuel) (hargc : argv.length = argc) (hmax : argc < maxargs) :
    Wp (parseargs mem es fuel argc ((Cmd.exec argv).wrap rs)) (fun c' s' => ∃ argv' rs',
      c' = (Cmd.exec (argv ++ argv')).wrap (rs ++ rs') ∧ (argv ++ argv').length < maxargs ∧
      Consumed mem es s' L (Items · argv' rs')) (fun e _ => e ≠ .loops) s := by
  induction fuel generalizing s L argc argv rs with
  | zero => exact absurd hfuel (Nat.not_lt_zero _)
  | succ fuel ih =>
      have hstop : ∀ s', At mem es s' L → ∃ argv' rs',
          (Cmd.exec argv).wrap rs = (Cmd.exec (argv ++ argv')).wrap (rs ++ rs') ∧
          (argv ++ argv').length < maxargs ∧ Consumed mem es s' L (Items · argv' rs') := by
        intro s' h'
        refine ⟨[], [], ?_, ?_, [], L, rfl, h', .nil⟩
        · rw [List.append_nil, List.append_nil]
        · rw [List.append_nil]
          omega
      obtain ⟨s₁, hpeek, h₁⟩ := h.peek (chars ['|', ')', '&', ';']) (by decide)
      refine .bind (.of_ok hpeek (.ite (fun _ => .pure (hstop s₁ h₁)) fun _ => ?_))
      cases L with
      | nil =>
          obtain ⟨arg, s₂, hget, h₂, heof⟩ := h₁.gettoken_nil
          refine .bind (.of_ok hget ?_)
          rw [if_pos heof]
          exact .pure (hstop s₂ h₂)
      | cons arg L =>
          obtain ⟨s₂, hget, h₂, hne⟩ := h₁.gettoken_cons
          refine .bind (.of_ok hget ?_)
          rw [if_neg hne]
          refine .ite (fun _ => .of_error rfl (by decide)) fun hword => ?_
          refine .ite (fun _ => .of_error rfl (by decide)) fun hcount => ?_
          rw [List.length_cons] at hfuel
          rw [Cmd.addArg_wrap]
          refine .bind ((parseredirs_sound _ h₂ (by omega)).imp fun c₃ s₃ h₃ => ?_)
          obtain ⟨rs₁, rfl, D₁, L₁, rfl, hat₁, hredirs⟩ := h₃
          rw [← Cmd.wrap_append]
          rw [List.length_append] at hfuel
          have hlen : (argv ++ [(arg.q, arg.eq)]).length = argc + 1 := by
            rw [List.length_append, hargc]
            rfl
          refine (ih (argv ++ [(arg.q, arg.eq)]) (rs ++ rs₁) hat₁ (by omega) hlen (by omega)).imp
            fun c₄ s₄ h₄ => ?_
          obtain ⟨argv', rs', rfl, hmax', D₂, L₂, rfl, hat₂, hitems⟩ := h₄
          rw [List.append_assoc] at hmax' ⊢
          rw [List.append_assoc rs]
          exact ⟨(arg.q, arg.eq) :: argv', rs₁ ++ rs', rfl, hmax', arg :: (D₁ ++ D₂), L₂, by simp, hat₂,
            .word (not_not.mp hword) (hredirs.items hitems)⟩

theorem parseback_sound {fuel : Nat} (c : Cmd) (h : At mem es s L) (hfuel : L.length < fuel) :
    Wp (parseback mem es fuel c) (fun c' s' => ∃ D L', L = D ++ L' ∧ At mem es s' L' ∧
      (∀ x ∈ D, x.tok = .amp) ∧ c' = c.backs D.length) (fun e _ => e ≠ .loops) s := by
  induction fuel generalizing s L c with
  | zero => exact absurd hfuel (Nat.not_lt_zero _)
  | succ fuel ih =>
      obtain ⟨s₁, hpeek, h₁⟩ := h.peek (chars ['&']) (by decide)
      refine .bind (.of_ok hpeek (.ite (fun hstarts => ?_) fun _ => ?_))
      · obtain ⟨amp, L, rfl, hamp⟩ := starts_amp.mp hstarts
        obtain ⟨s₂, hget, h₂, -⟩ := h₁.gettoken_cons
        rw [List.length_cons] at hfuel
        refine .bind (.of_ok hget ((ih _ h₂ (by omega)).imp fun c' s' hc' => ?_))
        obtain ⟨D, L', rfl, hat, hamps, rfl⟩ := hc'
        refine ⟨amp :: D, L', rfl, hat, fun x hx => ?_, rfl⟩
        rcases List.mem_cons.mp hx with rfl | hx
        · exact hamp
        · exact hamps x hx
      · exact .pure ⟨[], L, rfl, h₁, fun x hx => (by cases hx), rfl⟩

/-- A parser of which every result is a command of `R` for the tokens that it has consumed. -/
def Parses (mem : Bytes) (es : Nat) (L : List Token) (R : List Token → Cmd → Prop) (x : P Cmd) : Prop :=
  ∀ s, At mem es s L →
    Wp x (fun c s' => Consumed mem es s' L (R · c)) (fun e _ => e ≠ .loops) s

theorem parseblock_sound {fuel : Nat} (hfuel : 4 * L.length < fuel + 1)
    (hline : ∀ L : List Token, 4 * L.length + 3 < fuel → Parses mem es L Line (parseline mem es fuel)) :
    Parses mem es L Command (parseblock mem es (fuel + 1)) := by
  intro s h
  unfold parseblock
  obtain ⟨s₁, hpeek, h₁⟩ := h.peek (chars ['(']) (by decide)
  refine .bind (.of_ok hpeek (.ite (fun hstarts => ?_) fun _ => .of_error rfl (by decide)))
  obtain ⟨l, L, rfl, hl⟩ := starts_lparen.mp hstarts
  obtain ⟨s₂, hget, h₂, -⟩ := h₁.gettoken_cons
  rw [List.length_cons] at hfuel
  refine .bind (.of_ok hget (.bind ((hline L (by omega) s₂ h₂).imp fun c s₃ h₃ => ?_)))
  obtain ⟨D, L', rfl, hat, hD⟩ := h₃
  obtain ⟨s₄, hpeek', h₄⟩ := hat.peek (chars [')']) (by decide)
  refine .bind (.of_ok hpeek' (.ite (fun hstarts' => ?_) fun _ => .of_error rfl (by decide)))
  obtain ⟨r, L', rfl, hr⟩ := starts_rparen.mp hstarts'
  obtain ⟨s₅, hget', h₅, -⟩ := h₄.gettoken_cons
  rw [List.length_append, List.length_cons] at hfuel
  refine .bind (.of_ok hget' ((parseredirs_sound c h₅ (by omega)).imp fun c' s' hc' => ?_))
  obtain ⟨rs, rfl, ds, L'', rfl, hat', hredirs⟩ := hc'
  exact ⟨l :: (D ++ r :: ds), L'', by simp, hat', .block hl hD hr hredirs⟩

theorem parseexec_sound {fuel : Nat} (hfuel : L.length < fuel)
    (hblock : Parses mem es L Command (parseblock mem es fuel)) :
    Parses mem es L Command (parseexec mem es (fuel + 1)) := by
  intro s h
  unfold parseexec
  obtain ⟨s₁, hpeek, h₁⟩ := h.peek (chars ['(']) (by decide)
  refine .bind (.of_ok hpeek (.ite (fun _ => hblock s₁ h₁) fun _ => ?_))
  refine .bind ((parseredirs_sound _ h₁ hfuel).imp fun c s₂ h₂ => ?_)
  obtain ⟨rs, rfl, D, L', rfl, hat, hredirs⟩ := h₂
  rw [List.length_append] at hfuel
  refine (parseargs_sound [] rs hat (by omega) rfl (by decide)).imp fun c' s' hc' => ?_
  obtain ⟨argv, rs', rfl, hmax, D', L'', rfl, hat', hitems⟩ := hc'
  exact ⟨D ++ D', L'', by simp, hat', .simple (hredirs.items hitems) hmax⟩

theorem parsepipe_sound {fuel : Nat} (hfuel : 4 * L.length + 2 < fuel + 1)
    (hexec : Parses mem es L Command (parseexec mem es fuel))
    (hpipe : ∀ L : List Token, 4 * L.length + 2 < fuel → Parses mem es L Pipe (parsepipe mem es fuel)) :
    Parses mem es L Pipe (parsepipe mem es (fuel + 1)) := by
  intro s h
  unfold parsepipe
  refine .bind ((hexec s h).imp fun c s₁ h₁ => ?_)
  obtain ⟨D, L', rfl, hat, hD⟩ := h₁
  obtain ⟨s₂, hpeek, h₂⟩ := hat.peek (chars ['|']) (by decide)
  refine .bind (.of_ok hpeek (.ite (fun hstarts => ?_) fun _ => ?_))
  · obtain ⟨bar, L', rfl, hbar⟩ := starts_bar.mp hstarts
    obtain ⟨s₃, hget, h₃, -⟩ := h₂.gettoken_cons
    rw [List.length_append, List.length_cons] at hfuel
    refine .bind (.of_ok hget (.bind ((hpipe L' (by omega) s₃ h₃).imp fun c' s₄ h₄ => .pure ?_)))
    obtain ⟨D', L'', rfl, hat', hD'⟩ := h₄
    exact ⟨D ++ bar :: D', L'', by simp, hat', .more hD hbar hD'⟩
  · exact .pure ⟨D, L', rfl, h₂, .last hD⟩

theorem parseline_sound {fuel : Nat} (hfuel : 4 * L.length + 3 < fuel + 1)
    (hpipe : Parses mem es L Pipe (parsepipe mem es fuel))
    (hline : ∀ L : List Token, 4 * L.length + 3 < fuel → Parses mem es L Line (parseline mem es fuel)) :
    Parses mem es L Line (parseline mem es (fuel + 1)) := by
  intro s h
  unfold parseline
  refine .bind ((hpipe s h).imp fun c s₁ h₁ => ?_)
  obtain ⟨D, L', rfl, hat, hD⟩ := h₁
  rw [List.length_append] at hfuel
  refine .bind ((parseback_sound c hat (by omega)).imp fun c₂ s₂ h₂ => ?_)
  obtain ⟨amps, L', rfl, hat₂, hamps, rfl⟩ := h₂
  obtain ⟨s₃, hpeek, h₃⟩ := hat₂.peek (chars [';']) (by decide)
  refine .bind (.of_ok hpeek (.ite (fun hstarts => ?_) fun _ => ?_))
  · obtain ⟨semi, L', rfl, hsemi⟩ := starts_semi.mp hstarts
    obtain ⟨s₄, hget, h₄, -⟩ := h₃.gettoken_cons
    rw [List.length_append, List.length_cons] at hfuel
    refine .bind (.of_ok hget (.bind ((hline L' (by omega) s₄ h₄).imp fun c' s₅ h₅ => .pure ?_)))
    obtain ⟨D', L'', rfl, hat', hD'⟩ := h₅
    exact ⟨D ++ (amps ++ semi :: D'), L'', by simp, hat', .more hD hamps hsemi hD'⟩
  · exact .pure ⟨D ++ amps, L', by simp, h₃, .last hD hamps⟩

/-- With enough rounds, all four functions return commands of the grammar, or panic. -/
theorem parse_sound (mem : Bytes) (es fuel : Nat) (L : List Token) :
    (4 * L.length < fuel → Parses mem es L Command (parseblock mem es fuel)) ∧
    (4 * L.length + 1 < fuel → Parses mem es L Command (parseexec mem es fuel)) ∧
    (4 * L.length + 2 < fuel → Parses mem es L Pipe (parsepipe mem es fuel)) ∧
    (4 * L.length + 3 < fuel → Parses mem es L Line (parseline mem es fuel)) := by
  induction fuel generalizing L with
  | zero => simp
  | succ fuel ih =>
      refine ⟨fun hfuel => ?_, fun hfuel => ?_, fun hfuel => ?_, fun hfuel => ?_⟩
      · exact parseblock_sound hfuel fun L => (ih L).2.2.2
      · exact parseexec_sound (by omega) ((ih L).1 (by omega))
      · exact parsepipe_sound hfuel ((ih L).2.1 (by omega)) fun L => (ih L).2.2.1
      · exact parseline_sound hfuel ((ih L).2.2.1 (by omega)) fun L => (ih L).2.2.2

end Sound

/-! ### Every command of the grammar is found -/

section Complete

variable {mem : Bytes} {es s : Nat} {D L : List Token} {c : Cmd}

/-- The parser consumes exactly `D`, in front of `L`, and returns `c`. -/
def Finds (mem : Bytes) (es : Nat) (D L : List Token) (c : Cmd) (x : P Cmd) : Prop :=
  ∀ s, At mem es s (D ++ L) → Wp x (fun c' s' => c' = c ∧ At mem es s' L) (fun _ _ => False) s

def Next (ts : List Tok) (L : List Token) : Prop := ∀ x l, L = x :: l → x.tok ∈ ts

theorem Next.cons {ts : List Tok} {x : Token} (hx : x.tok ∈ ts) (L : List Token) : Next ts (x :: L) := by
  intro y l heq
  obtain ⟨rfl, -⟩ := List.cons.inj heq
  exact hx

theorem Next.mono {ts ts' : List Tok} (h : Next ts L) (hsub : ts ⊆ ts') : Next ts' L :=
  fun x l heq => hsub (h x l heq)

theorem Next.not_starts {ts : List Tok} (h : Next ts L) {toks : List Nat}
    (hts : ∀ t ∈ ts, strchr toks t.char = false) : starts toks L = false := by
  cases L with
  | nil => rfl
  | cons x l => exact hts _ (h x l rfl)

theorem parseredirs_complete {rs : List (Token × Token)} (hD : Redirs D rs) {fuel : Nat}
    (hL : starts (chars ['<', '>']) L = false) (hfuel : (D ++ L).length < fuel) (c : Cmd) :
    Finds mem es D L (c.wrap rs) (parseredirs mem es fuel c) := by
  induction hD generalizing fuel c with
  | nil =>
      intro s h
      obtain ⟨fuel, rfl⟩ : ∃ k, fuel = k + 1 := ⟨fuel - 1, by omega⟩
      obtain ⟨s₁, hpeek, h₁⟩ := h.peek (chars ['<', '>']) (by decide)
      refine .bind (.of_ok hpeek ?_)
      rw [List.nil_append, hL, if_neg Bool.false_ne_true]
      exact .pure ⟨rfl, h₁⟩
  | @cons op file d rs hop hfile _ ih =>
      intro s h
      obtain ⟨fuel, rfl⟩ : ∃ k, fuel = k + 1 := ⟨fuel - 1, by omega⟩
      obtain ⟨s₁, hpeek, h₁⟩ := h.peek (chars ['<', '>']) (by decide)
      refine .bind (.of_ok hpeek ?_)
      have hstarts : starts (chars ['<', '>']) (op :: file :: d ++ L) = true :=
        starts_redir.mpr ⟨op, _, rfl, hop⟩
      rw [if_pos hstarts]
      obtain ⟨s₂, hget, h₂, -⟩ := h₁.gettoken_cons
      obtain ⟨s₃, hget', h₃, -⟩ := h₂.gettoken_cons
      refine .bind (.of_ok hget (.bind (.of_ok hget' ?_)))
      rw [if_neg (not_not.mpr hfile), Cmd.redirect_eq_around]
      rw [List.cons_append, List.cons_append, List.length_cons, List.length_cons] at hfuel
      exact ih (by omega) _ s₃ h₃

theorem parseargs_complete {argv' : List (Nat × Nat)} {rs' : List (Token × Token)}
    {fuel argc : Nat} (argv : List (Nat × Nat)) (rs : List (Token × Token)) (hD : Items D argv' rs')
    (hfirst : Next [.word] D) (hL : Next [.bar, .rparen, .amp, .semi] L)
    (hfuel : (D ++ L).length < fuel) (hargc : argv.length = argc)
    (hmax : argc + argv'.length < maxargs) :
    Finds mem es D L ((Cmd.exec (argv ++ argv')).wrap (rs ++ rs'))
      (parseargs mem es fuel argc ((Cmd.exec argv).wrap rs)) := by
  induction fuel generalizing D argv argv' rs rs' argc with
  | zero => exact absurd hfuel (Nat.not_lt_zero _)
  | succ fuel ih =>
      intro s h
      obtain ⟨s₁, hpeek, h₁⟩ := h.peek (chars ['|', ')', '&', ';']) (by decide)
      refine .bind (.of_ok hpeek ?_)
      cases hD with
      | nil =>
          rw [List.append_nil, List.append_nil, List.nil_append]
          cases L with
          | nil =>
              obtain ⟨arg, s₂, hget, h₂, heof⟩ := h₁.gettoken_nil
              rw [if_neg (by simp [starts])]
              refine .bind (.of_ok hget ?_)
              rw [if_pos heof]
              exact .pure ⟨rfl, h₂⟩
          | cons x l =>
              have hend := hL x l rfl
              simp only [List.mem_cons, List.not_mem_nil, or_false] at hend
              rw [if_pos (starts_end.mpr ⟨x, l, rfl, hend⟩)]
              exact .pure ⟨rfl, h₁⟩
      | @word x d argv' rs' hx hitems =>
          have hnot : starts (chars ['|', ')', '&', ';']) (x :: d ++ L) = false :=
            (Next.cons (List.mem_singleton.mpr hx) (d ++ L)).not_starts (by decide)
          rw [hnot, if_neg Bool.false_ne_true]
          rw [List.cons_append] at h₁
          obtain ⟨s₂, hget, h₂, hne⟩ := h₁.gettoken_cons
          refine .bind (.of_ok hget ?_)
          rw [List.length_cons] at hmax
          rw [if_neg hne, if_neg (not_not.mpr hx), if_neg (by omega), Cmd.addArg_wrap]
          obtain ⟨d₁, d₂, rs₁, rs₂, rfl, rfl, hredirs, hitems₂, hword⟩ := hitems.split
          have hfirst₂ : Next [.word] d₂ := fun y l heq => List.mem_singleton.mpr (hword y l heq)
          have hrest : starts (chars ['<', '>']) (d₂ ++ L) = false := by
            cases d₂ with
            | nil => exact hL.not_starts (by decide)
            | cons y l => exact (Next.cons (hfirst₂ y l rfl) (l ++ L)).not_starts (by decide)
          rw [List.cons_append, List.append_assoc, List.length_cons] at hfuel
          rw [List.append_assoc] at h₂
          refine .bind ((parseredirs_complete hredirs hrest (by omega) _ s₂ h₂).imp fun c₃ s₃ h₃ => ?_)
          obtain ⟨rfl, h₃⟩ := h₃
          have hlen : (argv ++ [(x.q, x.eq)]).length = argc + 1 := by
            rw [List.length_append, hargc]
            rfl
          rw [List.length_append] at hfuel
          have hfound := ih (argv ++ [(x.q, x.eq)]) (rs ++ rs₁) hitems₂ hfirst₂ (by omega) hlen
            (by omega) s₃ h₃
          rw [List.append_assoc, List.append_assoc, Cmd.wrap_append _ rs rs₁] at hfound
          exact hfound
      | @redir op file d argv' rs' hop hfile hitems =>
          have hword := List.mem_singleton.mp (hfirst op _ rfl)
          rw [hword] at hop
          rcases hop with h | h | h <;> cases h

theorem parseback_complete {fuel : Nat} {amps : List Token} (hamps : ∀ x ∈ amps, x.tok = .amp)
    (hL : starts (chars ['&']) L = false) (hfuel : (amps ++ L).length < fuel) (c : Cmd) :
    Finds mem es amps L (c.backs amps.length) (parseback mem es fuel c) := by
  induction amps generalizing fuel c with
  | nil =>
      intro s h
      obtain ⟨fuel, rfl⟩ : ∃ k, fuel = k + 1 := ⟨fuel - 1, by omega⟩
      obtain ⟨s₁, hpeek, h₁⟩ := h.peek (chars ['&']) (by decide)
      refine .bind (.of_ok hpeek ?_)
      rw [List.nil_append, hL, if_neg Bool.false_ne_true]
      exact .pure ⟨rfl, h₁⟩
  | cons x amps ih =>
      intro s h
      obtain ⟨fuel, rfl⟩ : ∃ k, fuel = k + 1 := ⟨fuel - 1, by omega⟩
      obtain ⟨s₁, hpeek, h₁⟩ := h.peek (chars ['&']) (by decide)
      refine .bind (.of_ok hpeek ?_)
      have hstarts : starts (chars ['&']) (x :: amps ++ L) = true :=
        starts_amp.mpr ⟨x, _, rfl, hamps x List.mem_cons_self⟩
      rw [if_pos hstarts]
      obtain ⟨s₂, hget, h₂, -⟩ := h₁.gettoken_cons
      rw [List.cons_append, List.length_cons] at hfuel
      exact .bind (.of_ok hget (ih (fun y hy => hamps y (List.mem_cons_of_mem x hy)) (by omega) _ s₂ h₂))

theorem parseblock_complete {fuel : Nat} {l r : Token} {d ds : List Token} {rs : List (Token × Token)}
    (hl : l.tok = .lparen) (hr : r.tok = .rparen) (hds : Redirs ds rs)
    (hL : Next [.bar, .rparen, .amp, .semi] L) (hfuel : (ds ++ L).length < fuel)
    (hline : Finds mem es d (r :: (ds ++ L)) c (parseline mem es fuel)) :
    Finds mem es (l :: (d ++ r :: ds)) L (c.wrap rs) (parseblock mem es (fuel + 1)) := by
  intro s h
  have hsplit : l :: (d ++ r :: ds) ++ L = l :: (d ++ r :: (ds ++ L)) := by simp
  rw [hsplit] at h
  unfold parseblock
  obtain ⟨s₁, hpeek, h₁⟩ := h.peek (chars ['(']) (by decide)
  refine .bind (.of_ok hpeek ?_)
  rw [if_pos (starts_lparen.mpr ⟨l, _, rfl, hl⟩)]
  obtain ⟨s₂, hget, h₂, -⟩ := h₁.gettoken_cons
  refine .bind (.of_ok hget (.bind ((hline s₂ h₂).imp fun c' s₃ h₃ => ?_)))
  obtain ⟨rfl, h₃⟩ := h₃
  obtain ⟨s₄, hpeek', h₄⟩ := h₃.peek (chars [')']) (by decide)
  refine .bind (.of_ok hpeek' ?_)
  rw [if_pos (starts_rparen.mpr ⟨r, _, rfl, hr⟩)]
  obtain ⟨s₅, hget', h₅, -⟩ := h₄.gettoken_cons
  exact .bind (.of_ok hget' (parseredirs_complete hds (hL.not_starts (by decide)) hfuel c' s₅ h₅))

theorem parseexec_simple {fuel : Nat} {argv : List (Nat × Nat)} {rs : List (Token × Token)}
    (hD : Items D argv rs) (hmax : argv.length < maxargs) (hL : Next [.bar, .rparen, .amp, .semi] L)
    (hfuel : (D ++ L).length < fuel) :
    Finds mem es D L ((Cmd.exec argv).wrap rs) (parseexec mem es (fuel + 1)) := by
  intro s h
  unfold parseexec
  have hnot : starts (chars ['(']) (D ++ L) = false := by
    cases hD with
    | nil => exact hL.not_starts (by decide)
    | word hx _ => exact (Next.cons (List.mem_singleton.mpr hx) _).not_starts (by decide)
    | @redir op file d argv rs hop _ _ =>
        have hmem : op.tok ∈ [Tok.lt, Tok.gt, Tok.append] := by simpa [Tok.IsRedir] using hop
        exact (Next.cons hmem _).not_starts (by decide)
  obtain ⟨s₁, hpeek, h₁⟩ := h.peek (chars ['(']) (by decide)
  refine .bind (.of_ok hpeek ?_)
  rw [hnot, if_neg Bool.false_ne_true]
  obtain ⟨d₁, d₂, rs₁, rs₂, rfl, rfl, hredirs, hitems, hword⟩ := hD.split
  have hfirst : Next [.word] d₂ := fun y l heq => List.mem_singleton.mpr (hword y l heq)
  have hrest : starts (chars ['<', '>']) (d₂ ++ L) = false := by
    cases d₂ with
    | nil => exact hL.not_starts (by decide)
    | cons y l => exact (Next.cons (hfirst y l rfl) (l ++ L)).not_starts (by decide)
  rw [List.append_assoc] at h₁ hfuel
  refine .bind ((parseredirs_complete hredirs hrest hfuel _ s₁ h₁).imp fun c₂ s₂ h₂ => ?_)
  obtain ⟨rfl, h₂⟩ := h₂
  rw [List.length_append] at hfuel
  exact parseargs_complete [] rs₁ hitems hfirst hL (by omega) rfl (by simpa using hmax) s₂ h₂

theorem parseexec_block {fuel : Nat} {l : Token} {d : List Token} (hl : l.tok = .lparen)
    (hblock : Finds mem es (l :: d) L c (parseblock mem es fuel)) :
    Finds mem es (l :: d) L c (parseexec mem es (fuel + 1)) := by
  intro s h
  unfold parseexec
  obtain ⟨s₁, hpeek, h₁⟩ := h.peek (chars ['(']) (by decide)
  refine .bind (.of_ok hpeek ?_)
  have hstarts : starts (chars ['(']) (l :: d ++ L) = true := starts_lparen.mpr ⟨l, _, rfl, hl⟩
  rw [if_pos hstarts]
  exact hblock s₁ h₁

theorem parsepipe_last {fuel : Nat} (hexec : Finds mem es D L c (parseexec mem es fuel))
    (hL : Next [.rparen, .amp, .semi] L) : Finds mem es D L c (parsepipe mem es (fuel + 1)) := by
  intro s h
  unfold parsepipe
  refine .bind ((hexec s h).imp fun c' s₁ h₁ => ?_)
  obtain ⟨rfl, h₁⟩ := h₁
  obtain ⟨s₂, hpeek, h₂⟩ := h₁.peek (chars ['|']) (by decide)
  refine .bind (.of_ok hpeek ?_)
  rw [hL.not_starts (by decide), if_neg Bool.false_ne_true]
  exact .pure ⟨rfl, h₂⟩

theorem parsepipe_more {fuel : Nat} {bar : Token} {D' : List Token} {c' : Cmd} (hbar : bar.tok = .bar)
    (hexec : Finds mem es D (bar :: (D' ++ L)) c (parseexec mem es fuel))
    (hpipe : Finds mem es D' L c' (parsepipe mem es fuel)) :
    Finds mem es (D ++ bar :: D') L (.pipe c c') (parsepipe mem es (fuel + 1)) := by
  intro s h
  have hsplit : D ++ bar :: D' ++ L = D ++ bar :: (D' ++ L) := by simp
  rw [hsplit] at h
  unfold parsepipe
  refine .bind ((hexec s h).imp fun c₁ s₁ h₁ => ?_)
  obtain ⟨rfl, h₁⟩ := h₁
  obtain ⟨s₂, hpeek, h₂⟩ := h₁.peek (chars ['|']) (by decide)
  refine .bind (.of_ok hpeek ?_)
  rw [if_pos (starts_bar.mpr ⟨bar, _, rfl, hbar⟩)]
  obtain ⟨s₃, hget, h₃, -⟩ := h₂.gettoken_cons
  refine .bind (.of_ok hget (.bind ((hpipe s₃ h₃).imp fun c₂ s₄ h₄ => .pure ?_)))
  exact ⟨by rw [h₄.1], h₄.2⟩

theorem parseline_last {fuel : Nat} {amps : List Token} (hamps : ∀ x ∈ amps, x.tok = .amp)
    (hpipe : Finds mem es D (amps ++ L) c (parsepipe mem es fuel)) (hL : Next [.rparen] L)
    (hfuel : (amps ++ L).length < fuel) :
    Finds mem es (D ++ amps) L (c.backs amps.length) (parseline mem es (fuel + 1)) := by
  intro s h
  rw [List.append_assoc] at h
  unfold parseline
  refine .bind ((hpipe s h).imp fun c₁ s₁ h₁ => ?_)
  obtain ⟨rfl, h₁⟩ := h₁
  refine .bind ((parseback_complete hamps (hL.not_starts (by decide)) hfuel _ s₁ h₁).imp
    fun c₂ s₂ h₂ => ?_)
  obtain ⟨rfl, h₂⟩ := h₂
  obtain ⟨s₃, hpeek, h₃⟩ := h₂.peek (chars [';']) (by decide)
  refine .bind (.of_ok hpeek ?_)
  rw [hL.not_starts (by decide), if_neg Bool.false_ne_true]
  exact .pure ⟨rfl, h₃⟩

theorem parseline_more {fuel : Nat} {amps D' : List Token} {semi : Token} {c' : Cmd}
    (hamps : ∀ x ∈ amps, x.tok = .amp) (hsemi : semi.tok = .semi)
    (hpipe : Finds mem es D (amps ++ semi :: (D' ++ L)) c (parsepipe mem es fuel))
    (hline : Finds mem es D' L c' (parseline mem es fuel))
    (hfuel : (amps ++ semi :: (D' ++ L)).length < fuel) :
    Finds mem es (D ++ (amps ++ semi :: D')) L (.list (c.backs amps.length) c')
      (parseline mem es (fuel + 1)) := by
  intro s h
  have hsplit : D ++ (amps ++ semi :: D') ++ L = D ++ (amps ++ semi :: (D' ++ L)) := by simp
  rw [hsplit] at h
  have hnot : starts (chars ['&']) (semi :: (D' ++ L)) = false :=
    (Next.cons (List.mem_singleton.mpr hsemi) _).not_starts (by decide)
  unfold parseline
  refine .bind ((hpipe s h).imp fun c₁ s₁ h₁ => ?_)
  obtain ⟨rfl, h₁⟩ := h₁
  refine .bind ((parseback_complete hamps hnot hfuel _ s₁ h₁).imp fun c₂ s₂ h₂ => ?_)
  obtain ⟨rfl, h₂⟩ := h₂
  obtain ⟨s₃, hpeek, h₃⟩ := h₂.peek (chars [';']) (by decide)
  refine .bind (.of_ok hpeek ?_)
  rw [if_pos (starts_semi.mpr ⟨semi, _, rfl, hsemi⟩)]
  obtain ⟨s₄, hget, h₄, -⟩ := h₃.gettoken_cons
  refine .bind (.of_ok hget (.bind ((hline s₄ h₄).imp fun c₃ s₅ h₅ => .pure ?_)))
  exact ⟨by rw [h₅.1], h₅.2⟩

/-- With enough rounds, the commands of the grammar are found in front of what can follow them. -/
theorem parse_complete (mem : Bytes) (es fuel : Nat) (D L : List Token) (c : Cmd) :
    (Command D c → Next [.bar, .rparen, .amp, .semi] L → 4 * (D ++ L).length + 1 < fuel →
      Finds mem es D L c (parseexec mem es fuel)) ∧
    (Pipe D c → Next [.rparen, .amp, .semi] L → 4 * (D ++ L).length + 2 < fuel →
      Finds mem es D L c (parsepipe mem es fuel)) ∧
    (Line D c → Next [.rparen] L → 4 * (D ++ L).length + 3 < fuel →
      Finds mem es D L c (parseline mem es fuel)) := by
  induction fuel using Nat.strong_induction_on generalizing D L c with
  | _ fuel ih =>
  refine ⟨fun hD hL hfuel => ?_, fun hD hL hfuel => ?_, fun hD hL hfuel => ?_⟩
  · obtain ⟨fuel, rfl⟩ : ∃ k, fuel = k + 2 := ⟨fuel - 2, by omega⟩
    cases hD with
    | @block l r d ds c rs hl hline hr hds =>
        have hlen : (l :: (d ++ r :: ds) ++ L).length = (d ++ r :: (ds ++ L)).length + 1 := by simp
        have hlen' : (d ++ r :: (ds ++ L)).length = d.length + ((ds ++ L).length + 1) := by simp
        refine parseexec_block hl (parseblock_complete hl hr hds hL (by omega) ?_)
        exact (ih fuel (by omega) d _ c).2.2 hline (.cons (by rw [hr]; decide) _) (by omega)
    | simple hitems hmax => exact parseexec_simple hitems hmax hL (by omega)
  · obtain ⟨fuel, rfl⟩ : ∃ k, fuel = k + 1 := ⟨fuel - 1, by omega⟩
    cases hD with
    | last hcommand =>
        refine parsepipe_last ((ih fuel (by omega) D L c).1 hcommand (hL.mono ?_) (by omega)) hL
        decide
    | @more d d' bar c c' hcommand hbar hpipe =>
        have hlen : (d ++ bar :: d' ++ L).length = (d ++ bar :: (d' ++ L)).length := by simp
        have hlen' : (d ++ bar :: (d' ++ L)).length = d.length + ((d' ++ L).length + 1) := by simp
        refine parsepipe_more hbar ?_ ((ih fuel (by omega) d' L c').2.1 hpipe hL (by omega))
        exact (ih fuel (by omega) d _ c).1 hcommand (.cons (by rw [hbar]; decide) _) (by omega)
  · obtain ⟨fuel, rfl⟩ : ∃ k, fuel = k + 1 := ⟨fuel - 1, by omega⟩
    cases hD with
    | @last d amps c hpipe hamps =>
        have hlen : (d ++ amps ++ L).length = (d ++ (amps ++ L)).length := by simp
        have hlen' : (d ++ (amps ++ L)).length = d.length + (amps ++ L).length := by simp
        refine parseline_last hamps ((ih fuel (by omega) d _ c).2.1 hpipe ?_ (by omega)) hL (by omega)
        cases amps with
        | nil => exact hL.mono (by decide)
        | cons x amps => exact .cons (by rw [hamps x List.mem_cons_self]; decide) _
    | @more d amps d' semi c c' hpipe hamps hsemi hline =>
        have hlen : (d ++ (amps ++ semi :: d') ++ L).length =
            (d ++ (amps ++ semi :: (d' ++ L))).length := by simp
        have hlen' : (d ++ (amps ++ semi :: (d' ++ L))).length =
            d.length + (amps ++ semi :: (d' ++ L)).length := by simp
        have hlen'' : (amps ++ semi :: (d' ++ L)).length = amps.length + ((d' ++ L).length + 1) := by
          simp
        refine parseline_more hamps hsemi ((ih fuel (by omega) d _ c).2.1 hpipe ?_ (by omega))
          ((ih fuel (by omega) d' L c').2.2 hline hL (by omega)) (by omega)
        cases amps with
        | nil => exact .cons (by rw [hsemi]; decide) _
        | cons x amps => exact .cons (by rw [hamps x List.mem_cons_self]; decide) _

end Complete

end Xv6Mmap.Sh
