import Mathlib.Algebra.Order.Ring.Int
import Mathlib.Data.List.Infix
import Xv6Mmap.Console

/-!
# The console's line discipline

What the keys that are typed mean, said without counters: a line that can be edited, and the bytes
that were committed. The ring holds those committed bytes that no reader has taken yet and then the
line, for any interleaving of interrupts and readers and also when the counters have wrapped.
-/

namespace Xv6Mmap.Console

/-! ### Lines -/

/-- The bytes committed so far, how many of them readers have taken, and the line being typed. -/
structure Line where
  committed : List UInt8
  taken : Nat
  edit : List UInt8

namespace Line

def stored (l : Line) : Nat := l.committed.length + l.edit.length - l.taken

/-- `c` goes to the end of the line. A newline, `^D` and the last byte there is room for commit it. -/
def store (l : Line) (c : UInt8) : Line :=
  if c = newline ∨ c = ctrl 'D' ∨ l.stored + 1 = 128 then
    { l with committed := l.committed ++ (l.edit ++ [c]), edit := [] }
  else
    { l with edit := l.edit ++ [c] }

def type (l : Line) (c : UInt8) : Line :=
  if c = ctrl 'P' ∨ c = ctrl 'F' ∨ c = 0 then l
  else if c = ctrl 'U' then { l with edit := [] }
  else if c = ctrl 'H' ∨ c = deleteKey then { l with edit := l.edit.dropLast }
  else if l.stored < 128 then l.store (if c = carriageReturn then newline else c)
  else l

def take (l : Line) (n : Nat) : Line := { l with taken := l.taken + n }

def next (l : Line) : Item → Line
  | .key c => l.type c
  | .take => l.take 1

end Line

def lineOf (history : List Item) : Line :=
  history.foldl Line.next { committed := [], taken := 0, edit := [] }

theorem Line.take_take (l : Line) (a b : Nat) : (l.take a).take b = l.take (a + b) := by
  simp only [Line.take, Nat.add_assoc]

theorem lineOf_key (history : List Item) (c : UInt8) :
    lineOf (history ++ [.key c]) = (lineOf history).type c := by
  simp only [lineOf, List.foldl_append, List.foldl_cons, List.foldl_nil, Line.next]

theorem lineOf_take (history : List Item) (n : Nat) :
    lineOf (history ++ List.replicate n .take) = (lineOf history).take n := by
  induction n with
  | zero => simp [Line.take]
  | succ n ih =>
      rw [List.replicate_succ', ← List.append_assoc, lineOf, List.foldl_append, ← lineOf, ih]
      rfl

theorem Line.store_taken (l : Line) (c : UInt8) : (l.store c).taken = l.taken := by
  unfold Line.store
  split <;> rfl

theorem Line.type_taken (l : Line) (c : UInt8) : (l.type c).taken = l.taken := by
  unfold Line.type
  split_ifs <;> first | rfl | exact l.store_taken _

theorem lineOf_taken (history : List Item) : (lineOf history).taken = history.count .take := by
  induction history using List.reverseRecOn with
  | nil => rfl
  | append_singleton history item ih =>
      rw [List.count_append]
      cases item with
      | key c =>
          rw [lineOf_key, Line.type_taken, ih]
          rfl
      | take => exact (congrArg Line.taken (lineOf_take history 1)).trans (by rw [Line.take, ih]; rfl)

/-! ### Counters -/

section Counters

variable {a b : Nat}

theorem toNat_ofNat_sub (hle : a ≤ b) (hlt : b ≤ a + 128) :
    (UInt32.ofNat b - UInt32.ofNat a).toNat = b - a := by
  rw [← UInt32.ofNat_sub hle, UInt32.toNat_ofNat']
  omega

theorem ofNat_eq_iff (hle : a ≤ b) (hlt : b ≤ a + 128) : UInt32.ofNat a = UInt32.ofNat b ↔ a = b := by
  refine ⟨fun heq => ?_, fun heq => by rw [heq]⟩
  have hdiff := toNat_ofNat_sub hle hlt
  rw [heq, UInt32.sub_self] at hdiff
  have hzero : (0 : UInt32).toNat = 0 := rfl
  omega

theorem toNat_mod_inputBufSize (a : Nat) : (UInt32.ofNat a % inputBufSize).toNat = a % 128 := by
  rw [UInt32.toNat_mod, UInt32.toNat_ofNat', show inputBufSize.toNat = 128 from rfl]
  omega

theorem ofNat_add_one (a : Nat) : UInt32.ofNat a + 1 = UInt32.ofNat (a + 1) := by
  rw [UInt32.ofNat_add]
  rfl

theorem ofNat_sub_one (a : Nat) : UInt32.ofNat (a + 1) - 1 = UInt32.ofNat a := by
  rw [← ofNat_add_one]
  simp

end Counters

/-! ### Typing -/

/-- The ring holds the bytes of `l` that have not been taken. -/
structure Holds (cons : Cons) (l : Line) : Prop where
  r : cons.r = .ofNat l.taken
  w : cons.w = .ofNat l.committed.length
  e : cons.e = .ofNat (l.committed.length + l.edit.length)
  taken_le : l.taken ≤ l.committed.length
  room : l.committed.length + l.edit.length ≤ l.taken + 128
  cell : ∀ i, l.taken ≤ i → ∀ c, (l.committed ++ l.edit)[i]? = some c → cons.buf (i % 128) = c
  plain : newline ∉ l.edit

theorem getElem?_append_of_some {l l' : List UInt8} {i : Nat} {c : UInt8} (hc : l[i]? = some c) :
    (l ++ l')[i]? = some c := by
  rw [List.getElem?_append_left (List.getElem?_eq_some_iff.mp hc).1]
  exact hc

namespace Holds

variable {cons : Cons} {l : Line} {c : UInt8}

theorem e_eq_w_iff (hholds : Holds cons l) : cons.e = cons.w ↔ l.edit = [] := by
  have hle := hholds.taken_le
  have hroom := hholds.room
  rw [hholds.e, hholds.w, eq_comm, ofNat_eq_iff (by omega) (by omega), ← List.length_eq_zero_iff]
  omega

theorem r_eq_w_iff (hholds : Holds cons l) : cons.r = cons.w ↔ l.taken = l.committed.length := by
  have hroom := hholds.room
  rw [hholds.r, hholds.w, ofNat_eq_iff hholds.taken_le (by omega)]

theorem stored_eq (hholds : Holds cons l) : (cons.e - cons.r).toNat = l.stored := by
  have hle := hholds.taken_le
  rw [hholds.e, hholds.r, toNat_ofNat_sub (by omega) hholds.room]
  rfl

theorem erase (hholds : Holds cons l) {front : List UInt8} (hedit : l.edit = front ++ [c]) :
    Holds { cons with e := cons.e - 1 } { l with edit := front } ∧
      cons.buf ((cons.e - 1) % inputBufSize).toNat = c := by
  have hlength : l.committed.length + l.edit.length = l.committed.length + front.length + 1 := by
    rw [hedit, List.length_append, List.length_singleton]
    omega
  have he : cons.e - 1 = .ofNat (l.committed.length + front.length) := by
    rw [hholds.e, hlength, ofNat_sub_one]
  have hle := hholds.taken_le
  have hroom := hholds.room
  refine ⟨⟨hholds.r, hholds.w, he, hle, ?_, fun i hi x hx => ?_, fun hmem => ?_⟩, ?_⟩
  · dsimp only
    omega
  · refine hholds.cell i hi x ?_
    rw [hedit, ← List.append_assoc]
    exact getElem?_append_of_some hx
  · exact hholds.plain (by rw [hedit]; exact List.mem_append_left _ hmem)
  · rw [he, toNat_mod_inputBufSize]
    refine hholds.cell _ (by omega) c ?_
    rw [hedit, ← List.append_assoc, ← List.length_append, List.getElem?_concat_length]

theorem killLine (hholds : Holds cons l) {n : Nat} (hn : l.edit.length = n) :
    Holds (killLine n cons) { l with edit := [] } := by
  induction n generalizing cons l with
  | zero =>
      have hnil := List.length_eq_zero_iff.mp hn
      have hline : { l with edit := [] } = l := by rw [← hnil]
      rw [hline]
      exact hholds
  | succ n ih =>
      rcases List.eq_nil_or_concat' l.edit with hnil | ⟨front, c, hedit⟩
      · rw [hnil] at hn
        cases hn
      · obtain ⟨herased, hlast⟩ := hholds.erase hedit
        have hne : cons.e ≠ cons.w := by
          rw [Ne, hholds.e_eq_w_iff, hedit]
          simp
        have hplain : c ≠ newline := by
          rintro rfl
          exact hholds.plain (by rw [hedit]; simp)
        unfold Console.killLine
        rw [hlast, if_pos ⟨hne, hplain⟩]
        refine ih (l := { l with edit := front }) herased ?_
        rw [hedit, List.length_append, List.length_singleton] at hn
        exact Nat.succ.inj hn

theorem store (hholds : Holds cons l) (hroom : l.stored < 128) (c : UInt8) :
    Holds (store cons c).1 (l.store c) ∧
      ((store cons c).2 = false → (l.store c).committed = l.committed) := by
  have hle := hholds.taken_le
  have hlength : (l.edit ++ [c]).length = l.edit.length + 1 := by
    rw [List.length_append, List.length_singleton]
  have hcell : (cons.e % inputBufSize).toNat = (l.committed.length + l.edit.length) % 128 := by
    rw [hholds.e, toNat_mod_inputBufSize]
  have he : cons.e + 1 = .ofNat (l.committed.length + (l.edit ++ [c]).length) := by
    rw [hholds.e, ofNat_add_one, hlength, Nat.add_assoc]
  have hw : cons.e + 1 = .ofNat (l.committed ++ (l.edit ++ [c])).length :=
    he.trans (congrArg UInt32.ofNat List.length_append.symm)
  have hfull : cons.e + 1 - cons.r = inputBufSize ↔ l.stored + 1 = 128 := by
    have hdiff : (cons.e + 1 - cons.r).toNat = l.stored + 1 := by
      unfold Line.stored at hroom ⊢
      rw [he, hholds.r, toNat_ofNat_sub (by omega) (by omega), hlength]
      omega
    rw [← hdiff, ← UInt32.toNat_inj]
    rfl
  have hbytes : ∀ i, l.taken ≤ i → ∀ x, (l.committed ++ (l.edit ++ [c]))[i]? = some x →
      upd cons.buf (cons.e % inputBufSize).toNat c (i % 128) = x := by
    intro i hi x hx
    have hlt := (List.getElem?_eq_some_iff.mp hx).1
    rw [List.length_append, hlength] at hlt
    rw [hcell, ← List.append_assoc] at *
    by_cases hnew : i = l.committed.length + l.edit.length
    · rw [hnew, upd_self]
      rw [hnew, ← List.length_append, List.getElem?_concat_length] at hx
      exact Option.some.inj hx
    · have hne : i % 128 ≠ (l.committed.length + l.edit.length) % 128 := by
        unfold Line.stored at hroom
        omega
      rw [upd_of_ne _ _ hne]
      refine hholds.cell i hi x ?_
      rwa [List.getElem?_append_left] at hx
      rw [List.length_append]
      omega
  have hstop : (c = newline ∨ c = ctrl 'D' ∨ cons.e + 1 - cons.r = inputBufSize) ↔
      (c = newline ∨ c = ctrl 'D' ∨ l.stored + 1 = 128) := by rw [hfull]
  unfold Console.store Line.store
  dsimp only
  by_cases hcommit : c = newline ∨ c = ctrl 'D' ∨ l.stored + 1 = 128
  · rw [if_pos (hstop.mpr hcommit), if_pos hcommit]
    unfold Line.stored at hroom
    refine ⟨⟨hholds.r, ?_, ?_, ?_, ?_, ?_, List.not_mem_nil⟩, fun h => Bool.noConfusion h⟩
    · exact hw
    · exact hw
    · rw [List.length_append]
      dsimp only
      omega
    · rw [List.length_append, hlength, List.length_nil]
      dsimp only
      omega
    · rw [List.append_nil]
      exact hbytes
  · rw [if_neg fun h => hcommit (hstop.mp h), if_neg hcommit]
    unfold Line.stored at hroom
    refine ⟨⟨hholds.r, hholds.w, he, hle, ?_, hbytes, fun hmem => ?_⟩, fun _ => rfl⟩
    · rw [hlength]
      dsimp only
      omega
    · rcases List.mem_append.mp hmem with hmem | hmem
      · exact hholds.plain hmem
      · exact hcommit (.inl (List.mem_singleton.mp hmem).symm)

theorem consoleintr (hholds : Holds cons l) (c : UInt8) :
    Holds (consoleintr cons c).1 (l.type c) ∧
      ((consoleintr cons c).2 = false → (l.type c).committed = l.committed) := by
  unfold Console.consoleintr Line.type
  by_cases hp : c = ctrl 'P'
  · rw [if_pos hp, if_pos (.inl hp)]
    exact ⟨hholds, fun _ => rfl⟩
  by_cases hu : c = ctrl 'U'
  · subst hu
    rw [if_neg hp, if_pos rfl, if_neg (by decide), if_pos rfl]
    refine ⟨hholds.killLine ?_, fun _ => rfl⟩
    have hroom := hholds.room
    have hle := hholds.taken_le
    rw [hholds.e, hholds.w, toNat_ofNat_sub (by omega) (by omega)]
    omega
  by_cases hh : c = ctrl 'H' ∨ c = deleteKey
  · have hignored : ¬ (c = ctrl 'P' ∨ c = ctrl 'F' ∨ c = 0) := by
      rcases hh with rfl | rfl <;> decide
    rw [if_neg hp, if_neg hu, if_pos hh, if_neg hignored, if_neg hu, if_pos hh]
    rcases List.eq_nil_or_concat' l.edit with hnil | ⟨front, x, hedit⟩
    · rw [if_neg (not_not.mpr (hholds.e_eq_w_iff.mpr hnil))]
      have hline : { l with edit := l.edit.dropLast } = l := by
        rw [hnil, List.dropLast_nil, ← hnil]
      exact ⟨by rw [hline]; exact hholds, fun _ => rfl⟩
    · have hne : cons.e ≠ cons.w := by
        rw [Ne, hholds.e_eq_w_iff, hedit]
        simp
      rw [if_pos hne, hedit, List.dropLast_concat]
      exact ⟨(hholds.erase hedit).1, fun _ => rfl⟩
  by_cases hf : c = ctrl 'F'
  · rw [if_neg hp, if_neg hu, if_neg hh, if_pos hf, if_pos (.inr (.inl hf))]
    exact ⟨hholds, fun _ => rfl⟩
  by_cases hzero : c = 0
  · rw [if_neg hp, if_neg hu, if_neg hh, if_neg hf, if_neg fun h => h.1 hzero,
      if_pos (.inr (.inr hzero))]
    exact ⟨hholds, fun _ => rfl⟩
  have hroom : c ≠ 0 ∧ cons.e - cons.r < inputBufSize ↔ l.stored < 128 := by
    rw [UInt32.lt_iff_toNat_lt, hholds.stored_eq, show inputBufSize.toNat = 128 from rfl]
    exact ⟨fun h => h.2, fun h => ⟨hzero, h⟩⟩
  rw [if_neg hp, if_neg hu, if_neg hh, if_neg hf, if_neg (not_or.mpr ⟨hp, not_or.mpr ⟨hf, hzero⟩⟩),
    if_neg hu, if_neg hh]
  by_cases hstored : l.stored < 128
  · rw [if_pos (hroom.mpr hstored), if_pos hstored]
    exact hholds.store hstored _
  · rw [if_neg fun h => hstored (hroom.mp h), if_neg hstored]
    exact ⟨hholds, fun _ => rfl⟩

end Holds

/-! ### Reading -/

def eof : UInt8 := ctrl 'D'

/-- Why a reader gave up the lock when it had `seg.n` bytes to go and `l` is the line before. -/
inductive Stopped (l : Line) (killed : Bool) (target : Nat) (seg : Segment) : Prop where
  | waits (hplain : newline ∉ seg.moved) (hmore : 0 < seg.n)
      (hempty : l.taken + seg.taken = l.committed.length)
      (hpause : seg.pause = if killed then .ret (-1) else .sleep)
  | satisfied (hpause : seg.pause = .ret (target - seg.n))
      (hline : newline ∉ seg.moved.dropLast)
      (hwhy : seg.n = 0 ∨ seg.moved.getLast? = some newline ∨
        (seg.n < target ∧ l.committed[l.taken + seg.taken]? = some eof))

/-- What a reader that wants `n` more of `target` bytes does while it holds the lock. -/
inductive Took (l : Line) (killed : Bool) (target n : Nat) (seg : Segment) : Prop where
  | bytes (hmoved : seg.moved = (l.committed.drop l.taken).take seg.taken)
      (hplain : eof ∉ seg.moved) (hcount : seg.moved.length + seg.n = n)
      (htaken : seg.moved.length = seg.taken) (hwhy : Stopped l killed target seg)
  | endOfFile (hfirst : n = target) (hmoved : seg.moved = []) (htaken : seg.taken = 1)
      (heof : l.committed[l.taken]? = some eof) (hpause : seg.pause = .ret 0)

section Reading

variable {cons : Cons} {l : Line} {killed : Bool} {target n : Nat} {seg : Segment}

theorem drop_take_succ {committed : List UInt8} {i : Nat} {c : UInt8} (hc : committed[i]? = some c)
    (m : Nat) : (committed.drop i).take (m + 1) = c :: (committed.drop (i + 1)).take m := by
  obtain ⟨hlt, rfl⟩ := List.getElem?_eq_some_iff.mp hc
  rw [List.drop_eq_getElem_cons hlt, List.take_succ_cons]

theorem Took.copied {c : UInt8} (hc : l.committed[l.taken]? = some c) (hplain : c ≠ eof)
    (hline : c ≠ newline) (hn : n < target) (htook : Took (l.take 1) killed target n seg) :
    Took l killed target (n + 1) (seg.copied c) := by
  cases htook with
  | endOfFile hfirst => omega
  | bytes hmoved hrest hcount htaken hwhy =>
      have hcommitted : (l.take 1).taken + seg.taken = l.taken + (seg.taken + 1) := by
        show l.taken + 1 + seg.taken = _
        omega
      refine .bytes ?_ ?_ ?_ ?_ ?_
      · show c :: seg.moved = (l.committed.drop l.taken).take (seg.taken + 1)
        rw [drop_take_succ hc, hmoved]
        rfl
      · exact fun hmem => (List.mem_cons.mp hmem).elim (fun h => hplain h.symm) hrest
      · show seg.moved.length + 1 + seg.n = n + 1
        omega
      · exact congrArg (· + 1) htaken
      cases hwhy with
      | waits hnoline hmore hempty hpause =>
          refine .waits ?_ hmore ?_ hpause
          · exact fun hmem => (List.mem_cons.mp hmem).elim (fun h => hline h.symm) hnoline
          · exact hcommitted.symm.trans hempty
      | satisfied hpause hnoline hstop =>
          refine .satisfied hpause ?_ ?_
          · show newline ∉ (c :: seg.moved).dropLast
            cases hseg : seg.moved with
            | nil => simp
            | cons x rest =>
                rw [hseg] at hnoline
                rw [List.dropLast_cons_of_ne_nil (List.cons_ne_nil x rest)]
                exact fun hmem => (List.mem_cons.mp hmem).elim (fun h => hline h.symm) hnoline
          · rcases hstop with hdone | hlast | ⟨hlt, heof⟩
            · exact .inl hdone
            · refine .inr (.inl ?_)
              show (c :: seg.moved).getLast? = some newline
              cases hseg : seg.moved with
              | nil =>
                  rw [hseg] at hlast
                  cases hlast
              | cons x rest =>
                  rw [hseg] at hlast
                  rw [List.getLast?_cons_cons]
                  exact hlast
            · refine .inr (.inr ⟨hlt, ?_⟩)
              rw [hcommitted] at heof
              exact heof

theorem Holds.take (hholds : Holds cons l) (hlt : l.taken < l.committed.length) :
    Holds { cons with r := cons.r + 1 } (l.take 1) where
  r := by
    show cons.r + 1 = .ofNat (l.taken + 1)
    rw [hholds.r, ofNat_add_one]
  w := hholds.w
  e := hholds.e
  taken_le := hlt
  room := by
    have hroom := hholds.room
    show l.committed.length + l.edit.length ≤ l.taken + 1 + 128
    omega
  cell := fun i hi => hholds.cell i (Nat.le_of_succ_le hi)
  plain := hholds.plain

theorem Holds.head (hholds : Holds cons l) (hlt : l.taken < l.committed.length) :
    l.committed[l.taken]? = some (cons.buf (cons.r % inputBufSize).toNat) := by
  have hsome := List.getElem?_eq_getElem hlt
  have hcell := hholds.cell l.taken (Nat.le_refl _) _ (getElem?_append_of_some hsome)
  rw [hholds.r, toNat_mod_inputBufSize, hcell]
  exact hsome

theorem readLoop_took (killed : Bool) {dst : Nat → Bool} (hdst : ∀ i, dst i = true)
    (hholds : Holds cons l) (hn : n ≤ target) :
    Took l killed target n (readLoop dst killed target n cons) ∧
      Holds (readLoop dst killed target n cons).cons
        (l.take (readLoop dst killed target n cons).taken) := by
  induction n generalizing cons l with
  | zero =>
      refine ⟨.bytes (by simp [readLoop]) (by simp [readLoop]) rfl rfl
        (.satisfied ?_ (by simp [readLoop]) (.inl rfl)), hholds⟩
      show Pause.ret (target : Int) = .ret (target - (0 : Nat))
      rw [Nat.cast_zero, Int.sub_zero]
  | succ n ih =>
      unfold readLoop
      by_cases hempty : cons.r = cons.w
      · rw [if_pos hempty]
        exact ⟨.bytes (by simp) (by simp) (by simp) rfl
          (.waits (by simp) (Nat.succ_pos n) (hholds.r_eq_w_iff.mp hempty) rfl), hholds⟩
      have hlt : l.taken < l.committed.length :=
        Nat.lt_of_le_of_ne hholds.taken_le fun h => hempty (hholds.r_eq_w_iff.mpr h)
      have hhead := hholds.head hlt
      have hnext := hholds.take hlt
      rw [if_neg hempty]
      dsimp only
      generalize cons.buf (cons.r % inputBufSize).toNat = c at hhead
      by_cases heof : c = ctrl 'D'
      · subst heof
        rw [if_pos rfl]
        by_cases hsome : n + 1 < target
        · -- the mark is put back
          have hback : cons.r + 1 - 1 = cons.r := by simp
          rw [if_pos hsome, hback]
          exact ⟨.bytes (by simp) (by simp) (by simp) rfl
            (.satisfied rfl (by simp) (.inr (.inr ⟨hsome, hhead⟩))), hholds⟩
        · rw [if_neg hsome]
          have hfirst : n + 1 = target := by omega
          refine ⟨.endOfFile hfirst rfl rfl hhead ?_, hnext⟩
          show Pause.ret ((target : Int) - ((n : Int) + 1)) = .ret 0
          congr 1
          omega
      rw [if_neg heof, hdst, Bool.not_true, if_neg Bool.false_ne_true]
      by_cases hline : c = newline
      · subst hline
        rw [if_pos rfl]
        refine ⟨.bytes ?_ ?_ (Nat.add_comm 1 n) rfl (.satisfied rfl (by simp) (.inr (.inl rfl))), hnext⟩
        · show [newline] = (l.committed.drop l.taken).take 1
          rw [drop_take_succ hhead, List.take_zero]
        · exact fun hmem => absurd (List.mem_singleton.mp hmem) (by decide)
      · rw [if_neg hline]
        obtain ⟨htook, hafter⟩ := ih hnext (Nat.le_of_succ_le hn)
        refine ⟨htook.copied hhead heof hline hn, ?_⟩
        rw [Line.take_take, Nat.add_comm 1] at hafter
        exact hafter

end Reading

/-! ### Ends of files -/

def eofs (committed : List UInt8) (taken : Nat) : List Nat :=
  (List.range taken).filter fun i => committed[i]? = some eof

section Eofs

variable {committed : List UInt8} {taken : Nat}

theorem eofs_append (hle : taken ≤ committed.length) (more : List UInt8) :
    eofs (committed ++ more) taken = eofs committed taken := by
  refine List.filter_congr fun i hi => ?_
  rw [List.getElem?_append_left (Nat.lt_of_lt_of_le (List.mem_range.mp hi) hle)]

theorem eofs_succ (heof : committed[taken]? = some eof) :
    eofs committed (taken + 1) = eofs committed taken ++ [taken] := by
  simp only [eofs, List.range_succ, List.filter_append, List.filter_cons, heof, decide_true, if_true,
    List.filter_nil]

theorem eofs_add {m : Nat} (hplain : eof ∉ (committed.drop taken).take m) :
    eofs committed (taken + m) = eofs committed taken := by
  induction m with
  | zero => rfl
  | succ m ih =>
      have hlast : ¬ committed[taken + m]? = some eof := by
        intro heof
        refine hplain (List.mem_iff_getElem?.mpr ⟨m, ?_⟩)
        rw [List.getElem?_take_of_lt (Nat.lt_succ_self m), List.getElem?_drop]
        exact heof
      have hfront : eof ∉ (committed.drop taken).take m := fun hmem =>
        hplain (List.take_subset_take_left _ (Nat.le_succ m) hmem)
      rw [← ih hfront, ← Nat.add_assoc, eofs, List.range_succ, List.filter_append, List.filter_cons,
        if_neg (by simpa using hlast), List.filter_nil, List.append_nil]
      rfl

end Eofs

/-! ### Runs -/

/-- A call in progress. A reader sleeps only when nothing is left to take. -/
def Activity.Ok (l : Line) : Activity → Prop
  | .idle => True
  | .reading dst target n moved asleep =>
    (∀ i, dst i = true) ∧ 0 < n ∧ moved.length + n = target ∧ newline ∉ moved ∧
      (asleep = true → l.taken = l.committed.length)

/-- A read that has come to its end: it stopped after a newline, with as many bytes as it wanted,
before an end of file, or with an end of file and nothing else. -/
structure ReadDone (l : Line) (ret : Return) : Prop where
  count : ret.ret = ret.moved.length
  le : ret.moved.length ≤ ret.target
  line : newline ∉ ret.moved.dropLast
  why : ret.moved.length = ret.target ∨ ret.moved.getLast? = some newline ∨
    (ret.moved ≠ [] ∧ l.committed[ret.taken]? = some eof) ∨
    (ret.moved = [] ∧ 0 < ret.taken ∧ l.committed[ret.taken - 1]? = some eof)

structure Good (w : World) (l : Line) : Prop where
  holds : Holds w.cons l
  delivered : w.delivered = (l.committed.take l.taken).filter (· ≠ eof)
  procs : ∀ q, (w.proc q).Ok l
  returns : ∀ ret ∈ w.returns, (ret.ret = -1 ∧ w.killed ret.caller = true) ∨ ReadDone l ret
  ended : (w.returns.filter fun ret => ret.ret = 0).map Return.taken =
    (eofs l.committed l.taken).map (· + 1)

theorem Line.type_committed (l : Line) (c : UInt8) :
    ∃ more, (l.type c).committed = l.committed ++ more := by
  unfold Line.type Line.store
  split_ifs <;> first | exact ⟨_, rfl⟩ | exact ⟨[], (List.append_nil _).symm⟩

theorem ReadDone.mono {l l' : Line} {ret : Return} (hdone : ReadDone l ret)
    (hgrow : ∃ more, l'.committed = l.committed ++ more) : ReadDone l' ret := by
  obtain ⟨more, hmore⟩ := hgrow
  have hkeep : ∀ {i}, l.committed[i]? = some eof → l'.committed[i]? = some eof := fun h => by
    rw [hmore]
    exact getElem?_append_of_some h
  exact ⟨hdone.count, hdone.le, hdone.line, hdone.why.imp_right <| Or.imp_right <|
    Or.imp (fun h => ⟨h.1, hkeep h.2⟩) fun h => ⟨h.1, h.2.1, hkeep h.2.2⟩⟩

theorem Activity.Ok.wakeReader {activity : Activity} {l l' : Line} (hok : activity.Ok l) :
    (wakeReader activity).Ok l' := by
  cases activity with
  | idle => trivial
  | reading dst target n moved asleep =>
      exact ⟨hok.1, hok.2.1, hok.2.2.1, hok.2.2.2.1, fun h => Bool.noConfusion h⟩

theorem Activity.Ok.mono {activity : Activity} {l l' : Line} (hok : activity.Ok l)
    (hall : l.taken = l.committed.length → l'.taken = l'.committed.length) : activity.Ok l' := by
  cases activity with
  | idle => trivial
  | reading dst target n moved asleep =>
      exact ⟨hok.1, hok.2.1, hok.2.2.1, hok.2.2.2.1, fun h => hall (hok.2.2.2.2 h)⟩

section Steps

variable {w : World} {l : Line}

theorem Good.key (hw : Good w l) (c : UInt8) : Good (step w (.key c)) (l.type c) := by
  obtain ⟨hholds, hquiet⟩ := hw.holds.consoleintr c
  have htaken := l.type_taken c
  have hgrow := l.type_committed c
  have hle := hw.holds.taken_le
  refine ⟨hholds, hw.delivered.trans ?_, fun q => ?_, fun ret hret => ?_, hw.ended.trans ?_⟩
  · obtain ⟨more, hmore⟩ := hgrow
    rw [htaken, hmore, List.take_append_of_le_length hle]
  · show (if (consoleintr w.cons c).2 = true then fun q => wakeReader (w.proc q) else w.proc) q |>.Ok _
    cases hwoken : (consoleintr w.cons c).2 with
    | true => exact (hw.procs q).wakeReader
    | false => exact (hw.procs q).mono fun hall => by rw [htaken, hquiet hwoken, hall]
  · exact (hw.returns ret hret).imp_right fun hdone => hdone.mono hgrow
  · obtain ⟨more, hmore⟩ := hgrow
    rw [htaken, hmore, eofs_append hle]

theorem ok_upd {proc : Nat → Activity} (hproc : ∀ q, (proc q).Ok l) (p : Nat) {activity : Activity}
    (hok : activity.Ok l) (q : Nat) : (upd proc p activity q).Ok l := by
  by_cases hq : q = p
  · rw [hq, upd_self]
    exact hok
  · rw [upd_of_ne _ _ hq]
    exact hproc q

theorem Good.taken (hw : Good w l) {seg : Segment} (hholds : Holds seg.cons (l.take seg.taken))
    (hmoved : seg.moved = ((l.committed.drop l.taken).take seg.taken).filter (· ≠ eof)) :
    w.delivered ++ seg.moved = (l.committed.take (l.taken + seg.taken)).filter (· ≠ eof) ∧
    (∀ q, (w.proc q).Ok (l.take seg.taken)) ∧
    ∀ ret ∈ w.returns, (ret.ret = -1 ∧ w.killed ret.caller = true) ∨ ReadDone (l.take seg.taken) ret := by
  refine ⟨?_, fun q => ?_, fun ret hret => ?_⟩
  · rw [hw.delivered, hmoved, List.take_add, List.filter_append]
  · refine (hw.procs q).mono fun hall => ?_
    have hle := hholds.taken_le
    change l.taken + seg.taken ≤ l.committed.length at hle
    show l.taken + seg.taken = l.committed.length
    omega
  · exact (hw.returns ret hret).imp_right fun hdone => hdone.mono ⟨[], (List.append_nil _).symm⟩

theorem returns_append {returns : List Return} {ret : Return} {before after : List Nat}
    (hbefore : (returns.filter fun ret => ret.ret = 0).map Return.taken = before)
    (hafter : after = before ++ if ret.ret = 0 then [ret.taken] else []) :
    ((returns ++ [ret]).filter fun ret => ret.ret = 0).map Return.taken = after := by
  rw [List.filter_append, List.map_append, hbefore, hafter, List.filter_cons, List.filter_nil]
  by_cases hzero : ret.ret = 0
  · rw [if_pos (decide_eq_true hzero), if_pos hzero, List.map_cons, List.map_nil]
  · rw [if_neg (by simpa using hzero), if_neg hzero, List.map_nil]

theorem ReadDone.of_stopped {seg : Segment} {p target n : Nat} {moved : List UInt8}
    (hn : 0 < n) (htotal : moved.length + n = target) (hnoline : newline ∉ moved)
    (hcount : seg.moved.length + seg.n = n) (hline : newline ∉ seg.moved.dropLast)
    (hwhy : seg.n = 0 ∨ seg.moved.getLast? = some newline ∨
      (seg.n < target ∧ l.committed[l.taken + seg.taken]? = some eof)) :
    ReadDone (l.take seg.taken)
      { caller := p
        target := target
        moved := moved ++ seg.moved
        ret := target - seg.n
        taken := l.taken + seg.taken } ∧ (target : Int) - seg.n ≠ 0 := by
  have hlength : (moved ++ seg.moved).length = moved.length + seg.moved.length := List.length_append
  have hpos : seg.n < target := by
    rcases hwhy with hdone | hlast | ⟨hlt, _⟩
    · omega
    · have hne : seg.moved ≠ [] := by
        rintro hnil
        rw [hnil] at hlast
        cases hlast
      have hlen := List.length_pos_iff.mpr hne
      omega
    · exact hlt
  refine ⟨⟨?_, ?_, ?_, ?_⟩, by omega⟩
  · dsimp only
    omega
  · dsimp only
    omega
  · dsimp only
    cases hseg : seg.moved with
    | nil =>
        rw [List.append_nil]
        exact fun hmem => hnoline (List.mem_of_mem_dropLast hmem)
    | cons x rest =>
        rw [hseg] at hline
        rw [List.dropLast_append_cons]
        exact fun hmem => (List.mem_append.mp hmem).elim hnoline hline
  · rcases hwhy with hdone | hlast | ⟨_, heof⟩
    · refine .inl ?_
      dsimp only
      omega
    · refine .inr (.inl ?_)
      show (moved ++ seg.moved).getLast? = some newline
      rw [List.getLast?_append, hlast]
      rfl
    · refine .inr (.inr (.inl ⟨fun hnil => ?_, heof⟩))
      change moved ++ seg.moved = [] at hnil
      rw [hnil, List.length_nil] at hlength
      omega

theorem Good.read (hw : Good w (lineOf w.history)) {p target n : Nat} {dst : Nat → Bool}
    {moved : List UInt8} (hdst : ∀ i, dst i = true) (hn : 0 < n) (htotal : moved.length + n = target)
    (hnoline : newline ∉ moved) :
    Good (w.read p dst target n moved) (lineOf (w.read p dst target n moved).history) := by
  obtain ⟨htook, hholds⟩ :=
    readLoop_took (w.killed p) hdst hw.holds (show n ≤ target by omega)
  unfold World.read
  dsimp only
  generalize readLoop dst (w.killed p) target n w.cons = seg at htook hholds
  have hhistory := lineOf_take w.history seg.taken
  have hcount : (w.history ++ List.replicate seg.taken Item.take).count Item.take =
      (lineOf w.history).taken + seg.taken := by
    rw [← lineOf_taken, hhistory]
    rfl
  generalize hl : lineOf w.history = l at *
  cases htook with
  | bytes hmoved hplain hseg htaken hwhy =>
      have hfilter : seg.moved = ((l.committed.drop l.taken).take seg.taken).filter (· ≠ eof) := by
        rw [← hmoved, List.filter_eq_self.mpr]
        intro x hx
        exact decide_eq_true fun heq => hplain (heq ▸ hx)
      have heofs : eofs l.committed (l.taken + seg.taken) = eofs l.committed l.taken :=
        eofs_add (hmoved ▸ hplain)
      obtain ⟨hdelivered, hprocs, hreturns⟩ := hw.taken hholds hfilter
      cases hwhy with
      | waits hnone hmore hempty hpause =>
          cases hkilled : w.killed p with
          | false =>
              rw [hkilled, if_neg Bool.false_ne_true] at hpause
              rw [hpause]
              dsimp only
              rw [hhistory]
              refine ⟨hholds, hdelivered, ok_upd hprocs p ⟨hdst, hmore, ?_, ?_, fun _ => hempty⟩,
                hreturns, hw.ended.trans (congrArg _ heofs.symm)⟩
              · rw [List.length_append]
                omega
              · exact fun hmem => (List.mem_append.mp hmem).elim hnoline hnone
          | true =>
              rw [hkilled, if_pos rfl] at hpause
              rw [hpause]
              dsimp only
              rw [hhistory]
              refine ⟨hholds, hdelivered, ok_upd hprocs p trivial, List.forall_mem_append.mpr
                ⟨hreturns, List.forall_mem_singleton.mpr (.inl ⟨rfl, hkilled⟩)⟩,
                returns_append hw.ended ?_⟩
              rw [if_neg (by simp), List.append_nil]
              exact congrArg _ heofs
      | satisfied hpause hline hstop =>
          rw [hpause]
          dsimp only
          rw [hhistory, hcount]
          obtain ⟨hdone, hne⟩ := ReadDone.of_stopped (p := p) hn htotal hnoline hseg hline hstop
          refine ⟨hholds, hdelivered, ok_upd hprocs p trivial, List.forall_mem_append.mpr
            ⟨hreturns, List.forall_mem_singleton.mpr (.inr hdone)⟩, returns_append hw.ended ?_⟩
          rw [if_neg hne, List.append_nil]
          exact congrArg _ heofs
  | endOfFile hfirst hmoved htaken heof hpause =>
      have hnil : moved = [] := List.eq_nil_of_length_eq_zero (by omega)
      have hslice : (l.committed.drop l.taken).take seg.taken = [eof] := by
        rw [htaken, drop_take_succ heof, List.take_zero]
      have hfilter : seg.moved = ((l.committed.drop l.taken).take seg.taken).filter (· ≠ eof) := by
        rw [hslice, hmoved]
        rfl
      obtain ⟨hdelivered, hprocs, hreturns⟩ := hw.taken hholds hfilter
      rw [hpause]
      dsimp only
      rw [hhistory, hcount]
      refine ⟨hholds, hdelivered, ok_upd hprocs p trivial, List.forall_mem_append.mpr
        ⟨hreturns, List.forall_mem_singleton.mpr ?_⟩, returns_append hw.ended ?_⟩
      · rw [hnil, hmoved]
        refine .inr ⟨rfl, Nat.zero_le _, List.not_mem_nil, .inr (.inr (.inr ⟨rfl, ?_, ?_⟩))⟩
        · show 0 < l.taken + seg.taken
          omega
        · show l.committed[l.taken + seg.taken - 1]? = some eof
          rw [htaken]
          exact heof
      · rw [if_pos rfl, htaken]
        show (eofs l.committed (l.taken + 1)).map (· + 1) = _
        rw [eofs_succ heof, List.map_append]
        rfl

end Steps

def Event.Reads : Event → Prop
  | .callRead _ dst n => 0 < n ∧ ∀ i, dst i = true
  | _ => True

theorem step_good {w : World} (hw : Good w (lineOf w.history)) {event : Event} (hreads : event.Reads) :
    Good (step w event) (lineOf (step w event).history) := by
  cases event with
  | key c =>
      have hkey := hw.key c
      rw [← lineOf_key] at hkey
      exact hkey
  | callRead p dst n =>
      unfold step
      dsimp only
      split
      · refine ⟨hw.holds, hw.delivered, ok_upd hw.procs p ?_, hw.returns, hw.ended⟩
        have hpos := hreads.1
        exact ⟨hreads.2, by omega, Nat.zero_add _, List.not_mem_nil, fun h => Bool.noConfusion h⟩
      · exact hw
  | run p =>
      unfold step
      dsimp only
      have hp := hw.procs p
      split
      · next hproc =>
        rw [hproc] at hp
        exact hw.read hp.1 hp.2.1 hp.2.2.1 hp.2.2.2.1
      · exact hw
  | kill p =>
      refine ⟨hw.holds, hw.delivered, ok_upd hw.procs p (hw.procs p).wakeReader, fun ret hret => ?_,
        hw.ended⟩
      refine (hw.returns ret hret).imp_left fun h => ⟨h.1, ?_⟩
      by_cases hcaller : ret.caller = p
      · simp [step, hcaller]
      · simpa [step, upd_of_ne _ _ hcaller] using h.2

theorem start_good (buf : Nat → UInt8) : Good (World.start buf) (lineOf []) where
  holds := ⟨rfl, rfl, rfl, Nat.le_refl 0, Nat.zero_le _, fun _ _ _ h => by simp [lineOf] at h,
    List.not_mem_nil⟩
  delivered := rfl
  procs := fun _ => trivial
  returns := fun _ h => absurd h List.not_mem_nil
  ended := rfl

theorem run_good {w : World} (hw : Good w (lineOf w.history)) {events : List Event}
    (hreads : ∀ event ∈ events, event.Reads) :
    Good (run w events) (lineOf (run w events).history) := by
  induction events generalizing w with
  | nil => exact hw
  | cons event events ih =>
      exact ih (step_good hw (hreads event List.mem_cons_self))
        fun e he => hreads e (List.mem_cons_of_mem _ he)

/-! ### The discipline -/

def keysOf (history : List Item) : List UInt8 :=
  history.filterMap fun item => match item with
    | .key c => some c
    | .take => none

def typed (events : List Event) : List UInt8 :=
  events.filterMap fun event => match event with
    | .key c => some c
    | _ => none

theorem keysOf_step (w : World) (event : Event) :
    keysOf (step w event).history = keysOf w.history ++ typed [event] := by
  have htakes : ∀ n, keysOf (List.replicate n .take) = [] := fun n => by
    induction n with
    | zero => rfl
    | succ n ih => exact ih
  cases event with
  | key c => exact List.filterMap_append
  | callRead p dst n =>
      unfold step
      dsimp only
      split <;> exact (List.append_nil _).symm
  | run p =>
      unfold step
      dsimp only
      split
      · unfold World.read
        dsimp only
        split <;> exact List.filterMap_append.trans (congrArg _ (htakes _))
      · exact (List.append_nil _).symm
  | kill p => exact (List.append_nil _).symm

theorem keysOf_run (w : World) (events : List Event) :
    keysOf (run w events).history = keysOf w.history ++ typed events := by
  induction events generalizing w with
  | nil => exact (List.append_nil _).symm
  | cons event events ih =>
      refine (ih (step w event)).trans ?_
      rw [keysOf_step, List.append_assoc]
      exact congrArg _ (List.filterMap_append (l := [event])).symm

/-- What the console promises about the line `l` that was typed. -/
structure Disciplined (w : World) (l : Line) : Prop where
  indices : w.cons.w - w.cons.r ≤ w.cons.e - w.cons.r ∧ w.cons.e - w.cons.r ≤ inputBufSize
  taken_le : l.taken ≤ l.committed.length
  /-- The bytes delivered are those committed, in order and without the ends of files. -/
  delivered : w.delivered = (l.committed.take l.taken).filter (· ≠ eof)
  /-- A reader waits only when all that was committed has been taken. -/
  waits : ∀ p dst target n moved, w.proc p = .reading dst target n moved true →
    l.taken = l.committed.length
  reads : ∀ ret ∈ w.returns, (ret.ret = -1 ∧ w.killed ret.caller = true) ∨ ReadDone l ret
  /-- The reads that return 0 are those that took the ends of files, one each. -/
  ended : (w.returns.filter fun ret => ret.ret = 0).map Return.taken =
    (eofs l.committed l.taken).map (· + 1)

theorem Good.disciplined {w : World} {l : Line} (hw : Good w l) : Disciplined w l where
  indices := by
    have hle := hw.holds.taken_le
    have hroom := hw.holds.room
    have hread : (w.cons.w - w.cons.r).toNat = l.committed.length - l.taken := by
      rw [hw.holds.w, hw.holds.r, toNat_ofNat_sub hle (by omega)]
    have hedit := hw.holds.stored_eq
    unfold Line.stored at hedit
    rw [UInt32.le_iff_toNat_le, UInt32.le_iff_toNat_le, hread, hedit,
      show inputBufSize.toNat = 128 from rfl]
    omega
  taken_le := hw.holds.taken_le
  delivered := hw.delivered
  waits := by
    intro p dst target n moved hproc
    have hp := hw.procs p
    rw [hproc] at hp
    exact hp.2.2.2.2 rfl
  reads := hw.returns
  ended := hw.ended

/-- The discipline holds in every state of every run of readers and interrupts. -/
theorem console_discipline (buf : Nat → UInt8) {events : List Event}
    (hreads : ∀ event ∈ events, event.Reads) :
    Disciplined (run (World.start buf) events) (lineOf (run (World.start buf) events).history) ∧
      keysOf (run (World.start buf) events).history = typed events :=
  ⟨(run_good (start_good buf) hreads).disciplined, keysOf_run _ _⟩

/-- `ab`, a correction, a line of two bytes and an end of file; then three reads. -/
def oneLine : List Event :=
  [.key 97, .key 98, .key 8, .key 99, .key 13, .key 100, .key 4,
    .callRead 0 (fun _ => true) 10, .run 0, .callRead 1 (fun _ => true) 10, .run 1,
    .callRead 0 (fun _ => true) 5, .run 0]

theorem console_discipline_oneLine :
    Disciplined (run (World.start fun _ => 0) oneLine)
      (lineOf (run (World.start fun _ => 0) oneLine).history) ∧
    (run (World.start fun _ => 0) oneLine).delivered = [97, 99, 10, 100] ∧
    (run (World.start fun _ => 0) oneLine).returns.map (fun ret => (ret.caller, ret.ret)) =
      [(0, 3), (1, 1), (0, 0)] := by
  refine ⟨(console_discipline _ fun event hevent => ?_).1, by decide +kernel, by decide +kernel⟩
  simp only [oneLine, List.mem_cons, List.not_mem_nil, or_false] at hevent
  rcases hevent with rfl | rfl | rfl | rfl | rfl | rfl | rfl | rfl | rfl | rfl | rfl | rfl | rfl
  all_goals first | trivial | exact ⟨by decide, fun _ => rfl⟩

end Xv6Mmap.Console
