import Mathlib.Data.List.TakeWhile
import Mathlib.Tactic.SplitIfs
import Pagewright.Proofs.Spans

/-!
# Literals and where they end

`LiteralKind.Takes` tells how far a literal goes. What it takes is known by itself: the rest of a
string (`EndsQuote`), of a block comment (`EndsComment`) or of a pattern (`EndsPattern`). So a
literal is the same with something else behind it that does not run into it (`Piece.Meets`,
`LiteralKind.Takes.resume`). -/

namespace Pagewright

open List

variable {c quote closer opener : Char} {cs back : List Char} {bracketed : Bool} {n k : Nat} {p : Char → Bool}

theorem closer?_cases (h : closer? opener = some closer) :
    opener = '{' ∧ closer = '}' ∨ opener = '(' ∧ closer = ')' ∨ opener = '[' ∧ closer = ']' := by
  unfold closer? at h
  split_ifs at h <;> cases h <;> simp_all

/-! ### Texts with escaped characters -/

/-- The text of `c` and `cs` does not begin with an escaped character. -/
def NoEscape (c : Char) (cs : List Char) : Prop := c = '\\' → cs = []

theorem NoEscape.not_cons (h : NoEscape c cs) : ∀ d ds, c = '\\' → cs = d :: ds → False := by
  intro d ds hc hs
  rw [h hc] at hs
  cases hs

/-- Induction on a text that is read with escaped characters taken in one step. -/
theorem escape_induction {motive : List Char → Prop} (nil : motive []) (escape : ∀ c cs, motive cs → motive ('\\' :: c :: cs))
    (cons : ∀ c cs, NoEscape c cs → motive cs → motive (c :: cs)) : ∀ cs, motive cs
  | [] => nil
  | [c] => cons c [] (fun _ => rfl) nil
  | c :: d :: cs => by
    by_cases hc : c = '\\'
    · exact hc ▸ escape d cs (escape_induction nil escape cons cs)
    · exact cons c (d :: cs) (fun h => absurd h hc) (escape_induction nil escape cons (d :: cs))

theorem quotedLength_cons (h : NoEscape c cs) : quotedLength quote (c :: cs) = if c = '\n' && quote != '`' then none
      else if c = quote then some 1 else (quotedLength quote cs).map (· + 1) := by
  rw [quotedLength]
  exact h.not_cons

theorem patternLength_cons (h : NoEscape c cs) : patternLength bracketed (c :: cs) =
    if c = '\n' then none else if c = '/' && !bracketed then some (1 + (cs.takeWhile Char.isAlpha).length)
      else (patternLength (c = '[' || (c != ']' && bracketed)) cs).map (· + 1) := by
  rw [patternLength]
  · grind
  · exact h.not_cons

theorem quotedLength_bounds (h : quotedLength quote cs = some n) : 0 < n ∧ n ≤ cs.length := by
  fun_induction quotedLength quote cs generalizing n <;> grind [Option.map_eq_some_iff]

theorem commentLength_bounds (h : commentLength cs = some n) : 1 < n ∧ n ≤ cs.length := by
  fun_induction commentLength cs generalizing n <;> grind [Option.map_eq_some_iff]

theorem patternLength_bounds (h : patternLength bracketed cs = some n) : 0 < n ∧ n ≤ cs.length := by
  have hf (cs : List Char) : (cs.takeWhile Char.isAlpha).length ≤ cs.length := (takeWhile_sublist _).length_le
  fun_induction patternLength bracketed cs generalizing n <;> grind [Option.map_eq_some_iff]

/-! ### What literals go on with -/

/-- The rest of a string or template: what does not end it, escaped characters taken whole, and then
the quote. -/
inductive EndsQuote (quote : Char) : List Char → Prop where
  | quote : EndsQuote quote [quote]
  | escape (c : Char) {cs : List Char} (h : EndsQuote quote cs) : EndsQuote quote ('\\' :: c :: cs)
  | cons {c : Char} {cs : List Char} (he : c ≠ '\\') (hf : (c = '\n' && quote != '`') = false) (hq : c ≠ quote)
      (h : EndsQuote quote cs) : EndsQuote quote (c :: cs)

theorem quotedLength_append_iff (hq : quote = '\'' ∨ quote = '"' ∨ quote = '`') :
    quotedLength quote (cs ++ back) = some cs.length ↔ EndsQuote quote cs := by
  have hb : quote ≠ '\\' := by rcases hq with rfl | rfl | rfl <;> decide
  constructor
  · intro h
    induction cs using escape_induction with
    | nil => exact absurd (quotedLength_bounds h).1 (Nat.lt_irrefl 0)
    | escape c cs ih =>
      obtain ⟨m, hm, heq⟩ := Option.map_eq_some_iff.1 h
      exact .escape c (ih (Nat.add_right_cancel heq ▸ hm))
    | cons c cs he ih =>
      by_cases hc : c = '\\'
      · -- A backslash at the end of the text takes a character behind it along.
        rw [he hc, hc] at h
        cases back with
        | nil => simp [quotedLength, hb.symm] at h
        | cons d back =>
          obtain ⟨m, -, heq⟩ := Option.map_eq_some_iff.1 h
          simp at heq
      · rw [cons_append, quotedLength_cons fun hc' => absurd hc' hc] at h
        split_ifs at h with hf hn
        · obtain rfl : cs = [] := eq_nil_of_length_eq_zero (Nat.succ.inj (Option.some.inj h)).symm
          subst hn
          exact .quote
        · obtain ⟨m, hm, heq⟩ := Option.map_eq_some_iff.1 h
          exact .cons hc (Bool.not_eq_true _ ▸ hf) hn (ih (Nat.add_right_cancel heq ▸ hm))
  · intro h
    induction h with
    | quote =>
      rw [cons_append, quotedLength_cons fun hc => absurd hc hb, if_pos rfl]
      rcases hq with rfl | rfl | rfl <;> rfl
    | escape c _ ih => rw [cons_append, cons_append, quotedLength, ih, Option.map_some, length_cons, length_cons]
    | cons he hf hn _ ih =>
      rw [cons_append, quotedLength_cons fun hc => absurd hc he, hf, if_neg Bool.false_ne_true, if_neg hn, ih, Option.map_some,
        length_cons]

theorem EndsQuote.exists_last (h : EndsQuote quote cs) : ∃ inside, cs = inside ++ [quote] := by
  induction h with
  | quote => exact ⟨[], rfl⟩
  | escape c _ ih =>
    obtain ⟨inside, rfl⟩ := ih
    exact ⟨'\\' :: c :: inside, rfl⟩
  | @cons c _ _ _ _ _ ih =>
    obtain ⟨inside, rfl⟩ := ih
    exact ⟨c :: inside, rfl⟩

/-- The rest of a block comment: what does not end it, and then its end. -/
inductive EndsComment : List Char → Prop where
  | close : EndsComment ['*', '/']
  | cons (c : Char) {cs : List Char} (hs : c = '*' → cs.head? ≠ some '/') (h : EndsComment cs) : EndsComment (c :: cs)

theorem commentLength_append_iff : commentLength (cs ++ back) = some cs.length ↔ EndsComment cs := by
  constructor
  · intro h
    induction cs with
    | nil => exact absurd (commentLength_bounds h).1 (Nat.not_lt_zero 1)
    | cons c cs ih =>
      cases cs with
      | nil => exact absurd (commentLength_bounds h).1 (Nat.lt_irrefl 1)
      | cons d cs =>
        by_cases hs : c = '*' ∧ d = '/'
        · obtain ⟨rfl, rfl⟩ := hs
          cases cs with
          | nil => exact .close
          | cons e cs => simp [commentLength] at h
        · rw [cons_append, commentLength] at h
          · obtain ⟨m, hm, heq⟩ := Option.map_eq_some_iff.1 h
            exact .cons c (fun hc hd => hs ⟨hc, Option.some.inj hd⟩) (ih (Nat.add_right_cancel heq ▸ hm))
          · intro ds hc hd
            exact hs ⟨hc, (cons.inj hd).1⟩
  · intro h
    induction h with
    | close => rfl
    | @cons c cs hs h ih =>
      rw [cons_append, commentLength, ih, Option.map_some, length_cons]
      intro ds hc hd
      refine hs hc ?_
      cases h <;> exact congrArg head? hd

theorem EndsComment.exists_last (h : EndsComment cs) : ∃ inside, cs = inside ++ ['*', '/'] := by
  induction h with
  | close => exact ⟨[], rfl⟩
  | cons c _ _ ih =>
    obtain ⟨inside, rfl⟩ := ih
    exact ⟨c :: inside, rfl⟩

/-- The rest of a pattern, begun in square brackets or not: what does not end it, escaped characters
taken whole, and then a slash with flags. -/
inductive EndsPattern : Bool → List Char → Prop where
  | slash {flags : List Char} (h : flags.takeWhile Char.isAlpha = flags) : EndsPattern false ('/' :: flags)
  | escape (c : Char) {bracketed : Bool} {cs : List Char} (h : EndsPattern bracketed cs) : EndsPattern bracketed ('\\' :: c :: cs)
  | cons {c : Char} {bracketed : Bool} {cs : List Char} (he : c ≠ '\\') (hf : c ≠ '\n') (hs : (c = '/' && !bracketed) = false)
      (h : EndsPattern (c = '[' || (c != ']' && bracketed)) cs) : EndsPattern bracketed (c :: cs)

theorem patternLength_append_iff : patternLength bracketed (cs ++ back) = some cs.length ↔
    EndsPattern bracketed cs ∧ back.takeWhile Char.isAlpha = [] := by
  constructor
  · intro h
    induction cs using escape_induction generalizing bracketed with
    | nil => exact absurd (patternLength_bounds h).1 (Nat.lt_irrefl 0)
    | escape c cs ih =>
      obtain ⟨m, hm, heq⟩ := Option.map_eq_some_iff.1 h
      obtain ⟨hp, hb⟩ := ih (Nat.add_right_cancel heq ▸ hm)
      exact ⟨.escape c hp, hb⟩
    | cons c cs he ih =>
      by_cases hc : c = '\\'
      · rw [he hc, hc] at h
        cases back with
        | nil => simp [patternLength] at h
        | cons d back =>
          obtain ⟨m, -, heq⟩ := Option.map_eq_some_iff.1 h
          simp at heq
      · rw [cons_append, patternLength_cons fun hc' => absurd hc' hc] at h
        split_ifs at h with hf hs
        · obtain ⟨rfl, rfl⟩ : c = '/' ∧ bracketed = false := by simpa using hs
          have hl : ((cs ++ back).takeWhile Char.isAlpha).length = cs.length := by
            rw [length_cons, Nat.add_comm] at h
            exact Nat.succ.inj (Option.some.inj h)
          rw [takeWhile_append] at hl
          split_ifs at hl with ha
          · rw [length_append] at hl
            exact ⟨.slash ((takeWhile_sublist _).eq_of_length ha), eq_nil_of_length_eq_zero (by omega)⟩
          · exact absurd hl ha
        · obtain ⟨m, hm, heq⟩ := Option.map_eq_some_iff.1 h
          obtain ⟨hp, hb⟩ := ih (Nat.add_right_cancel heq ▸ hm)
          exact ⟨.cons hc hf (Bool.not_eq_true _ ▸ hs) hp, hb⟩
  · rintro ⟨h, hb⟩
    induction h with
    | slash ha =>
      rw [cons_append, patternLength_cons fun hc => absurd hc (by decide), takeWhile_append, ha, if_pos rfl, hb, append_nil,
        length_cons, Nat.add_comm]
      rfl
    | escape c _ ih => rw [cons_append, cons_append, patternLength, ih, Option.map_some, length_cons, length_cons]
    | cons he hf hs _ ih =>
      rw [cons_append, patternLength_cons fun hc => absurd hc he, if_neg hf, hs, if_neg Bool.false_ne_true, ih, Option.map_some,
        length_cons]

theorem EndsPattern.exists_last (h : EndsPattern bracketed cs) : ∃ init d, cs = init ++ [d] ∧ (d = '/' ∨ d.isAlpha) := by
  induction h with
  | @slash flags ha =>
    rcases eq_nil_or_concat flags with rfl | ⟨init, d, rfl⟩
    · exact ⟨[], '/', rfl, .inl rfl⟩
    · have hd : d ∈ (init.concat d).takeWhile Char.isAlpha := by
        rw [ha]
        simp
      exact ⟨'/' :: init, d, by simp, .inr (mem_takeWhile_imp hd)⟩
  | escape c _ ih =>
    obtain ⟨init, d, rfl, hd⟩ := ih
    exact ⟨'\\' :: c :: init, d, rfl, hd⟩
  | @cons c _ _ _ _ _ _ ih =>
    obtain ⟨init, d, rfl, hd⟩ := ih
    exact ⟨c :: init, d, rfl, hd⟩

/-- A pattern ends whatever comes behind it, though its flags may go on. -/
theorem exists_patternLength_append (h : patternLength bracketed cs = some n) (back : List Char) :
    ∃ m, patternLength bracketed (cs ++ back) = some m := by
  obtain ⟨lit, rest, rfl, rfl⟩ : ∃ lit rest, cs = lit ++ rest ∧ n = lit.length :=
    ⟨_, _, (take_append_drop n cs).symm, (length_take_of_le (patternLength_bounds h).2).symm⟩
  obtain ⟨he, -⟩ := patternLength_append_iff.1 h
  clear h
  rw [append_assoc]
  induction he with
  | slash => exact ⟨_, by rw [cons_append, patternLength_cons fun hc => absurd hc (by decide)]; rfl⟩
  | escape c _ ih =>
    obtain ⟨m, hm⟩ := ih
    exact ⟨m + 2, by rw [cons_append, cons_append, patternLength, hm]; rfl⟩
  | cons hc hf hs _ ih =>
    obtain ⟨m, hm⟩ := ih
    refine ⟨m + 1, ?_⟩
    rw [cons_append, patternLength_cons fun hc' => absurd hc' hc, if_neg hf, hs, if_neg Bool.false_ne_true, hm]
    rfl

/-! ### How literals begin -/

/-- A literal of the kind begins with `c` and goes on with `rest`. -/
def LiteralKind.Begins (c : Char) (rest : List Char) : LiteralKind → Prop
  | quoted quote => c = quote ∧ (c = '\'' ∨ c = '"' ∨ c = '`')
  | lineComment => c = '/' ∧ rest.head? = some '/'
  | blockComment => c = '/' ∧ rest.head? = some '*'
  | pattern => c = '/' ∧ rest.head? ≠ some '/' ∧ rest.head? ≠ some '*'

/-- A literal of the kind begins with `c` in the context and takes the next `n` characters of
`rest`. -/
def LiteralKind.Takes (ctx : ScanContext) (c : Char) (rest : List Char) (n : Nat) : LiteralKind → Prop
  | quoted quote => c = quote ∧ (c = '\'' ∨ c = '"' ∨ c = '`') ∧ quotedLength c rest = some n
  | lineComment => c = '/' ∧ rest.head? = some '/' ∧ (rest.takeWhile (· != '\n')).length = n
  | blockComment => c = '/' ∧ rest.head? = some '*' ∧ (commentLength (rest.drop 1)).map (· + 1) = some n
  | pattern => c = '/' ∧ rest.head? ≠ some '/' ∧ rest.head? ≠ some '*' ∧ ctx.allowsPattern = true ∧
      patternLength false rest = some n

section Openings

variable {ctx : ScanContext} {c : Char} {rest : List Char} {kind : LiteralKind} {n : Nat}

theorem opening_eq_literal (h : opening ctx c rest = .literal kind n) : kind.Takes ctx c rest n := by
  unfold opening at h
  split_ifs at h with hq hl hb _ hp
  · split at h
    · next m hm =>
      cases h
      exact ⟨rfl, by simpa [or_assoc] using hq, hm⟩
    · cases h
  · cases h
    simpa [LiteralKind.Takes] using hl
  · split at h
    · next m hm =>
      cases h
      have he : c = '/' ∧ rest.head? = some '*' := by simpa using hb
      exact ⟨he.1, he.2, by rw [hm]; rfl⟩
    · cases h
  · split at h
    · next m hm =>
      cases h
      simp_all [LiteralKind.Takes]
    · cases h

theorem begins_of_opening (h : opening ctx c rest = .literal kind n) : kind.Begins c rest := by
  have ht := opening_eq_literal h
  cases kind with
  | quoted | lineComment | blockComment => exact ⟨ht.1, ht.2.1⟩
  | pattern => exact ⟨ht.1, ht.2.1, ht.2.2.1⟩

theorem LiteralKind.Takes.opening_eq (h : kind.Takes ctx c rest n) : opening ctx c rest = .literal kind n := by
  unfold opening
  cases kind with
  | quoted quote =>
    obtain ⟨rfl, hq, hl⟩ := h
    rw [if_pos (by simpa [or_assoc] using hq), hl]
  | lineComment =>
    obtain ⟨rfl, hh, rfl⟩ := h
    rw [if_neg (by decide), if_pos (by simp [hh])]
  | blockComment =>
    obtain ⟨rfl, hh, hl⟩ := h
    obtain ⟨m, hm, rfl⟩ := Option.map_eq_some_iff.1 hl
    rw [if_neg (by decide), if_neg (by simp [hh]), if_pos (by simp [hh]), hm]
  | pattern =>
    obtain ⟨rfl, hi, hb, hp, hl⟩ := h
    rw [if_neg (by decide), if_neg (by simp [hi]), if_neg (by simp [hb]), if_neg (by simp), if_pos (by simp [hp]), hl]

theorem EndsQuote.opening_eq {lit : List Char} (h : EndsQuote quote lit) (hq : quote = '\'' ∨ quote = '"' ∨ quote = '`')
    (ctx : ScanContext) (back : List Char) : opening ctx quote (lit ++ back) = .literal (.quoted quote) lit.length :=
  LiteralKind.Takes.opening_eq ⟨rfl, hq, (quotedLength_append_iff hq).2 h⟩

theorem opening_eq_plain (hs : c = '/' → ctx.allowsPattern = false) :
    opening ctx c rest = .plain ↔ ¬(c = '\'' ∨ c = '"' ∨ c = '`') ∧
      (c = '/' → rest.head? ≠ some '/' ∧ rest.head? ≠ some '*') ∧ (c = '+' ∨ c = '-' → rest.head? = some c → ctx.endsOperand = false) := by
  unfold opening
  by_cases hq : c = '\'' ∨ c = '"' ∨ c = '`'
  · rw [if_pos (by simpa [or_assoc] using hq)]
    constructor
    · intro h
      split at h <;> cases h
    · exact fun h => absurd hq h.1
  · rw [if_neg (by simpa [or_assoc] using hq)]
    by_cases hc : c = '/'
    · subst hc
      rw [hs rfl]
      by_cases hl : rest.head? = some '/'
      · simp [hl]
      · by_cases hb : rest.head? = some '*'
        · rw [if_neg (by simp [hl]), if_pos (by simp [hb])]
          constructor
          · intro h
            split at h <;> cases h
          · exact fun h => absurd hb (h.2.1 rfl).2
        · simp [hl, hb]
    · by_cases hi : c = '+' ∨ c = '-'
      · cases ho : ctx.endsOperand <;> simp [hc, hi, hq]
      · simp [hc, hq, not_or.1 hi]

theorem opening_eq_doubled (hc : c = '+' ∨ c = '-') : opening ctx c (c :: rest) = .doubled ↔ ctx.endsOperand := by
  rcases hc with rfl | rfl <;> simp [opening]

theorem sign_of_opening (h : opening ctx c rest = .doubled) : (c = '+' ∨ c = '-') ∧ rest.head? = some c := by
  unfold opening at h
  split_ifs at h with _ _ _ hd
  · split at h <;> cases h
  · split at h <;> cases h
  · simp only [Bool.and_eq_true, Bool.or_eq_true, decide_eq_true_eq] at hd
    exact hd.1
  · split at h <;> cases h

end Openings

/-! ### Literals with something else behind them -/

theorem isBlank_of_isAlpha (h : c.isAlpha) : isBlank c = false := by
  have hr : 65 ≤ c.toNat ∧ c.toNat ≤ 90 ∨ 97 ≤ c.toNat ∧ c.toNat ≤ 122 := by
    have h : (decide (c.val ≥ 'A'.val ∧ c.val ≤ 'Z'.val) || (decide (c.val ≥ 'a'.val) && decide (c.val ≤ 'z'.val))) := h
    simpa [UInt32.le_iff_toNat_le] using h
  by_contra hb
  simp only [isBlank, Bool.not_eq_false, Bool.or_eq_true, Bool.and_eq_true, decide_eq_true_eq] at hb
  omega

theorem takeWhile_resume (h : ((cs ++ back).takeWhile p).length = cs.length) :
    back.takeWhile p = [] ∧ ∀ back', back'.takeWhile p = [] → ((cs ++ back').takeWhile p).length = cs.length := by
  rw [takeWhile_append] at h
  split_ifs at h with ha
  · rw [length_append] at h
    refine ⟨eq_nil_of_length_eq_zero (by omega), fun back' hb' => ?_⟩
    rw [takeWhile_append, if_pos ha, hb', append_nil]
  · exact absurd h ha

theorem takeWhile_eq_nil : cs.takeWhile p = [] ↔ ∀ c, cs.head? = some c → p c = false := by
  cases cs with
  | nil => simp
  | cons c cs => cases h : p c <;> simp [h]

/-- The piece, at the end of some pieces, stays as it is if `next?` is the character behind it. -/
def Piece.Meets (next? : Option Char) : Piece → Prop
  | code c => (c = '/' → next? ≠ some '/' ∧ next? ≠ some '*') ∧ (c = '+' ∨ c = '-' → next? ≠ some c)
  | literal .pattern _ => ∀ c, next? = some c → c.isAlpha = false
  | literal .lineComment _ => ∀ c, next? = some c → (c != '\n') = false
  | literal (.quoted _) _ => True
  | literal .blockComment _ => True

theorem Piece.meets_none (p : Piece) : p.Meets none := by
  cases p with
  | code c => exact ⟨fun _ => ⟨by simp, by simp⟩, fun _ => by simp⟩
  | literal kind text => cases kind <;> first | trivial | rintro c ⟨⟩

/-- A piece meets what goes on with no sign, slash or pattern, and a comment up to the end of its
line meets the end of the line. -/
theorem Piece.meets_of_ne {d : Char} {p : Piece} (ha : d.isAlpha = false) (hs : d ∉ ['+', '-', '*', '/'])
    (hc : ∀ comment, p = .literal .lineComment comment → d = '\n') : p.Meets (some d) := by
  simp only [mem_cons, not_mem_nil, or_false, not_or] at hs
  obtain ⟨hp, hm, hst, hsl⟩ := hs
  cases p with
  | code c =>
    refine ⟨fun _ => ⟨by simpa using hsl, by simpa using hst⟩, ?_⟩
    rintro (rfl | rfl)
    · simpa using hp
    · simpa using hm
  | literal kind text =>
    cases kind with
    | quoted | blockComment => trivial
    | lineComment =>
      rintro c ⟨⟩
      simp [hc text rfl]
    | pattern =>
      rintro c ⟨⟩
      exact ha

namespace LiteralKind.Takes

variable {ctx dtx : ScanContext} {c : Char} {lit back back' : List Char} {kind : LiteralKind}

theorem le_length (h : kind.Takes ctx c cs n) : n ≤ cs.length := by
  cases kind with
  | quoted quote => exact (quotedLength_bounds h.2.2).2
  | lineComment => exact h.2.2 ▸ (takeWhile_sublist _).length_le
  | blockComment =>
    obtain ⟨m, hm, rfl⟩ := Option.map_eq_some_iff.1 h.2.2
    obtain ⟨cs, rfl⟩ := head?_eq_some_iff.1 h.2.1
    exact Nat.succ_le_succ (commentLength_bounds hm).2
  | pattern => exact (patternLength_bounds h.2.2.2.2).2

theorem exists_inside (h : LiteralKind.blockComment.Takes ctx c (lit ++ back) lit.length) :
    ∃ inside, c :: lit = '/' :: '*' :: (inside ++ ['*', '/']) := by
  obtain ⟨rfl, hs, hl⟩ := h
  obtain ⟨m, hm, heq⟩ := Option.map_eq_some_iff.1 hl
  cases lit with
  | nil => cases heq
  | cons d lit =>
    obtain rfl : m = lit.length := Nat.succ.inj heq
    obtain ⟨inside, rfl⟩ := (commentLength_append_iff.1 hm).exists_last
    obtain rfl : d = '*' := Option.some.inj hs
    exact ⟨inside, rfl⟩

/-- A literal that is no line comment ends with neither a blank nor a backslash, and a comment ends
with a slash. -/
theorem exists_last (h : kind.Takes ctx c (lit ++ back) lit.length) (hk : kind ≠ .lineComment) :
    ∃ init d, lit = init ++ [d] ∧ isBlank d = false ∧ (kind = .blockComment → d = '/') ∧ d ≠ '\\' := by
  cases kind with
  | quoted quote =>
    obtain ⟨rfl, hq, hl⟩ := h
    obtain ⟨init, hi⟩ := ((quotedLength_append_iff hq).1 hl).exists_last
    refine ⟨init, c, hi, ?_, nofun, ?_⟩ <;> rcases hq with rfl | rfl | rfl <;> decide
  | lineComment => exact absurd rfl hk
  | blockComment =>
    obtain ⟨inside, hn⟩ := h.exists_inside
    obtain ⟨-, rfl⟩ := cons.inj hn
    exact ⟨'*' :: (inside ++ ['*']), '/', by simp, by decide, fun _ => rfl, by decide⟩
  | pattern =>
    obtain ⟨-, -, -, -, hl⟩ := h
    obtain ⟨init, d, hi, hd⟩ := (patternLength_append_iff.1 hl).1.exists_last
    refine ⟨init, d, hi, ?_, nofun, ?_⟩ <;> rcases hd with rfl | hd
    · decide
    · exact isBlank_of_isAlpha hd
    · decide
    · rintro rfl
      cases hd

/-- What follows a literal does not run into it. -/
theorem meets (h : kind.Takes ctx c (lit ++ back) lit.length) (text : List Char) :
    (Piece.literal kind text).Meets back.head? := by
  cases kind with
  | quoted quote => trivial
  | lineComment => exact takeWhile_eq_nil.1 (takeWhile_resume h.2.2).1
  | blockComment => trivial
  | pattern => exact takeWhile_eq_nil.1 (patternLength_append_iff.1 h.2.2.2.2).2

/-- A literal is the same with something else behind it that does not run into it. -/
theorem resume (h : kind.Takes ctx c (lit ++ back) lit.length) (hp : kind = .pattern → ctx.allowsPattern = dtx.allowsPattern)
    (hme : (Piece.literal kind (c :: lit)).Meets back'.head?) : kind.Takes dtx c (lit ++ back') lit.length := by
  have hh (hl : lit ≠ []) : (lit ++ back').head? = (lit ++ back).head? := by
    cases lit with
    | nil => exact absurd rfl hl
    | cons d lit => rfl
  cases kind with
  | quoted quote =>
    obtain ⟨rfl, hq, hle⟩ := h
    exact ⟨rfl, hq, (quotedLength_append_iff hq).2 ((quotedLength_append_iff hq).1 hle)⟩
  | lineComment =>
    obtain ⟨rfl, hs, hle⟩ := h
    have hl : lit ≠ [] := by
      rintro rfl
      obtain ⟨rest, rfl⟩ := head?_eq_some_iff.1 hs
      simp at hle
    rw [← hh hl] at hs
    exact ⟨rfl, hs, (takeWhile_resume hle).2 back' (takeWhile_eq_nil.2 hme)⟩
  | blockComment =>
    obtain ⟨rfl, hs, hle⟩ := h
    obtain ⟨m, hm, heq⟩ := Option.map_eq_some_iff.1 hle
    cases lit with
    | nil => cases heq
    | cons d lit =>
      obtain rfl : m = lit.length := Nat.succ.inj heq
      have hl : commentLength (lit ++ back') = some lit.length := commentLength_append_iff.2 (commentLength_append_iff.1 hm)
      exact ⟨rfl, hs, Option.map_eq_some_iff.2 ⟨_, hl, rfl⟩⟩
  | pattern =>
    obtain ⟨rfl, hli, hb, ha, hle⟩ := h
    have hl : lit ≠ [] := by
      rintro rfl
      exact Nat.lt_irrefl 0 (patternLength_bounds hle).1
    rw [← hh hl] at hli hb
    have he := (patternLength_append_iff.1 hle).1
    exact ⟨rfl, hli, hb, hp rfl ▸ ha, patternLength_append_iff.2 ⟨he, takeWhile_eq_nil.2 hme⟩⟩

end LiteralKind.Takes

end Pagewright
