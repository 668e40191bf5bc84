import Mathlib.Order.Monotone.Basic
import Pagewright.Proofs.Fragment
import Pagewright.Proofs.Rescan

/-!
# Reading back what was printed

Lexemes can be read back from their text if none runs into the next (`Readable`). Whatever stands
before the text, it then has the pieces that the lexemes are made of, and its tokens are the
lexemes, at growing offsets (`exists_tokens_of_readable`). The lexemes of a program are readable
(`readable_stmts`). -/

namespace Pagewright

open List

variable {p : Char → Bool} {c d quote : Char}

namespace Fragment

variable {l : Lexeme} {ls : List Lexeme}

/-! ### Characters -/

/-- The characters that may begin a literal or a doubled sign. -/
def literalStarts : List Char := ['\'', '"', '`', '/', '+', '-']

/-- A character that begins no literal and no doubled sign, whatever stands around it. -/
def isPlainCode (c : Char) : Bool := !literalStarts.contains c

theorem isPlainCode_of (hp : literalStarts.any p = false) (h : p c) : isPlainCode c := by
  rw [isPlainCode, Bool.not_eq_true', contains_eq_mem, decide_eq_false_iff_not]
  intro hm
  exact any_eq_false.1 hp c hm h

theorem isPlainCode_of_isNameChar (h : isNameChar c) : isPlainCode c := isPlainCode_of (by decide) h

theorem isPlainCode_of_isNumberPart (h : isNumberPart c) : isPlainCode c := isPlainCode_of (by decide) h

theorem eq_false_of_mem_points {points : List Nat} (h : ∀ n ∈ points, p (Char.ofNat n) = false)
    (hc : c.toNat ∈ points) : p c = false := by
  have hp := h c.toNat hc
  rwa [Char.ofNat_toNat] at hp

theorem mem_digitPoints (h : c.isDigit) : c.toNat ∈ range' 48 10 := by
  simp only [Char.isDigit, Bool.and_eq_true, decide_eq_true_eq] at h
  exact mem_range'_1.2 ⟨h.1, Nat.lt_succ_of_le h.2⟩

theorem isNameStart_of_isDigit (h : c.isDigit) : isNameStart c = false := eq_false_of_mem_points (by decide) (mem_digitPoints h)

theorem isBlank_of_isDigit (h : c.isDigit) : isBlank c = false := eq_false_of_mem_points (by decide) (mem_digitPoints h)

theorem isNumberPart_of_isDigit (h : c.isDigit) : isNumberPart c := by
  have hlt : c.toNat < 0x80 := by
    have := (mem_range'_1.1 (mem_digitPoints h)).2
    omega
  simp [isNumberPart, isAlphanumeric, isNumeric, hlt, h]

/-- The code points of the blank characters. -/
def blankPoints : List Nat :=
  List.range' 0x9 5 ++ [0x20, 0x85, 0xa0, 0x1680] ++ List.range' 0x2000 11 ++
    [0x2028, 0x2029, 0x202f, 0x205f, 0x3000]

theorem mem_blankPoints (h : isBlank c) : c.toNat ∈ blankPoints := by
  simp only [isBlank, Bool.or_eq_true, Bool.and_eq_true, decide_eq_true_eq] at h
  simp only [blankPoints, mem_append, mem_range'_1, mem_cons, not_mem_nil, or_false]
  omega

theorem isBlank_of_isNameStart (h : isNameStart c) : isBlank c = false := by
  by_contra hb
  have hn : ∀ n ∈ blankPoints, isNameStart (Char.ofNat n) = false := by decide +kernel
  rw [eq_false_of_mem_points hn (mem_blankPoints (Bool.not_eq_false _ ▸ hb))] at h
  cases h

/-! ### Lexemes and pieces -/

/-- The pieces of a lexeme. -/
def Lexeme.pieces (l : Lexeme) : List Piece :=
  l.gap.map .code ++
    match l.kind with
    | .literal => [.literal (.quoted (l.text.headD ' ')) l.text]
    | _ => l.text.map .code

/-- The lexeme is read as it is if `next?` is the character behind it. -/
inductive Lexeme.Reads : Lexeme → Option Char → Prop where
  | word {gap : List Char} {c : Char} {cs : List Char} {next? : Option Char}
      (hfirst : isNameStart c = true) (hothers : ∀ d ∈ cs, isNameChar d = true)
      (hnext : ∀ d, next? = some d → isNameChar d = false) :
      Reads ⟨.word (String.ofList (c :: cs)), gap, c :: cs⟩ next?
  | number {gap : List Char} {c : Char} {cs : List Char} {next? : Option Char}
      (hfirst : c.isDigit = true) (hothers : ∀ d ∈ cs, isNumberPart d = true)
      (hnext : ∀ d, next? = some d → isNumberPart d = false) :
      Reads ⟨.number, gap, c :: cs⟩ next?
  | text {gap : List Char} {next? : Option Char} (t : QuotedText) : Reads ⟨.literal, gap, t.chars⟩ next?
  | arrow {gap : List Char} {next? : Option Char} : Reads ⟨.arrow, gap, ['=', '>']⟩ next?
  | mark {gap : List Char} {c : Char} {next? : Option Char} (hc : c ∈ ['(', ')', '{', '}', ',', ';']) :
      Reads ⟨markKind c, gap, [c]⟩ next?
  | dot {gap : List Char} {next? : Option Char} (hnext : next? ≠ some '.') :
      Reads ⟨.dot, gap, ['.']⟩ next?
  | equals {gap : List Char} {next? : Option Char} (hnext : next? ≠ some '>') :
      Reads ⟨.other '=', gap, ['=']⟩ next?
  | sign {gap : List Char} {next? : Option Char} (g : Sign) (hnext : next? ≠ some g.char) :
      Reads ⟨.other g.char, gap, [g.char]⟩ next?

/-- No lexeme runs into the next one, and only spaces stand between them. -/
def Readable : List Lexeme → Prop
  | [] => True
  | l :: ls => (∀ c ∈ l.gap, c = ' ') ∧ l.Reads (textOf ls).head? ∧ Readable ls

section Pieces

variable {c : Char} {cs rest : List Char} {ps : List Piece}

theorem opening_of_isPlainCode (ctx : ScanContext) (hc : isPlainCode c) : opening ctx c rest = .plain := by
  simp only [isPlainCode, literalStarts, contains_eq_mem, mem_cons, not_mem_nil,
    or_false, Bool.not_eq_true', decide_eq_false_iff_not, not_or] at hc
  obtain ⟨h₁, h₂, h₃, h₄, h₅, h₆⟩ := hc
  simp [opening, h₁, h₂, h₃, h₄, h₅, h₆]

theorem opening_of_sign (ctx : ScanContext) (g : Sign) (h : rest.head? ≠ some g.char) : opening ctx g.char rest = .plain := by
  cases g <;> simp_all [opening, Sign.char]

theorem piecesFrom_of_plain {ctx : ScanContext} {o : Nat} (ho : opening ctx c rest = .plain)
    (h : ∀ ctx o, piecesFrom ctx o rest = .ok ps) : piecesFrom ctx o (c :: rest) = .ok (.code c :: ps) := by
  rw [piecesFrom, ho]
  simp only [h]
  rfl

theorem piecesFrom_code_append (hc : ∀ c ∈ cs, isPlainCode c)
    (h : ∀ ctx o, piecesFrom ctx o rest = .ok ps) (ctx : ScanContext) (o : Nat) :
    piecesFrom ctx o (cs ++ rest) = .ok (cs.map .code ++ ps) := by
  induction cs generalizing ctx o with
  | nil => exact h ctx o
  | cons c cs ih =>
    rw [forall_mem_cons] at hc
    exact piecesFrom_of_plain (opening_of_isPlainCode ctx hc.1) fun ctx o => ih hc.2 ctx o

theorem endsQuote_inside (inside : List QuotedChar) (hi : ∀ c, .plain c ∈ inside → c ≠ quote ∧ c ≠ '\\' ∧ c ≠ '\n') :
    EndsQuote quote (inside.flatMap QuotedChar.chars ++ [quote]) := by
  induction inside with
  | nil => exact .quote
  | cons item inside ih =>
    have hr := ih fun c hc => hi c (mem_cons_of_mem _ hc)
    cases item with
    | plain c =>
      obtain ⟨hc, hb, hl⟩ := hi c mem_cons_self
      exact .cons hb (by simp [hl]) hc hr
    | escaped c => exact .escape c hr

theorem piecesFrom_text_append (t : QuotedText) (h : ∀ ctx o, piecesFrom ctx o rest = .ok ps) (ctx : ScanContext) (o : Nat) :
    piecesFrom ctx o (t.chars ++ rest) = .ok (.literal (.quoted t.quote) t.chars :: ps) := by
  have ho := (endsQuote_inside t.inside t.plain_inside).opening_eq (by rcases t.isQuote with h | h <;> simp [h]) ctx rest
  rw [QuotedText.chars, cons_append, cons_append, piecesFrom, ho]
  simp only [take_left, drop_left, h]
  rfl

theorem piecesFrom_lexeme (hg : ∀ c ∈ l.gap, c = ' ') (hr : l.Reads rest.head?)
    (h : ∀ ctx o, piecesFrom ctx o rest = .ok ps) (ctx : ScanContext) (o : Nat) :
    piecesFrom ctx o (l.chars ++ rest) = .ok (l.pieces ++ ps) := by
  have hs : ∀ c ∈ l.gap, isPlainCode c := fun c hc => by rw [hg c hc]; decide
  rw [Lexeme.chars, Lexeme.pieces, append_assoc, append_assoc]
  refine piecesFrom_code_append hs (fun ctx o => ?_) ctx o
  cases hr with
  | word hf ho _ =>
    refine piecesFrom_code_append (forall_mem_cons.2 ⟨?_, fun d hd => ?_⟩) h ctx o
    · exact isPlainCode_of_isNameChar (isNameChar_of_isNameStart hf)
    · exact isPlainCode_of_isNameChar (ho d hd)
  | number hf ho _ =>
    refine piecesFrom_code_append (forall_mem_cons.2 ⟨?_, fun d hd => ?_⟩) h ctx o
    · exact isPlainCode_of_isNumberPart (isNumberPart_of_isDigit hf)
    · exact isPlainCode_of_isNumberPart (ho d hd)
  | text t => exact piecesFrom_text_append t h ctx o
  | arrow =>
    have hp : ['=', '>'].all isPlainCode := by decide
    exact piecesFrom_code_append (all_eq_true.1 hp) h ctx o
  | mark hc =>
    simp only [mem_cons, not_mem_nil, or_false] at hc
    rcases hc with rfl | rfl | rfl | rfl | rfl | rfl <;>
      exact piecesFrom_of_plain (opening_of_isPlainCode ctx (by decide)) h
  | dot | equals => exact piecesFrom_of_plain (opening_of_isPlainCode ctx (by decide)) h
  | sign g hn => exact piecesFrom_of_plain (opening_of_sign ctx g hn) h

theorem piecesFrom_textOf (h : Readable ls) (ctx : ScanContext) (o : Nat) :
    piecesFrom ctx o (textOf ls) = .ok (ls.flatMap Lexeme.pieces) := by
  induction ls generalizing ctx o with
  | nil => rw [textOf, flatMap_nil, piecesFrom]; rfl
  | cons l ls ih =>
    obtain ⟨hg, hr, he⟩ := h
    exact piecesFrom_lexeme hg hr (fun ctx o => ih he ctx o) ctx o

end Pieces

/-! ### Lexemes and tokens -/

section Tokens

variable {ps qs : List Piece} {cs gap text : List Char} {next? : Option Char}

theorem scriptTokensFrom_gap (hg : ∀ c ∈ gap, c = ' ') (o : Nat) (pre : List Char) :
    scriptTokensFrom o pre (gap.map .code ++ ps) =
      scriptTokensFrom (o + byteSize gap) (pre ++ gap) ps := by
  induction gap generalizing o pre with
  | nil => simp [byteSize]
  | cons c gap ih =>
    rw [forall_mem_cons] at hg
    have hb : isBlank c := by rw [hg.1]; decide
    rw [map_cons, cons_append, scriptTokensFrom.eq_def]
    simp only [hb, if_true, ih hg.2]
    simp [byteSize, Nat.add_assoc]

theorem codeWhile_append (hc : ∀ c ∈ cs, p c) (hp : ∀ c qs, ps = .code c :: qs → p c = false) :
    codeWhile p (cs.map .code ++ ps) = (cs, ps) := by
  induction cs with
  | nil =>
    rw [map_nil, nil_append]
    cases ps with
    | nil => rfl
    | cons q qs =>
      cases q with
      | code c => rw [codeWhile, if_neg (by simp [hp c qs rfl])]
      | literal kind text => rfl
  | cons c cs ih =>
    rw [forall_mem_cons] at hc
    rw [map_cons, cons_append, codeWhile, if_pos hc.1, ih hc.2]

theorem scriptTokensFrom_code {kind : ScriptKind} (hb : isBlank c = false) (hl : lexScript c qs = (kind, text, ps)) (o : Nat)
    (gap : List Char) : scriptTokensFrom o gap (.code c :: qs) = (⟨kind, o, gap, text⟩ :: (scriptTokensFrom (o + byteSize text) [] ps).1,
        (scriptTokensFrom (o + byteSize text) [] ps).2) := by
  rw [scriptTokensFrom.eq_def]
  simp only [hb, Bool.false_eq_true, if_false, hl]

theorem lexScript_of_mark (hn : isNameStart c = false) (hd : c.isDigit = false) : lexScript c qs = lexMark c qs := by
  rw [lexScript, if_neg (by simp [hn]), if_neg (by simp [hd])]

theorem lexScript_word (hc : isNameStart c) (hs : ∀ d ∈ cs, isNameChar d)
    (hp : ∀ d qs, ps = .code d :: qs → isNameChar d = false) :
    lexScript c (cs.map .code ++ ps) = (.word (String.ofList (c :: cs)), c :: cs, ps) := by
  rw [lexScript, if_pos hc, codeWhile_append hs hp]

theorem lexMark_dot (h : ∀ qs, ps ≠ .code '.' :: qs) : lexMark '.' ps = (.dot, ['.'], ps) := by
  unfold lexMark
  split
  · exact absurd rfl (h _)
  · simp_all
  · simp_all
  · rfl

theorem lexMark_equals (h : ∀ qs, ps ≠ .code '>' :: qs) : lexMark '=' ps = (.other '=', ['='], ps) := by
  unfold lexMark
  split
  · simp_all
  · exact absurd rfl (h _)
  · simp_all
  · rfl

theorem scriptTokensFrom_lexeme (hg : ∀ c ∈ l.gap, c = ' ')
    (hr : l.Reads next?) (hn : ∀ c qs, ps = .code c :: qs → next? = some c) (o : Nat) :
    scriptTokensFrom o [] (l.pieces ++ ps) = (⟨l.kind, o + byteSize l.gap, l.gap, l.text⟩ ::
          (scriptTokensFrom (o + byteSize l.gap + byteSize l.text) [] ps).1,
        (scriptTokensFrom (o + byteSize l.gap + byteSize l.text) [] ps).2) := by
  rw [Lexeme.pieces, append_assoc, scriptTokensFrom_gap hg]
  cases hr with
  | @word gap c cs _ hf ho ha =>
    exact scriptTokensFrom_code (isBlank_of_isNameStart hf) (lexScript_word hf ho fun d qs hd => ha d (hn d qs hd)) _ _
  | @number gap c cs _ hf ho ha =>
    have hl : lexScript c (cs.map .code ++ ps) = (.number, c :: cs, ps) := by
      rw [lexScript, if_neg (by simp [isNameStart_of_isDigit hf]), if_pos hf, codeWhile_append ho fun d qs hd => ha d (hn d qs hd)]
    exact scriptTokensFrom_code (isBlank_of_isDigit hf) hl _ _
  | text t =>
    simp only [cons_append, nil_append]
    rw [scriptTokensFrom.eq_def]
    rfl
  | arrow =>
    refine scriptTokensFrom_code (by decide) ?_ _ _
    rw [lexScript_of_mark (by decide) (by decide)]
    rfl
  | mark hc =>
    simp only [mem_cons, not_mem_nil, or_false] at hc
    rcases hc with rfl | rfl | rfl | rfl | rfl | rfl <;>
    · refine scriptTokensFrom_code (by decide) ?_ _ _
      rfl
  | dot ha =>
    refine scriptTokensFrom_code (by decide) ?_ _ _
    exact lexMark_dot fun qs hq => ha (hn _ qs hq)
  | equals ha =>
    refine scriptTokensFrom_code (by decide) ?_ _ _
    exact lexMark_equals fun qs hq => ha (hn _ qs hq)
  | sign g _ =>
    cases g <;>
    · refine scriptTokensFrom_code (by decide) ?_ _ _
      rfl

theorem flatMap_chars_pieces (l : Lexeme) : l.pieces.flatMap Piece.chars = l.chars := by
  rw [Lexeme.pieces, flatMap_append, flatMap_chars_map_code, Lexeme.chars]
  split
  · simp [Piece.chars]
  · rw [flatMap_chars_map_code]

theorem flatMap_chars_flatMap_pieces (ls : List Lexeme) : (ls.flatMap Lexeme.pieces).flatMap Piece.chars = textOf ls := by
  induction ls with
  | nil => rfl
  | cons l ls ih =>
    rw [flatMap_cons, flatMap_append, flatMap_chars_pieces, ih]
    rfl

theorem place_succ (f : Nat → Nat) (n : Nat) (ls : List Lexeme) : place f (n + 1) ls = place (fun k => f (k + 1)) n ls := by
  induction ls generalizing n with
  | nil => rfl
  | cons l ls ih => rw [place, place, ih]

theorem Lexeme.Reads.text_ne_nil (h : l.Reads next?) : l.text ≠ [] := by
  cases h <;> simp [QuotedText.chars]

/-- **Reading back.** The tokens of readable lexemes are these lexemes, at growing offsets. -/
theorem exists_tokens_of_readable (h : Readable ls) (o : Nat) :
    ∃ f, StrictMono f ∧ o ≤ f 0 ∧ scriptTokensFrom o [] (ls.flatMap Lexeme.pieces) = (place f 0 ls, []) := by
  induction ls generalizing o with
  | nil =>
    refine ⟨fun n => o + n, fun i j h => Nat.add_lt_add_left h o, Nat.le_refl o, ?_⟩
    rw [flatMap_nil, scriptTokensFrom.eq_def, place]
  | cons l ls ih =>
    obtain ⟨hg, hr, he⟩ := h
    obtain ⟨f, hf, ho, ht⟩ := ih he (o + byteSize l.gap + byteSize l.text)
    have hn : ∀ c qs, ls.flatMap Lexeme.pieces = .code c :: qs → (textOf ls).head? = some c := by
      intro c qs hq
      rw [← flatMap_chars_flatMap_pieces, hq]
      rfl
    have hp := byteSize_pos hr.text_ne_nil
    refine ⟨fun n => if n = 0 then o + byteSize l.gap else f (n - 1), ?_, Nat.le_add_right _ _, ?_⟩
    · refine strictMono_nat_of_lt_succ fun n => ?_
      cases n with
      | zero =>
        simp only [if_true, Nat.succ_ne_zero, if_false, Nat.add_sub_cancel]
        omega
      | succ n => exact hf (Nat.lt_succ_self n)
    · rw [flatMap_cons, scriptTokensFrom_lexeme hg hr hn, ht, place, place_succ]
      rfl

end Tokens

/-! ### Programs are readable -/

/-- A gap of a printed program. -/
def IsGap (gap : List Char) : Prop := ∀ c ∈ gap, c = ' '

theorem isGap_nil : IsGap [] := by simp [IsGap]

theorem isGap_space : IsGap [' '] := by simp [IsGap]

/-- The text does not begin with a character that satisfies `p`. -/
def Stops (p : Char → Bool) (cs : List Char) : Prop := ∀ c, cs.head? = some c → p c = false

section Readable

variable {gap : List Char} {rest : List Lexeme}

theorem stops_of_head (h : (textOf rest).head? = some c) (hc : p c = false) : Stops p (textOf rest) := fun d hd => by
  rw [h] at hd
  cases hd
  exact hc

theorem readable_mark (hc : c ∈ ['(', ')', '{', '}', ',', ';']) (hg : IsGap gap)
    (hr : Readable rest) : Readable (mark gap c :: rest) := ⟨hg, .mark hc, hr⟩

theorem readable_word (c : Char) (cs : List Char) {name : String} (hn : name = String.ofList (c :: cs)) (hf : isNameStart c)
    (ho : cs.all isNameChar) (hg : IsGap gap) (hr : Readable rest)
    (he : Stops isNameChar (textOf rest)) : Readable (word gap name :: rest) := by
  subst hn
  refine ⟨hg, ?_, hr⟩
  rw [word, String.toList_ofList]
  exact .word hf (all_eq_true.1 ho) he

theorem readable_identifier (x : Identifier) (hg : IsGap gap) (hr : Readable rest)
    (he : Stops isNameChar (textOf rest)) : Readable (word gap x.text :: rest) :=
  readable_word x.first x.others rfl x.isNameStart_first x.isNameChar_others hg hr he

theorem readable_declarationWord (w : DeclarationWord) (hg : IsGap gap) (hr : Readable rest)
    (he : Stops isNameChar (textOf rest)) : Readable (word gap w.text :: rest) := by
  cases w with
  | letWord => exact readable_word 'l' ['e', 't'] rfl (by decide) (by decide) hg hr he
  | constWord => exact readable_word 'c' ['o', 'n', 's', 't'] rfl (by decide) (by decide) hg hr he
  | varWord => exact readable_word 'v' ['a', 'r'] rfl (by decide) (by decide) hg hr he

theorem readable_arrow (hr : Readable rest) : Readable (arrowMark :: rest) := ⟨isGap_space, .arrow, hr⟩

theorem readable_dot (hg : IsGap gap) (hr : Readable rest)
    (hh : (textOf rest).head? = some c) (hc : c ≠ '.') : Readable (mark gap '.' :: rest) := by
  refine ⟨hg, .dot ?_, hr⟩
  rw [hh]
  exact fun h => hc (Option.some.inj h)

theorem head_identifier (x : Identifier) : (textOf (word [] x.text :: rest)).head? = some x.first := by
  simp [textOf, word, Lexeme.chars, Identifier.text]

theorem first_ne_dot (x : Identifier) : x.first ≠ '.' := by
  intro h
  have hf := x.isNameStart_first
  rw [h] at hf
  exact absurd hf (by decide)

theorem readable_digits (d : Digits) (hg : IsGap gap) (hr : Readable rest)
    (he : Stops isNumberPart (textOf rest)) : Readable (d.lexeme gap :: rest) :=
  ⟨hg, .number d.isDigit_first (all_eq_true.1 d.isNumberPart_others) he, hr⟩

theorem digit_ne (hc : c.isDigit) (hd : d.isDigit = false) : c ≠ d := by
  rintro rfl
  rw [hc] at hd
  cases hd

theorem readable_sign (sign : Sign) (hr : Readable rest) (hh : (textOf rest).head? = some c) (hc : c.isDigit) :
    Readable (mark [] sign.char :: rest) ∧ Stops isNumberPart (textOf (mark [] sign.char :: rest)) := by
  have hn : (textOf rest).head? ≠ some sign.char := by
    rw [hh]
    exact fun h => digit_ne hc (by cases sign <;> decide) (Option.some.inj h)
  cases sign with
  | plus => exact ⟨⟨isGap_nil, .sign .plus hn, hr⟩, stops_of_head rfl (by decide)⟩
  | minus => exact ⟨⟨isGap_nil, .sign .minus hn, hr⟩, stops_of_head rfl (by decide)⟩

theorem readable_exponent (exponent? : Option (Sign × Digits)) (hr : Readable rest)
    (he : Stops isNumberPart (textOf rest)) : Readable (exponentLexemes exponent? ++ rest) ∧
      Stops isNumberPart (textOf (exponentLexemes exponent? ++ rest)) := by
  cases exponent? with
  | none => exact ⟨hr, he⟩
  | some e => exact readable_sign e.1 (readable_digits e.2 isGap_nil hr he) rfl e.2.isDigit_first

theorem readable_numeral (n : Numeral) (hg : IsGap gap) (hr : Readable rest)
    (he : Stops isNumberPart (textOf rest)) : Readable (n.lexemes gap ++ rest) := by
  obtain ⟨hx, ha⟩ := readable_exponent n.exponent? hr he
  rw [Numeral.lexemes]
  split
  · exact readable_dot hg (readable_digits n.digits isGap_nil hx ha) rfl (digit_ne n.digits.isDigit_first (by decide))
  · exact readable_digits n.digits hg hx ha

theorem readable_moreParams (xs : List Identifier) (hr : Readable rest) (he : Stops isNameChar (textOf rest)) :
    Readable (moreParams xs ++ rest) ∧ Stops isNameChar (textOf (moreParams xs ++ rest)) := by
  induction xs with
  | nil => exact ⟨hr, he⟩
  | cons x xs ih =>
    refine ⟨readable_mark (by decide) isGap_nil ?_, stops_of_head rfl (by decide)⟩
    exact readable_identifier x isGap_space ih.1 ih.2

theorem readable_params (xs : List Identifier) (hr : Readable rest)
    (he : Stops isNameChar (textOf rest)) : Readable (paramLexemes xs ++ rest) := by
  cases xs with
  | nil => exact hr
  | cons x xs =>
    obtain ⟨hm, ha⟩ := readable_moreParams xs hr he
    exact readable_identifier x isGap_nil hm ha

mutual
theorem readable_operand : ∀ (b : Operand) {gap : List Char} {rest : List Lexeme}, IsGap gap →
    Readable rest → Stops isNameChar (textOf rest) → Readable (b.lexemes gap ++ rest)
  | .name x, gap, rest, hg, hr, he => readable_identifier x hg hr he
  | .member b x, gap, rest, hg, hr, he => by
    rw [Operand.lexemes, append_assoc]
    refine readable_operand b hg ?_ (stops_of_head rfl (by decide))
    exact readable_dot isGap_nil (readable_identifier x isGap_nil hr he) (head_identifier x) (first_ne_dot x)
  | .call b args, gap, rest, hg, hr, he => by
    rw [Operand.lexemes, append_assoc, append_assoc]
    refine readable_operand b hg (readable_mark (by decide) isGap_nil ?_) (stops_of_head rfl (by decide))
    exact readable_args args (readable_mark (by decide) isGap_nil hr) (stops_of_head rfl (by decide)) (stops_of_head rfl (by decide))
theorem readable_expr : ∀ (e : Expr) {gap : List Char} {rest : List Lexeme}, IsGap gap →
    Readable rest → Stops isNameChar (textOf rest) → Stops isNumberPart (textOf rest) → Readable (e.lexemes gap ++ rest)
  | .operand b, gap, rest, hg, hr, hn, _ => readable_operand b hg hr hn
  | .number n, gap, rest, hg, hr, _, hu => readable_numeral n hg hr hu
  | .text t, gap, rest, hg, hr, _, _ => ⟨hg, .text t, hr⟩
  | .function params body, gap, rest, hg, hr, _, _ => by
    rw [Expr.lexemes, append_assoc, append_assoc]
    refine readable_mark (by decide) hg (readable_params params ?_ (stops_of_head rfl (by decide)))
    refine readable_mark (by decide) isGap_nil (readable_arrow ?_)
    exact readable_mark (by decide) isGap_space (readable_stmts body isGap_space (readable_mark (by decide) isGap_space hr))
  | .arrow x body, gap, rest, hg, hr, hn, hu =>
    readable_identifier x hg (readable_arrow (readable_expr body isGap_space hr hn hu)) (stops_of_head rfl (by decide))
theorem readable_stmt : ∀ (st : Stmt) {gap : List Char} {rest : List Lexeme}, IsGap gap →
    Readable rest → Readable (st.lexemes gap ++ rest)
  | .declare w x v, gap, rest, hg, hr => by
    rw [Stmt.lexemes, append_assoc]
    refine readable_declarationWord w hg ?_ (stops_of_head rfl (by decide))
    refine readable_identifier x isGap_space ⟨isGap_space, .equals ?_, ?_⟩ (stops_of_head rfl (by decide))
    · obtain ⟨l, ls, hv, hg', -⟩ := v.exists_first [' ']
      simp [hv, textOf, Lexeme.chars, hg']
    · exact readable_expr v isGap_space (readable_mark (by decide) isGap_nil hr)
        (stops_of_head rfl (by decide)) (stops_of_head rfl (by decide))
  | .function f params body, gap, rest, hg, hr => by
    rw [Stmt.lexemes, append_assoc, append_assoc]
    refine readable_word 'f' ['u', 'n', 'c', 't', 'i', 'o', 'n'] rfl (by decide) (by decide) hg ?_
      (stops_of_head rfl (by decide))
    refine readable_identifier f isGap_space ?_ (stops_of_head rfl (by decide))
    refine readable_mark (by decide) isGap_nil
      (readable_params params ?_ (stops_of_head rfl (by decide)))
    refine readable_mark (by decide) isGap_nil (readable_mark (by decide) isGap_space ?_)
    exact readable_stmts body isGap_space (readable_mark (by decide) isGap_space hr)
  | .block body, gap, rest, hg, hr => by
    rw [Stmt.lexemes, append_assoc]
    exact readable_mark (by decide) hg
      (readable_stmts body isGap_space (readable_mark (by decide) isGap_space hr))
  | .expression e, gap, rest, hg, hr => by
    rw [Stmt.lexemes, append_assoc]
    exact readable_expr e hg (readable_mark (by decide) isGap_nil hr)
      (stops_of_head rfl (by decide)) (stops_of_head rfl (by decide))
theorem readable_args : ∀ (args : List Expr) {rest : List Lexeme}, Readable rest →
    Stops isNameChar (textOf rest) → Stops isNumberPart (textOf rest) → Readable (argLexemes args ++ rest)
  | [], rest, hr, _, _ => hr
  | e :: es, rest, hr, hn, hu => by
    rw [argLexemes, append_assoc]
    obtain ⟨hm, hn', hu'⟩ := readable_moreArgs es hr hn hu
    exact readable_expr e isGap_nil hm hn' hu'
theorem readable_moreArgs : ∀ (args : List Expr) {rest : List Lexeme}, Readable rest →
    Stops isNameChar (textOf rest) → Stops isNumberPart (textOf rest) →
    Readable (moreArgs args ++ rest) ∧ Stops isNameChar (textOf (moreArgs args ++ rest)) ∧
      Stops isNumberPart (textOf (moreArgs args ++ rest))
  | [], rest, hr, hn, hu => ⟨hr, hn, hu⟩
  | e :: es, rest, hr, hn, hu => by
    rw [moreArgs, append_assoc]
    obtain ⟨hm, hn', hu'⟩ := readable_moreArgs es hr hn hu
    exact ⟨readable_mark (by decide) isGap_nil (readable_expr e isGap_space hm hn' hu'),
      stops_of_head rfl (by decide), stops_of_head rfl (by decide)⟩
theorem readable_stmts : ∀ (sts : List Stmt) {gap : List Char} {rest : List Lexeme}, IsGap gap →
    Readable rest → Readable (stmtLexemes gap sts ++ rest)
  | [], gap, rest, _, hr => hr
  | st :: sts, gap, rest, hg, hr => by
    rw [stmtLexemes, append_assoc]
    exact readable_stmt st hg (readable_stmts sts isGap_space hr)
end

end Readable

theorem readable_program (program : List Stmt) : Readable (stmtLexemes [] program) := by
  have hn : Readable [] := trivial
  simpa using readable_stmts program isGap_nil hn

/-- **Tokens of a printed program.** They are its lexemes, at growing offsets, and nothing stands
behind the last one. -/
theorem exists_tokens_of_print (program : List Stmt) :
    ∃ s f, Source.ofText (print program) = .ok s ∧ StrictMono f ∧
      s.scriptTokens = (place f 0 (stmtLexemes [] program), []) := by
  have hr := readable_program program
  have hs := Source.ofText_of_pieces (piecesFrom_textOf hr {} 0)
  obtain ⟨f, hf, -, ht⟩ := exists_tokens_of_readable hr 0
  exact ⟨_, f, hs, hf, ht⟩

end Fragment

end Pagewright
