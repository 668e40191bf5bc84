import Pagewright.Proofs.Lexing

/-!
# Lexemes of pieces put together

The lexemes of a text are its tokens without places and gaps. Texts that are put together have the
lexemes of both, unless the last one of the first goes on in the second (`lexemesOf_append`): a mark
that is no part of another, a blank and a comment keep their two sides apart, and so does a word
into which no word, number or other mark runs. -/

namespace Pagewright

open List Fragment

variable {p : Piece} {c d : Char} {ps qs gs rest : List Piece} {cs : List Char}

/-- The kind and the text of a token. -/
def ScriptToken.lexeme (t : ScriptToken) : ScriptKind × List Char := (t.kind, t.text)

/-- The kinds and the texts of the tokens of some pieces. -/
def lexemesOf (ps : List Piece) : List (ScriptKind × List Char) :=
  (scriptTokensFrom 0 [] ps).1.map ScriptToken.lexeme

/-- Whether a piece is a blank or a comment. -/
def Piece.isGap : Piece → Bool
  | code c => isBlank c
  | literal kind _ => kind.isComment

/-- Lexemes do not depend on where the pieces stand. -/
theorem map_lexeme_scriptTokensFrom (o : Nat) (gap : List Char) (ps : List Piece) :
    (scriptTokensFrom o gap ps).1.map ScriptToken.lexeme = lexemesOf ps := by
  suffices h : ∀ o' gap', (scriptTokensFrom o gap ps).1.map ScriptToken.lexeme =
      (scriptTokensFrom o' gap' ps).1.map ScriptToken.lexeme from h 0 []
  fun_induction scriptTokensFrom o gap ps <;> intro o' gap' <;> rw [scriptTokensFrom.eq_def o' gap']
  case case2 hc ih | case4 hc ih =>
    simp only [hc, if_true]
    exact ih _ _
  case case3 hc ih | case5 hc ih =>
    simp only [hc, Bool.false_eq_true, if_false]
    exact congrArg (cons _) (ih _ _)

theorem lexemesOf_nil : lexemesOf [] = [] := by
  rw [lexemesOf, scriptTokensFrom.eq_def]
  rfl

theorem lexemesOf_gap (hp : p.isGap) (ps : List Piece) : lexemesOf (p :: ps) = lexemesOf ps := by
  rw [lexemesOf, scriptTokensFrom.eq_def]
  cases p with
  | code c =>
    have hb : isBlank c := hp
    simp only [hb, if_true]
    exact map_lexeme_scriptTokensFrom _ _ ps
  | literal kind text =>
    have hc : kind.isComment := hp
    simp only [hc, if_true]
    exact map_lexeme_scriptTokensFrom _ _ ps

theorem lexemesOf_literal {kind : LiteralKind} (hk : ¬kind.isComment) (text : List Char)
    (ps : List Piece) : lexemesOf (.literal kind text :: ps) = (.literal, text) :: lexemesOf ps := by
  rw [lexemesOf, scriptTokensFrom.eq_def]
  simp only [hk, Bool.false_eq_true, if_false]
  exact congrArg (cons _) (map_lexeme_scriptTokensFrom _ _ ps)

theorem lexemesOf_code (hc : ¬isBlank c) (ps : List Piece) : lexemesOf (.code c :: ps) =
      ((lexScript c ps).1, (lexScript c ps).2.1) :: lexemesOf (lexScript c ps).2.2 := by
  rw [lexemesOf, scriptTokensFrom.eq_def]
  simp only [hc, Bool.false_eq_true, if_false]
  exact congrArg (cons _) (map_lexeme_scriptTokensFrom _ _ _)

/-! ### Tokens at the end of pieces -/

/-- The kind of the token that ends some pieces, if there is one and no blank or comment stands
behind it. -/
def lastKind? (ps : List Piece) : Option ScriptKind :=
  match ps with
  | [] => none
  | .literal kind _ :: ps =>
    if ps.isEmpty && !kind.isComment then some .literal else lastKind? ps
  | .code c :: ps =>
    if isBlank c then lastKind? ps
    else if (lexScript c ps).2.2.isEmpty then some (lexScript c ps).1
    else lastKind? (lexScript c ps).2.2
termination_by ps.length
decreasing_by
  · simp
  · simp
  · exact Nat.lt_succ_of_le (lexScript_length_le c ps)

theorem lastKind?_gap (hp : p.isGap) (ps : List Piece) : lastKind? (p :: ps) = lastKind? ps := by
  rw [lastKind?.eq_def]
  cases p with
  | code c =>
    have hb : isBlank c := hp
    simp only [hb, if_true]
  | literal kind text =>
    have hc : kind.isComment := hp
    simp [hc]

/-- Whether a token of the kind would go on with a character behind it. -/
def ScriptKind.takes (d : Char) : ScriptKind → Bool
  | word _ => isNameChar d
  | number => isNumberPart d
  | _ => false

/-- A character that belongs to no mark of more than one character. -/
def standsAlone (d : Char) : Bool := d != '.' && d != '>' && !d.isDigit

/-- The pieces that follow begin no character that would change the mark before them. -/
def NoMark (qs : List Piece) : Prop := ∀ d qs', qs = .code d :: qs' → standsAlone d = true

theorem codeWhile_append_of {p : Char → Bool} (h : (codeWhile p ps).2 ≠ [] ∨ ∀ d qs', qs = .code d :: qs' → p d = false) :
    codeWhile p (ps ++ qs) = ((codeWhile p ps).1, (codeWhile p ps).2 ++ qs) := by
  induction ps with
  | nil =>
    have hq := h.resolve_left (fun h => h rfl)
    cases qs with
    | nil => rfl
    | cons q qs =>
      cases q with
      | literal => rfl
      | code d => simp [codeWhile, hq d qs rfl]
  | cons x ps ih =>
    cases x with
    | literal => rfl
    | code c =>
      rw [cons_append, codeWhile, codeWhile]
      split
      · next hc =>
        rw [codeWhile, if_pos hc] at h
        rw [ih h]
      · rfl

theorem NoMark.exists_of_append_eq (hq : NoMark qs)
    (hd : standsAlone d = false) (h : ps ++ qs = .code d :: rest) : ∃ ps', ps = .code d :: ps' ∧ ps' ++ qs = rest := by
  cases ps with
  | nil =>
    rw [hq d rest h] at hd
    cases hd
  | cons p ps =>
    obtain ⟨rfl, hr⟩ := cons.inj h
    exact ⟨ps, rfl, hr⟩

theorem NoMark.beginsWithDigit_append (hq : NoMark qs) (ps : List Piece) : beginsWithDigit (ps ++ qs) = beginsWithDigit ps := by
  cases ps with
  | cons p ps => cases p <;> rfl
  | nil =>
    cases qs with
    | nil => rfl
    | cons q qs =>
      cases q with
      | literal => rfl
      | code d =>
        have hd := hq d qs rfl
        simp_all [beginsWithDigit, standsAlone]

theorem lexMark_append (c : Char) (ps : List Piece) (hq : NoMark qs) :
    lexMark c (ps ++ qs) = ((lexMark c ps).1, (lexMark c ps).2.1, (lexMark c ps).2.2 ++ qs) := by
  fun_cases lexMark c ps with
  | case1 ps => rfl
  | case2 ps => rfl
  | case3 ps hd => rw [cons_append, lexMark, if_pos (by rwa [hq.beginsWithDigit_append])]
  | case4 ps hd => rw [cons_append, lexMark, if_neg (by rwa [hq.beginsWithDigit_append])]
  | case5 c ps hs ha ho =>
    -- No mark of two or three characters, so none with what follows.
    rw [lexMark]
    · intro rest hc hp
      obtain ⟨ps', rfl, hp'⟩ := hq.exists_of_append_eq (by decide) hp
      obtain ⟨ps'', rfl, -⟩ := hq.exists_of_append_eq (by decide) hp'
      exact hs _ hc rfl
    · intro rest hc hp
      obtain ⟨ps', rfl, -⟩ := hq.exists_of_append_eq (by decide) hp
      exact ha _ hc rfl
    · intro rest hc hp
      obtain ⟨ps', rfl, -⟩ := hq.exists_of_append_eq (by decide) hp
      exact ho _ hc rfl

theorem lexScript_append (c : Char) (ps : List Piece) (hq : NoMark qs) (hl : (lexScript c ps).2.2 = [] →
      ∀ d qs', qs = .code d :: qs' → (lexScript c ps).1.takes d = false) :
    lexScript c (ps ++ qs) = ((lexScript c ps).1, (lexScript c ps).2.1, (lexScript c ps).2.2 ++ qs) := by
  unfold lexScript at hl ⊢
  split
  · next hn =>
    rw [if_pos hn] at hl
    rw [codeWhile_append_of (p := isNameChar) (or_iff_not_imp_left.2 fun h => hl (not_not.1 h))]
  · next hn =>
    rw [if_neg hn] at hl
    split
    · next hd =>
      rw [if_pos hd] at hl
      rw [codeWhile_append_of (p := isNumberPart) (or_iff_not_imp_left.2 fun h => hl (not_not.1 h))]
    · exact lexMark_append c ps hq

/-- **Pieces put together.** They have the lexemes of both, if the last one of the first does not go
on in the second. -/
theorem lexemesOf_append (hq : NoMark qs) (hl : ∀ kind ∈ lastKind? ps, ∀ d qs', qs = .code d :: qs' → kind.takes d = false) :
    lexemesOf (ps ++ qs) = lexemesOf ps ++ lexemesOf qs := by
  fun_induction lastKind? ps with
  | case1 => rw [nil_append, lexemesOf_nil, nil_append]
  | case2 kind text ps he =>
    simp only [Bool.and_eq_true, List.isEmpty_iff, Bool.not_eq_true'] at he
    obtain ⟨rfl, hk⟩ := he
    rw [cons_append, lexemesOf_literal (by simp [hk]), lexemesOf_literal (by simp [hk]), lexemesOf_nil]
    rfl
  | case3 kind text ps he ih =>
    by_cases hk : kind.isComment
    · have hg : (Piece.literal kind text).isGap := hk
      rw [cons_append, lexemesOf_gap hg, lexemesOf_gap hg, ih hl]
    · rw [cons_append, lexemesOf_literal hk, lexemesOf_literal hk, ih hl]
      rfl
  | case4 c ps hb ih =>
    have hg : (Piece.code c).isGap := hb
    rw [cons_append, lexemesOf_gap hg, lexemesOf_gap hg, ih hl]
  | case5 c ps hb he =>
    have hn := isEmpty_iff.1 he
    rw [cons_append, lexemesOf_code hb, lexemesOf_code hb, lexScript_append c ps hq (fun _ => hl _ rfl), hn, lexemesOf_nil]
    rfl
  | case6 c ps hb he ih =>
    have hn := mt List.isEmpty_iff.2 he
    rw [cons_append, lexemesOf_code hb, lexemesOf_code hb, lexScript_append c ps hq (fun h => absurd h hn), ih hl]
    rfl

/-! ### Marks, gaps and words between pieces -/

/-- The marks that keep apart what stands on their two sides. -/
def separators : List Char := ['^', '(', ')', ';', '{', '}', ':']

theorem separators_spec (hc : c ∈ separators) : standsAlone c ∧ isNameChar c = false ∧
    isNumberPart c = false ∧ isBlank c = false ∧ isNameStart c = false ∧ c.isDigit = false := by
  simp only [separators, mem_cons, not_mem_nil, or_false] at hc
  rcases hc with rfl | rfl | rfl | rfl | rfl | rfl | rfl <;> decide

theorem takes_of_mem_separators (kind : ScriptKind) (hc : c ∈ separators) : kind.takes c = false := by
  obtain ⟨-, hn, hu, -⟩ := separators_spec hc
  cases kind with
  | word => exact hn
  | number => exact hu
  | _ => rfl

theorem lexemesOf_separator (hc : c ∈ separators) (qs : List Piece) :
    lexemesOf (.code c :: qs) = (markKind c, [c]) :: lexemesOf qs := by
  obtain ⟨-, -, -, hb, hs, hd⟩ := separators_spec hc
  have hm : lexMark c qs = (markKind c, [c], qs) := by
    simp only [separators, mem_cons, not_mem_nil, or_false] at hc
    rcases hc with rfl | rfl | rfl | rfl | rfl | rfl | rfl <;> rfl
  rw [lexemesOf_code (by simp [hb]), lexScript_of_mark hs hd, hm]

theorem lexemesOf_append_separator (ps : List Piece) (hc : c ∈ separators) (qs : List Piece) :
    lexemesOf (ps ++ .code c :: qs) = lexemesOf ps ++ (markKind c, [c]) :: lexemesOf qs := by
  rw [lexemesOf_append, lexemesOf_separator hc]
  · rintro d qs' ⟨⟩
    exact (separators_spec hc).1
  · rintro kind - d qs' ⟨⟩
    exact takes_of_mem_separators kind hc

/-- No blank belongs to a word, a number or a longer mark. -/
theorem takes_of_isBlank (hd : isBlank d) : standsAlone d ∧ isNameChar d = false ∧ isNumberPart d = false := by
  have ha : ∀ n ∈ blankPoints, standsAlone (Char.ofNat n) ∧ isNameChar (Char.ofNat n) = false ∧
      isNumberPart (Char.ofNat n) = false := by decide +kernel
  have := ha d.toNat (mem_blankPoints hd)
  rwa [Char.ofNat_toNat] at this

theorem lexemesOf_append_gap (ps : List Piece) (hp : p.isGap) (qs : List Piece) :
    lexemesOf (ps ++ p :: qs) = lexemesOf ps ++ lexemesOf qs := by
  rw [lexemesOf_append, lexemesOf_gap hp]
  · rintro d qs' ⟨⟩
    exact (takes_of_isBlank hp).1
  · rintro kind - d qs' ⟨⟩
    cases kind with
    | word => exact (takes_of_isBlank hp).2.1
    | number => exact (takes_of_isBlank hp).2.2
    | _ => rfl

/-- Gaps at the front do not count. -/
theorem lexemesOf_gaps_append (hg : ∀ p ∈ gs, p.isGap) (qs : List Piece) : lexemesOf (gs ++ qs) = lexemesOf qs := by
  induction gs with
  | nil => rfl
  | cons p gs ih =>
    rw [forall_mem_cons] at hg
    rw [cons_append, lexemesOf_gap hg.1, ih hg.2]

theorem lexemesOf_gaps (hg : ∀ p ∈ gs, p.isGap) : lexemesOf gs = [] := by
  rw [← append_nil gs, lexemesOf_gaps_append hg, lexemesOf_nil]

theorem lexemesOf_append_gaps (ps : List Piece) (hg : ∀ p ∈ gs, p.isGap) : lexemesOf (ps ++ gs) = lexemesOf ps := by
  cases gs with
  | nil => rw [append_nil]
  | cons p gs =>
    rw [forall_mem_cons] at hg
    rw [lexemesOf_append_gap ps hg.1, lexemesOf_gaps hg.2, append_nil]

/-- Whether a word behind the pieces would become a part of what they end with. -/
def joinsWord (ps : List Piece) : Bool :=
  match lastKind? ps with
  | some (.word _) | some .number => true
  | _ => false

theorem lexemesOf_word (hc : isNameStart c) (hs : ∀ d ∈ cs, isNameChar d)
    (hq : ∀ d qs', qs = .code d :: qs' → isNameChar d = false) :
    lexemesOf ((c :: cs).map .code ++ qs) = (.word (String.ofList (c :: cs)), c :: cs) :: lexemesOf qs := by
  rw [map_cons, cons_append, lexemesOf_code (by simp [isBlank_of_isNameStart hc]), lexScript_word hc hs hq]

theorem standsAlone_of_isNameStart (hc : isNameStart c) : standsAlone c := by
  have hi : c.isDigit = false := by
    by_contra h
    rw [isNameStart_of_isDigit (Bool.not_eq_false _ ▸ h)] at hc
    cases hc
  have hne (d : Char) (hd : isNameStart d = false) : c ≠ d := by
    rintro rfl
    rw [hd] at hc
    cases hc
  simp [standsAlone, hi, hne '.' (by decide), hne '>' (by decide)]

theorem lexemesOf_append_word (hp : joinsWord ps = false) (hc : isNameStart c) (hs : ∀ d ∈ cs, isNameChar d)
    (hq : ∀ d qs', qs = .code d :: qs' → isNameChar d = false) : lexemesOf (ps ++ ((c :: cs).map .code ++ qs)) =
      lexemesOf ps ++ (.word (String.ofList (c :: cs)), c :: cs) :: lexemesOf qs := by
  rw [lexemesOf_append, lexemesOf_word hc hs hq]
  · rintro d qs' ⟨⟩
    exact standsAlone_of_isNameStart hc
  · rintro kind hk d qs' ⟨⟩
    cases kind with
    | word | number => simp [joinsWord, Option.mem_def.1 hk] at hp
    | _ => rfl

end Pagewright
