import Pagewright.Proofs.Seams

/-!
# Comments blanked out

Every comment of a text is replaced by as many spaces as it has bytes; its line feeds stay. Two
things tell a comment from a blank: a word with nothing but a comment before it is taken for a part
of the word before that, and a backslash before a comment hides its first character from a slash
that looks for the end of a pattern. Where neither is so, the other literals stay where they are. -/

namespace Pagewright

open List

variable {ctx ctx' dtx : ScanContext} {c : Char} {kind : LiteralKind} {bracketed : Bool}
  {cs front rest back text : List Char} {ps : List Piece} {p : Piece}

/-! ### Blanks for comments -/

/-- A text of as many spaces as the characters have bytes, line feeds excepted. -/
def blankText (cs : List Char) : List Char :=
  cs.flatMap fun c => if c = '\n' then [c] else replicate c.utf8Size ' '

/-- The piece as it is, or blanks for a comment. -/
def Piece.blanked : Piece → List Piece
  | code c => [code c]
  | literal kind text => if kind.isComment then (blankText text).map code else [literal kind text]

/-- The pieces with their comments blanked out. -/
def blankComments (ps : List Piece) : List Piece := ps.flatMap Piece.blanked

/-- The ranges of the literals that are no comments among the pieces of a text that begins at
`offset`. -/
def valueSpansOf : Nat → List Piece → List Span
  | _, [] => []
  | offset, .code c :: ps => valueSpansOf (offset + c.utf8Size) ps
  | offset, .literal kind text :: ps =>
    if kind.isComment then valueSpansOf (offset + byteSize text) ps
    else ⟨offset, offset + byteSize text⟩ :: valueSpansOf (offset + byteSize text) ps

theorem blank_of_mem_blankText (h : c ∈ blankText cs) : c = ' ' ∨ c = '\n' := by
  obtain ⟨d, -, hc⟩ := mem_flatMap.1 h
  split_ifs at hc with hd
  · exact .inr ((mem_singleton.1 hc).trans hd)
  · exact .inl (mem_replicate.1 hc).2

theorem mem_blankText : '\n' ∈ blankText cs ↔ '\n' ∈ cs := by
  refine ⟨fun h => ?_, fun h => mem_flatMap.2 ⟨'\n', h, by simp⟩⟩
  obtain ⟨d, hd, hc⟩ := mem_flatMap.1 h
  split_ifs at hc with heq
  · exact heq ▸ hd
  · simp at hc

theorem byteSize_blankText (cs : List Char) : byteSize (blankText cs) = byteSize cs := by
  induction cs with
  | nil => rfl
  | cons c cs ih =>
    rw [blankText, flatMap_cons, byteSize_append]
    refine congrArg₂ (· + ·) ?_ ih
    split_ifs
    · exact Nat.add_zero _
    · exact byteSize_replicate_space _

theorem blankComments_cons (p : Piece) (ps : List Piece) :
    blankComments (p :: ps) = p.blanked ++ blankComments ps := flatMap_cons ..

theorem spansOf_blankComments (o : Nat) (ps : List Piece) : spansOf o (blankComments ps) = valueSpansOf o ps := by
  induction ps generalizing o with
  | nil => rfl
  | cons p ps ih =>
    cases p with
    | code c => exact ih _
    | literal kind text =>
      rw [blankComments_cons, valueSpansOf, Piece.blanked]
      split_ifs
      · rw [spansOf_append, spansOf_map_code, piecesSize, flatMap_chars_map_code, byteSize_blankText]
        exact ih _
      · exact congrArg (_ :: ·) (ih _)

theorem head?_blankComments (hr : ∀ p ∈ ps, p.IsRead) :
    ((blankComments ps).flatMap Piece.chars).head? = (ps.flatMap Piece.chars).head? ∨
      (ps.flatMap Piece.chars).head? = some '/' ∧ ((blankComments ps).flatMap Piece.chars).head? = some ' ' := by
  cases ps with
  | nil => exact .inl rfl
  | cons p ps =>
    cases p with
    | code c => exact .inl rfl
    | literal kind text =>
      obtain ⟨_, c, lit, _, rfl, ht⟩ := hr _ mem_cons_self
      rw [blankComments_cons, Piece.blanked]
      split_ifs with hk
      · obtain rfl : c = '/' := by
          cases kind with
          | quoted | pattern => cases hk
          | lineComment | blockComment => exact ht.1
        refine .inr ⟨rfl, ?_⟩
        rfl
      · exact .inl rfl

/-! ### The end of a pattern -/

theorem patternLength_of_break (h : ∀ d, cs.head? = some d → d = '\n') : patternLength bracketed cs = none := by
  cases cs with
  | nil => rfl
  | cons d cs =>
    obtain rfl := h d rfl
    rw [patternLength_cons fun hd => absurd hd (by decide), if_pos rfl]

theorem patternLength_blanks (h : ∀ c ∈ cs, c = ' ' ∨ c = '\n') :
    patternLength bracketed (cs ++ rest) = none ↔ '\n' ∈ cs ∨ patternLength bracketed rest = none := by
  induction cs with
  | nil => simp
  | cons c cs ih =>
    rw [forall_mem_cons] at h
    rcases h.1 with rfl | rfl
    · rw [cons_append, patternLength_cons fun hc => absurd hc (by decide)]
      simp [ih h.2]
    · simp [patternLength]

theorem patternLength_slash : patternLength bracketed ('/' :: cs) = none ↔ bracketed ∧ patternLength true cs = none := by
  rw [patternLength_cons fun hc => absurd hc (by decide)]
  cases bracketed <;> simp

theorem patternLength_of_comment (hb : '\n' ∉ cs) (h : patternLength bracketed ('/' :: (cs ++ '*' :: '/' :: rest)) = none) :
    patternLength bracketed rest = none := by
  obtain ⟨rfl, ho⟩ := patternLength_slash.1 h
  suffices he : ∀ b, patternLength b (cs ++ '*' :: '/' :: rest) = none → patternLength true rest = none from
    he true ho
  clear h ho
  induction cs using escape_induction with
  | nil =>
    intro b h
    rw [nil_append, patternLength_cons fun hc => absurd hc (by decide)] at h
    exact (patternLength_slash.1 (by simpa using h)).2
  | escape d cs ih => exact fun b h => ih (by simp_all) b (by simpa [patternLength] using h)
  | cons d cs hs ih =>
    intro b h
    by_cases hd : d = '\\'
    · obtain rfl := hd
      obtain rfl := hs rfl
      exact (patternLength_slash.1 (by simpa [patternLength] using h)).2
    · rw [cons_append, patternLength_cons fun hd' => absurd hd' hd] at h
      split_ifs at h with hf
      · simp [hf] at hb
      · exact ih (by simp_all) _ (Option.map_eq_none_iff.1 h)

theorem Piece.blanked_of_comment (h : kind.isComment) (text : List Char) :
    (literal kind text).blanked.flatMap chars = blankText text := by
  rw [blanked, if_pos h, flatMap_chars_map_code]

theorem Piece.blanked_of_not_comment (h : kind.isComment = false) (text : List Char) :
    (literal kind text).blanked = [.literal kind text] := by
  rw [blanked, if_neg (by simp [h])]

theorem patternLength_blankComments (hr : ∀ p ∈ ps, p.IsRead) (he : LiteralsEnd [] ps)
    (hes : ∀ pre text post, ps ≠ pre ++ .code '\\' :: .literal .blockComment text :: post) :
    (∀ b, patternLength b (ps.flatMap Piece.chars) = none → patternLength b ((blankComments ps).flatMap Piece.chars) = none) ∧
    ((∀ text rest, ps ≠ .literal .blockComment text :: rest) → ∀ b, patternLength b ((ps.flatMap Piece.chars).drop 1) = none →
      patternLength b (((blankComments ps).flatMap Piece.chars).drop 1) = none) := by
  induction ps with
  | nil => exact ⟨fun _ h => h, fun _ _ h => h⟩
  | cons p ps ih =>
    rw [forall_mem_cons] at hr
    obtain ⟨hp, hdr⟩ := ih hr.2 he.2 fun pre text post h => hes (p :: pre) text post (by rw [h]; rfl)
    rw [blankComments_cons, flatMap_append]
    cases p with
    | code c =>
      refine ⟨fun b => patternLength_append_mono hp fun hl => hdr fun text rest hps => ?_, fun _ => hp⟩
      obtain rfl : c = '\\' := Option.some.inj hl
      exact hes [] text rest (by rw [hps]; rfl)
    | literal kind text =>
      obtain ⟨⟨_, c, lit, _, rfl, ht⟩, hr⟩ := hr
      cases hk : kind.isComment with
      | false =>
        rw [Piece.blanked_of_not_comment hk, flatMap_singleton]
        obtain ⟨init, d, rfl, -, -, hd⟩ := ht.exists_last (by rintro rfl; cases hk)
        refine ⟨fun b => patternLength_append_mono hp fun hl => ?_, fun _ b => ?_⟩
        · rw [Piece.chars, ← cons_append, getLast?_concat] at hl
          exact absurd (Option.some.inj hl) hd
        · rw [Piece.chars, cons_append]
          refine patternLength_append_mono hp fun hl => ?_
          rw [getLast?_concat] at hl
          exact absurd (Option.some.inj hl) hd
      | true =>
        rw [Piece.blanked_of_comment hk]
        cases kind with
        | quoted | pattern => cases hk
        | lineComment =>
          have hn (b : Bool) : patternLength b ((blankComments ps).flatMap Piece.chars) = none := by
            refine patternLength_of_break fun d hd => ?_
            have hf := he.1
            rw [append_nil] at hf
            rcases head?_blankComments hr with hh | ⟨hs, -⟩
            · simpa using hf d (hh ▸ hd)
            · exact absurd (hf '/' hs) (by decide)
          obtain ⟨rfl, -⟩ := ht
          exact ⟨fun b _ => (patternLength_blanks fun _ => blank_of_mem_blankText).2 (.inr (hn b)),
            fun _ b _ => (patternLength_blanks fun _ => blank_of_mem_blankText).2 (.inr (hn b))⟩
        | blockComment =>
          refine ⟨fun b h => ?_, fun hh => absurd rfl (hh _ _)⟩
          obtain ⟨inside, hi⟩ := ht.exists_inside
          rw [hi] at h ⊢
          rw [patternLength_blanks fun _ => blank_of_mem_blankText, mem_blankText]
          by_cases hf : '\n' ∈ '*' :: inside
          · exact .inl (mem_cons_of_mem _ (mem_append_left _ hf))
          · refine .inr (hp b (patternLength_of_comment hf ?_))
            simpa [Piece.chars] using h

/-! ### Scans -/

theorem passes_blanks (hc : c = ' ' ∨ c = '\n') (h : ∀ d ∈ cs, d = ' ' ∨ d = '\n') :
    Passes false back dtx ((c :: cs).map .code) { dtx with spaced := true } := by
  have ho {dtx : ScanContext} {c : Char} (rest : List Char) (hc : c = ' ' ∨ c = '\n') : opening dtx c rest = .plain ∧
      dtx.afterCode c rest = { dtx with spaced := true } := by
    rcases hc with rfl | rfl
    · exact ⟨by simp [opening], if_pos (by decide)⟩
    · exact ⟨by simp [opening], if_pos (by decide)⟩
  induction cs generalizing c dtx with
  | nil =>
    refine .code (by rintro ⟨⟩) (ho _ hc).1 ?_
    rw [(ho _ hc).2]
    exact .nil _
  | cons d cs ih =>
    rw [forall_mem_cons] at h
    refine .code (by rintro ⟨⟩) (ho _ hc).1 ?_
    rw [(ho _ hc).2]
    exact ih h.1 h.2

/-- Whether a scan keeps what stood before the piece: it is a blank or a comment. -/
def Piece.isIdle : Piece → Bool
  | code c => isPlainBlank c
  | literal kind _ => kind.isComment

/-- No word stands right behind a comment, with blanks and comments only before it. -/
def WordsApart (ps : List Piece) : Prop :=
  ∀ idle text d after, ps = idle ++ .literal .blockComment text :: .code d :: after → (∀ p ∈ idle, p.isIdle = true) →
    isPlainWordChar d = false

theorem WordsApart.tail (h : WordsApart (p :: ps)) (hp : p.isIdle) : WordsApart ps :=
  fun idle text d post hs hi => h (p :: idle) text d post (by rw [hs]; rfl) (forall_mem_cons.2 ⟨hp, hi⟩)

theorem WordsApart.next_of_comment (h : WordsApart (.literal kind text :: ps)) (hk : kind.isComment)
    (hm : (Piece.literal kind text).Meets (ps.flatMap Piece.chars).head?) (hr : ∀ p ∈ ps, p.IsRead) :
    (ps.flatMap Piece.chars).head?.any isPlainWordChar = false := by
  cases kind with
  | quoted | pattern => cases hk
  | lineComment =>
    cases hh : (ps.flatMap Piece.chars).head? with
    | none => rfl
    | some d =>
      obtain rfl : d = '\n' := by simpa using hm d hh
      rfl
  | blockComment =>
    cases ps with
    | nil => rfl
    | cons p ps =>
      cases p with
      | code d => exact h [] _ d ps rfl (forall_mem_nil _)
      | literal kind text =>
        obtain ⟨_, d, lit, _, rfl, ht⟩ := hr _ mem_cons_self
        rcases ht.quote_or_slash with (rfl | rfl | rfl) | rfl <;> rfl

/-- Every comment can be taken for a blank: no word follows a comment right behind a word, and no
block comment stands right behind a backslash. -/
structure CommentsApart (ps : List Piece) : Prop where
  words : ∀ before c after, ps = before ++ .code c :: after → isPlainWordChar c = true → WordsApart after
  escapes : ∀ before text after, ps ≠ before ++ .code '\\' :: .literal .blockComment text :: after

theorem CommentsApart.tail (h : CommentsApart (p :: ps)) : CommentsApart ps where
  words before c after hp := h.words (p :: before) c after (by rw [hp]; rfl)
  escapes before text after hp := h.escapes (p :: before) text after (by rw [hp]; rfl)

theorem next_blankComments (hr : ∀ q ∈ ps, q.IsRead) (hp : ∀ text, p ≠ .literal .lineComment text) :
    ((blankComments ps).flatMap Piece.chars).head? = (ps.flatMap Piece.chars).head? ∨
      p.Meets ((blankComments ps).flatMap Piece.chars).head? := by
  rcases head?_blankComments hr with hs | ⟨-, hb⟩
  · exact .inl hs
  · rw [hb]
    exact .inr (Piece.meets_of_ne (by decide) (by decide) fun text h => absurd h (hp text))

/-- **Comments blanked out.** A scan goes on with the comments blanked out as it does without. -/
theorem Passes.scans_blankComments (h : Passes false [] ctx ps ctx') (ha : CommentsApart ps)
    (hw : ctx.last.any isPlainWordChar → WordsApart ps)
    (hal : Alike (ps.flatMap Piece.chars) ((blankComments ps).flatMap Piece.chars) ctx dtx) : Scans dtx (blankComments ps) := by
  induction h generalizing dtx with
  | nil => exact .nil dtx
  | @literal ctx ctx' kind c lit ps ho hr ih =>
    have ht := opening_eq_literal ho
    have hb := begins_of_opening ho
    rw [append_nil] at ht
    rw [blankComments_cons] at hal ⊢
    cases hk : kind.isComment with
    | false =>
      rw [Piece.blanked_of_not_comment hk, singleton_append] at hal ⊢
      have hc : kind ≠ .lineComment ∧ kind ≠ .blockComment := by constructor <;> rintro rfl <;> cases hk
      refine .literal (ht.resume ?_ ?_).opening_eq (ih ha.tail ?_ (alike_afterLiteral ctx dtx hb hc _ _))
      · rintro rfl
        obtain ⟨rfl, -⟩ := ht
        exact hal.allowsPattern_eq (by decide)
      · have how : ∀ text, Piece.literal kind (c :: lit) ≠ .literal .lineComment text := fun text h =>
          hc.1 (Piece.literal.inj h).1
        rcases next_blankComments hr.isRead how with hs | hm
        · rw [hs]
          exact ht.meets _
        · exact hm
      · intro hl
        cases kind with
        | quoted quote =>
          obtain ⟨rfl, hq⟩ := hb
          rcases hq with rfl | rfl | rfl <;> cases hl
        | lineComment | blockComment => cases hk
        | pattern => cases hl
    | true =>
      obtain rfl : c = '/' := by
        cases kind with
        | quoted | pattern => cases hk
        | lineComment | blockComment => exact hb.1
      have hf : ctx.afterLiteral kind = { ctx with spaced := false } := by
        cases kind with
        | quoted | pattern => cases hk
        | lineComment | blockComment => rfl
      have hbl : (Piece.literal kind ('/' :: lit)).blanked = (' ' :: blankText lit).map .code := if_pos hk
      rw [hbl] at hal ⊢
      rw [flatMap_append] at hal
      refine (passes_blanks (.inl rfl) fun _ => blank_of_mem_blankText).scans_append (ih ha.tail ?_ ?_)
      · rw [hf]
        exact fun hl => (hw hl).tail hk
      · rw [hf]
        refine hal.skip (by decide) (by decide) fun hl hn => absurd hn ?_
        exact Bool.eq_false_iff.1 ((hw hl).next_of_comment hk (ht.meets _) hr.isRead)
  | @doubled ctx ctx' c ps ho hr ih =>
    have hi := (sign_of_opening ho).1
    rw [opening_eq_doubled hi, hal.endsOperand_eq] at ho
    exact .doubled ((opening_eq_doubled hi).2 ho) (ih ha.tail.tail (by rintro ⟨⟩) (.afterStep ctx dtx))
  | @code ctx ctx' c ps hsl ho hr ih =>
    rw [append_nil] at ho ih
    have hn := next_blankComments hr.isRead (show ∀ text, Piece.code c ≠ .literal .lineComment text by simp)
    refine .code ((opening_plain_iff ho hal hn).2 ?_) (ih ha.tail ?_ hal.afterCode)
    · rintro rfl hao
      have hno := ((opening_slash_eq_plain hao).1 ho).2.2
      exact (patternLength_blankComments hr.isRead hr.literalsEnd ha.tail.escapes).1 false hno
    · unfold ScanContext.afterCode
      split_ifs with hba hb
      · exact fun hl => (hw hl).tail hba
      · exact fun hl => ha.words [] c ps rfl hl
      · exact fun hl => ha.words [] c ps rfl hl

namespace Source

variable {s : Source} {text : List Char}

/-- **Comments are blanks.** Where every comment can be taken for a blank, the text with the
comments blanked out has the other literals at the same places, and no more. -/
theorem spans_blankComments (h : ofText text = .ok s) (ha : CommentsApart s.pieces) :
    ∃ u, ofText ((blankComments s.pieces).flatMap Piece.chars) = .ok u ∧ u.spans = valueSpansOf 0 s.pieces := by
  obtain ⟨_, hp⟩ := scans_of_piecesFrom (pieces_ofText h)
  have hs := hp.scans_blankComments ha (by rintro ⟨⟩) (isOpen_start.alike isOpen_start _ _)
  exact ⟨_, ofText_of_pieces (hs.piecesFrom_eq 0), spansOf_blankComments 0 s.pieces⟩

/-- In `in /**//b/` the pattern stands behind a word and a comment, and so it does behind a word and
blanks. -/
theorem spans_comment_before_pattern : ∃ s u, ofText ['i', 'n', ' ', '/', '*', '*', '/', '/', 'b', '/'] = .ok s ∧
    CommentsApart s.pieces ∧ s.spans = [⟨3, 7⟩, ⟨7, 10⟩] ∧
      ofText ['i', 'n', ' ', ' ', ' ', ' ', ' ', '/', 'b', '/'] = .ok u ∧ u.spans = [⟨7, 10⟩] := by
  have hp : Pagewright.pieces ['i', 'n', ' ', '/', '*', '*', '/', '/', 'b', '/'] =
      .ok [.code 'i', .code 'n', .code ' ', .literal .blockComment ['/', '*', '*', '/'], .literal .pattern ['/', 'b', '/']] := by
    decide +kernel
  have hs := ofText_of_pieces hp
  have ha : CommentsApart [.code 'i', .code 'n', .code ' ', .literal .blockComment ['/', '*', '*', '/'],
      .literal .pattern ['/', 'b', '/']] := by
    constructor
    · rintro before c after hps - idle text d rest rfl
      rw [append_cons, ← append_assoc] at hps
      generalize before ++ [.code c] ++ idle = front at hps
      simp [cons_eq_append_iff] at hps
    · intro before text after hps
      have hm : Piece.code '\\' ∈ before ++ Piece.code '\\' :: Piece.literal .blockComment text :: after := by simp
      rw [← hps] at hm
      simp at hm
  obtain ⟨u, hu, hn⟩ := spans_blankComments hs ha
  exact ⟨_, u, hs, ha, rfl, hu, hn⟩

/-- In `do/**/a/b/` the comment does not divide two words, and a pattern begins that does not with
blanks there. In `=/\/*[*/b/` the bracket in the comment keeps a pattern from the end that it finds
with blanks. -/
theorem spans_not_blanked :
    (∃ s u, ofText ['d', 'o', '/', '*', '*', '/', 'a', '/', 'b', '/'] = .ok s ∧ valueSpansOf 0 s.pieces = [⟨7, 10⟩] ∧
      ofText ((blankComments s.pieces).flatMap Piece.chars) = .ok u ∧ u.spans = []) ∧
    ∃ s u, ofText ['=', '/', '\\', '/', '*', '[', '*', '/', 'b', '/'] = .ok s ∧ valueSpansOf 0 s.pieces = [] ∧
      ofText ((blankComments s.pieces).flatMap Piece.chars) = .ok u ∧ u.spans = [⟨1, 10⟩] := by
  have hw : Pagewright.pieces ['d', 'o', '/', '*', '*', '/', 'a', '/', 'b', '/'] =
      .ok [.code 'd', .code 'o', .literal .blockComment ['/', '*', '*', '/'], .code 'a', .literal .pattern ['/', 'b', '/']] := by
    decide +kernel
  have hb : Pagewright.pieces ['d', 'o', ' ', ' ', ' ', ' ', 'a', '/', 'b', '/'] =
      .ok [.code 'd', .code 'o', .code ' ', .code ' ', .code ' ', .code ' ', .code 'a', .code '/', .code 'b', .code '/'] := by
    decide +kernel
  have he : Pagewright.pieces ['=', '/', '\\', '/', '*', '[', '*', '/', 'b', '/'] =
      .ok [.code '=', .code '/', .code '\\', .literal .blockComment ['/', '*', '[', '*', '/'], .code 'b', .code '/'] := by
    decide +kernel
  have hp : Pagewright.pieces ['=', '/', '\\', ' ', ' ', ' ', ' ', ' ', 'b', '/'] =
      .ok [.code '=', .literal .pattern ['/', '\\', ' ', ' ', ' ', ' ', ' ', 'b', '/']] := by
    decide +kernel
  exact ⟨⟨_, _, ofText_of_pieces hw, rfl, ofText_of_pieces hb, rfl⟩,
    _, _, ofText_of_pieces he, rfl, ofText_of_pieces hp, rfl⟩

end Source

end Pagewright
