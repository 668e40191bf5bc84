import Pagewright.Proofs.CallSites
import Pagewright.Proofs.Layout
import Pagewright.Proofs.Lexemes

/-!
# Bodies with their parent calls replaced

A call of an inherited method becomes a call of an alias, and a call of a constructor is left out
with the semicolon behind it, on the text; `replaced` does it on the pieces. What meets in the new
text may end a literal somewhere else, or begin one. `AreClean` says what keeps a call apart from
the text around it; then a scan of the new text finds the pieces that were kept
(`passes_replaced`). -/

namespace Pagewright

open List Fragment

variable {p : Piece} {ps : List Piece} {back front : List Char} {ctx ctx' dtx : ScanContext} {c : Char}
  {first chained : Bool} {blanks qs : List Piece} {cs rest : List Char} {name : String} {site : CallSite}

/-! ### Blanks around pieces -/

/-- Whether a piece is a blank of code. -/
def Piece.isBlankCode : Piece → Bool
  | code c => isBlank c
  | literal _ _ => false

/-- The pieces without the blanks at their front. -/
def dropBlanks (ps : List Piece) : List Piece := ps.dropWhile Piece.isBlankCode

/-- The pieces without the blanks at either end. -/
def trimPieces (ps : List Piece) : List Piece := (dropBlanks (dropBlanks ps).reverse).reverse

/-- The pieces without the blanks at their front and one semicolon behind them. -/
def dropEnd (ps : List Piece) : List Piece :=
  match dropBlanks ps with
  | .code ';' :: rest => rest
  | rest => rest

/-- The pieces, and behind a call that is left out those behind the end of its statement. -/
def kept (chained : Bool) (ps : List Piece) : List Piece := if chained then dropEnd ps else ps

theorem isGap_of_isBlankCode (h : p.isBlankCode) : p.isGap := by
  cases p with
  | code c => exact h
  | literal kind text => cases h

theorem exists_blanks (ps : List Piece) : ∃ blanks, ps = blanks ++ dropBlanks ps ∧ ∀ p ∈ blanks, p.isBlankCode :=
  ⟨ps.takeWhile Piece.isBlankCode, takeWhile_append_dropWhile.symm, fun _ hp => mem_takeWhile_imp hp⟩

theorem isBlankCode_head?_dropBlanks (h : p ∈ (dropBlanks ps).head?) : p.isBlankCode = false := by
  have hn := head?_dropWhile_not Piece.isBlankCode ps
  rw [show ps.dropWhile Piece.isBlankCode = dropBlanks ps from rfl, Option.mem_def.1 h] at hn
  exact hn

/-- Trimmed pieces stand between blanks, and neither begin nor end with one. -/
theorem exists_trimmed (ps : List Piece) : ∃ front back, ps = front ++ (trimPieces ps ++ back) ∧ (∀ p ∈ front, p.isBlankCode) ∧
      (∀ p ∈ back, p.isBlankCode) ∧ (∀ p ∈ (trimPieces ps).head?, p.isBlankCode = false) ∧
      ∀ p ∈ (trimPieces ps).getLast?, p.isBlankCode = false := by
  obtain ⟨front, hf, hb⟩ := exists_blanks ps
  obtain ⟨back, ha, hb'⟩ := exists_blanks (dropBlanks ps).reverse
  have hr : dropBlanks ps = trimPieces ps ++ back.reverse := by
    rw [trimPieces, ← reverse_append, ← ha, reverse_reverse]
  refine ⟨front, back.reverse, hr ▸ hf, hb, by simpa using hb', fun p hp => ?_, fun p hp => ?_⟩
  · have hi : p ∈ (dropBlanks ps).head? → p.isBlankCode = false := isBlankCode_head?_dropBlanks
    apply hi
    rw [hr]
    cases ht : trimPieces ps with
    | nil => rw [ht] at hp; cases hp
    | cons q qs => rw [ht] at hp; exact hp
  · rw [trimPieces, getLast?_reverse] at hp
    exact isBlankCode_head?_dropBlanks hp

/-- What is left out of the front of pieces is blanks, and one semicolon behind them if there is
one. -/
theorem kept_cases (ps : List Piece) : ∃ blanks rest, (∀ p ∈ blanks, p.isBlankCode) ∧ kept true ps = rest ∧
    (ps = blanks ++ .code ';' :: rest ∨ ps = blanks ++ rest ∧ ∀ p ∈ rest.head?, p.isBlankCode = false ∧ p ≠ .code ';') := by
  obtain ⟨blanks, hb, ha⟩ := exists_blanks ps
  rw [kept, if_pos rfl, dropEnd]
  split
  · next rest hr => exact ⟨blanks, rest, ha, rfl, .inl (hr ▸ hb)⟩
  · next hr =>
    refine ⟨blanks, dropBlanks ps, ha, rfl, .inr ⟨hb, fun p hp => ⟨isBlankCode_head?_dropBlanks hp, ?_⟩⟩⟩
    rintro rfl
    obtain ⟨rest, hc⟩ := head?_eq_some_iff.1 hp
    exact hr rest hc

/-- Blanks of code are single characters. -/
theorem isBlank_of_mem_chars (h : ∀ p ∈ blanks, p.isBlankCode) : ∀ c ∈ blanks.flatMap Piece.chars, isBlank c := by
  intro c hc
  obtain ⟨p, hp, hm⟩ := mem_flatMap.1 hc
  have hb := h p hp
  cases p with
  | code d =>
    obtain rfl := mem_singleton.1 hm
    exact hb
  | literal kind text => cases hb

theorem not_mem_of_isBlankCode (h : ∀ p ∈ blanks, p.isBlankCode) {c : Char} (hc : c = '+' ∨ c = '-') : .code c ∉ blanks := by
  intro hm
  have hb : isBlank c := h _ hm
  rcases hc with rfl | rfl <;> cases hb

theorem exists_first (hs : Begun (p :: ps)) (hp : p.isBlankCode = false) :
    ∃ c rest, p.chars = c :: rest ∧ isBlank c = false ∧ (p ≠ .code ';' → c ≠ ';') := by
  cases p with
  | code c => exact ⟨c, [], rfl, hp, fun hne => fun hc => hne (congrArg Piece.code hc)⟩
  | literal kind text =>
    obtain ⟨c, rest, rfl, hc⟩ := hs kind text mem_cons_self
    refine ⟨c, rest, rfl, isBlank_of_isLiteralStart hc, fun _ => ?_⟩
    rintro rfl
    cases hc

theorem dropStatementEnd_append (hp : Begun ps) (hb : (∀ p ∈ ps, p.isBlankCode) → dropStatementEnd back = back) :
    dropStatementEnd (ps.flatMap Piece.chars ++ back) = (kept true ps).flatMap Piece.chars ++ back := by
  obtain ⟨blanks, rest, hl, hk, rfl | ⟨rfl, hr⟩⟩ := kept_cases ps
  · rw [hk, flatMap_append, append_assoc, dropStatementEnd, trimStart_append (isBlank_of_mem_chars hl)]
    rfl
  · rw [hk, flatMap_append, append_assoc, dropStatementEnd, trimStart_append (isBlank_of_mem_chars hl)]
    cases rest with
    | nil => exact hb (by simpa using hl)
    | cons p rest =>
      obtain ⟨ha, hne⟩ := hr p rfl
      obtain ⟨c, cs, hh, hc, hs⟩ := exists_first hp.of_append_right ha
      rw [flatMap_cons, hh, trimStart_of_head? (by simpa using hc)]
      split
      · next heq =>
        cases heq
        exact absurd rfl (hs hne)
      · rfl

/-- Whether the last of the pieces that is no blank is a comment up to the end of its line. -/
def endsInLineComment (ps : List Piece) : Bool :=
  match (trimPieces ps).getLast? with
  | some (.literal .lineComment _) => true
  | _ => false

theorem chars_trimPieces (hs : Begun ps) (hpa : Passes true back ctx ps ctx') (he : endsInLineComment ps = false) :
    (trimPieces ps).flatMap Piece.chars = trim (ps.flatMap Piece.chars) := by
  obtain ⟨front, post, ha, hf, haf, hi, hl⟩ := exists_trimmed ps
  have hh : ps.flatMap Piece.chars = front.flatMap Piece.chars ++ ((trimPieces ps).flatMap Piece.chars ++ post.flatMap Piece.chars) := by
    rw [← flatMap_append, ← flatMap_append, ← ha]
  rw [hh]
  refine (trim_append (isBlank_of_mem_chars hf) (isBlank_of_mem_chars haf) ?_ ?_).symm
  · intro c hc
    cases ht : trimPieces ps with
    | nil => rw [ht] at hc; cases hc
    | cons p rest =>
      rw [ht] at hc hi ha
      rw [ha] at hs
      obtain ⟨d, cs, hp, hd, -⟩ := exists_first (hs.of_append_right).of_append_left (hi p rfl)
      rw [flatMap_cons, hp] at hc
      cases hc
      exact hd
  · intro c hc
    rcases eq_nil_or_concat (trimPieces ps) with ht | ⟨init, p, ht⟩
    · rw [ht] at hc
      cases hc
    · have hp := hl p (by rw [ht]; simp)
      rw [ht] at hc
      cases p with
      | code d =>
        have hd : c = d := by simpa [Piece.chars] using hc.symm
        rw [hd]
        exact hp
      | literal kind text =>
        have hk : kind ≠ .lineComment := by
          rintro rfl
          simp [endsInLineComment, ht] at he
        have hm : .literal kind text ∈ ps := by
          rw [ha, ht]
          simp
        obtain ⟨init', d, rfl, hd, -⟩ := hpa.exists_last_of_mem hm hk
        have heq : c = d := by simpa [Piece.chars] using hc.symm
        rw [heq]
        exact hd

/-! ### Ends of statements -/

/-- The marks behind which a statement can begin. -/
def statementMarks : List Char := [';', '{', '}', ':']

theorem statementMarks_spec (hc : c ∈ statementMarks) : c ∈ separators ∧ isNameChar c = false ∧
    isBlank c = false ∧ isPlainWordChar c = false ∧ patternMarks.contains c ∧ c ≠ ')' ∧ c ≠ ']' ∧ c ≠ '/' ∧ c ≠ '+' ∧ c ≠ '-' := by
  simp only [statementMarks, mem_cons, not_mem_nil, or_false] at hc
  rcases hc with rfl | rfl | rfl | rfl <;> decide

/-- Whether a statement can begin behind the pieces; `first` tells whether one can where they
begin. -/
def endsStatement (first : Bool) (ps : List Piece) : Bool :=
  match ps.reverse.find? (!·.isGap) with
  | some (.code c) => statementMarks.contains c
  | some (.literal _ _) => false
  | none => first

/-- Whether the pieces begin with an operator that could belong to what stands before them. -/
def goesOn (ps : List Piece) : Bool :=
  match ps.find? (!·.isGap) with
  | some (.code c) => c = '+' || c = '-' || c = '/' || c = '^'
  | _ => false

theorem goesOn_gap (hp : p.isGap) (ps : List Piece) : goesOn (p :: ps) = goesOn ps := by
  rw [goesOn, find?_cons_of_neg (by simp [hp])]
  rfl

theorem goesOn_blanks_append (h : ∀ p ∈ blanks, p.isBlankCode) (ps : List Piece) : goesOn (blanks ++ ps) = goesOn ps := by
  induction blanks with
  | nil => rfl
  | cons p blanks ih =>
    rw [forall_mem_cons] at h
    rw [cons_append, goesOn_gap (isGap_of_isBlankCode h.1), ih h.2]

theorem kept_suffix (chained : Bool) (ps : List Piece) : kept chained ps <:+ ps := by
  cases chained with
  | false => exact suffix_refl ps
  | true =>
    obtain ⟨blanks, rest, -, hk, hp | ⟨hp, -⟩⟩ := kept_cases ps
    · rw [hk]
      exact ⟨blanks ++ [.code ';'], by rw [hp]; simp⟩
    · rw [hk]
      exact ⟨blanks, hp.symm⟩

/-- Behind a call that is left out a statement ends where it did. -/
theorem endsStatement_kept (chained : Bool) (h : endsStatement first ps) :
    endsStatement (first || chained) (kept chained ps) := by
  cases chained with
  | false => rwa [Bool.or_false]
  | true =>
    obtain ⟨front, hp⟩ := kept_suffix true ps
    rw [Bool.or_true]
    rw [← hp, endsStatement, reverse_append, find?_append] at h
    rw [endsStatement]
    cases hf : (kept true ps).reverse.find? (!·.isGap) with
    | none => rfl
    | some p =>
      rw [hf] at h
      cases p with
      | code | literal => exact h

theorem endsStatement_cases (h : endsStatement first ps) : (first ∧ ∀ p ∈ ps, p.isGap) ∨
    ∃ init c gaps, ps = init ++ .code c :: gaps ∧ c ∈ statementMarks ∧ ∀ p ∈ gaps, p.isGap := by
  rw [endsStatement] at h
  split at h
  · next c hf =>
    obtain ⟨-, gaps, init, hp, hg⟩ := find?_eq_some_iff_append.1 hf
    have hp : ps = init.reverse ++ .code c :: gaps.reverse := by
      rw [← reverse_reverse ps, hp]
      simp
    exact .inr ⟨_, c, _, hp, contains_iff_mem.1 h, by simpa using hg⟩
  · cases h
  · next hf => exact .inl ⟨h, by simpa using hf⟩

/-! ### Scans of what is kept -/

/-- Every blank of code among the pieces is one that the scan of literals passes over. -/
def PlainBlanks (ps : List Piece) : Prop := ∀ c, .code c ∈ ps → isBlank c = true → isPlainBlank c = true

/-- Whether a piece is no blank that the scan of literals does not pass over. -/
def Piece.isPlain : Piece → Bool
  | code c => !isBlank c || isPlainBlank c
  | literal _ _ => true

theorem plainBlanks_iff : PlainBlanks ps ↔ ∀ p ∈ ps, p.isPlain := by
  constructor
  · intro h p hp
    cases p with
    | code c =>
      rw [Piece.isPlain]
      cases hb : isBlank c with
      | false => rfl
      | true => exact h c hp hb
    | literal kind text => rfl
  · intro h c hc hb
    simpa [Piece.isPlain, hb] using h (.code c) hc

instance (ps : List Piece) : Decidable (PlainBlanks ps) := decidable_of_iff _ plainBlanks_iff.symm

theorem PlainBlanks.of_suffix (h : PlainBlanks ps) (hq : qs <:+ ps) : PlainBlanks qs := fun c hc => h c (hq.subset hc)

/-- A scan stands where a statement can begin. -/
def ScanContext.Fresh (ctx : ScanContext) : Prop := ∀ c ∈ ctx.last, c ∈ statementMarks

theorem ScanContext.Fresh.isOpen (h : ctx.Fresh) : ctx.IsOpen := by
  cases hl : ctx.last with
  | none => exact ⟨by rw [hl]; rfl, by rw [allowsPattern, hl], by rw [endsOperand, hl]; rfl⟩
  | some c =>
    obtain ⟨-, -, -, hw, hp, hr, hs, -⟩ := statementMarks_spec (h c hl)
    exact isOpen_of_last hl ⟨hw, contains_iff_mem.1 hp, hr, hs⟩

theorem alike_afterCode (hc : isPlainBlank c = false)
    (ht : ctx.last.any isPlainWordChar = false) (hd : dtx.last.any isPlainWordChar = false)
    (rest rest' : List Char) : Alike rest rest' (ctx.afterCode c rest) (dtx.afterCode c rest') := by
  rw [ScanContext.afterCode, ScanContext.afterCode, ht, hd]
  cases hw : isPlainWordChar c with
  | false => simpa [hc] using alike_of_last hw rfl rfl
  | true =>
    simp only [hc, Bool.false_eq_true, if_false, Bool.not_false, Bool.true_or, Bool.and_self, if_true]
    exact ⟨rfl, fun _ _ => rfl, fun _ => ⟨[c], [c], rfl, rfl, fun _ => rfl⟩, fun h => by simp [hw] at h, fun _ => rfl⟩

theorem isPlainBlank_of_isBlank (h : isBlank c = false) : isPlainBlank c = false := by
  by_contra hp
  simp only [isPlainBlank, Bool.not_eq_false, Bool.or_eq_true, decide_eq_true_eq] at hp
  rcases hp with (((rfl | rfl) | rfl) | rfl) | rfl <;> cases h

namespace Passes

variable {back back' : List Char} {ctx ctx' dtx : ScanContext} {ps : List Piece}

/-- Gaps leave what was last seen in force. -/
theorem last_of_gaps (h : Passes true back ctx ps ctx') (hg : ∀ p ∈ ps, p.isGap)
    (hl : PlainBlanks ps) : ctx'.last = ctx.last := by
  induction h with
  | nil => rfl
  | @literal ctx ctx' kind c lit ps ho hr ih =>
    rw [ih (fun p hp => hg p (mem_cons_of_mem _ hp)) (hl.of_suffix (suffix_cons _ _))]
    have hk : kind.isComment := hg _ mem_cons_self
    cases kind with
    | quoted | pattern => cases hk
    | lineComment | blockComment => rfl
  | @doubled ctx ctx' c ps ho hr ih =>
    have hb : isBlank c := hg (.code c) mem_cons_self
    rcases (sign_of_opening ho).1 with rfl | rfl <;> cases hb
  | @code ctx ctx' c ps hs ho hr ih =>
    rw [ih (fun p hp => hg p (mem_cons_of_mem _ hp)) (hl.of_suffix (suffix_cons _ _)),
      ScanContext.afterCode, if_pos (hl c mem_cons_self (hg (.code c) mem_cons_self))]

theorem fresh (h : Passes true back ctx ps ctx') (hp : PlainBlanks ps)
    (he : endsStatement first ps) (hf : first → ctx.Fresh) : ctx'.Fresh := by
  rcases endsStatement_cases he with ⟨ht, hg⟩ | ⟨init, c, gaps, rfl, hc, hg⟩
  · rw [ScanContext.Fresh, h.last_of_gaps hg hp]
    exact hf ht
  · have hu : init ++ .code c :: gaps = (init ++ [.code c]) ++ gaps := by simp
    rw [hu] at h hp
    obtain ⟨-, -, hb, -, -, -, -, -, hs⟩ := statementMarks_spec hc
    obtain ⟨mid, hm, hr⟩ := h.split (by
      rintro d hd hl -
      rw [getLast?_concat] at hl
      cases hl
      rcases hd with rfl | rfl
      · exact hs.1 rfl
      · exact hs.2 rfl)
    rw [ScanContext.Fresh, hr.last_of_gaps hg (hp.of_suffix (suffix_append _ _)), hm.last_of_mark (isPlainBlank_of_isBlank hb) hs]
    rintro d ⟨⟩
    exact hc

theorem code_fresh (h : Passes true back (ctx.afterCode c (ps.flatMap Piece.chars ++ back)) ps ctx')
    (hs : c = '/' → ctx.allowsPattern = false) (ho : opening ctx c (ps.flatMap Piece.chars ++ back) = .plain) (hb : isBlank c = false)
    (hw : ctx.last.any isPlainWordChar = false) (hf : dtx.Fresh) (hg : goesOn (.code c :: ps) = false)
    (hm : ∀ p ∈ ps.getLast?, p.Meets back'.head?) : ∃ dtx', Passes true back' dtx (.code c :: ps) dtx' := by
  have hc : c ≠ '+' ∧ c ≠ '-' ∧ c ≠ '/' := by
    rw [goesOn, find?_cons_of_pos (by simpa [Piece.isGap] using hb)] at hg
    simp only [Bool.or_eq_false_iff, decide_eq_false_iff_not] at hg
    exact ⟨hg.1.1.1, hg.1.1.2, hg.1.2⟩
  have ha := alike_afterCode (isPlainBlank_of_isBlank hb) hw hf.isOpen.inWord_eq
    (ps.flatMap Piece.chars ++ back) (ps.flatMap Piece.chars ++ back')
  obtain ⟨dtx', hp, -⟩ := h.transfer ha hm
  have hs' : c = '/' → dtx.allowsPattern = false := fun h => absurd h hc.2.2
  refine ⟨dtx', .code (fun _ => hs') ?_ hp⟩
  rw [opening_eq_plain hs] at ho
  rw [opening_eq_plain hs']
  exact ⟨ho.1, fun h => absurd h hc.2.2, fun h => absurd h (not_or.2 ⟨hc.1, hc.2.1⟩)⟩

theorem transfer_fresh (h : Passes true back ctx ps ctx') (hl : ctx.last = some ')') (hf : dtx.Fresh)
    (hp : PlainBlanks ps) (hg : goesOn ps = false) (hm : ∀ p ∈ ps.getLast?, p.Meets back'.head?) :
    ∃ dtx', Passes true back' dtx ps dtx' := by
  have ht {p : Piece} {rs : List Piece} (h : ∀ q ∈ (p :: rs).getLast?, q.Meets back'.head?) :
      ∀ q ∈ rs.getLast?, q.Meets back'.head? :=
    fun q hq => h q (getLast?_of_suffix (suffix_cons p rs) hq)
  have hw : ctx.last.any isPlainWordChar = false := by
    rw [hl]
    decide
  induction h generalizing dtx with
  | nil => exact ⟨dtx, .nil dtx⟩
  | @literal ctx ctx' kind c lit ps ho hr ih =>
    have he := hp.of_suffix (suffix_cons _ _)
    have hta := opening_eq_literal ho
    have hpa : kind = .pattern → ctx.allowsPattern = dtx.allowsPattern := by
      rintro rfl
      have ha : ctx.allowsPattern := hta.2.2.2.1
      rw [ScanContext.allowsPattern, hl] at ha
      cases ha
    have ho' := (hta.resume hpa (hr.meets_next (hta.meets (c :: lit)) (.inr hm))).opening_eq
    by_cases hk : kind.isComment
    · -- A comment leaves both contexts as they are.
      have hs (ctx : ScanContext) : (ctx.afterLiteral kind).last = ctx.last := by
        cases kind <;> first | rfl | cases hk
      have hga : (Piece.literal kind (c :: lit)).isGap := hk
      obtain ⟨dtx', hps⟩ := ih ((hs ctx).trans hl)
        (by rwa [ScanContext.Fresh, hs]) he (goesOn_gap hga ps ▸ hg) (ht hm) (by rwa [hs])
      exact ⟨dtx', .literal ho' hps⟩
    · -- Behind another literal both look alike.
      have hal := alike_afterLiteral ctx dtx (begins_of_opening ho) ⟨fun h => hk (h ▸ rfl), fun h => hk (h ▸ rfl)⟩
        (ps.flatMap Piece.chars ++ back) (ps.flatMap Piece.chars ++ back')
      obtain ⟨dtx', hps, -⟩ := hr.transfer hal (ht hm)
      exact ⟨dtx', .literal ho' hps⟩
  | @doubled ctx ctx' c ps ho hr ih => rcases (sign_of_opening ho).1 with rfl | rfl <;> cases hg
  | @code ctx ctx' c ps hsl ho hr ih =>
    have he := hp.of_suffix (suffix_cons _ _)
    by_cases hb : isBlank c
    · have hga : (Piece.code c).isGap := hb
      have hs (ctx : ScanContext) (rest : List Char) : (ctx.afterCode c rest).last = ctx.last := by
        rw [ScanContext.afterCode, if_pos (hp c mem_cons_self hb)]
      obtain ⟨dtx', hps⟩ := ih ((hs ctx _).trans hl)
        (by rwa [ScanContext.Fresh, hs dtx (ps.flatMap Piece.chars ++ back')]) he (goesOn_gap hga ps ▸ hg)
        (ht hm) (by rwa [hs])
      refine ⟨dtx', .code ?_ (opening_of_isPlainCode dtx ?_) hps⟩
      · rintro - rfl
        cases hb
      · exact isPlainCode_of (by decide) hb
    · exact hr.code_fresh (hsl rfl) ho (Bool.not_eq_true _ ▸ hb) hw hf hg (ht hm)

theorem mark (hc : isPlainCode c) (back : List Char) (ctx : ScanContext) :
    Passes true back ctx [.code c] (ctx.afterCode c back) := by
  refine .code ?_ (opening_of_isPlainCode ctx hc) (.nil _)
  rintro - rfl
  cases hc

theorem exists_codes (hs : ∀ c ∈ cs, isPlainCode c) (back : List Char)
    (ctx : ScanContext) : ∃ ctx', Passes true back ctx (cs.map .code) ctx' := by
  induction cs generalizing ctx with
  | nil => exact ⟨ctx, .nil ctx⟩
  | cons c cs ih =>
    rw [forall_mem_cons] at hs
    have hc := mark hs.1 ((cs.map Piece.code).flatMap Piece.chars ++ back) ctx
    obtain ⟨ctx', hp⟩ := ih hs.2 (ctx.afterCode c ((cs.map Piece.code).flatMap Piece.chars ++ back))
    exact ⟨ctx', hc.append hp⟩

end Passes

/-- How the scan of a part of a body goes on in the new text: what stands before looks alike, or a
call before it is left out, and no operator follows that belonged to it. -/
inductive Resumes (ctx dtx : ScanContext) (ps : List Piece) : Bool → Prop where
  | alike (h : ∀ rest rest', Alike rest rest' ctx dtx) : Resumes ctx dtx ps false
  | chained (hlast : ctx.last = some ')') (hfresh : dtx.Fresh) (hgoes : goesOn ps = false) :
      Resumes ctx dtx ps true

theorem goesOn_of_append (h : goesOn (ps ++ qs) = false) : goesOn ps = false := by
  rw [goesOn] at h
  rw [goesOn]
  cases hf : ps.find? (!·.isGap) with
  | none => rfl
  | some p => simpa [hf] using h

theorem Resumes.of_append (h : Resumes ctx dtx (ps ++ qs) chained) : Resumes ctx dtx ps chained := by
  cases h with
  | alike h => exact .alike h
  | chained hl hf hg => exact .chained hl hf (goesOn_of_append hg)

namespace Passes

variable {back : List Char} {ctx ctx' dtx : ScanContext} {ps : List Piece}

theorem kept (h : Passes true back ctx ps ctx') (hpl : PlainBlanks ps)
    (hr : Resumes ctx dtx ps chained) (back' : List Char) (hm : ∀ p ∈ ps.getLast?, p.Meets back'.head?) :
    ∃ dtx', Passes true back' dtx (kept chained ps) dtx' := by
  cases hr with
  | alike ha =>
    obtain ⟨dtx', hpa, -⟩ := h.transfer (ha _ _) hm
    exact ⟨dtx', hpa⟩
  | chained hl hf hg =>
    have hm' : ∀ p ∈ (kept true ps).getLast?, p.Meets back'.head? := fun p hp => hm p (getLast?_of_suffix (kept_suffix true ps) hp)
    obtain ⟨blanks, rest, hb, hk, hs⟩ := kept_cases ps
    have hga : ∀ p ∈ blanks, p.isGap := fun p hp => isGap_of_isBlankCode (hb p hp)
    rw [hk] at hm' ⊢
    rcases hs with rfl | ⟨rfl, -⟩
    · -- The scan goes on behind the semicolon.
      obtain ⟨mid, hfr, hre⟩ := h.split fun c hc hn => absurd (mem_of_getLast? hn) (not_mem_of_isBlankCode hb hc)
      rw [show Piece.code ';' :: rest = [.code ';'] ++ rest from rfl] at hre
      obtain ⟨mid', hma, hre⟩ := hre.split (by rintro c (rfl | rfl) ⟨⟩)
      rw [← nil_append [Piece.code ';']] at hma
      have hi : mid'.Fresh := by
        rw [ScanContext.Fresh, hma.last_of_mark (by decide) (by decide)]
        rintro d ⟨⟩
        decide
      obtain ⟨dtx', hpa, -⟩ := hre.transfer (hi.isOpen.alike hf.isOpen _ _) hm'
      exact ⟨dtx', hpa⟩
    · obtain ⟨mid, hfr, hre⟩ := h.split fun c hc hn => absurd (mem_of_getLast? hn) (not_mem_of_isBlankCode hb hc)
      rw [goesOn_blanks_append hb] at hg
      have hi : mid.last = some ')' := by
        rw [hfr.last_of_gaps hga fun c hc => hpl c (mem_append_left _ hc), hl]
      exact hre.transfer_fresh hi hf (hpl.of_suffix (suffix_append _ _)) hg hm'

end Passes

/-! ### Bodies with their calls replaced -/

section Replaced

variable (alias? : ParentCall → Option String)

/-- The pieces of the call of an alias, with the arguments of the call that it replaces. -/
def CallSite.replacement (site : CallSite) (name : String) : List Piece :=
  name.toList.map .code ++ ([.code '('] ++ (trimPieces site.inside ++ [.code ')']))

/-- The pieces of the sites and the tail with the calls replaced by their aliases or left out; with
`chained`, the first part is behind one left out. -/
def replaced (chained : Bool) : List CallSite → List Piece → List Piece
  | [], tail => kept chained tail
  | site :: sites, tail =>
    kept chained site.before ++
      match alias? site.call with
      | some name => site.replacement name ++ replaced false sites tail
      | none => replaced true sites tail

/-- A call that can be replaced where it stands, with `behind` to follow. An alias must not be
joined to what stands before it, and its arguments must have no calls and end before their
parenthesis; a call that is left out must be a statement of its own. -/
def CallSite.IsClean (first : Bool) (site : CallSite) (behind : List Piece) : Prop :=
  match alias? site.call with
  | some _ => joinsWord site.before = false ∧ site.before.getLast? ≠ some (.code '^') ∧ NoCalls [] [] site.inside ∧
      endsInLineComment site.inside = false
  | none => endsStatement first site.before = true ∧ goesOn behind = false

/-- All calls can be replaced where they stand. -/
def AreClean (first : Bool) : List CallSite → List Piece → Prop
  | [], _ => True
  | site :: sites, tail =>
    site.IsClean alias? first (sites.flatMap CallSite.pieces ++ tail) ∧ AreClean false sites tail

end Replaced

namespace Passes

variable {back : List Char} {ctx ctx' : ScanContext} {ps : List Piece}

theorem meets_of_caret (h : Passes true ('^' :: rest) ctx ps ctx') (hp : p ∈ ps.getLast?) : p.Meets (some '_') := by
  refine Piece.meets_of_ne (by decide) (by decide) ?_
  rintro comment rfl
  exact absurd (h.meets_literal hp '^' rfl) (by decide)

/-- The last piece before a call that is left out. -/
theorem last_of_endsStatement (h : Passes true ('^' :: rest) ctx ps ctx') (he : endsStatement first ps) (hp : p ∈ ps.getLast?) :
    (∃ c, p = .code c ∧ (c ∈ statementMarks ∨ isBlank c)) ∨ ∃ text, p = .literal .blockComment (text ++ ['/']) := by
  have hg (hg : p.isGap) : (∃ c, p = .code c ∧ (c ∈ statementMarks ∨ isBlank c)) ∨ ∃ text, p = .literal .blockComment (text ++ ['/']) := by
    cases p with
    | code c => exact .inl ⟨c, rfl, .inr hg⟩
    | literal kind text =>
      cases kind with
      | quoted | pattern => cases hg
      | lineComment => exact absurd (h.meets_literal hp '^' rfl) (by decide)
      | blockComment =>
        obtain ⟨init, d, rfl, -, hd, -⟩ := h.exists_last_of_mem (mem_of_getLast? hp) nofun
        exact .inr ⟨init, by rw [hd rfl]⟩
  rcases endsStatement_cases he with ⟨-, ha⟩ | ⟨init, c, gaps, hs, hc, ha⟩
  · exact hg (ha p (mem_of_getLast? hp))
  · rcases eq_nil_or_concat gaps with rfl | ⟨gaps, q, rfl⟩
    · rw [hs, getLast?_concat] at hp
      cases hp
      exact .inl ⟨c, rfl, .inl hc⟩
    · have hq : q = p := by
        rw [hs, concat_eq_append, ← cons_append, ← append_assoc, getLast?_concat] at hp
        exact Option.some.inj hp
      exact hg (hq ▸ ha q (by simp))

theorem meets_of_endsStatement (h : Passes true ('^' :: rest) ctx ps ctx')
    (he : endsStatement first ps) (hp : p ∈ ps.getLast?) (next? : Option Char) : p.Meets next? := by
  obtain ⟨c, rfl, hc⟩ | ⟨text, rfl⟩ := h.last_of_endsStatement he hp
  · have hs : c ≠ '/' ∧ c ≠ '+' ∧ c ≠ '-' := by
      rcases hc with hc | hb
      · exact (statementMarks_spec hc).2.2.2.2.2.2.2
      · refine ⟨?_, ?_, ?_⟩ <;>
        · rintro rfl
          cases hb
    exact ⟨fun h => absurd h hs.1, fun h => absurd h (not_or.2 hs.2)⟩
  · trivial

/-- A scan of a body passes over a site in parts: the pieces before the call, what stands in its
parentheses, and all that follows. -/
theorem exists_of_site (h : Passes true [] ctx (site.pieces ++ ps) ctx') :
    ∃ (rest post : List Char) (c₁ c₂ c₃ c₄ : ScanContext), Passes true ('^' :: rest) ctx site.before c₁ ∧
      c₂.last = some '(' ∧ Passes true (')' :: post) c₂ site.inside c₃ ∧ c₄.last = some ')' ∧ Passes true [] c₄ ps ctx' := by
  have hu : site.pieces ++ ps = site.before ++ ((.code '^' :: (site.call.headText ++ site.blanks).map .code ++ [.code '(']) ++
        (site.inside ++ ([.code ')'] ++ ps))) := by
    simp [CallSite.pieces, CallSite.callPieces]
  rw [hu] at h
  obtain ⟨c₁, hb, h⟩ := h.split (by rintro c (rfl | rfl) - ⟨⟩)
  obtain ⟨c₂, hh, h⟩ := h.split (by
    rintro c hc hl
    rw [getLast?_concat] at hl
    cases hl
    rcases hc with h | h <;> cases h)
  obtain ⟨c₃, hi, h⟩ := h.split (by rintro c (rfl | rfl) - ⟨⟩)
  obtain ⟨c₄, hcl, h⟩ := h.split (by rintro c (rfl | rfl) ⟨⟩)
  rw [← nil_append [Piece.code ')']] at hcl
  exact ⟨_, _, c₁, c₂, c₃, c₄, hb, hh.last_of_mark (by decide) (by decide), hi, hcl.last_of_mark (by decide) (by decide), h⟩

end Passes

/-- A name that begins with an underscore. -/
def IsAlias (name : String) : Prop := ∃ cs, name.toList = '_' :: cs ∧ ∀ c ∈ cs, isNameChar c = true

theorem IsAlias.isNameChar (h : IsAlias name) : ∀ c ∈ name.toList, isNameChar c := by
  obtain ⟨cs, hn, hc⟩ := h
  rw [hn, forall_mem_cons]
  exact ⟨by decide, hc⟩

theorem Passes.trimmed (h : Passes true back ctx ps ctx') (hpl : PlainBlanks ps) (hl : ctx.last = some '(')
    (hd : dtx.last = some '(') (he : endsInLineComment ps = false) (back' : List Char) :
    ∃ dtx', Passes true (')' :: back') dtx (trimPieces ps) dtx' := by
  obtain ⟨front, post, ha, hf, haf, -, -⟩ := exists_trimmed ps
  have hg : ∀ p ∈ front, p.isGap := fun p hp => isGap_of_isBlankCode (hf p hp)
  rw [ha] at h
  obtain ⟨mid, hb, h⟩ := h.split fun c hc hn => absurd (mem_of_getLast? hn) (not_mem_of_isBlankCode hf hc)
  have hm : mid.last = some '(' := by
    rw [hb.last_of_gaps hg fun c hc => hpl c (ha ▸ mem_append_left _ hc), hl]
  obtain ⟨mid', ht, -⟩ := h.split fun c hc _ hn => absurd (mem_of_head? hn) (not_mem_of_isBlankCode haf hc)
  have hme : ∀ p ∈ (trimPieces ps).getLast?, p.Meets (')' :: back').head? := by
    refine fun p hp => Piece.meets_of_ne (by decide) (by decide) ?_
    rintro comment rfl
    rw [endsInLineComment, Option.mem_def.1 hp] at he
    cases he
  have hal (rest rest' : List Char) : Alike rest rest' mid dtx := alike_of_last (by decide : isPlainWordChar '(' = false) hm hd
  obtain ⟨dtx', hpa, -⟩ := ht.transfer (hal _ _) hme
  exact ⟨dtx', hpa⟩

theorem IsAlias.passes_replacement (hn : IsAlias name) (h : Passes true back ctx site.inside ctx') (hp : PlainBlanks site.inside)
    (hl : ctx.last = some '(') (he : endsInLineComment site.inside = false) (back' : List Char) (dtx : ScanContext) :
    ∃ dtx', dtx'.last = some ')' ∧ Passes true back' dtx (site.replacement name) dtx' := by
  let rest := trimPieces site.inside ++ [.code ')']
  obtain ⟨d₁, hco⟩ := Passes.exists_codes (fun c hc => isPlainCode_of_isNameChar (hn.isNameChar c hc))
    (([Piece.code '('] ++ rest).flatMap Piece.chars ++ back') dtx
  have ho := Passes.mark (by decide : isPlainCode '(') (rest.flatMap Piece.chars ++ back') d₁
  obtain ⟨d₂, ht⟩ := h.trimmed hp hl (rfl : (d₁.afterCode '(' _).last = some '(') he back'
  have hcl := Passes.mark (by decide : isPlainCode ')') back' d₂
  exact ⟨d₂.afterCode ')' back', rfl, hco.append (ho.append (ht.append hcl))⟩

theorem IsAlias.head?_eq (hn : IsAlias name) (site : CallSite) (ps : List Piece)
    (back : List Char) : ((site.replacement name ++ ps).flatMap Piece.chars ++ back).head? = some '_' := by
  obtain ⟨cs, hc, -⟩ := hn
  rw [CallSite.replacement, hc]
  rfl

theorem passes_replaced {alias? : ParentCall → Option String} {sites : List CallSite} {tail : List Piece}
    (hn : ∀ site ∈ sites, ∀ name ∈ alias? site.call, IsAlias name) (h : Passes true [] ctx (sites.flatMap CallSite.pieces ++ tail) ctx')
    (hl : PlainBlanks (sites.flatMap CallSite.pieces ++ tail)) (hr : Resumes ctx dtx (sites.flatMap CallSite.pieces ++ tail) chained)
    (hf : (first || chained) → dtx.Fresh) (hcl : AreClean alias? first sites tail) :
    ∃ dtx', Passes true [] dtx (replaced alias? chained sites tail) dtx' := by
  induction sites generalizing ctx dtx chained first with
  | nil => exact h.kept hl hr [] fun p _ => p.meets_none
  | cons site sites ih =>
    rw [flatMap_cons, append_assoc] at h hl hr
    obtain ⟨rest, post, c₁, c₂, c₃, c₄, hb, ho, hi, hco, hm⟩ := h.exists_of_site
    obtain ⟨hs, hsi⟩ := hcl
    rw [forall_mem_cons] at hn
    have hpa : PlainBlanks (sites.flatMap CallSite.pieces ++ tail) := hl.of_suffix (suffix_append _ _)
    have hpi : PlainBlanks site.before := fun c hc => hl c (by simp [CallSite.pieces, hc])
    have hpn : PlainBlanks site.inside := fun c hc =>
      hl c (by simp [CallSite.pieces, CallSite.callPieces, hc])
    have hre : Resumes ctx dtx site.before chained := by
      rw [CallSite.pieces, append_assoc] at hr
      exact hr.of_append
    rw [CallSite.IsClean] at hs
    rw [replaced]
    cases ha : alias? site.call with
    | some name =>
      rw [ha] at hs
      obtain ⟨-, -, -, he⟩ := hs
      have hna := hn.1 name ha
      obtain ⟨d₁, hk⟩ := hb.kept hpi hre
        ((site.replacement name ++ replaced alias? false sites tail).flatMap Piece.chars ++ []) fun p hp => by
          rw [hna.head?_eq]
          exact hb.meets_of_caret hp
      obtain ⟨d₂, hd₂, hca⟩ := hna.passes_replacement hi hpn ho he
        ((replaced alias? false sites tail).flatMap Piece.chars ++ []) d₁
      obtain ⟨dtx', hrs⟩ := ih hn.2 hm hpa
        (.alike fun _ _ => alike_of_last (by decide : isPlainWordChar ')' = false) hco hd₂) (by simp) hsi
      exact ⟨dtx', hk.append (hca.append hrs)⟩
    | none =>
      rw [ha] at hs
      obtain ⟨he, hg⟩ := hs
      obtain ⟨d₁, hk⟩ := hb.kept hpi hre ((replaced alias? true sites tail).flatMap Piece.chars ++ []) fun p hp =>
          hb.meets_of_endsStatement he hp _
      have hfr : d₁.Fresh := hk.fresh (hpi.of_suffix (kept_suffix chained site.before))
        (endsStatement_kept chained he) hf
      obtain ⟨dtx', hrs⟩ := ih hn.2 hm hpa (.chained hco hfr hg) (fun _ => hfr) hsi
      exact ⟨dtx', hk.append hrs⟩

end Pagewright
