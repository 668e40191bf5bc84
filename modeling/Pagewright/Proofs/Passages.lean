import Pagewright.Proofs.Rescan

/-!
# Texts scanned in parts

`Passes` tells a scan over some pieces, from one context to another, with a text to follow. Passages
put together are a passage (`Passes.append`), one is cut between any two pieces that are no doubled
sign (`Passes.split`), and one to the end of a text is its scan (`Scans`).

What is passed over in one text is passed over in another, if what stands before it is told apart in
the same way (`Alike`) and what follows does not run into its last piece (`Passes.resume`). A slash
needs care that could begin a pattern but is code, since the pattern has no end on its line
(`OpenSlash`): in another text it may find one, and that is all that can go wrong
(`Passes.resume_iff`). A strict passage meets no such slash (`endsPatterns`).

A text that ends early has the pieces that it has in the longer text (`Scans.front`); the last one
may be what is left of a comment up to the end of its line (`IsFront`). So what stands between two
brackets has the pieces that it has there (`pieces_inside`). -/

namespace Pagewright

open List
open Piece (chars)

variable {rest cs text more rest' : List Char} {kind : LiteralKind} {whole body post pre : List Piece}
  {ds back' tail lit : List Char} {p : Piece}

variable {strict bracketed spaced spaced' : Bool} {ctx ctx' dtx mid dtx' : ScanContext} {c closer d opener : Char}
  {o n : Nat} {back : List Char} {ps qs : List Piece}

/-! ### Contexts that look alike -/

/-- Two scans, with `rest` and `rest'` to come, tell apart what follows in the same way: both stand
behind a word, the same as far as it has been read, or they agree on patterns and operands. Whether
a blank comes last counts only before a word. -/
structure Alike (rest rest' : List Char) (ctx dtx : ScanContext) : Prop where
  inWord_eq : ctx.last.any isPlainWordChar = dtx.last.any isPlainWordChar
  spaced_eq : ctx.last.any isPlainWordChar = true → rest.head?.any isPlainWordChar = true → ctx.spaced = dtx.spaced
  word_eq : ctx.last.any isPlainWordChar = true → ∃ w w', ctx.word = w ++ rest ∧ dtx.word = w' ++ rest' ∧
    ∀ cs, (w ++ cs).takeWhile isPlainWordChar = (w' ++ cs).takeWhile isPlainWordChar
  allows_eq : ctx.last.any isPlainWordChar = false → ctx.allowsPattern = dtx.allowsPattern
  operand_eq : ctx.last.any isPlainWordChar = false → ctx.endsOperand = dtx.endsOperand

theorem ScanContext.endsOperand_of_inWord (h : ctx.last.any isPlainWordChar) : ctx.endsOperand := by
  obtain ⟨c, hc, hw⟩ := (Option.any_eq_true _ _).1 h
  simp [endsOperand, hc, hw]

theorem ScanContext.allowsPattern_of_inWord (h : ctx.last.any isPlainWordChar) :
    ctx.allowsPattern = patternWords.contains (String.ofList (ctx.word.takeWhile isPlainWordChar)) := by
  obtain ⟨c, hc, hw⟩ := (Option.any_eq_true _ _).1 h
  simp [allowsPattern, hc, hw]

/-- Contexts behind the same mark are alike, whatever stands before it and behind it. -/
theorem alike_of_last (hc : isPlainWordChar c = false) (ht : ctx.last = some c)
    (hd : dtx.last = some c) : Alike rest rest' ctx dtx where
  inWord_eq := by rw [ht, hd]
  spaced_eq h _ := by simp [ht, hc] at h
  word_eq h := by simp [ht, hc] at h
  allows_eq _ := by simp [ScanContext.allowsPattern, ht, hd, hc]
  operand_eq _ := by rw [ScanContext.endsOperand, ScanContext.endsOperand, ht, hd]

/-- Behind a literal that is no comment only its last character counts. -/
theorem alike_afterLiteral (ctx dtx : ScanContext)
    (hb : kind.Begins c cs) (hk : kind ≠ .lineComment ∧ kind ≠ .blockComment) (rest rest' : List Char) :
    Alike rest rest' (ctx.afterLiteral kind) (dtx.afterLiteral kind) := by
  cases kind with
  | quoted quote =>
    obtain ⟨rfl, hq⟩ := hb
    refine alike_of_last (c := c) ?_ rfl rfl
    rcases hq with rfl | rfl | rfl <;> decide
  | pattern => exact alike_of_last (by decide : isPlainWordChar '/' = false) rfl rfl
  | lineComment => exact absurd rfl hk.1
  | blockComment => exact absurd rfl hk.2

theorem takeWhile_append_of_not {p : Char → Bool} (hc : p c = false) (cs rest : List Char) :
    (cs ++ c :: rest).takeWhile p = cs.takeWhile p := by
  rw [takeWhile_append, takeWhile_cons_of_neg (by simp [hc]), append_nil]
  split_ifs with ha
  · exact ((takeWhile_sublist _).eq_of_length ha).symm
  · rfl

namespace Alike

variable {rest rest' : List Char}

theorem endsOperand_eq (h : Alike rest rest' ctx dtx) : ctx.endsOperand = dtx.endsOperand := by
  cases hw : ctx.last.any isPlainWordChar with
  | false => exact h.operand_eq hw
  | true => rw [ScanContext.endsOperand_of_inWord hw, ScanContext.endsOperand_of_inWord (h.inWord_eq ▸ hw)]

theorem allowsPattern_eq (h : Alike (c :: rest) (c :: rest') ctx dtx)
    (hc : isPlainWordChar c = false) : ctx.allowsPattern = dtx.allowsPattern := by
  cases hw : ctx.last.any isPlainWordChar with
  | false => exact h.allows_eq hw
  | true =>
    obtain ⟨w, w', ht, hd, hs⟩ := h.word_eq hw
    rw [ScanContext.allowsPattern_of_inWord hw, ScanContext.allowsPattern_of_inWord (h.inWord_eq ▸ hw),
      ht, hd, hs, takeWhile_append_of_not hc, takeWhile_append_of_not hc]

theorem shift {front : List Char} (h : Alike (front ++ rest) (front ++ rest') ctx dtx)
    (spaced : Bool) : Alike rest rest' { ctx with spaced } { dtx with spaced } := by
  refine { h with spaced_eq := fun _ _ => rfl, word_eq := fun hw => ?_ }
  obtain ⟨w, w', hc, hd, hs⟩ := h.word_eq hw
  exact ⟨w ++ front, w' ++ front, by rw [hc, append_assoc], by rw [hd, append_assoc], fun cs => by
    rw [append_assoc, hs, append_assoc]⟩

theorem skip (h : Alike (c :: cs ++ rest) (d :: ds ++ rest') ctx dtx)
    (hc : isPlainWordChar c = false) (hd : isPlainWordChar d = false)
    (hs : ctx.last.any isPlainWordChar → rest.head?.any isPlainWordChar → spaced = spaced') :
    Alike rest rest' { ctx with spaced } { dtx with spaced := spaced' } := by
  refine { h with spaced_eq := hs, word_eq := fun hw => ?_ }
  obtain ⟨w, w', ht, hdt, ha⟩ := h.word_eq hw
  refine ⟨w ++ c :: cs, w' ++ d :: ds, by rw [ht, append_assoc], by rw [hdt, append_assoc], fun es => ?_⟩
  rw [append_assoc, append_assoc, cons_append, cons_append, takeWhile_append_of_not hc, takeWhile_append_of_not hd]
  simpa using ha []

theorem afterCode (h : Alike (c :: rest) (c :: rest') ctx dtx) :
    Alike rest rest' (ctx.afterCode c rest) (dtx.afterCode c rest') := by
  have hn : Alike ([c] ++ rest) ([c] ++ rest') ctx dtx := h
  unfold ScanContext.afterCode
  by_cases hb : isPlainBlank c
  · rw [if_pos hb, if_pos hb]
    exact hn.shift true
  · have he : (isPlainWordChar c && (!dtx.last.any isPlainWordChar || dtx.spaced)) =
        (isPlainWordChar c && (!ctx.last.any isPlainWordChar || ctx.spaced)) := by
      rw [← h.inWord_eq]
      cases hc : isPlainWordChar c with
      | false => rfl
      | true =>
        cases hw : ctx.last.any isPlainWordChar with
        | false => rfl
        | true => rw [h.spaced_eq hw hc]
    rw [he]
    split_ifs with hne
    · -- A word begins.
      exact ⟨rfl, fun _ _ => rfl, fun _ => ⟨[c], [c], rfl, rfl, fun _ => rfl⟩, fun _ => by simp_all, fun _ => rfl⟩
    · cases hc : isPlainWordChar c with
      | false => exact alike_of_last hc rfl rfl
      | true =>
        -- A word goes on.
        have hw : ctx.last.any isPlainWordChar := by
          simp only [hc, Bool.true_and, Bool.or_eq_true, Bool.not_eq_true', not_or, Bool.not_eq_false] at hne
          exact hne.1
        exact ⟨rfl, fun _ _ => rfl, fun _ => (hn.shift false).word_eq hw, fun h => by simp [hc] at h, fun _ => rfl⟩

theorem afterStep (ctx dtx : ScanContext) : Alike rest rest' ctx.afterStep dtx.afterStep :=
  alike_of_last (by decide : isPlainWordChar ')' = false) rfl rfl

theorem afterLiteral {front : List Char} (h : Alike (front ++ rest) (front ++ rest') ctx dtx)
    (hb : kind.Begins c cs) : Alike rest rest' (ctx.afterLiteral kind) (dtx.afterLiteral kind) := by
  cases kind with
  | quoted | pattern => exact alike_afterLiteral ctx dtx hb ⟨nofun, nofun⟩ rest rest'
  | lineComment | blockComment => exact h.shift false

end Alike

/-- A scan stands where nothing has begun that goes on: a slash begins a pattern, and a doubled sign
stands before an operand. -/
structure ScanContext.IsOpen (ctx : ScanContext) : Prop where
  inWord_eq : ctx.last.any isPlainWordChar = false
  allowsPattern_eq : ctx.allowsPattern = true
  endsOperand_eq : ctx.endsOperand = false

theorem isOpen_start : ScanContext.IsOpen {} := ⟨rfl, rfl, rfl⟩

/-- Behind the mark a text begins as it does at its very beginning. -/
def IsOpenMark (c : Char) : Prop := isPlainWordChar c = false ∧ c ∈ patternMarks ∧ c ≠ ')' ∧ c ≠ ']'

instance (c : Char) : Decidable (IsOpenMark c) := inferInstanceAs (Decidable (_ ∧ _))

theorem isOpen_of_last (h : ctx.last = some c) (hc : IsOpenMark c) : ctx.IsOpen := by
  obtain ⟨hw, hp, hr, hs⟩ := hc
  refine ⟨by simp [h, hw], ?_, ?_⟩
  · simp [ScanContext.allowsPattern, h, hw, hp]
  · simp [ScanContext.endsOperand, h, hw, hr, hs]

theorem ScanContext.IsOpen.alike (h : ctx.IsOpen) (h' : dtx.IsOpen) (rest rest' : List Char) : Alike rest rest' ctx dtx where
  inWord_eq := by rw [h.inWord_eq, h'.inWord_eq]
  spaced_eq := by rw [h.inWord_eq]; nofun
  word_eq := by rw [h.inWord_eq]; nofun
  allows_eq := by rw [h.allowsPattern_eq, h'.allowsPattern_eq]; exact fun _ => rfl
  operand_eq := by rw [h.endsOperand_eq, h'.endsOperand_eq]; exact fun _ => rfl

/-! ### Passages -/
/-- A scan passes over the pieces from one context to another, with `back` to follow. If it is
strict, no slash that it takes for code could have begun a pattern. -/
inductive Passes (strict : Bool) (back : List Char) : ScanContext → List Piece → ScanContext → Prop where
  | nil (ctx : ScanContext) : Passes strict back ctx [] ctx
  | literal {ctx ctx' : ScanContext} {kind : LiteralKind} {c : Char} {lit : List Char} {ps : List Piece}
      (hopening : opening ctx c (lit ++ (ps.flatMap chars ++ back)) = .literal kind lit.length)
      (hrest : Passes strict back (ctx.afterLiteral kind) ps ctx') :
      Passes strict back ctx (.literal kind (c :: lit) :: ps) ctx'
  | doubled {ctx ctx' : ScanContext} {c : Char} {ps : List Piece}
      (hopening : opening ctx c (c :: (ps.flatMap chars ++ back)) = .doubled)
      (hrest : Passes strict back ctx.afterStep ps ctx') : Passes strict back ctx (.code c :: .code c :: ps) ctx'
  | code {ctx ctx' : ScanContext} {c : Char} {ps : List Piece}
      (hslash : strict = true → c = '/' → ctx.allowsPattern = false)
      (hopening : opening ctx c (ps.flatMap chars ++ back) = .plain)
      (hrest : Passes strict back (ctx.afterCode c (ps.flatMap chars ++ back)) ps ctx') :
      Passes strict back ctx (.code c :: ps) ctx'

/-- Whether every slash of a text that could begin a pattern begins one. -/
def endsPatterns (ctx : ScanContext) (cs : List Char) : Bool :=
  match cs with
  | [] => true
  | c :: rest =>
    match opening ctx c rest with
    | .literal kind n => endsPatterns (ctx.afterLiteral kind) (rest.drop n)
    | .unterminated _ => true
    | .doubled => endsPatterns ctx.afterStep (rest.drop 1)
    | .plain => !(c = '/' && ctx.allowsPattern) && endsPatterns (ctx.afterCode c rest) rest
termination_by cs.length
decreasing_by all_goals simp; try omega

theorem passes_of_piecesFrom (h : piecesFrom ctx o cs = .ok ps)
    (he : strict → endsPatterns ctx cs) : ∃ ctx', Passes strict [] ctx ps ctx' := by
  fun_induction piecesFrom ctx o cs generalizing ps with
  | case1 ctx =>
    cases h
    exact ⟨ctx, .nil ctx⟩
  | case2 ctx o c rest kind n ho ih =>
    obtain ⟨qs, hq, rfl⟩ := exists_of_map_eq_ok h
    rw [endsPatterns, ho] at he
    obtain ⟨ctx', hp⟩ := ih hq he
    refine ⟨ctx', .literal ?_ hp⟩
    have hn : n ≤ rest.length := (opening_eq_literal ho).le_length
    rw [piecesFrom_chars hq, append_nil, take_append_drop, ho, length_take, Nat.min_eq_left hn]
  | case3 => cases h
  | case4 ctx o c rest ho ih =>
    obtain ⟨qs, hq, rfl⟩ := exists_of_map_eq_ok h
    obtain ⟨-, hh⟩ := sign_of_opening ho
    obtain ⟨back, rfl⟩ := head?_eq_some_iff.1 hh
    rw [endsPatterns, ho] at he
    obtain ⟨ctx', hp⟩ := ih hq he
    have hb : qs.flatMap chars ++ [] = back := by rw [piecesFrom_chars hq, append_nil]; rfl
    exact ⟨ctx', .doubled (hb ▸ ho) hp⟩
  | case5 ctx o c rest ho ih =>
    obtain ⟨qs, hq, rfl⟩ := exists_of_map_eq_ok h
    rw [endsPatterns, ho] at he
    simp only [Bool.and_eq_true, Bool.not_eq_true', Bool.and_eq_false_iff, decide_eq_false_iff_not] at he
    obtain ⟨ctx', hp⟩ := ih hq fun hs => (he hs).2
    have hr : qs.flatMap chars ++ [] = rest := by rw [piecesFrom_chars hq, append_nil]
    refine ⟨ctx', .code (fun hs hc => (he hs).1.resolve_left (absurd hc)) ?_ ?_⟩
    · rw [hr, ho]
    · rw [hr]
      exact hp
theorem getLast?_of_suffix (h : qs <:+ ps) (hp : p ∈ qs.getLast?) : p ∈ ps.getLast? := by
  obtain ⟨front, rfl⟩ := h
  rw [getLast?_append, Option.mem_def.1 hp]
  rfl

/-- The piece is one of a scan, in some context and with something behind it. -/
def Piece.IsRead : Piece → Prop
  | code c => ¬(c = '\'' ∨ c = '"' ∨ c = '`')
  | literal kind text => ∃ ctx c lit back, text = c :: lit ∧ kind.Takes ctx c (lit ++ back) lit.length

theorem not_quote_of_opening (h : opening ctx c rest = .plain ∨ opening ctx c rest = .doubled) :
    ¬(c = '\'' ∨ c = '"' ∨ c = '`') := by
  intro hq
  unfold opening at h
  rw [if_pos (by simpa [or_assoc] using hq)] at h
  rcases h with h | h <;> split at h <;> cases h

theorem Passes.isRead (h : Passes strict back ctx ps ctx') : ∀ p ∈ ps, p.IsRead := by
  induction h with
  | nil => exact nofun
  | literal ho _ ih => exact forall_mem_cons.2 ⟨⟨_, _, _, _, rfl, opening_eq_literal ho⟩, ih⟩
  | doubled ho _ ih =>
    have hc := not_quote_of_opening (.inr ho)
    exact forall_mem_cons.2 ⟨hc, forall_mem_cons.2 ⟨hc, ih⟩⟩
  | code _ ho _ ih => exact forall_mem_cons.2 ⟨not_quote_of_opening (.inl ho), ih⟩

/-- No doubled sign stands between the pieces. -/
def SignApart (ps qs : List Piece) : Prop :=
  ∀ c, c = '+' ∨ c = '-' → ps.getLast? = some (.code c) → qs.head? ≠ some (.code c)

namespace Passes

theorem append (h : Passes strict (qs.flatMap chars ++ back) ctx ps mid)
    (hq : Passes strict back mid qs ctx') : Passes strict back ctx (ps ++ qs) ctx' := by
  have ht (ps : List Piece) : (ps ++ qs).flatMap chars ++ back =
      ps.flatMap chars ++ (qs.flatMap chars ++ back) := by simp
  induction h with
  | nil => exact hq
  | @literal _ _ _ _ _ ps ho hr ih => exact .literal (by rw [← ht ps] at ho; exact ho) (ih hq)
  | @doubled _ _ _ ps ho hr ih => exact .doubled (by rw [← ht ps] at ho; exact ho) (ih hq)
  | @code _ _ _ ps hs ho hr ih =>
    rw [← ht ps] at ho ih
    exact .code hs ho (ih hq)

theorem split_cases (h : Passes strict back ctx (ps ++ qs) ctx') :
    (∃ mid, Passes strict (qs.flatMap chars ++ back) ctx ps mid ∧ Passes strict back mid qs ctx') ∨
      ∃ front c rest mid, ps = front ++ [.code c] ∧ qs = .code c :: rest ∧ (c = '+' ∨ c = '-') ∧
        Passes strict (c :: c :: (rest.flatMap chars ++ back)) ctx front mid := by
  generalize hw : ps ++ qs = whole at h
  induction h generalizing ps with
  | nil ctx =>
    obtain ⟨rfl, rfl⟩ := append_eq_nil_iff.1 hw
    exact .inl ⟨ctx, .nil ctx, .nil ctx⟩
  | literal ho hr ih =>
    rcases append_eq_cons_iff.1 hw with ⟨rfl, rfl⟩ | ⟨ps, rfl, rfl⟩
    · exact .inl ⟨_, .nil _, .literal ho hr⟩
    · rcases ih rfl with ⟨mid, hf, hb⟩ | ⟨front, c, rest, mid, rfl, rfl, hc, hf⟩
      · rw [flatMap_append, append_assoc] at ho
        exact .inl ⟨mid, .literal ho hf, hb⟩
      · exact .inr ⟨_ :: front, c, rest, mid, rfl, rfl, hc, .literal (by simpa [chars] using ho) hf⟩
  | @doubled ctx ctx' c rest ho hr ih =>
    rcases append_eq_cons_iff.1 hw with ⟨rfl, rfl⟩ | ⟨ps, rfl, ht⟩
    · exact .inl ⟨_, .nil _, .doubled ho hr⟩
    · rcases append_eq_cons_iff.1 ht.symm with ⟨rfl, rfl⟩ | ⟨ps, rfl, rfl⟩
      · exact .inr ⟨[], c, rest, ctx, rfl, rfl, (sign_of_opening ho).1, .nil ctx⟩
      · rcases ih rfl with ⟨mid, hf, hb⟩ | ⟨front, d, rest, mid, rfl, rfl, hd, hf⟩
        · rw [flatMap_append, append_assoc] at ho
          exact .inl ⟨mid, .doubled ho hf, hb⟩
        · exact .inr ⟨_ :: _ :: front, d, rest, mid, rfl, rfl, hd, .doubled (by simpa [chars] using ho) hf⟩
  | code hs ho hr ih =>
    rcases append_eq_cons_iff.1 hw with ⟨rfl, rfl⟩ | ⟨ps, rfl, rfl⟩
    · exact .inl ⟨_, .nil _, .code hs ho hr⟩
    · rcases ih rfl with ⟨mid, hf, hb⟩ | ⟨front, c, rest, mid, rfl, rfl, hc, hf⟩
      · rw [flatMap_append, append_assoc] at ho hf
        exact .inl ⟨mid, .code hs ho hf, hb⟩
      · refine .inr ⟨_ :: front, c, rest, mid, rfl, rfl, hc, .code hs (by simpa [chars] using ho) ?_⟩
        simpa [chars] using hf

/-- A passage is cut between two pieces that are no doubled sign. -/
theorem split (h : Passes strict back ctx (ps ++ qs) ctx') (hs : SignApart ps qs) :
    ∃ mid, Passes strict (qs.flatMap chars ++ back) ctx ps mid ∧ Passes strict back mid qs ctx' := by
  rcases h.split_cases with hp | ⟨front, c, rest, mid, rfl, rfl, hc, -⟩
  · exact hp
  · exact absurd rfl (hs c hc getLast?_concat)

theorem exists_piecesFrom (h : Passes strict back ctx ps ctx') (o : Nat) : ∃ o',
    piecesFrom ctx o (ps.flatMap chars ++ back) = (piecesFrom ctx' o' back).map (ps ++ ·) := by
  have hm {r : Except Unterminated (List Piece)} (front ps : List Piece) :
      (r.map (ps ++ ·)).map (front ++ ·) = r.map (front ++ ps ++ ·) := by
    cases r <;> simp [Except.map]
  induction h generalizing o with
  | nil ctx =>
    refine ⟨o, ?_⟩
    rw [flatMap_nil, nil_append]
    cases piecesFrom ctx o back <;> rfl
  | @literal ctx ctx' kind c lit ps ho hr ih =>
    obtain ⟨o', hf⟩ := ih (o + byteSize (c :: lit))
    refine ⟨o', ?_⟩
    rw [flatMap_cons, chars, append_assoc, cons_append, piecesFrom]
    simp only [ho, take_left, drop_left, hf]
    exact hm [.literal kind (c :: lit)] ps
  | @doubled ctx ctx' c ps ho hr ih =>
    obtain ⟨o', hf⟩ := ih (o + byteSize [c, c])
    refine ⟨o', ?_⟩
    change piecesFrom ctx o (c :: c :: (ps.flatMap chars ++ back)) = _
    rw [piecesFrom]
    simp only [ho, take_succ_cons, take_zero, drop_succ_cons, drop_zero, hf]
    exact hm [.code c, .code c] ps
  | @code ctx ctx' c ps hs ho hr ih =>
    obtain ⟨o', hf⟩ := ih (o + c.utf8Size)
    refine ⟨o', ?_⟩
    change piecesFrom ctx o (c :: (ps.flatMap chars ++ back)) = _
    rw [piecesFrom]
    simp only [ho, hf]
    exact hm [.code c] ps

theorem piecesFrom_eq (h : Passes strict [] ctx ps ctx') (o : Nat) : piecesFrom ctx o (ps.flatMap chars) = .ok ps := by
  obtain ⟨o', hs⟩ := h.exists_piecesFrom o
  rw [append_nil, piecesFrom] at hs
  rw [hs, Except.map, append_nil]

theorem chars_ne_nil (h : Passes strict back ctx ps ctx') (hp : ps ≠ []) : ps.flatMap chars ≠ [] := by
  cases h with
  | nil => exact absurd rfl hp
  | literal | doubled | code => simp [chars]

theorem next_eq_or_meets (h : Passes strict back ctx ps ctx')
    (hm : rest.head? = back.head? ∨ ∀ q ∈ (p :: ps).getLast?, q.Meets rest.head?) :
    (ps.flatMap chars ++ rest).head? = (ps.flatMap chars ++ back).head? ∨ p.Meets (ps.flatMap chars ++ rest).head? := by
  cases ps with
  | nil => exact hm.imp_right fun h => h p rfl
  | cons q ps =>
    obtain ⟨d, cs, hc⟩ := exists_cons_of_ne_nil (h.chars_ne_nil (cons_ne_nil q ps))
    rw [hc]
    exact .inl rfl

theorem meets_next (h : Passes strict back ctx ps ctx') (ho : p.Meets (ps.flatMap chars ++ back).head?)
    (hm : rest.head? = back.head? ∨ ∀ q ∈ (p :: ps).getLast?, q.Meets rest.head?) : p.Meets (ps.flatMap chars ++ rest).head? := by
  rcases h.next_eq_or_meets hm with hs | hm
  · rwa [hs]
  · exact hm

theorem exists_last_of_mem (h : Passes strict back ctx ps ctx') (hm : .literal kind text ∈ ps) (hk : kind ≠ .lineComment) :
    ∃ init d, text = init ++ [d] ∧ isBlank d = false ∧ (kind = .blockComment → d = '/') ∧ d ≠ '\\' := by
  obtain ⟨_, c, lit, _, rfl, ht⟩ := h.isRead _ hm
  obtain ⟨init, d, rfl, hd⟩ := ht.exists_last hk
  exact ⟨c :: init, d, rfl, hd⟩

/-- The last of the pieces passed over, if it is a literal, meets what follows. -/
theorem meets_literal (h : Passes strict back ctx ps ctx')
    (hl : ps.getLast? = some (.literal kind text)) : (Piece.literal kind text).Meets back.head? := by
  obtain ⟨init, rfl⟩ := getLast?_eq_some_iff.1 hl
  obtain ⟨mid, -, he⟩ := h.split (by rintro c - - ⟨⟩)
  cases he with
  | literal ho hr => exact (opening_eq_literal ho).meets _

/-- Behind a mark of code that is no sign, the mark is what was last seen. -/
theorem last_of_mark (h : Passes strict back ctx (ps ++ [.code c]) ctx')
    (hb : isPlainBlank c = false) (hs : c ≠ '+' ∧ c ≠ '-') : ctx'.last = some c := by
  obtain ⟨mid, -, hl⟩ := h.split (by
    rintro d hd - heq
    cases heq
    rcases hd with rfl | rfl
    · exact hs.1 rfl
    · exact hs.2 rfl)
  cases hl with
  | code hsl ho hr =>
    cases hr
    rw [ScanContext.afterCode, if_neg (by simp [hb])]
    split_ifs <;> rfl

end Passes

/-! ### Passages in other texts -/

/-- No pattern that `text` leaves open ends in `back`. -/
structure KeepsSlashes (text back : List Char) : Prop where
  plain : ∀ bracketed, patternLength bracketed back = none
  escaped : text.getLast? = some '\\' → ∀ bracketed, patternLength bracketed (back.drop 1) = none

theorem KeepsSlashes.of_append (front : List Char) (h : KeepsSlashes (front ++ text) back) : KeepsSlashes text back := by
  refine ⟨h.plain, fun hl => h.escaped ?_⟩
  rw [getLast?_append, hl]
  rfl

theorem patternLength_append_mono {front : List Char} (hp : ∀ b, patternLength b cs = none → patternLength b ds = none)
    (he : front.getLast? = some '\\' → ∀ b, patternLength b (cs.drop 1) = none → patternLength b (ds.drop 1) = none)
    (h : patternLength bracketed (front ++ cs) = none) : patternLength bracketed (front ++ ds) = none := by
  induction front using escape_induction generalizing bracketed with
  | nil => exact hp bracketed h
  | escape d front ih =>
    rw [cons_append, cons_append, patternLength, Option.map_eq_none_iff] at h ⊢
    refine ih (fun hl => he ?_) h
    rw [getLast?_cons, getLast?_cons, hl]
    rfl
  | cons d front hf ih =>
    by_cases hd : d = '\\'
    · obtain rfl := hd
      obtain rfl := hf rfl
      cases ds with
      | nil => rfl
      | cons e ds =>
        rw [singleton_append, patternLength, Option.map_eq_none_iff]
        refine he rfl bracketed ?_
        cases cs with
        | nil => rfl
        | cons e cs => rwa [singleton_append, patternLength, Option.map_eq_none_iff] at h
    · rw [cons_append, patternLength_cons fun hd' => absurd hd' hd] at h ⊢
      split_ifs at h ⊢ with hb hn
      · rfl
      · rw [Option.map_eq_none_iff] at h ⊢
        refine ih (fun hl => he ?_) h
        rw [getLast?_cons, hl]
        rfl

theorem patternLength_append_eq_none (h : patternLength bracketed cs = none)
    (hk : KeepsSlashes cs back) : patternLength bracketed (cs ++ back) = none :=
  patternLength_append_mono (fun b _ => hk.plain b) (fun hl b _ => hk.escaped hl b)
    (show patternLength bracketed (cs ++ []) = none by rwa [append_nil])

/-- A slash where a pattern could begin is code exactly if no comment begins there and no pattern
ends. -/
theorem opening_slash_eq_plain (h : ctx.allowsPattern) : opening ctx '/' rest = .plain ↔
      rest.head? ≠ some '/' ∧ rest.head? ≠ some '*' ∧ patternLength false rest = none := by
  unfold opening
  rw [if_neg (by decide)]
  split_ifs with hl hb hd hp
  · have hh : rest.head? = some '/' := by simpa using hl
    simp [hh]
  · have hh : rest.head? = some '*' := by simpa using hb
    cases commentLength (rest.drop 1) <;> simp [hh]
  · simp at hd
  · cases patternLength false rest <;> simp_all
  · simp [h] at hp

theorem opening_plain_iff (h : opening ctx c back = .plain) (ha : Alike (c :: back) (c :: back') ctx dtx)
    (hm : back'.head? = back.head? ∨ (Piece.code c).Meets back'.head?) :
    opening dtx c back' = .plain ↔ (c = '/' → ctx.allowsPattern → patternLength false back' = none) := by
  have hh {d : Char} (hb : back.head? ≠ some d) (hn : (Piece.code c).Meets back'.head? → back'.head? ≠ some d) :
      back'.head? ≠ some d := by
    rcases hm with hs | hm
    · rwa [hs]
    · exact hn hm
  by_cases hsl : c = '/' ∧ ctx.allowsPattern
  · obtain ⟨rfl, hal⟩ := hsl
    obtain ⟨hl, hbl, -⟩ := (opening_slash_eq_plain hal).1 h
    rw [opening_slash_eq_plain (ha.allowsPattern_eq (by decide) ▸ hal)]
    refine ⟨fun h _ _ => h.2.2, fun h => ⟨?_, ?_, h rfl hal⟩⟩
    · exact hh hl fun hm => (hm.1 rfl).1
    · exact hh hbl fun hm => (hm.1 rfl).2
  · have hsl' : c = '/' → ctx.allowsPattern = false := by simpa using hsl
    obtain ⟨hq, hco, hi⟩ := (opening_eq_plain hsl').1 h
    refine iff_of_true ((opening_eq_plain fun hc => ?_).2 ⟨hq, fun hc => ?_, fun hc hn => ?_⟩)
      fun hc hal => absurd ⟨hc, hal⟩ hsl
    · rw [← ha.allowsPattern_eq (by rw [hc]; decide), hsl' hc]
    · exact ⟨hh (hco hc).1 fun hm => (hm.1 hc).1, hh (hco hc).2 fun hm => (hm.1 hc).2⟩
    · rw [← ha.endsOperand_eq]
      by_contra ho
      exact hh (fun hb => ho (hi hc hb)) (fun hm => hm.2 hc) hn

/-- In a scan of the pieces, with `back` to follow, the slash before `rest` could begin a pattern
but is code. -/
inductive OpenSlash (back : List Char) : ScanContext → List Piece → List Piece → Prop where
  | here {ctx : ScanContext} {rest : List Piece} (hallows : ctx.allowsPattern = true)
      (hopening : opening ctx '/' (rest.flatMap chars ++ back) = .plain) : OpenSlash back ctx (.code '/' :: rest) rest
  | literal {ctx : ScanContext} {kind : LiteralKind} {text : List Char} {ps rest : List Piece}
      (h : OpenSlash back (ctx.afterLiteral kind) ps rest) : OpenSlash back ctx (.literal kind text :: ps) rest
  | doubled {ctx : ScanContext} {c : Char} {ps rest : List Piece}
      (hopening : opening ctx c (c :: (ps.flatMap chars ++ back)) = .doubled)
      (h : OpenSlash back ctx.afterStep ps rest) : OpenSlash back ctx (.code c :: .code c :: ps) rest
  | code {ctx : ScanContext} {c : Char} {ps rest : List Piece}
      (hopening : opening ctx c (ps.flatMap chars ++ back) = .plain)
      (h : OpenSlash back (ctx.afterCode c (ps.flatMap chars ++ back)) ps rest) : OpenSlash back ctx (.code c :: ps) rest

namespace OpenSlash

variable {slash : List Piece}

theorem exists_front (h : OpenSlash back ctx ps slash) :
    patternLength false (slash.flatMap chars ++ back) = none ∧ ∃ front, ps = front ++ .code '/' :: slash := by
  induction h with
  | here ha ho => exact ⟨((opening_slash_eq_plain ha).1 ho).2.2, [], rfl⟩
  | literal _ ih | code _ _ ih =>
    obtain ⟨hn, front, rfl⟩ := ih
    exact ⟨hn, _ :: front, rfl⟩
  | doubled _ _ ih =>
    obtain ⟨hn, front, rfl⟩ := ih
    exact ⟨hn, _ :: _ :: front, rfl⟩

theorem not_strict (h : OpenSlash back ctx ps slash) (hp : Passes strict back ctx ps ctx') : strict = false := by
  induction h with
  | here ha ho =>
    cases hp with
    | code hs =>
      cases strict with
      | false => rfl
      | true => exact absurd ha (Bool.eq_false_iff.1 (hs rfl rfl))
    | doubled hd => exact absurd (sign_of_opening hd).1 (by decide)
  | literal _ ih =>
    cases hp with
    | literal _ hp => exact ih hp
  | doubled hd _ ih =>
    cases hp with
    | doubled _ hp => exact ih hp
    | code _ ho => exact absurd (hd.symm.trans ho) (by simp)
  | code ho _ ih =>
    cases hp with
    | code _ _ hp => exact ih hp
    | doubled hd => exact absurd (hd.symm.trans ho) (by simp)

end OpenSlash

namespace Passes

theorem not_doubled_of_plain (ho : ctx.endsOperand = dtx.endsOperand)
    (hp : opening ctx c (c :: back) = .plain) : opening dtx c (c :: back') ≠ .doubled := by
  intro hd
  have hs := (sign_of_opening hd).1
  rw [opening_eq_doubled hs, ← ho] at hd
  exact absurd (hp.symm.trans ((opening_eq_doubled hs).2 hd)) (by simp)

theorem alike (h : Passes strict back ctx ps ctx') (h' : Passes strict back' dtx ps dtx')
    (ha : Alike (ps.flatMap chars ++ back) (ps.flatMap chars ++ back') ctx dtx) : Alike back back' ctx' dtx' := by
  induction h generalizing dtx with
  | nil =>
    cases h'
    exact ha
  | literal ho hr ih =>
    rw [flatMap_cons, append_assoc, append_assoc] at ha
    cases h' with
    | literal _ h' => exact ih h' (ha.afterLiteral (begins_of_opening ho))
  | @doubled ctx _ _ _ ho hr ih =>
    cases h' with
    | doubled _ h' => exact ih h' (.afterStep ctx dtx)
    | code _ hp => exact absurd ho (not_doubled_of_plain ha.endsOperand_eq.symm hp)
  | code hs ho hr ih =>
    cases h' with
    | doubled hd => exact absurd hd (not_doubled_of_plain ha.endsOperand_eq ho)
    | code _ _ h' =>
      exact ih h' ha.afterCode

/-- **Passages in other texts.** Pieces that are passed over in one text are passed over in another,
if what stands before them looks alike and what follows does not run into them, exactly if no
pattern ends now that an open slash among them could begin. -/
theorem resume_iff (h : Passes strict back ctx ps ctx')
    (ha : Alike (ps.flatMap chars ++ back) (ps.flatMap chars ++ back') ctx dtx)
    (hm : back'.head? = back.head? ∨ ∀ p ∈ ps.getLast?, p.Meets back'.head?) : (∃ dtx', Passes strict back' dtx ps dtx') ↔
      ∀ rest, OpenSlash back ctx ps rest → patternLength false (rest.flatMap chars ++ back') = none := by
  have ht {p : Piece} {rs : List Piece} (h : back'.head? = back.head? ∨ ∀ q ∈ (p :: rs).getLast?, q.Meets back'.head?) :
      back'.head? = back.head? ∨ ∀ q ∈ rs.getLast?, q.Meets back'.head? :=
    h.imp_right fun h q hq => h q (getLast?_of_suffix (suffix_cons p rs) hq)
  induction h generalizing dtx with
  | nil => exact iff_of_true ⟨dtx, .nil dtx⟩ (by rintro rest ⟨⟩)
  | @literal ctx ctx' kind c lit ps ho hr ih =>
    rw [flatMap_cons, append_assoc, append_assoc] at ha
    have hta := opening_eq_literal ho
    have hp : kind = .pattern → ctx.allowsPattern = dtx.allowsPattern := by
      rintro rfl
      obtain ⟨rfl, -⟩ := hta
      exact ha.allowsPattern_eq (by decide)
    have ho' := (hta.resume hp (hr.meets_next (hta.meets (c :: lit)) hm)).opening_eq
    have ih := ih (ha.afterLiteral (begins_of_opening ho)) (ht hm)
    constructor
    · rintro ⟨dtx', hpa⟩ rest hop
      cases hpa with
      | literal _ hpa =>
        cases hop with
        | literal hop => exact ih.1 ⟨dtx', hpa⟩ rest hop
    · intro hop
      obtain ⟨dtx', hpa⟩ := ih.2 fun rest h => hop rest (.literal h)
      exact ⟨dtx', .literal ho' hpa⟩
  | @doubled ctx ctx' c ps ho hr ih =>
    have hs := (sign_of_opening ho).1
    have ih := ih (.afterStep ctx dtx) (ht (ht hm))
    constructor
    · rintro ⟨dtx', hpa⟩ rest hop
      cases hpa with
      | code _ hl => exact absurd ho (not_doubled_of_plain ha.endsOperand_eq.symm hl)
      | doubled _ hpa =>
        cases hop with
        | here => exact absurd hs (by decide)
        | code hl => exact absurd (ho.symm.trans hl) (by simp)
        | doubled _ hop => exact ih.1 ⟨dtx', hpa⟩ rest hop
    · intro hop
      obtain ⟨dtx', hpa⟩ := ih.2 fun rest h => hop rest (.doubled ho h)
      rw [opening_eq_doubled hs, ha.endsOperand_eq] at ho
      exact ⟨dtx', .doubled ((opening_eq_doubled hs).2 ho) hpa⟩
  | @code ctx ctx' c ps hsl ho hr ih =>
    have ha' := ha
    have ih := ih ha'.afterCode (ht hm)
    have ho' := opening_plain_iff ho ha' (hr.next_eq_or_meets hm)
    constructor
    · rintro ⟨dtx', hpa⟩ rest hop
      cases hpa with
      | doubled hd => exact absurd hd (not_doubled_of_plain ha.endsOperand_eq ho)
      | code _ hl hpa =>
        cases hop with
        | here hal => exact ho'.1 hl rfl hal
        | code _ hop => exact ih.1 ⟨dtx', hpa⟩ rest hop
        | doubled hd => exact absurd (ho.symm.trans hd) (by simp)
    · intro hop
      obtain ⟨dtx', hpa⟩ := ih.2 fun rest h => hop rest (.code ho h)
      refine ⟨dtx', .code (fun hst hc => ?_) (ho'.2 ?_) hpa⟩
      · subst hc
        rw [← ha'.allowsPattern_eq (by decide), hsl hst rfl]
      · rintro rfl hal
        exact hop ps (.here hal ho)

theorem restart (h : Passes strict back ctx ps ctx')
    (ha : Alike (ps.flatMap chars ++ back) (ps.flatMap chars ++ back) ctx dtx) : ∃ dtx', Passes strict back dtx ps dtx' :=
  (h.resume_iff ha (.inl rfl)).2 fun _ ho => ho.exists_front.1

/-- The same where what follows differs behind `rest` only, and no pattern ends there. -/
theorem resume (h : Passes strict (rest ++ tail) ctx ps ctx')
    (ha : Alike (ps.flatMap chars ++ (rest ++ tail)) (ps.flatMap chars ++ (rest ++ back)) ctx dtx)
    (he : (rest ++ back).head? = (rest ++ tail).head? ∨ ∀ p ∈ ps.getLast?, p.Meets (rest ++ back).head?)
    (hk : strict = false → KeepsSlashes (ps.flatMap chars ++ rest) back) :
    ∃ dtx', Passes strict (rest ++ back) dtx ps dtx' ∧ Alike (rest ++ tail) (rest ++ back) ctx' dtx' := by
  suffices hp : ∃ dtx', Passes strict (rest ++ back) dtx ps dtx' by
    obtain ⟨dtx', hp⟩ := hp
    exact ⟨dtx', hp, h.alike hp ha⟩
  refine (h.resume_iff ha he).2 fun rest' hs => ?_
  obtain ⟨hno, front, hps⟩ := hs.exists_front
  rw [← append_assoc] at hno ⊢
  have ho : patternLength false (rest'.flatMap chars ++ rest) = none := by
    rw [Option.eq_none_iff_forall_ne_some]
    intro n hn
    obtain ⟨m, hm⟩ := exists_patternLength_append hn tail
    rw [hm] at hno
    cases hno
  refine patternLength_append_eq_none ho (KeepsSlashes.of_append (front.flatMap chars ++ ['/']) ?_)
  simpa [chars, hps] using hk (hs.not_strict h)

theorem cut_off (h : Passes strict (rest ++ tail) ctx ps ctx')
    (ha : Alike (ps.flatMap chars ++ (rest ++ tail)) (ps.flatMap chars ++ rest) ctx dtx) :
    ∃ dtx', Passes strict rest dtx ps dtx' := by
  have hm : (rest ++ []).head? = (rest ++ tail).head? ∨ ∀ p ∈ ps.getLast?, p.Meets (rest ++ []).head? := by
    cases rest with
    | nil => exact .inr fun p _ => p.meets_none
    | cons c rest => exact .inl rfl
  rw [← append_nil rest] at ha ⊢
  rw [append_assoc] at ha
  obtain ⟨dtx', hp, -⟩ := h.resume ha hm fun _ => ⟨fun _ => rfl, fun _ _ => rfl⟩
  exact ⟨dtx', hp⟩

theorem transfer (h : Passes true back ctx ps ctx') (ha : Alike (ps.flatMap chars ++ back) (ps.flatMap chars ++ back') ctx dtx)
    (hm : ∀ p ∈ ps.getLast?, p.Meets back'.head?) : ∃ dtx', Passes true back' dtx ps dtx' ∧ Alike back back' ctx' dtx' := by
  have h' : Passes true ([] ++ back) ctx ps ctx' := h
  have ha' : Alike (ps.flatMap chars ++ ([] ++ back)) (ps.flatMap chars ++ ([] ++ back')) ctx dtx := ha
  exact h'.resume ha' (.inr hm) nofun

end Passes

/-! ### Scans of whole texts -/

/-- The text of the pieces, scanned in the context, has these pieces. -/
def Scans (ctx : ScanContext) (ps : List Piece) : Prop := ∃ ctx', Passes false [] ctx ps ctx'

namespace Scans

theorem nil (ctx : ScanContext) : Scans ctx [] := ⟨ctx, .nil ctx⟩

theorem literal (ho : opening ctx c (lit ++ ps.flatMap chars) = .literal kind lit.length)
    (hr : Scans (ctx.afterLiteral kind) ps) : Scans ctx (.literal kind (c :: lit) :: ps) := by
  obtain ⟨ctx', hr⟩ := hr
  exact ⟨ctx', .literal (by rwa [append_nil]) hr⟩

theorem doubled (ho : opening ctx c (c :: ps.flatMap chars) = .doubled)
    (hr : Scans ctx.afterStep ps) : Scans ctx (.code c :: .code c :: ps) := by
  obtain ⟨ctx', hr⟩ := hr
  exact ⟨ctx', .doubled (by rwa [append_nil]) hr⟩

theorem code (ho : opening ctx c (ps.flatMap chars) = .plain)
    (hr : Scans (ctx.afterCode c (ps.flatMap chars)) ps) : Scans ctx (.code c :: ps) := by
  obtain ⟨ctx', hr⟩ := hr
  exact ⟨ctx', .code nofun (by rwa [append_nil]) (by rwa [append_nil])⟩

theorem piecesFrom_eq (h : Scans ctx ps) (o : Nat) : piecesFrom ctx o (ps.flatMap chars) = .ok ps := by
  obtain ⟨ctx', h⟩ := h
  exact h.piecesFrom_eq o

/-- A scan is cut between two pieces that are no doubled sign. -/
theorem exists_passes (h : Scans ctx (ps ++ qs)) (hs : SignApart ps qs) :
    ∃ mid, Passes false (qs.flatMap chars) ctx ps mid ∧ Scans mid qs := by
  obtain ⟨ctx', h⟩ := h
  obtain ⟨mid, hf, hb⟩ := h.split hs
  rw [append_nil] at hf
  exact ⟨mid, hf, ctx', hb⟩

theorem exists_behind (h : Scans ctx (ps ++ .code c :: qs)) (hb : isPlainBlank c = false)
    (hs : c ≠ '+' ∧ c ≠ '-') : ∃ mid, mid.last = some c ∧ Scans mid qs := by
  rw [append_cons] at h
  obtain ⟨mid, hf, ha⟩ := h.exists_passes (by
    rintro d hd hl -
    rw [getLast?_concat] at hl
    cases hl
    exact hd.elim hs.1 hs.2)
  exact ⟨mid, hf.last_of_mark hb hs, ha⟩

end Scans

theorem scans_of_piecesFrom (h : piecesFrom ctx o text = .ok ps) : Scans ctx ps := passes_of_piecesFrom h nofun

theorem Passes.scans_append (h : Passes false (qs.flatMap chars) ctx ps mid) (hq : Scans mid qs) : Scans ctx (ps ++ qs) := by
  obtain ⟨ctx', hq⟩ := hq
  rw [← append_nil (qs.flatMap chars)] at h
  exact ⟨ctx', h.append hq⟩

theorem Passes.exists_rest (h : Passes strict back ctx ps ctx') (hw : Scans ctx whole)
    (hc : whole.flatMap chars = ps.flatMap chars ++ back) :
    ∃ qs, whole = ps ++ qs ∧ qs.flatMap chars = back ∧ Scans ctx' qs := by
  have hs := hw.piecesFrom_eq 0
  obtain ⟨o, ho⟩ := h.exists_piecesFrom 0
  rw [hc, ho] at hs
  obtain ⟨qs, hq, rfl⟩ := exists_of_map_eq_ok hs
  exact ⟨qs, rfl, piecesFrom_chars hq, scans_of_piecesFrom hq⟩

theorem Passes.scans (h : Passes false back ctx ps ctx') (hc : ctx.IsOpen) (hd : dtx.IsOpen) : Scans dtx ps := by
  have h' : Passes false ([] ++ back) ctx ps ctx' := h
  exact h'.cut_off (hc.alike hd _ _)

/-! ### Fronts -/

theorem opening_nil (hq : ¬(c = '\'' ∨ c = '"' ∨ c = '`')) : opening ctx c [] = .plain := by
  unfold opening
  rw [if_neg (by simpa [or_assoc] using hq), if_neg (by simp), if_neg (by simp), if_neg (by simp)]
  split_ifs <;> rfl

theorem opening_literal_pos (h : opening ctx c rest = .literal kind n) : 0 < n := by
  have ht := opening_eq_literal h
  cases kind with
  | quoted quote => exact (quotedLength_bounds ht.2.2).1
  | lineComment =>
    obtain ⟨-, hh, hl⟩ := ht
    obtain ⟨rest', rfl⟩ := head?_eq_some_iff.1 hh
    rw [← hl]
    exact Nat.succ_pos _
  | blockComment =>
    obtain ⟨-, -, hl⟩ := ht
    obtain ⟨m, -, rfl⟩ := Option.map_eq_some_iff.1 hl
    exact Nat.succ_pos m
  | pattern => exact (patternLength_bounds ht.2.2.2.2).1

/-- The pieces that are left if a text ends early: between two pieces, or inside a comment up to the
end of its line. -/
inductive IsFront : List Piece → List Piece → Prop where
  | nil (whole : List Piece) : IsFront whole []
  | comment {text lit back : List Char} (rest : List Piece) (htext : text = lit ++ back) (hlit : 2 ≤ lit.length) :
      IsFront (.literal .lineComment text :: rest) [.literal .lineComment lit]
  | cons {whole front : List Piece} (p : Piece) (h : IsFront whole front) : IsFront (p :: whole) (p :: front)

theorem isFront_append (ps qs : List Piece) : IsFront (ps ++ qs) ps := by
  induction ps with
  | nil => exact .nil qs
  | cons p ps ih => exact .cons p ih

theorem IsFront.append_left (ps : List Piece) {front : List Piece} (h : IsFront whole front) :
    IsFront (ps ++ whole) (ps ++ front) := by
  induction ps with
  | nil => exact h
  | cons p ps ih => exact .cons p ih

theorem IsFront.cases_append {front : List Piece} (h : IsFront whole front) : (∃ qs, whole = front ++ qs) ∨
    ∃ ps lit more qs, front = ps ++ [.literal .lineComment lit] ∧ 2 ≤ lit.length ∧
      whole = ps ++ .literal .lineComment (lit ++ more) :: qs := by
  induction h with
  | nil whole => exact .inl ⟨whole, rfl⟩
  | comment rest ht hl => exact .inr ⟨[], _, _, rest, rfl, hl, by rw [ht]; rfl⟩
  | cons p h ih =>
    rcases ih with ⟨qs, rfl⟩ | ⟨ps, lit, more, qs, rfl, hl, rfl⟩
    · exact .inl ⟨qs, rfl⟩
    · exact .inr ⟨p :: ps, lit, more, qs, rfl, hl, rfl⟩

theorem scans_lineComment (hl : 2 ≤ lit.length)
    (h : Passes strict back ctx (.literal .lineComment (lit ++ more) :: ps) ctx') (dtx : ScanContext) :
    Scans dtx [.literal .lineComment lit] := by
  obtain ⟨c, d, lit, rfl⟩ : ∃ c d lit', lit = c :: d :: lit' := by
    rcases lit with _ | ⟨c, _ | ⟨d, lit⟩⟩
    · cases hl
    · simp at hl
    · exact ⟨c, d, lit, rfl⟩
  cases h with
  | literal ho =>
    obtain ⟨rfl, hh, hle⟩ := opening_eq_literal ho
    obtain rfl : d = '/' := Option.some.inj hh
    refine .literal (LiteralKind.Takes.opening_eq ⟨rfl, rfl, ?_⟩) (.nil _)
    rw [flatMap_nil, append_nil, takeWhile_eq_self_iff.2]
    have hp : '/' :: lit <+: (('/' :: lit).append more ++ (ps.flatMap chars ++ back)).takeWhile (· != '\n') := by
      have ht (cs : List Char) := prefix_iff_eq_take.1 <| takeWhile_prefix (· != '\n') (l := cs)
      rw [ht, hle, take_left]
      exact ⟨more, rfl⟩
    exact fun e he => mem_takeWhile_imp (p := (· != '\n')) (hp.subset he)

/-- **Fronts of texts.** A text that ends early has the pieces that it has in the longer text, if
what stands before it looks alike. -/
theorem Scans.front {front : List Piece} (h : Scans ctx whole) (hf : IsFront whole front)
    (ha : Alike (whole.flatMap chars) (front.flatMap chars) ctx dtx) : Scans dtx front := by
  obtain ⟨ctx', h⟩ := h
  rcases hf.cases_append with ⟨qs, rfl⟩ | ⟨ps, lit, more, qs, rfl, hl, rfl⟩
  · rcases h.split_cases with ⟨mid, hp, -⟩ | ⟨ps, c, rest, mid, rfl, rfl, hc, hp⟩
    · replace hp : Passes false ([] ++ (qs.flatMap chars ++ [])) ctx front mid := hp
      exact hp.cut_off (by simpa using ha)
    · -- What is left of a doubled sign is a sign.
      replace hp : Passes false ([c] ++ c :: (rest.flatMap chars ++ [])) ctx ps mid := hp
      obtain ⟨mid', hpa⟩ := hp.cut_off (by simpa [chars] using ha)
      replace hpa : Passes false ([Piece.code c].flatMap chars) dtx ps mid' := hpa
      refine hpa.scans_append (.code (opening_nil ?_) (.nil _))
      rcases hc with rfl | rfl <;> decide
  · obtain ⟨mid, hp, ho⟩ := h.split (by rintro c - - ⟨⟩)
    replace hp : Passes false (lit ++ (more ++ (qs.flatMap chars ++ []))) ctx ps mid := by
      simpa [chars] using hp
    obtain ⟨mid', hpa⟩ := hp.cut_off (by simpa [chars] using ha)
    exact Passes.scans_append (by simpa [chars] using hpa) (scans_lineComment hl ho mid')

/-- **Groups by themselves.** What stands between two brackets of a text is a text with the pieces
that it has there. -/
theorem pieces_inside (hp : closer? opener = some closer)
    (h : pieces text = .ok (pre ++ .code opener :: (body ++ .code closer :: post))) :
    pieces (body.flatMap chars) = .ok body := by
  have ho : isPlainBlank opener = false ∧ (opener ≠ '+' ∧ opener ≠ '-') ∧ IsOpenMark opener := by
    rcases closer?_cases hp with ⟨rfl, -⟩ | ⟨rfl, -⟩ | ⟨rfl, -⟩ <;> exact ⟨rfl, by decide, by decide⟩
  obtain ⟨hb, hs, hm⟩ := ho
  obtain ⟨mid, hl, hc⟩ := (scans_of_piecesFrom h).exists_behind hb hs
  exact (hc.front (isFront_append body _) ((isOpen_of_last hl hm).alike isOpen_start _ _)).piecesFrom_eq 0

end Pagewright
