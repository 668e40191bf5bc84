import Pagewright.Proofs.Layout
import Pagewright.Proofs.LiteralInsides
import Pagewright.Proofs.Matching

/-!
# Line breaks

A line feed ends a line unless it stands in a literal. Nothing of a text is lost when it is divided
there (`lines_lossless`). A pattern is meant to end on its line, but a backslash takes the line feed
behind it along; there is no other way for one to get into a pattern
(`breaks_in_pattern_escaped`). -/

namespace Pagewright

open List
open Piece (chars)

variable {g : Glyph} {gs : List Glyph} {text cs line front back : List Char} {before after : List (List Char)} {s : Source}
  {kind : LiteralKind} {bracketed : Bool}

/-! ### Where lines are divided -/

theorem splitAtBreaks_cons_break (h : g.IsCode '\n') (gs : List Glyph) : splitAtBreaks (g :: gs) = [] :: splitAtBreaks gs := by
  simp [splitAtBreaks, h.1, h.2]

theorem exists_splitAtBreaks_cons (h : ¬g.IsCode '\n') (gs : List Glyph) :
    ∃ line lines, splitAtBreaks gs = line :: lines ∧ splitAtBreaks (g :: gs) = (g.char :: line) :: lines :=
  SameCode.exists_splitAtBreaks_cons (by simpa [Glyph.IsCode] using h) gs

theorem splitAtBreaks_append (front : List Glyph) (h : g.IsCode '\n') :
    splitAtBreaks (front ++ g :: gs) = splitAtBreaks front ++ splitAtBreaks gs := by
  induction front with
  | nil => exact splitAtBreaks_cons_break h gs
  | cons f front ih =>
    rw [cons_append]
    by_cases hf : f.IsCode '\n'
    · rw [splitAtBreaks_cons_break hf, splitAtBreaks_cons_break hf, ih, cons_append]
    · obtain ⟨line, lines, hl, hc⟩ := exists_splitAtBreaks_cons hf front
      obtain ⟨line', lines', hl', hc'⟩ := exists_splitAtBreaks_cons hf (front ++ g :: gs)
      rw [ih, hl] at hl'
      obtain ⟨rfl, rfl⟩ := cons.inj hl'
      rw [hc', hc]
      rfl

/-- A line is a stretch of the text with no line feed outside the literals; before it the lines
before it have been ended. -/
theorem exists_line_of_splitAtBreaks (h : splitAtBreaks gs = before ++ line :: after) :
    ∃ front mid back, gs = front ++ (mid ++ back) ∧ glyphText front = before.flatMap (· ++ ['\n']) ∧ glyphText mid = line ∧
      (∀ g ∈ mid, ¬g.IsCode '\n') ∧ (after = [] → back = []) := by
  induction gs generalizing before line with
  | nil =>
    obtain ⟨rfl, rfl, rfl⟩ : before = [] ∧ line = [] ∧ after = [] := by
      simpa [splitAtBreaks, singleton_eq_append_iff] using h
    exact ⟨[], [], [], rfl, rfl, rfl, forall_mem_nil _, fun _ => rfl⟩
  | cons g gs ih =>
    by_cases hg : g.IsCode '\n'
    · rw [splitAtBreaks_cons_break hg] at h
      cases before with
      | nil =>
        obtain ⟨rfl, rfl⟩ := cons.inj h
        exact ⟨[], [], g :: gs, rfl, rfl, rfl, forall_mem_nil _, fun ha => absurd ha (SameCode.splitAtBreaks_ne_nil gs)⟩
      | cons first before =>
        obtain ⟨rfl, hl⟩ := cons.inj h
        obtain ⟨front, mid, back, rfl, hf, hm⟩ := ih hl
        exact ⟨g :: front, mid, back, rfl, by rw [glyphText, map_cons, hg.2, ← glyphText, hf]; rfl, hm⟩
    · obtain ⟨first, lines, hl, hc⟩ := exists_splitAtBreaks_cons hg gs
      rw [hc] at h
      cases before with
      | nil =>
        obtain ⟨rfl, rfl⟩ := cons.inj h
        obtain ⟨front, mid, back, rfl, hf, rfl, hm, hb⟩ := @ih first [] hl
        obtain rfl := map_eq_nil_iff.1 hf
        exact ⟨[], g :: mid, back, rfl, rfl, rfl, forall_mem_cons.2 ⟨hg, hm⟩, hb⟩
      | cons first' before =>
        obtain ⟨rfl, rfl⟩ := cons.inj h
        obtain ⟨front, mid, back, rfl, hf, hm⟩ := @ih line (first :: before) hl
        exact ⟨g :: front, mid, back, rfl, congrArg (g.char :: ·) hf, hm⟩

theorem exists_last_line (gs : List Glyph) :
    ∃ before line, splitAtBreaks gs = before ++ [line] ∧ glyphText gs = before.flatMap (· ++ ['\n']) ++ line := by
  have hl := dropLast_append_getLast (SameCode.splitAtBreaks_ne_nil gs)
  obtain ⟨front, mid, back, hg, hf, hm, -, hb⟩ := exists_line_of_splitAtBreaks hl.symm
  refine ⟨_, _, hl.symm, ?_⟩
  rw [← hf, ← hm, ← glyphText_append]
  exact congrArg glyphText (by rw [hg, hb rfl, append_nil])

/-- No literal ends with a line feed. -/
theorem Piece.IsRead.getLast?_ne (h : (literal kind text).IsRead) : text.getLast? ≠ some '\n' := by
  obtain ⟨ctx, c, lit, back, rfl, ht⟩ := h
  by_cases hk : kind = .lineComment
  · subst hk
    obtain ⟨rfl, -, hl⟩ := ht
    have hp := prefix_iff_eq_take.1 <| takeWhile_prefix (· != '\n') (l := lit ++ back)
    rw [hl, take_left] at hp
    intro hn
    rcases mem_cons.1 (mem_of_getLast? hn) with hs | hm
    · cases hs
    · rw [← hp] at hm
      simpa using mem_takeWhile_imp hm
  · obtain ⟨init, d, rfl, hd, -⟩ := ht.exists_last hk
    rw [← cons_append, getLast?_concat]
    rintro ⟨⟩
    cases hd

namespace Source

theorem isCode_of_last (h : ofText text = .ok s) {front : List Glyph} (hg : s.glyphs = front ++ [g])
    (hc : g.char = '\n') : g.IsCode '\n' := by
  rcases eq_nil_or_concat s.pieces with hp | ⟨ps, p, hp⟩
  · simp [glyphs, hp, glyphsOf] at hg
  · rw [concat_eq_append] at hp
    cases p with
    | code c =>
      rw [glyphs, hp, glyphsOf_append] at hg
      obtain ⟨-, hl⟩ := append_inj' hg rfl
      cases hl
      exact ⟨rfl, hc⟩
    | literal kind lit =>
      have hr := isRead h (.literal kind lit) (by rw [hp]; simp)
      have ht : ps.flatMap chars ++ lit = glyphText front ++ ['\n'] := by
        have := congrArg glyphText hg
        rw [← text_eq_glyphText, ← s.chars_pieces, hp, glyphText_append] at this
        simpa [glyphText, hc, chars] using this
      refine absurd ?_ hr.getLast?_ne
      have := getLast?_append_of_ne_nil (ps.flatMap chars) hr.chars_ne_nil
      simp [chars, ht] at this
      exact this.symm

theorem isCovered_glyph {front back : List Glyph} (hg : s.glyphs = front ++ g :: back) :
    s.isCovered (byteSize (glyphText front)) = g.cover.isSome := by
  rw [← isCovered_offset (by rw [hg]; simp), ← offsetOf_of_append hg, offsetOf]

theorem lines_eq (hr : '\r' ∉ s.text) (h : splitAtBreaks s.glyphs = before ++ [line]) :
    s.lines = before ++ if line = [] then [] else [line] := by
  have ht : ∀ part ∈ before, dropEndWhile (· = '\r') part = part := by
    obtain ⟨front, mid, back, hg, hf, -⟩ := exists_line_of_splitAtBreaks h
    intro part hp
    have hn : '\r' ∉ part := by
      intro hm
      rw [text_eq_glyphText, hg, glyphText_append, hf] at hr
      exact hr (mem_append_left _ (mem_flatMap.2 ⟨part, hp, mem_append_left _ hm⟩))
    refine rdropWhile_eq_self_iff.2 fun hl hc => hn ?_
    rw [← of_decide_eq_true hc]
    exact getLast_mem hl
  rw [lines, h, dropLast_concat, getLast?_concat, map_congr_left ht, map_id']
  cases line with
  | nil => simp
  | cons c line => simp

/-- **Lines.** A text without carriage returns is its lines with line feeds between them, and one
more behind them if it ends with one. A line feed inside a line stands in a literal, and one in no
literal stands right behind a line. -/
theorem lines_lossless (h : ofText text = .ok s) (hr : '\r' ∉ text) :
    text = joinWith ['\n'] s.lines ++ (if text.getLast? = some '\n' then ['\n'] else []) ∧
    (∀ before line after front back, s.lines = before ++ line :: after → line = front ++ '\n' :: back →
      s.isCovered (byteSize (before.flatMap (· ++ ['\n']) ++ front))) ∧
    ∀ front back, text = front ++ '\n' :: back → s.isCovered (byteSize front) = false →
      ∃ before line after, s.lines = before ++ line :: after ∧ front = before.flatMap (· ++ ['\n']) ++ line := by
  have ht := text_ofText h
  rw [← ht] at hr ⊢
  obtain ⟨before, line, hs, hf⟩ := exists_last_line s.glyphs
  rw [← text_eq_glyphText] at hf
  have hl := lines_eq hr hs
  refine ⟨?_, ?_, ?_⟩
  · by_cases hn : line = []
    · subst hn
      rw [if_pos rfl, append_nil] at hl
      rw [append_nil] at hf
      rcases eq_nil_or_concat before with rfl | ⟨init, last, rfl⟩
      · simp [hl, hf, joinWith]
      · rw [hl, hf]
        simp [joinWith_append_singleton]
    · have hb : s.text.getLast? ≠ some '\n' := by
        intro hb
        obtain ⟨front, hb⟩ := getLast?_eq_some_iff.1 hb
        rw [text_eq_glyphText] at hb
        obtain ⟨fs, bs, hg, -, hb⟩ := map_eq_append_iff.1 hb
        obtain ⟨g, rfl, hc⟩ := map_eq_singleton_iff.1 hb
        rw [hg, splitAtBreaks_append fs (isCode_of_last h hg hc)] at hs
        exact hn (cons.inj (append_inj' hs rfl).2).1.symm
      rw [hl, if_neg hn, if_neg hb, append_nil, joinWith_append_singleton]
      exact hf
  · intro before' line' after front back hl' hc
    have hp : splitAtBreaks s.glyphs = s.lines ++ if line = [] then [[]] else [] := by
      rw [hs, hl]
      split_ifs with hn <;> simp [hn]
    rw [hl', append_assoc, cons_append] at hp
    obtain ⟨pre, mid, post, hg, hf, hm, hb, -⟩ := exists_line_of_splitAtBreaks hp
    obtain ⟨fs, bs, rfl, rfl, hn⟩ := map_eq_append_iff.1 (hm.trans hc)
    obtain ⟨g, bs, rfl, hgc, -⟩ := map_eq_cons_iff.1 hn
    have hi := isCovered_glyph (show s.glyphs = pre ++ fs ++ g :: (bs ++ post) by rw [hg]; simp)
    rw [glyphText_append, hf] at hi
    refine hi.trans ?_
    cases hco : g.cover with
    | none => exact absurd ⟨hco, hgc⟩ (hb g (by simp))
    | some stop => rfl
  · intro front back hb hc
    rw [text_eq_glyphText] at hb
    obtain ⟨fs, bs, hg, rfl, hn⟩ := map_eq_append_iff.1 hb
    obtain ⟨g, bs, rfl, hgc, -⟩ := map_eq_cons_iff.1 hn
    have hco : g.IsCode '\n' := ⟨by simpa using (isCovered_glyph hg).symm.trans hc, hgc⟩
    obtain ⟨before, line, hs, hf⟩ := exists_last_line fs
    obtain ⟨before', line', hs', -⟩ := exists_last_line bs
    have hl := @lines_eq line' (before ++ line :: before') s hr (by rw [hg, splitAtBreaks_append fs hco, hs, hs']; simp)
    exact ⟨before, line, _, by rw [hl, append_assoc]; rfl, hf⟩

/-- In "`⏎`⏎⏎" the first line feed stands in a template, so there are two lines, and a line feed
behind them. -/
theorem lines_lossless_template : ∃ s, ofText ['`', '\n', '`', '\n', '\n'] = .ok s ∧ s.lines = [['`', '\n', '`'], []] ∧
    ['`', '\n', '`', '\n', '\n'] = joinWith ['\n'] s.lines ++ ['\n'] ∧ s.isCovered 1 := by
  have hp : Pagewright.pieces ['`', '\n', '`', '\n', '\n'] =
      .ok [.literal (.quoted '`') ['`', '\n', '`'], .code '\n', .code '\n'] := by decide +kernel
  have hs := ofText_of_pieces hp
  obtain ⟨hj, hc, -⟩ := lines_lossless hs (by decide)
  exact ⟨_, hs, rfl, hj, hc [] ['`', '\n', '`'] [[]] ['`'] ['`'] rfl rfl⟩

end Source

/-! ### Patterns over several lines -/

theorem EndsPattern.exists_escape (h : EndsPattern bracketed cs) (hc : cs = front ++ '\n' :: back) :
    ∃ init, front = init ++ ['\\'] := by
  induction h generalizing front with
  | @slash flags ha =>
    have hm : '\n' ∈ '/' :: flags := by
      rw [hc]
      simp
    rcases mem_cons.1 hm with hs | hm
    · cases hs
    · rw [← ha] at hm
      cases mem_takeWhile_imp hm
  | escape c h ih =>
    rcases front with _ | ⟨d, _ | ⟨e, front⟩⟩
    · cases hc
    · cases hc
      exact ⟨[], rfl⟩
    · obtain ⟨rfl, rfl, ht⟩ : '\\' = d ∧ c = e ∧ _ := by simpa using hc
      obtain ⟨init, rfl⟩ := ih ht
      exact ⟨'\\' :: c :: init, rfl⟩
  | cons he hf hs h ih =>
    cases front with
    | nil => exact absurd (cons.inj hc).1 hf
    | cons d front =>
      obtain ⟨rfl, ht⟩ := cons.inj hc
      obtain ⟨init, rfl⟩ := ih ht
      exact ⟨_ :: init, rfl⟩

namespace Source

/-- **Patterns and lines.** A line feed in a pattern stands right behind a backslash. -/
theorem breaks_in_pattern_escaped (h : ofText text = .ok s) (hm : .literal .pattern (front ++ '\n' :: back) ∈ s.pieces) :
    ∃ init, front = init ++ ['\\'] := by
  obtain ⟨ctx, c, lit, rest, hl, rfl, -, -, -, hp⟩ := isRead h _ hm
  cases front with
  | nil => cases hl
  | cons d front =>
    obtain ⟨rfl, ht⟩ := cons.inj hl
    obtain ⟨init, rfl⟩ := (patternLength_append_iff.1 hp).1.exists_escape ht.symm
    exact ⟨'/' :: init, rfl⟩

theorem pieces_break_in_pattern :
    Pagewright.pieces ['/', 'a', '\\', '\n', '/'] = .ok [.literal .pattern ['/', 'a', '\\', '\n', '/']] := by
  decide +kernel

/-- The pattern in "/a\⏎/" goes beyond its line. -/
theorem break_in_pattern : ∃ s, ofText ['/', 'a', '\\', '\n', '/'] = .ok s ∧ s.spans = [⟨0, 5⟩] ∧
    s.pieces = [.literal .pattern ['/', 'a', '\\', '\n', '/']] := ⟨_, ofText_of_pieces pieces_break_in_pattern, rfl, rfl⟩

theorem break_in_pattern_escaped :
    ∃ s, ofText ['/', 'a', '\\', '\n', '/'] = .ok s ∧ ∃ init, ['/', 'a', '\\'] = init ++ ['\\'] := by
  have hs := ofText_of_pieces pieces_break_in_pattern
  exact ⟨_, hs, breaks_in_pattern_escaped hs mem_cons_self⟩

end Source

end Pagewright
