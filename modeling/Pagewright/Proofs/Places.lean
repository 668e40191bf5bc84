import Pagewright.Proofs.Passages
import Pagewright.Token

/-!
# Places between pieces

The glyphs that a reader still holds begin between two pieces of the source (`Source.IsRest`): a
reader goes on behind a character of code or behind the whole of a literal, and a group that is cut
off runs from one character of code to another (`Source.IsRest.group`). So what stands inside a
group can be scanned once more. `Covers` tells the offsets that lie in a literal. -/

namespace Pagewright

open List
open Piece (chars)

variable {o d stop : Nat} {text back cs : List Char} {g : Glyph} {ps before after body : List Piece}
  {front gs rest : List Glyph} {opener closer c : Char} {span : Span} {kind : LiteralKind} {start offset : Nat}
  {qs : List Piece}

/-! ### Glyphs and spans of pieces -/

theorem byteSize_replicate_space (n : Nat) : byteSize (replicate n ' ') = n := by
  induction n with
  | zero => rfl
  | succ n ih =>
    rw [replicate_succ, byteSize, ih, Nat.add_comm]
    rfl

/-- The number of bytes of some pieces. -/
def piecesSize (ps : List Piece) : Nat := byteSize (ps.flatMap chars)

@[simp] theorem piecesSize_nil : piecesSize [] = 0 := rfl

@[simp] theorem piecesSize_append (ps qs : List Piece) : piecesSize (ps ++ qs) = piecesSize ps + piecesSize qs := by
  simp [piecesSize]

theorem piecesSize_cons (p : Piece) (ps : List Piece) : piecesSize (p :: ps) = byteSize p.chars + piecesSize ps := by
  simp [piecesSize]

@[simp] theorem piecesSize_code (c : Char) (ps : List Piece) : piecesSize (.code c :: ps) = c.utf8Size + piecesSize ps := rfl

@[simp] theorem piecesSize_literal (kind : LiteralKind) (text : List Char) (ps : List Piece) :
    piecesSize (.literal kind text :: ps) = byteSize text + piecesSize ps := by
  simp [piecesSize, chars]

theorem glyphsOf_append (o : Nat) (ps qs : List Piece) :
    glyphsOf o (ps ++ qs) = glyphsOf o ps ++ glyphsOf (o + piecesSize ps) qs := by
  induction ps generalizing o with
  | nil => rfl
  | cons p ps ih => cases p <;> simp [glyphsOf, ih, Nat.add_assoc]

theorem spansOf_append (o : Nat) (ps qs : List Piece) :
    spansOf o (ps ++ qs) = spansOf o ps ++ spansOf (o + piecesSize ps) qs := by
  induction ps generalizing o with
  | nil => rfl
  | cons p ps ih => cases p <;> simp [spansOf, ih, Nat.add_assoc]

theorem glyphText_coveredGlyphs (stop o : Nat) (text : List Char) : glyphText (coveredGlyphs stop o text) = text := by
  induction text generalizing o with
  | nil => rfl
  | cons c text ih => exact congrArg (c :: ·) (ih _)

theorem glyphText_append (gs hs : List Glyph) : glyphText (gs ++ hs) = glyphText gs ++ glyphText hs := map_append

theorem glyphText_glyphsOf (o : Nat) (ps : List Piece) : glyphText (glyphsOf o ps) = ps.flatMap chars := by
  induction ps generalizing o with
  | nil => rfl
  | cons p ps ih =>
    cases p with
    | code c => exact congrArg (c :: ·) (ih _)
    | literal kind text =>
      rw [glyphsOf, glyphText_append, glyphText_coveredGlyphs, ih]
      rfl

theorem length_glyphsOf (o : Nat) (ps : List Piece) : (glyphsOf o ps).length = (ps.flatMap chars).length := by
  rw [← glyphText_glyphsOf o ps, glyphText, length_map]

theorem cover_of_mem_coveredGlyphs (h : g ∈ coveredGlyphs stop o text) : g.cover = some stop := by
  induction text generalizing o with
  | nil => cases h
  | cons c text ih =>
    rcases mem_cons.1 h with rfl | h
    · rfl
    · exact ih h

theorem offset_of_coveredGlyphs (h : coveredGlyphs stop o text = front ++ g :: gs) :
    g.offset = o + byteSize (glyphText front) := by
  induction text generalizing o front with
  | nil => simp [coveredGlyphs] at h
  | cons c text ih =>
    cases front with
    | nil =>
      cases h
      rfl
    | cons f front =>
      obtain ⟨rfl, ht⟩ := cons.inj h
      rw [ih ht, Nat.add_assoc]
      rfl

/-- A glyph begins where the characters before it end. -/
theorem offset_of_glyphsOf (h : glyphsOf o ps = front ++ g :: gs) : g.offset = o + byteSize (glyphText front) := by
  induction ps generalizing o front with
  | nil => simp [glyphsOf] at h
  | cons p ps ih =>
    cases p with
    | code c =>
      cases front with
      | nil =>
        cases h
        rfl
      | cons f front =>
        obtain ⟨rfl, ht⟩ := List.cons.inj h
        rw [ih ht, Nat.add_assoc]
        rfl
    | literal kind text =>
      rcases append_eq_append_iff.1 h with ⟨mid, rfl, hr⟩ | ⟨mid, hc, hr⟩
      · rw [ih hr, glyphText_append, glyphText_coveredGlyphs, byteSize_append, Nat.add_assoc]
      · cases mid with
        | nil =>
          have he : glyphText front = text := by rw [← append_nil front, ← hc, glyphText_coveredGlyphs]
          rw [@ih _ [] hr.symm, he]
          rfl
        | cons g' mid =>
          obtain ⟨rfl, -⟩ := List.cons.inj hr
          exact offset_of_coveredGlyphs hc

theorem offset_bounds_of_mem_glyphsOf (h : g ∈ glyphsOf o ps) : o ≤ g.offset ∧ g.offset < o + piecesSize ps := by
  obtain ⟨front, gs, hg⟩ := append_of_mem h
  have hp := g.char.utf8Size_pos
  rw [offset_of_glyphsOf hg, piecesSize, ← glyphText_glyphsOf o, hg, glyphText_append, byteSize_append]
  simp only [glyphText, map_cons, byteSize]
  omega

theorem offset_lt_of_glyphsOf (h : glyphsOf o ps = front ++ gs) (hg : g ∈ front) : g.offset < o + byteSize (glyphText front) := by
  obtain ⟨pre, post, rfl⟩ := append_of_mem hg
  rw [append_assoc] at h
  have hp := byteSize_pos (show glyphText (g :: post) ≠ [] from cons_ne_nil _ _)
  rw [offset_of_glyphsOf h, glyphText_append, byteSize_append]
  omega

theorem dropUntil_of_append (h : glyphsOf o ps = front ++ gs) :
    dropUntil (o + byteSize (glyphText front)) (glyphsOf o ps) = gs := by
  rw [h, dropUntil, dropWhile_append_of_pos]
  · cases gs with
    | nil => rfl
    | cons g gs => exact dropWhile_cons_of_neg (by simp [offset_of_glyphsOf h])
  · exact fun g hg => decide_eq_true (offset_lt_of_glyphsOf h hg)

theorem stop_le_of_mem_spansOf (h : span ∈ spansOf o ps) : span.stop ≤ o + piecesSize ps := by
  obtain ⟨kind, front, text, back, -, hc, rfl⟩ := exists_cut_of_mem_spansOf h
  rw [piecesSize, hc]
  simp only [byteSize_append]
  omega

theorem start_le_stop_of_mem_spansOf (h : span ∈ spansOf o ps) : span.start ≤ span.stop := by
  obtain ⟨kind, front, text, back, -, -, rfl⟩ := exists_cut_of_mem_spansOf h
  exact Nat.le_add_right _ _

theorem spansOf_shift (o : Nat) (ps : List Piece) :
    (spansOf o ps).map (fun span => (⟨span.start - o, span.stop - o⟩ : Span)) = spansOf 0 ps := by
  suffices h : ∀ start, (spansOf (start + o) ps).map
      (fun span => (⟨span.start - o, span.stop - o⟩ : Span)) = spansOf start ps by
    simpa using h 0
  intro start
  induction ps generalizing start with
  | nil => rfl
  | cons p ps ih =>
    cases p with
    | code c =>
      rw [spansOf, Nat.add_right_comm]
      exact ih _
    | literal kind text =>
      rw [spansOf, spansOf, map_cons, Nat.add_right_comm, ih]
      simp

/-! ### Offsets that literals cover -/

/-- A literal among the pieces, which begin at `start`, covers the offset. -/
def Covers (start : Nat) (ps : List Piece) (offset : Nat) : Prop :=
  ∃ span ∈ spansOf start ps, span.start ≤ offset ∧ offset < span.stop

theorem covers_append : Covers start (ps ++ qs) offset ↔ Covers start ps offset ∨ Covers (start + piecesSize ps) qs offset := by
  simp only [Covers, spansOf_append, mem_append, or_and_right, exists_or]

theorem Covers.bounds (h : Covers start ps offset) : start ≤ offset ∧ offset < start + piecesSize ps := by
  obtain ⟨span, hs, ht, ho⟩ := h
  exact ⟨(le_start_of_mem_spansOf hs).trans ht, ho.trans_le (stop_le_of_mem_spansOf hs)⟩

theorem spansOf_map_code (start : Nat) (cs : List Char) : spansOf start (cs.map .code) = [] := by
  induction cs generalizing start with
  | nil => rfl
  | cons c cs ih => exact ih (start + c.utf8Size)

theorem not_covers_code (start : Nat) (cs : List Char) (offset : Nat) : ¬Covers start (cs.map .code) offset := by
  simp [Covers, spansOf_map_code]

theorem not_covers_cons_code : ¬Covers start (.code c :: ps) start := by
  intro h
  have hb : start + c.utf8Size ≤ start ∧ _ := Covers.bounds h
  have hp := c.utf8Size_pos
  omega

/-- A literal covers the offset of a glyph exactly if the glyph is one of a literal. -/
theorem covers_offset (h : g ∈ glyphsOf start ps) : Covers start ps g.offset ↔ g.cover.isSome := by
  induction ps generalizing start with
  | nil => cases h
  | cons p ps ih =>
    cases p with
    | code c =>
      rcases mem_cons.1 h with rfl | h
      · exact iff_of_false not_covers_cons_code Bool.false_ne_true
      · exact ih h
    | literal kind text =>
      have hs : piecesSize [.literal kind text] = byteSize text := by simp
      rcases mem_append.1 h with h | h
      · have hb := offset_bounds_of_mem_glyphsOf (show g ∈ glyphsOf start [.literal kind text] from mem_append_left _ h)
        rw [hs] at hb
        rw [cover_of_mem_coveredGlyphs h]
        exact iff_of_true ⟨_, mem_cons_self, hb⟩ rfl
      · rw [← singleton_append, covers_append, hs, ih h, or_iff_right]
        intro hc
        have hlt := hc.bounds.2
        have hle := (offset_bounds_of_mem_glyphsOf h).1
        omega

theorem exists_code_of_suffix (h : g :: gs <:+ glyphsOf o ps) (hg : g.cover = none) :
    ∃ before after, ps = before ++ .code g.char :: after ∧ g = ⟨g.char, o + piecesSize before, none⟩ ∧
      gs = glyphsOf (o + piecesSize before + g.char.utf8Size) after := by
  induction ps generalizing o with
  | nil => exact absurd (eq_nil_of_suffix_nil h) (cons_ne_nil _ _)
  | cons p ps ih =>
    -- What is found behind `p` is found behind one piece more.
    have onward (hs : g :: gs <:+ glyphsOf (o + piecesSize [p]) ps) :
        ∃ before after, p :: ps = before ++ .code g.char :: after ∧ g = ⟨g.char, o + piecesSize before, none⟩ ∧
          gs = glyphsOf (o + piecesSize before + g.char.utf8Size) after := by
      obtain ⟨before, after, hp, hl, hr⟩ := ih hs
      rw [Nat.add_assoc o, ← piecesSize_append] at hl hr
      exact ⟨p :: before, after, by rw [hp]; rfl, hl, hr⟩
    cases p with
    | code c =>
      rcases suffix_cons_iff.1 h with heq | hs
      · obtain ⟨rfl, rfl⟩ := cons.inj heq
        exact ⟨[], ps, rfl, rfl, rfl⟩
      · exact onward hs
    | literal kind text =>
      have hi : piecesSize [.literal kind text] = byteSize text := by simp
      obtain ⟨front, hf⟩ := h
      rcases append_eq_append_iff.1 hf with ⟨mid, hc, hr⟩ | ⟨mid, -, hr⟩
      · cases mid with
        | nil => exact onward ⟨[], by rw [hi]; exact hr⟩
        | cons g' mid =>
          -- The glyph would be one of the literal.
          obtain ⟨rfl, -⟩ := cons.inj hr
          have hm : g ∈ coveredGlyphs (o + byteSize text) o text := by
            rw [hc]
            simp
          rw [cover_of_mem_coveredGlyphs hm] at hg
          cases hg
      · exact onward ⟨mid, by rw [hi, hr]⟩

/-- Where no literal covers the offset of a character, it is a character of code. -/
theorem exists_code_of_not_covers {front : List Char} (hc : ps.flatMap chars = front ++ c :: back)
    (h : ¬Covers start ps (start + byteSize front)) : ∃ before after, ps = before ++ .code c :: after ∧ before.flatMap chars = front := by
  have ht := glyphText_glyphsOf start ps
  rw [hc] at ht
  obtain ⟨gs, hs, hg, rfl, hm⟩ := map_eq_append_iff.1 ht
  obtain ⟨g, gs', rfl, rfl, -⟩ := map_eq_cons_iff.1 hm
  have ho := offset_of_glyphsOf hg
  have hn : g.cover = none := by
    by_contra hs
    exact h (ho ▸ (covers_offset (by rw [hg]; simp)).2 (Option.isSome_iff_ne_none.2 hs))
  obtain ⟨before, after, rfl, hb, -⟩ := exists_code_of_suffix ⟨gs, hg.symm⟩ hn
  have hs : byteSize (before.flatMap chars) = byteSize (glyphText gs) := Nat.add_left_cancel ((congrArg Glyph.offset hb).symm.trans ho)
  exact ⟨before, after, rfl, (append_inj_of_byteSize (flatMap_append.symm.trans hc) hs).1⟩

/-! ### Groups -/

theorem splitGroup_coveredGlyphs (opener closer : Char) (d stop o : Nat) (text : List Char) (gs : List Glyph) :
    splitGroup opener closer d (coveredGlyphs stop o text ++ gs) = (splitGroup opener closer d gs).map fun (group, rest) =>
        (coveredGlyphs stop o text ++ group, rest) := by
  induction text generalizing o with
  | nil => exact (congrFun Option.map_id _).symm
  | cons c text ih =>
    simp only [coveredGlyphs, cons_append, splitGroup, Option.isSome_some, if_true, ih, Option.map_map]
    rfl

/-- A group ends at a character of code, and with it a piece. -/
theorem exists_cut_of_splitGroup {group : List Glyph} (h : splitGroup opener closer d (glyphsOf o ps) = some (group, rest)) :
    ∃ body after, ps = body ++ .code closer :: after ∧ group = glyphsOf o (body ++ [.code closer]) ∧
      rest = glyphsOf (o + piecesSize (body ++ [.code closer])) after := by
  induction ps generalizing d o group with
  | nil => cases h
  | cons p ps ih =>
    -- A cut of the pieces behind `p` is a cut of all of them.
    have onward {d' : Nat} {group' : List Glyph}
        (hs : splitGroup opener closer d' (glyphsOf (o + piecesSize [p]) ps) =
          some (group', rest)) (hg : group = glyphsOf o [p] ++ group') :
        ∃ body after, p :: ps = body ++ .code closer :: after ∧ group = glyphsOf o (body ++ [.code closer]) ∧
          rest = glyphsOf (o + piecesSize (body ++ [.code closer])) after := by
      obtain ⟨body, after, rfl, rfl, rfl⟩ := ih hs
      refine ⟨[p] ++ body, after, rfl, ?_, ?_⟩
      · rw [hg, append_assoc, glyphsOf_append o [p]]
      · rw [append_assoc, piecesSize_append [p], Nat.add_assoc]
    cases p with
    | literal kind text =>
      rw [glyphsOf, splitGroup_coveredGlyphs] at h
      obtain ⟨⟨group', rest'⟩, hs, heq⟩ := Option.map_eq_some_iff.1 h
      cases heq
      exact onward (by simpa using hs) (by simp [glyphsOf])
    | code c =>
      have step {d' : Nat} (hs : (splitGroup opener closer d' (glyphsOf (o + c.utf8Size) ps)).map
            (fun (group, rest) => (⟨c, o, none⟩ :: group, rest)) = some (group, rest)) :
          ∃ body after, .code c :: ps = body ++ .code closer :: after ∧ group = glyphsOf o (body ++ [.code closer]) ∧
            rest = glyphsOf (o + piecesSize (body ++ [.code closer])) after := by
        obtain ⟨⟨group', rest'⟩, hs, heq⟩ := Option.map_eq_some_iff.1 hs
        cases heq
        exact onward (by simpa using hs) rfl
      simp only [glyphsOf, splitGroup, Option.isSome_none, Bool.false_eq_true, if_false] at h
      split_ifs at h with ho hc hz hn
      · exact step h
      · cases h
        exact ⟨[], ps, by rw [hc]; rfl, by rw [hc]; rfl, by simp [hc]⟩
      · exact step h
      · exact step h

/-! ### How literals begin -/

/-- The characters that a literal can begin with. -/
def isLiteralStart (c : Char) : Bool := c = '\'' || c = '"' || c = '`' || c = '/'

theorem LiteralKind.Begins.isLiteralStart {rest : List Char} (h : kind.Begins c rest) : isLiteralStart c := by
  cases kind with
  | quoted quote => rcases h.2 with rfl | rfl | rfl <;> rfl
  | lineComment | blockComment | pattern => rw [h.1]; rfl

theorem exists_start_of_mem_piecesFrom {ctx : ScanContext} (h : piecesFrom ctx o cs = .ok ps)
    (hm : .literal kind text ∈ ps) : ∃ c rest, text = c :: rest ∧ isLiteralStart c := by
  obtain ⟨_, c, rest, n, rfl, ho⟩ := exists_opening_of_mem_piecesFrom h hm
  exact ⟨c, rest.take n, rfl, (begins_of_opening ho).isLiteralStart⟩

namespace Source

variable {s : Source} {g : Glyph} {gs : List Glyph}

/-- The pieces of the source are those that a scan of its text gives. -/
def IsScan (s : Source) : Prop := Pagewright.pieces s.text = .ok s.pieces

theorem isScan_ofText (h : ofText text = .ok s) : s.IsScan := by
  rw [IsScan, text_ofText h]
  exact pieces_ofText h

theorem text_eq_glyphText (s : Source) : s.text = glyphText s.glyphs := by
  rw [glyphs, glyphText_glyphsOf, s.chars_pieces]

theorem text_of_append (h : s.glyphs = front ++ gs) : s.text = glyphText front ++ glyphText gs := by
  rw [text_eq_glyphText, h, glyphText_append]

theorem offsetOf_of_append (h : s.glyphs = front ++ gs) : s.offsetOf gs = byteSize (glyphText front) := by
  cases gs with
  | nil => rw [offsetOf, size, text_eq_glyphText, h, append_nil]
  | cons g gs => rw [offsetOf, offset_of_glyphsOf h, Nat.zero_add]

theorem offsetOf_append {mid : List Glyph} (h : s.glyphs = front ++ (mid ++ gs)) :
    s.offsetOf gs = s.offsetOf (mid ++ gs) + byteSize (glyphText mid) := by
  rw [offsetOf_of_append h, offsetOf_of_append (h.trans (append_assoc _ _ _).symm), glyphText_append, byteSize_append]

theorem offsetOf_tail (h : s.glyphs = front ++ g :: gs) : s.offsetOf gs = g.offset + g.char.utf8Size :=
  offsetOf_append (show s.glyphs = front ++ ([g] ++ gs) from h)

theorem text_of_suffix (h : gs <:+ s.glyphs) : ∃ front, s.text = front ++ glyphText gs ∧ s.offsetOf gs = byteSize front := by
  obtain ⟨front, h⟩ := h
  exact ⟨glyphText front, text_of_append h.symm, offsetOf_of_append h.symm⟩

theorem offset_lt_of_append (h : s.glyphs = front ++ gs) (hg : g ∈ front) : g.offset < byteSize (glyphText front) := by
  simpa using offset_lt_of_glyphsOf h hg

theorem le_offset_of_append (h : s.glyphs = front ++ gs) (hg : g ∈ gs) : byteSize (glyphText front) ≤ g.offset := by
  obtain ⟨pre, post, rfl⟩ := append_of_mem hg
  rw [← append_assoc] at h
  rw [offset_of_glyphsOf h, glyphText_append, byteSize_append]
  omega

theorem glyphsFrom_offsetOf (h : gs <:+ s.glyphs) : s.glyphsFrom (s.offsetOf gs) = gs := by
  obtain ⟨front, h⟩ := h
  have hd := dropUntil_of_append h.symm
  rwa [Nat.zero_add, ← offsetOf_of_append h.symm] at hd

/-! ### Where a reader stands -/

/-- The glyphs begin between two pieces of the source and reach to its end. -/
def IsRest (s : Source) (gs : List Glyph) : Prop :=
  ∃ before after, s.pieces = before ++ after ∧ gs = glyphsOf (piecesSize before) after

theorem isRest_glyphs (s : Source) : s.IsRest s.glyphs := ⟨[], s.pieces, rfl, rfl⟩

theorem isRest_nil (s : Source) : s.IsRest [] := ⟨s.pieces, [], (append_nil _).symm, rfl⟩

theorem IsRest.suffix (h : s.IsRest gs) : gs <:+ s.glyphs := by
  obtain ⟨before, after, hp, rfl⟩ := h
  refine ⟨glyphsOf 0 before, ?_⟩
  rw [glyphs, hp, glyphsOf_append, Nat.zero_add]

/-- The glyphs begin with the character of code `c`, which follows the pieces `before`. -/
structure BeginsCode (s : Source) (before after : List Piece) (g : Glyph) (gs : List Glyph) : Prop where
  pieces_eq : s.pieces = before ++ .code g.char :: after
  glyph_eq : g = ⟨g.char, piecesSize before, none⟩
  rest_eq : gs = glyphsOf (piecesSize before + g.char.utf8Size) after

theorem BeginsCode.isRest_cons (h : s.BeginsCode before after g gs) : s.IsRest (g :: gs) := by
  refine ⟨before, .code g.char :: after, h.pieces_eq, ?_⟩
  rw [glyphsOf, ← h.rest_eq, ← h.glyph_eq]

theorem BeginsCode.isRest (h : s.BeginsCode before after g gs) : s.IsRest gs := by
  refine ⟨before ++ [.code g.char], after, ?_, ?_⟩
  · rw [h.pieces_eq, append_assoc]
    rfl
  · rw [h.rest_eq]
    simp

theorem beginsCode_of_suffix (h : g :: gs <:+ s.glyphs) (hg : g.cover = none) :
    ∃ before after, s.BeginsCode before after g gs := by
  obtain ⟨before, after, hp, hl, hr⟩ := exists_code_of_suffix h hg
  rw [Nat.zero_add] at hl hr
  exact ⟨before, after, hp, hl, hr⟩

/-- Behind a literal reading goes on where it ends. -/
theorem IsRest.of_cover {stop : Nat} (hs : s.IsScan) (h : s.IsRest (g :: gs)) (hc : g.cover = some stop) :
    isLiteralStart g.char ∧ s.IsRest (dropUntil stop gs) ∧ ∃ lit, g :: gs = lit ++ dropUntil stop gs ∧ ∀ g ∈ lit, g.cover.isSome := by
  obtain ⟨before, after, hp, hg⟩ := h
  cases after with
  | nil => cases hg
  | cons p after =>
    cases p with
    | code c =>
      cases hg
      cases hc
    | literal kind text =>
      obtain ⟨c, rest, rfl, hl⟩ := exists_start_of_mem_piecesFrom hs
        (show .literal kind text ∈ s.pieces by rw [hp]; simp)
      have hd := dropUntil_of_append (show glyphsOf (piecesSize before) (.literal kind (c :: rest) :: after) = _ ++ _ from rfl)
      rw [← hg, glyphText_coveredGlyphs] at hd
      have ho := byteSize_pos (cons_ne_nil c rest)
      obtain ⟨rfl, rfl⟩ := cons.inj hg
      cases hc
      rw [dropUntil, dropWhile_cons_of_pos (by simpa using ho)] at hd
      rw [dropUntil, hd]
      refine ⟨hl, ⟨before ++ [.literal kind (c :: rest)], after, by simp [hp], by simp⟩, coveredGlyphs _ (piecesSize before) (c :: rest), rfl,
        fun g hg => ?_⟩
      rw [cover_of_mem_coveredGlyphs hg]
      rfl

/-- Glyphs to be read begin with a character of code, behind which reading goes on, or with the
first one of a literal, behind the end of which it goes on. -/
theorem IsRest.cons_cases (hs : s.IsScan) (h : s.IsRest (g :: gs)) : (∃ before after, s.BeginsCode before after g gs) ∨
      isLiteralStart g.char ∧ ∃ stop, g.cover = some stop ∧ s.IsRest (dropUntil stop gs) := by
  cases hc : g.cover with
  | none => exact .inl (beginsCode_of_suffix h.suffix hc)
  | some stop =>
    obtain ⟨hl, hr, -⟩ := h.of_cover hs hc
    exact .inr ⟨hl, stop, rfl, hr⟩

theorem IsRest.tail_of_code (hs : s.IsScan) (h : s.IsRest (g :: gs))
    (hg : isLiteralStart g.char = false) : ∃ before after, s.BeginsCode before after g gs := by
  rcases h.cons_cases hs with hc | ⟨ht, -⟩
  · exact hc
  · rw [hg] at ht
    cases ht

/-- A search that stops at every literal stops between two pieces. -/
theorem IsRest.dropWhile (hs : s.IsScan) {p : Char → Bool} (hp : ∀ c, isLiteralStart c → p c = false)
    (h : s.IsRest gs) : s.IsRest (gs.dropWhile (p ·.char)) := by
  induction gs with
  | nil => exact h
  | cons g gs ih =>
    rw [dropWhile_cons]
    split
    · next hg =>
      rcases h.cons_cases hs with ⟨before, after, hc⟩ | ⟨ht, -⟩
      · exact ih hc.isRest
      · rw [hp g.char ht] at hg
        cases hg
    · exact h

/-- The pieces behind some others begin where these end. -/
theorem offsetOf_glyphsOf (h : s.pieces = before ++ after) :
    s.offsetOf (glyphsOf (piecesSize before) after) = piecesSize before := by
  have hg : s.glyphs = glyphsOf 0 before ++ glyphsOf (piecesSize before) after := by rw [glyphs, h, glyphsOf_append, Nat.zero_add]
  rw [offsetOf_of_append hg, glyphText_glyphsOf, piecesSize]

theorem glyphsFrom_of_pieces (h : s.pieces = before ++ after) :
    s.glyphsFrom (piecesSize before) = glyphsOf (piecesSize before) after := by
  have hr : s.IsRest (glyphsOf (piecesSize before) after) := ⟨before, after, h, rfl⟩
  have hg := glyphsFrom_offsetOf hr.suffix
  rwa [offsetOf_glyphsOf h] at hg

theorem BeginsCode.glyphsFrom (h : s.BeginsCode before after g gs) : s.glyphsFrom g.offset = g :: gs :=
  glyphsFrom_offsetOf h.isRest_cons.suffix

end Source

/-! ### Tokens -/

theorem isLiteralStart_cases (h : isLiteralStart c) : c = '\'' ∨ c = '"' ∨ c = '`' ∨ c = '/' := by
  simpa [isLiteralStart, or_assoc] using h

theorem isBlank_of_isLiteralStart (h : isLiteralStart c) : isBlank c = false := by
  rcases isLiteralStart_cases h with rfl | rfl | rfl | rfl <;> decide

theorem isNameChar_of_isLiteralStart (h : isLiteralStart c) : isNameChar c = false := by
  rcases isLiteralStart_cases h with rfl | rfl | rfl | rfl <;> decide

theorem isWordPart_of_isLiteralStart (h : isLiteralStart c) : isWordPart c = false := by
  rcases isLiteralStart_cases h with rfl | rfl | rfl | rfl <;> decide

namespace Source

variable {s : Source} {g : Glyph} {gs : List Glyph}

theorem IsRest.tail_of_blank (hs : s.IsScan) (h : s.IsRest (g :: gs)) (hb : isBlank g.char) : s.IsRest gs := by
  rcases h.cons_cases hs with ⟨before, after, hc⟩ | ⟨ht, -⟩
  · exact hc.isRest
  · rw [isBlank_of_isLiteralStart ht] at hb
    cases hb

theorem isRest_skipTrivia (hs : s.IsScan) (h : s.IsRest gs) : s.IsRest (skipTrivia gs) := by
  fun_induction skipTrivia gs with
  | case1 | case4 | case5 => exact h
  | case2 g rest hb ih => exact ih (h.tail_of_blank hs hb)
  | case3 g rest hb stop ho hm ih => exact ih (h.of_cover hs ho).2.1

theorem isRest_lexHere (hs : s.IsScan) (h : s.IsRest (g :: gs))
    (hk : (lexHere g gs).1 ≠ .mark '/') : s.IsRest (lexHere g gs).2 := by
  have hw : ∀ gs, s.IsRest gs → s.IsRest (afterWord gs) := fun gs =>
    IsRest.dropWhile hs fun c hc => isWordPart_of_isLiteralStart hc
  rcases h.cons_cases hs with ⟨before, after, ho⟩ | ⟨ht, stop, hv, hr⟩
  · have hv : g.cover = none := congrArg Glyph.cover ho.glyph_eq
    simp only [lexHere, hv, ite_self]
    split_ifs
    · exact hw gs ho.isRest
    · exact hw gs ho.isRest
    · exact ho.isRest
  · rcases isLiteralStart_cases ht with hc | hc | hc | hc
    · simpa [lexHere, hc, hv] using hr
    · simpa [lexHere, hc, hv] using hr
    · simpa [lexHere, hc, hv] using hr
    · have hn : isNameStart '/' = false := by decide
      exact absurd (by simp [lexHere, hc, hn]) hk

theorem token_of_cons {after : List Glyph} (h : skipTrivia gs = g :: after) :
    (s.token gs).token.kind = (lexHere g after).1 ∧ (s.token gs).rest = (lexHere g after).2 := by
  unfold token
  split
  · next hn =>
    rw [h] at hn
    cases hn
  · next g' post' hc =>
    rw [h] at hc
    cases hc
    exact ⟨rfl, rfl⟩

theorem token_of_nil (h : skipTrivia gs = []) : (s.token gs).token.kind = .eof ∧ (s.token gs).rest = [] := by
  unfold token
  split
  · exact ⟨rfl, rfl⟩
  · next hc =>
    rw [h] at hc
    cases hc

theorem isRest_token (hs : s.IsScan) (h : s.IsRest gs) (hk : (s.token gs).token.kind ≠ .mark '/') :
    s.IsRest (s.token gs).rest := by
  have hsk := isRest_skipTrivia hs h
  cases hg : skipTrivia gs with
  | nil =>
    rw [(token_of_nil hg).2]
    exact s.isRest_nil
  | cons g after =>
    obtain ⟨hf, hn⟩ := token_of_cons (s := s) hg
    rw [hg] at hsk
    rw [hf] at hk
    rw [hn]
    exact isRest_lexHere hs hsk hk

theorem char_of_lexHere_mark {after : List Glyph} (h : (lexHere g after).1 = .mark c) : g.char = c := by
  unfold lexHere at h
  split at h
  · cases h
  · split_ifs at h
    exact TokenKind.mark.inj h

/-- A mark with which no literal begins is a character of code. -/
theorem beginsCode_of_mark (hs : s.IsScan) (h : s.IsRest gs)
    (hk : (s.token gs).token.kind = .mark c) (hc : isLiteralStart c = false) :
    ∃ before after g rest, skipTrivia gs = g :: rest ∧ g.char = c ∧ s.BeginsCode before after g rest := by
  have hsk := isRest_skipTrivia hs h
  cases hg : skipTrivia gs with
  | nil =>
    rw [(token_of_nil hg).1] at hk
    cases hk
  | cons g rest =>
    rw [(token_of_cons hg).1] at hk
    rw [hg] at hsk
    have hh := char_of_lexHere_mark hk
    obtain ⟨before, after, ho⟩ := hsk.tail_of_code hs (by rw [hh]; exact hc)
    exact ⟨before, after, g, rest, rfl, hh, ho⟩

/-! ### Groups of a source -/

/-- The pieces `body` stand between a bracket that follows the pieces `before` and the bracket that
closes its group. -/
def IsGroup (s : Source) (opener closer : Char) (before body : List Piece) : Prop :=
  ∃ after, s.pieces = before ++ .code opener :: (body ++ .code closer :: after)

theorem BeginsCode.group {group : List Glyph} (h : s.BeginsCode before after g gs)
    (hs : splitGroup g.char closer 0 (g :: gs) = some (group, rest)) :
    ∃ body after', after = body ++ .code closer :: after' ∧ s.IsGroup g.char closer before body ∧
      group = g :: glyphsOf (piecesSize before + g.char.utf8Size) (body ++ [.code closer]) ∧
      rest = glyphsOf (piecesSize before + g.char.utf8Size + piecesSize (body ++ [.code closer])) after' := by
  rw [h.rest_eq, splitGroup, h.glyph_eq] at hs
  simp only [Option.isSome_none, Bool.false_eq_true, if_false, if_true] at hs
  obtain ⟨⟨group', rest'⟩, hc, heq⟩ := Option.map_eq_some_iff.1 hs
  cases heq
  obtain ⟨body, after', rfl, rfl, rfl⟩ := exists_cut_of_splitGroup hc
  exact ⟨body, after', rfl, ⟨after', h.pieces_eq⟩, by rw [← h.glyph_eq], rfl⟩

theorem BeginsCode.isRest_group {group : List Glyph} (h : s.BeginsCode before after g gs)
    (hs : splitGroup g.char closer 0 (g :: gs) = some (group, rest)) : s.IsRest rest := by
  obtain ⟨body, post', rfl, -, -, rfl⟩ := h.group hs
  refine ⟨before ++ .code g.char :: (body ++ [.code closer]), post', ?_, ?_⟩
  · rw [h.pieces_eq]
    simp
  · simp [Nat.add_assoc]

/-- The literals that lie between two offsets, with their ranges counted from the first of these. -/
def spansWithin (s : Source) (start stop : Nat) : List Span :=
  (s.spans.filter fun span => start ≤ span.start && span.stop ≤ stop).map fun span =>
    ⟨span.start - start, span.stop - start⟩

theorem utf8Size_of_closer? (h : closer? opener = some closer) : opener.utf8Size = 1 ∧ closer.utf8Size = 1 := by
  rcases closer?_cases h with ⟨rfl, rfl⟩ | ⟨rfl, rfl⟩ | ⟨rfl, rfl⟩ <;> decide

theorem IsGroup.spansWithin (hp : closer? opener = some closer) (h : s.IsGroup opener closer before body) :
    s.spansWithin (piecesSize before + 1) (piecesSize before + 1 + piecesSize body) = spansOf 0 body := by
  obtain ⟨after, hi⟩ := h
  obtain ⟨ho, hc⟩ := utf8Size_of_closer? hp
  have hs : s.spans = spansOf 0 before ++ (spansOf (piecesSize before + 1) body ++
      spansOf (piecesSize before + 1 + piecesSize body + 1) after) := by
    rw [spans, hi, spansOf_append, spansOf, spansOf_append, spansOf, ho, hc, Nat.zero_add]
  rw [Source.spansWithin, hs, filter_append, filter_append, filter_eq_nil_iff.2, filter_eq_self.2, filter_eq_nil_iff.2,
    nil_append, append_nil, spansOf_shift]
  all_goals
    intro span hsp
    have hle := le_start_of_mem_spansOf hsp
    have hsa := start_le_stop_of_mem_spansOf hsp
    have ht := stop_le_of_mem_spansOf hsp
    simp only [Bool.and_eq_true, decide_eq_true_eq]
    omega

theorem IsGroup.rescan (hs : s.IsScan) (hp : closer? opener = some closer)
    (h : s.IsGroup opener closer before body) : ∃ b, ofText (body.flatMap chars) = .ok b ∧
      b.spans = s.spansWithin (piecesSize before + 1) (piecesSize before + 1 + piecesSize body) := by
  rw [h.spansWithin hp]
  obtain ⟨after, hi⟩ := h
  rw [IsScan, hi] at hs
  exact ⟨_, ofText_of_pieces (pieces_inside hp hs), rfl⟩

/-! ### Groups found by their offset -/

theorem isCovered_iff (s : Source) (offset : Nat) : s.isCovered offset ↔ Covers 0 s.pieces offset := by
  simp only [isCovered, Option.isSome_iff_exists, literalEnd?_eq_some_iff]
  constructor
  · rintro ⟨_, span, hm, ht, hs, -⟩
    exact ⟨span, hm, ht, hs⟩
  · rintro ⟨span, hm, ht, hs⟩
    exact ⟨_, span, hm, ht, hs, rfl⟩

/-- An offset that no literal covers is that of a character of code. -/
theorem beginsCode_of_uncovered {front : List Char} (h : ofText text = .ok s)
    (ht : text = front ++ c :: back) (hc : s.isCovered (byteSize front) = false) :
    ∃ before after, before.flatMap chars = front ∧ s.BeginsCode before after ⟨c, byteSize front, none⟩
        (glyphsOf (byteSize front + c.utf8Size) after) := by
  have hp : s.pieces.flatMap chars = front ++ c :: back := by rw [s.chars_pieces, text_ofText h, ht]
  rw [← Bool.not_eq_true, isCovered_iff] at hc
  obtain ⟨before, after, he, rfl⟩ := exists_code_of_not_covers hp (show ¬Covers 0 _ _ by rwa [Nat.zero_add])
  exact ⟨before, after, rfl, he, rfl, rfl⟩

theorem isCovered_offset (hg : g ∈ s.glyphs) : s.isCovered g.offset = g.cover.isSome :=
  Bool.eq_iff_iff.2 ((s.isCovered_iff g.offset).trans (covers_offset hg))

/-- No literal covers a character of code. -/
theorem isCovered_of_code (hp : s.pieces = before ++ .code c :: after) : s.isCovered (piecesSize before) = false := by
  refine isCovered_offset (g := ⟨c, piecesSize before, none⟩) ?_
  rw [glyphs, hp, glyphsOf_append, Nat.zero_add]
  exact mem_append_right _ mem_cons_self

theorem exists_group_of_matchBracket {front : List Char} (h : ofText text = .ok s) (ht : text = front ++ opener :: back)
    (hc : s.isCovered (byteSize front) = false) (hp : closer? opener = some closer) (hm : s.matchBracket (byteSize front) = .ok stop) :
    ∃ before body, before.flatMap chars = front ∧ s.IsGroup opener closer before body ∧
      stop = byteSize front + 1 + piecesSize body + 1 := by
  obtain ⟨before, after, hf, hco⟩ := beginsCode_of_uncovered h ht hc
  have hi : piecesSize before = byteSize front := congrArg byteSize hf
  unfold matchBracket at hm
  rw [hco.glyphsFrom] at hm
  simp only [if_true, hp] at hm
  split at hm
  · next group rest hsp =>
    cases hm
    obtain ⟨body, after', rfl, hg, -, rfl⟩ := hco.group hsp
    refine ⟨before, body, hf, hg, ?_⟩
    obtain ⟨ho, hl⟩ := utf8Size_of_closer? hp
    have hb : s.pieces = before ++ .code opener :: (body ++ [.code closer]) ++ after' := by
      rw [hco.pieces_eq]
      simp
    have hof := offsetOf_glyphsOf hb
    simp only [piecesSize_append, piecesSize_code, piecesSize_nil, ho, hl, hi, ← Nat.add_assoc, Nat.add_zero] at hof ⊢
    exact hof
  · cases hm

end Source

end Pagewright
