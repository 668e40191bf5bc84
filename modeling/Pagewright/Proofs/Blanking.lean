import Pagewright.Proofs.Reading

/-!
# Blanked texts

The classes of a text are blanked out before its page is read: every character but a line feed gives
way to as many spaces as it has bytes. All other bytes stay where they are
(`Source.bytesOf_blankOut`), and what is no blank in the new text stood at its offset in the old one
(`exists_cut_of_blankOut`). But columns count characters, so they grow behind a blanked character of
several bytes (`Source.position_blankOut`). -/

namespace Pagewright

open List

variable {front back cs lines text : List Char} {c : Char} {i o offset : Nat}

/-! ### Boundaries -/

theorem IsBoundary.le_or_le (h : IsBoundary text offset)
    (ht : text = front ++ c :: back) : offset ≤ byteSize front ∨ byteSize front + c.utf8Size ≤ offset := by
  obtain ⟨front', back', heq, rfl⟩ := h
  rw [ht] at heq
  rcases append_eq_append_iff.1 heq with ⟨mid, rfl, -⟩ | ⟨mid, rfl, hm⟩
  · simp
  · cases mid with
    | nil =>
      simp
    | cons d mid =>
      obtain ⟨rfl, -⟩ := cons.inj hm
      simp only [byteSize_append, byteSize]
      omega

namespace Source

variable {s : Source} {gs : List Glyph}

theorem isBoundary_of_suffix (h : gs <:+ s.glyphs) : IsBoundary s.text (s.offsetOf gs) := by
  obtain ⟨front, ht, ho⟩ := text_of_suffix h
  exact ⟨front, glyphText gs, ht.symm, ho.symm⟩

theorem boundaries_of_mem_classBlocks {blocks : List Span} (h : s.classBlocks = .ok blocks) {block : Span}
    (hb : block ∈ blocks) : IsBoundary s.text block.start ∧ IsBoundary s.text block.stop := by
  obtain ⟨keyword, brace, group, rest, hc⟩ := exists_of_mem_classBlocksFrom suffix_rfl h hb
  have hr : rest <:+ keyword := .trans ⟨group, splitGroup_append hc.cut⟩ (suffix_of_findGlyphs hc.find_brace)
  rw [hc.block_eq]
  exact ⟨isBoundary_of_suffix hc.suffix, isBoundary_of_suffix (hr.trans hc.suffix)⟩

end Source

/-! ### Bytes -/

/-- The bytes of a text in UTF-8. -/
def bytesOf (text : List Char) : List UInt8 := text.flatMap String.utf8EncodeChar

theorem length_bytesOf (text : List Char) : (bytesOf text).length = byteSize text := by
  induction text with
  | nil => rfl
  | cons c text ih => rw [bytesOf, flatMap_cons, length_append, String.length_utf8EncodeChar, ← bytesOf, ih, byteSize]

theorem not_mem_utf8EncodeChar (hc : c ≠ '\n') : (10 : UInt8) ∉ String.utf8EncodeChar c := by
  have hv : c.val.toNat ≠ 10 := fun h => hc (Char.ext (UInt32.toNat_inj.1 h))
  have hb : ∀ n, n < 256 → n ≠ 10 → (10 : UInt8) ≠ UInt8.ofNat n := by
    intro n hlt hne heq
    have := congrArg UInt8.toNat heq
    rw [UInt8.toNat_ofNat_of_lt' hlt] at this
    exact hne this.symm
  unfold String.utf8EncodeChar
  dsimp only
  split_ifs <;> simp only [mem_cons, not_mem_nil, or_false, not_or]
  · exact hb _ (by omega) hv
  · exact ⟨hb _ (by omega) (by omega), hb _ (by omega) (by omega)⟩
  · exact ⟨hb _ (by omega) (by omega), hb _ (by omega) (by omega), hb _ (by omega) (by omega)⟩
  · exact ⟨hb _ (by omega) (by omega), hb _ (by omega) (by omega), hb _ (by omega) (by omega), hb _ (by omega) (by omega)⟩

/-- What a byte at an offset gives way to. -/
def blankByte (blocks : List Span) (offset : Nat) (b : UInt8) : UInt8 :=
  if b ≠ 10 ∧ blocks.any (·.contains offset) then 32 else b

variable {blocks : List Span} {g : Glyph} {gs post : List Glyph}

theorem blankOut_cons (blocks : List Span) (g : Glyph) (gs : List Glyph) :
    blankOut blocks (g :: gs) = blankOut blocks [g] ++ blankOut blocks gs := by
  simp [blankOut]

theorem blankOut_append (blocks : List Span) (gs hs : List Glyph) :
    blankOut blocks (gs ++ hs) = blankOut blocks gs ++ blankOut blocks hs :=
  flatMap_append

/-- A character stays if it is a line feed or outside the ranges, and else becomes spaces. -/
theorem blankOut_cases (blocks : List Span) (g : Glyph) :
    blankOut blocks [g] = [g.char] ∧ (g.char = '\n' ∨ blocks.any (·.contains g.offset) = false) ∨
      blankOut blocks [g] = replicate g.char.utf8Size ' ' ∧ g.char ≠ '\n' ∧ blocks.any (·.contains g.offset) := by
  rw [blankOut, flatMap_singleton]
  split
  · next h =>
    simp only [Bool.and_eq_true, bne_iff_ne] at h
    exact .inr ⟨rfl, h⟩
  · next h =>
    refine .inl ⟨rfl, ?_⟩
    by_cases hc : g.char = '\n'
    · exact .inl hc
    · exact .inr (by simpa [hc] using h)

theorem bytesOf_append (cs ds : List Char) : bytesOf (cs ++ ds) = bytesOf cs ++ bytesOf ds := flatMap_append

theorem bytesOf_replicate_space (n : Nat) : bytesOf (replicate n ' ') = replicate n 32 := by
  induction n with
  | zero => rfl
  | succ n ih =>
    rw [replicate_succ, bytesOf, flatMap_cons, ← bytesOf, ih]
    rfl

theorem bytesOf_blankOut_singleton
    (hb : ∀ i < g.char.utf8Size, blocks.any (·.contains (i + g.offset)) = blocks.any (·.contains g.offset)) :
    bytesOf (blankOut blocks [g]) = (bytesOf [g.char]).mapIdx fun i => blankByte blocks (i + g.offset) := by
  have hy : bytesOf [g.char] = String.utf8EncodeChar g.char := flatMap_singleton _ _
  have hs : (String.utf8EncodeChar g.char).length = g.char.utf8Size := String.length_utf8EncodeChar _
  rcases blankOut_cases blocks g with ⟨hk, hw⟩ | ⟨hl, hc, hn⟩
  · rw [hk, hy]
    refine ext_getElem (by simp) fun i hi _ => ?_
    rw [hs] at hi
    rw [getElem_mapIdx, blankByte, hb i hi, if_neg]
    rintro ⟨hbt, hn⟩
    rcases hw with hc | ho
    · simp only [hc] at hbt hi
      have hz : i = 0 := by
        have : '\n'.utf8Size = 1 := rfl
        omega
      subst hz
      exact hbt rfl
    · rw [ho] at hn
      cases hn
  · rw [hl, hy, bytesOf_replicate_space]
    refine ext_getElem (by simp [hs]) fun i hi _ => ?_
    rw [length_replicate] at hi
    rw [getElem_mapIdx, blankByte, hb i hi, getElem_replicate, if_pos]
    refine ⟨fun ht => not_mem_utf8EncodeChar hc ?_, hn⟩
    rw [← ht]
    exact getElem_mem _

namespace Source

variable {s : Source}

theorem any_contains_inside (hb : ∀ block ∈ blocks, IsBoundary s.text block.start ∧ IsBoundary s.text block.stop)
    {front : List Glyph} (h : s.glyphs = front ++ g :: gs) (hi : i < g.char.utf8Size) :
    blocks.any (·.contains (i + g.offset)) = blocks.any (·.contains g.offset) := by
  have ht : s.text = glyphText front ++ g.char :: glyphText gs := text_of_append h
  have ho : g.offset = byteSize (glyphText front) := offsetOf_of_append h
  rw [Bool.eq_iff_iff, any_eq_true, any_eq_true]
  refine exists_congr fun block => and_congr_right fun hl => ?_
  have hs := (hb block hl).1.le_or_le ht
  have hst := (hb block hl).2.le_or_le ht
  simp only [Span.contains, Bool.and_eq_true, decide_eq_true_eq]
  omega

/-- **Bytes of a blanked text.** Each byte stays as it is outside the ranges or if it is a line
feed, and is a space else. -/
theorem bytesOf_blankOut (hb : ∀ block ∈ blocks, IsBoundary s.text block.start ∧ IsBoundary s.text block.stop) :
    bytesOf (blankOut blocks s.glyphs) = (bytesOf s.text).mapIdx (blankByte blocks) := by
  suffices h : ∀ front gs, s.glyphs = front ++ gs → bytesOf (blankOut blocks gs) =
      (bytesOf (glyphText gs)).mapIdx fun i => blankByte blocks (i + byteSize (glyphText front)) by
    rw [text_eq_glyphText]
    exact h [] s.glyphs rfl
  intro front gs
  induction gs generalizing front with
  | nil => exact fun _ => rfl
  | cons g gs ih =>
    intro h
    have ho : g.offset = byteSize (glyphText front) := offsetOf_of_append h
    have hr := ih (front ++ [g]) (by rw [h, append_assoc]; rfl)
    have hs : byteSize (glyphText (front ++ [g])) = (bytesOf [g.char]).length + byteSize (glyphText front) := by
      rw [glyphText_append, byteSize_append, length_bytesOf, Nat.add_comm]
      rfl
    have hc : glyphText (g :: gs) = [g.char] ++ glyphText gs := rfl
    rw [blankOut_cons, bytesOf_append, hc, bytesOf_append, mapIdx_append, hr, hs,
      bytesOf_blankOut_singleton fun i hi => any_contains_inside hb h hi, ho]
    simp only [Nat.add_assoc]

end Source

theorem byteSize_blankOut (blocks : List Span) (gs : List Glyph) : byteSize (blankOut blocks gs) = byteSize (glyphText gs) := by
  induction gs with
  | nil => rfl
  | cons g gs ih =>
    rw [blankOut_cons, byteSize_append, ih]
    rcases blankOut_cases blocks g with ⟨hk, -⟩ | ⟨hb, -⟩
    · rw [hk]
      rfl
    · rw [hb, byteSize_replicate_space]
      rfl

theorem exists_cut_of_blankOut (h : blankOut blocks gs = front ++ c :: back)
    (hc : isBlank c = false) : ∃ before g post, gs = before ++ g :: post ∧ g.char = c ∧
      blocks.any (·.contains g.offset) = false ∧ front = blankOut blocks before := by
  induction gs generalizing front with
  | nil => simp [blankOut] at h
  | cons g gs ih =>
    rw [blankOut_cons] at h
    rcases append_eq_append_iff.1 h with ⟨mid, rfl, hr⟩ | ⟨mid, hf, hr⟩
    · obtain ⟨before, g', post, rfl, hh, ho, rfl⟩ := ih hr
      exact ⟨g :: before, g', post, rfl, hh, ho, (blankOut_cons blocks g before).symm⟩
    · cases mid with
      | nil =>
        obtain ⟨before, g', post, rfl, hh, ho, hfr⟩ := @ih [] hr.symm
        refine ⟨g :: before, g', post, rfl, hh, ho, ?_⟩
        rw [blankOut_cons, ← hfr, hf, append_nil, append_nil]
      | cons d mid =>
        -- The character is one of those that `g` gives way to.
        obtain ⟨rfl, -⟩ := cons.inj hr
        have hm : c ∈ blankOut blocks [g] := by
          rw [hf]
          simp
        rcases blankOut_cases blocks g with ⟨hk, hw⟩ | ⟨hb, -⟩
        · rw [hk, mem_singleton] at hm
          rw [hk, singleton_eq_append_iff] at hf
          obtain ⟨rfl, -⟩ | ⟨-, hn⟩ := hf
          · refine ⟨[], g, gs, rfl, hm.symm, hw.resolve_left fun he => ?_, rfl⟩
            rw [hm, he] at hc
            exact absurd hc (by decide)
          · cases hn
        · rw [hb] at hm
          rw [eq_of_mem_replicate hm] at hc
          exact absurd hc (by decide)

/-! ### Positions -/

namespace Position

theorem advance_append (p : Position) (front back : List Char) (n : Nat) :
    p.advance (front ++ back) (byteSize front + n) = (front.foldl next p).advance back n := by
  induction front generalizing p with
  | nil => rw [byteSize, Nat.zero_add]; rfl
  | cons c front ih =>
    have hp := c.utf8Size_pos
    obtain ⟨k, hk⟩ : ∃ k, byteSize (c :: front) + n = k + 1 := ⟨byteSize (c :: front) + n - 1, by rw [byteSize]; omega⟩
    have hr : k + 1 - c.utf8Size = byteSize front + n := by rw [← hk, byteSize]; omega
    rw [hk, cons_append, advance, hr, ih, foldl_cons]

theorem advance_byteSize (p : Position) (front back : List Char) :
    p.advance (front ++ back) (byteSize front) = front.foldl next p := by
  refine (p.advance_append front back 0).trans ?_
  cases back <;> rfl

theorem line_foldl_next (p : Position) (cs : List Char) : (cs.foldl next p).line = p.line + cs.count '\n' := by
  induction cs generalizing p with
  | nil => rfl
  | cons c cs ih =>
    rw [foldl_cons, next]
    split_ifs with hc <;> simp_all [Nat.add_assoc, Nat.add_comm 1]

theorem line_ofOffset (front back : List Char) : (ofOffset (front ++ back) (byteSize front)).line = 1 + front.count '\n' := by
  rw [ofOffset, advance_byteSize, line_foldl_next, first]

theorem foldl_next_of_not_mem (h : '\n' ∉ cs) (p : Position) : cs.foldl next p = ⟨p.line, p.column + cs.length⟩ := by
  induction cs generalizing p with
  | nil => rfl
  | cons c cs ih =>
    rw [mem_cons, not_or] at h
    rw [foldl_cons, ih h.2, next, if_neg (Ne.symm h.1), length_cons, Nat.add_assoc, Nat.add_comm 1]

/-- The text is made of whole lines. -/
def WholeLines (lines : List Char) : Prop := lines = [] ∨ ∃ front, lines = front ++ ['\n']

theorem exists_wholeLines (cs : List Char) : ∃ lines last, cs = lines ++ last ∧ WholeLines lines ∧ '\n' ∉ last := by
  induction cs with
  | nil => exact ⟨[], [], rfl, .inl rfl, not_mem_nil⟩
  | cons c cs ih =>
    obtain ⟨lines, last, rfl, hl | ⟨front, rfl⟩, ha⟩ := ih
    · subst hl
      by_cases hc : c = '\n'
      · exact ⟨[c], last, rfl, .inr ⟨[], by rw [hc]; rfl⟩, ha⟩
      · exact ⟨[], c :: last, rfl, .inl rfl, by simp [Ne.symm hc, ha]⟩
    · exact ⟨c :: (front ++ ['\n']), last, rfl, .inr ⟨c :: front, rfl⟩, ha⟩

theorem ofOffset_of_lines {last : List Char} (hl : WholeLines lines) (ha : '\n' ∉ last) (back : List Char) :
    ofOffset (lines ++ (last ++ back)) (byteSize lines + byteSize last) = ⟨1 + lines.count '\n', 1 + last.length⟩ := by
  have hs : lines.foldl next first = ⟨1 + lines.count '\n', 1⟩ := by
    have hi := line_foldl_next first lines
    rcases hl with rfl | ⟨front, rfl⟩
    · rfl
    · rw [foldl_append] at hi ⊢
      exact congrArg (fun line => (⟨line, 1⟩ : Position)) hi
  rw [ofOffset, ← append_assoc, ← byteSize_append, advance_byteSize, foldl_append, hs, foldl_next_of_not_mem ha]

end Position

theorem count_blankOut (blocks : List Span) (gs : List Glyph) : (blankOut blocks gs).count '\n' = (glyphText gs).count '\n' := by
  induction gs with
  | nil => rfl
  | cons g gs ih =>
    rw [blankOut_cons, count_append, ih]
    rcases blankOut_cases blocks g with ⟨hk, -⟩ | ⟨hb, hc, -⟩
    · rw [hk, ← count_append]
      rfl
    · rw [hb, count_replicate]
      simp [glyphText, hc]

/-- The bytes that the glyphs have more than characters. -/
def extraBytes : List Glyph → Nat
  | [] => 0
  | g :: gs => g.char.utf8Size - 1 + extraBytes gs

theorem extraBytes_eq_zero_iff : extraBytes gs = 0 ↔ ∀ g ∈ gs, g.char.utf8Size = 1 := by
  induction gs with
  | nil => simp [extraBytes]
  | cons g gs ih =>
    have := g.char.utf8Size_pos
    rw [forall_mem_cons, ← ih, extraBytes]
    omega

theorem length_blankOut (blocks : List Span) (gs : List Glyph) :
    (blankOut blocks gs).length = gs.length + extraBytes (gs.filter fun g => blocks.any (·.contains g.offset)) := by
  induction gs with
  | nil => rfl
  | cons g gs ih =>
    rw [blankOut_cons, length_append, length_cons]
    rcases blankOut_cases blocks g with ⟨hk, hc | ho⟩ | ⟨hb, hc, hi⟩
    · have hs : g.char.utf8Size - 1 = 0 := by rw [hc]; rfl
      rw [hk, filter_cons]
      split
      · rw [extraBytes, length_singleton]
        omega
      · rw [length_singleton]
        omega
    · rw [hk, filter_cons_of_neg (by simpa using ho), length_singleton]
      omega
    · have := g.char.utf8Size_pos
      rw [hb, filter_cons_of_pos (by simpa using hi), extraBytes, length_replicate]
      omega

theorem exists_append_of_glyphText (h : glyphText gs = front ++ back) :
    ∃ pre post, gs = pre ++ post ∧ glyphText pre = front ∧ glyphText post = back :=
  map_eq_append_iff.1 h

namespace Source

variable {s : Source}

theorem position_of_append {front : List Glyph} (h : s.glyphs = front ++ g :: gs) :
    g.offset = byteSize (glyphText front) ∧ (s.position g.offset).line = 1 + (glyphText front).count '\n' := by
  have ho : g.offset = byteSize (glyphText front) := offsetOf_of_append h
  rw [position, ho, text_of_append h]
  exact ⟨rfl, Position.line_ofOffset _ _⟩

/-- The characters in the ranges that stand before an offset, on the same line. -/
def blankedBefore (s : Source) (blocks : List Span) (offset : Nat) : List Glyph :=
  s.glyphs.filter fun g =>
    (g.offset < offset && (s.position g.offset).line = (s.position offset).line) && blocks.any (·.contains g.offset)

theorem blankedBefore_eq {lines last : List Glyph} (h : s.glyphs = lines ++ (last ++ post))
    (hl : Position.WholeLines (glyphText lines)) (ha : '\n' ∉ glyphText last) :
    s.blankedBefore blocks (byteSize (glyphText lines) + byteSize (glyphText last)) =
      last.filter fun g => blocks.any (·.contains g.offset) := by
  have hi : (s.position (byteSize (glyphText lines) + byteSize (glyphText last))).line = 1 + (glyphText lines).count '\n' := by
    rw [position, text_of_append h, glyphText_append, Position.ofOffset_of_lines hl ha]
  have hb : ∀ g ∈ lines, (s.position g.offset).line < 1 + (glyphText lines).count '\n' := by
    intro g hg
    obtain ⟨front, back, rfl⟩ := append_of_mem hg
    rw [append_assoc] at h
    rw [(position_of_append h).2, glyphText_append, count_append]
    -- The line feed that ends the lines is not before `g`.
    have hf : '\n' ∈ glyphText (g :: back) := by
      rcases hl with hn | ⟨text, ht⟩
      · simp [glyphText] at hn
      · have hs : ['\n'] <:+ glyphText (g :: back) :=
          suffix_of_suffix_length_le ⟨text, ht.symm⟩ ⟨glyphText front, (glyphText_append _ _).symm⟩ (by simp [glyphText])
        exact hs.subset (mem_singleton_self _)
    have := count_pos_iff.2 hf
    omega
  have ho : ∀ g ∈ last, (s.position g.offset).line = 1 + (glyphText lines).count '\n' := by
    intro g hg
    obtain ⟨front, back, rfl⟩ := append_of_mem hg
    rw [append_assoc, ← append_assoc] at h
    rw [glyphText_append, mem_append, not_or] at ha
    rw [(position_of_append h).2, glyphText_append, count_append, count_eq_zero.2 ha.1, Nat.add_zero]
  have hs : s.glyphs = (lines ++ last) ++ post := by rw [h, append_assoc]
  rw [blankedBefore, hi, ← byteSize_append, ← glyphText_append, h, filter_append, filter_append]
  rw [(filter_eq_nil_iff (l := lines)).2, (filter_eq_nil_iff (l := post)).2, append_nil]
  · refine filter_congr fun g hg => ?_
    rw [decide_eq_true (offset_lt_of_append hs (mem_append_right lines hg)), decide_eq_true (ho g hg), Bool.and_true, Bool.true_and]
  all_goals
    intro g hg
    simp only [Bool.and_eq_true, decide_eq_true_eq]
  · have := le_offset_of_append hs hg
    omega
  · have := hb g hg
    omega

/-- **Positions in a blanked text.** The line is that of the source, and the column is larger by the
bytes that the characters blanked on the line before it have more than characters. -/
theorem position_blankOut (blocks : List Span) (h : IsBoundary s.text o) : Position.ofOffset (blankOut blocks s.glyphs) o =
      ⟨(s.position o).line, (s.position o).column + extraBytes (s.blankedBefore blocks o)⟩ := by
  obtain ⟨front, back, ht, rfl⟩ := h
  obtain ⟨lines, last, rfl, hl, ha⟩ := Position.exists_wholeLines front
  rw [append_assoc, text_eq_glyphText] at ht
  obtain ⟨pre, rest, hgl, rfl, hr⟩ := exists_append_of_glyphText ht.symm
  obtain ⟨on, post, rfl, rfl, rfl⟩ := exists_append_of_glyphText hr
  have hw : Position.WholeLines (blankOut blocks pre) := by
    rcases hl with hn | ⟨text, hf⟩
    · rw [map_eq_nil_iff.1 hn]
      exact .inl rfl
    · obtain ⟨front, feed, rfl, -, ha⟩ := exists_append_of_glyphText hf
      obtain ⟨g, rfl, hg⟩ := map_eq_singleton_iff.1 ha
      refine .inr ⟨blankOut blocks front, ?_⟩
      rw [blankOut_append, blankOut, blankOut, flatMap_singleton, hg]
      rfl
  have ho : '\n' ∉ blankOut blocks on := by
    rw [← count_eq_zero, count_blankOut, count_eq_zero]
    exact ha
  have hp := Position.ofOffset_of_lines hw ho (blankOut blocks post)
  rw [← blankOut_append, ← blankOut_append, ← hgl, byteSize_blankOut, byteSize_blankOut, count_blankOut, length_blankOut] at hp
  have hs := Position.ofOffset_of_lines hl ha (glyphText post)
  rw [← glyphText_append, ← glyphText_append, ← hgl, ← text_eq_glyphText, ← position] at hs
  have hle : (glyphText on).length = on.length := length_map _
  rw [byteSize_append, hp, hs, blankedBefore_eq hgl hl ha, hle, ← Nat.add_assoc]

end Source

end Pagewright
