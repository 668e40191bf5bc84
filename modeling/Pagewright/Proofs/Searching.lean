import Mathlib.Order.Bounds.Basic
import Pagewright.Proofs.Reading

/-!
# The next occurrence outside the literals

A search looks for the next place where the needle stands, literals or not, and if a literal covers
it goes on behind that literal. Whatever it jumps over is covered.
-/

namespace Pagewright

open List

variable {c : Char} {cs front needle rest text : List Char} {m n : Nat}

/-! ### Searching a text -/

/-- The needle stands in a text, `n` bytes behind its beginning. -/
def Stands (needle text : List Char) (n : Nat) : Prop :=
  ∃ front back, text = front ++ (needle ++ back) ∧ n = byteSize front

theorem textFrom?_append (front rest : List Char) : textFrom? (byteSize front) (front ++ rest) = some rest := by
  induction front with
  | nil => rw [byteSize, nil_append, textFrom?]
  | cons c front ih =>
    obtain ⟨n, hn⟩ := Nat.exists_eq_succ_of_ne_zero (byteSize_pos (cons_ne_nil c front)).ne'
    have hb : c.utf8Size + byteSize front = n + 1 := hn
    rw [hn, cons_append, textFrom?, if_pos (by omega), ← hb, Nat.add_sub_cancel_left, ih]

theorem IsBoundary.exists_textFrom? (h : IsBoundary text n) :
    ∃ front rest, text = front ++ rest ∧ n = byteSize front ∧ textFrom? n text = some rest := by
  obtain ⟨front, rest, rfl, rfl⟩ := h
  exact ⟨front, rest, rfl, rfl, textFrom?_append front rest⟩

theorem stands_cons : Stands needle (c :: cs) n ↔
    (needle <+: c :: cs ∧ n = 0) ∨ ∃ m, Stands needle cs m ∧ n = c.utf8Size + m := by
  constructor
  · rintro ⟨front, back, hc, rfl⟩
    cases front with
    | nil => exact .inl ⟨⟨back, hc.symm⟩, rfl⟩
    | cons d front =>
      obtain ⟨rfl, rfl⟩ := cons.inj hc
      exact .inr ⟨byteSize front, ⟨front, back, rfl, rfl⟩, rfl⟩
  · rintro (⟨⟨back, hc⟩, rfl⟩ | ⟨m, ⟨front, back, rfl, rfl⟩, rfl⟩)
    · exact ⟨[], back, hc.symm, rfl⟩
    · exact ⟨c :: front, back, rfl, rfl⟩

theorem stands_append : Stands needle (front ++ rest) (byteSize front + n) ↔ Stands needle rest n := by
  induction front with
  | nil => simp [byteSize]
  | cons c front ih =>
    rw [cons_append, stands_cons, byteSize, Nat.add_assoc, ← ih]
    have hp := c.utf8Size_pos
    constructor
    · rintro (⟨-, hz⟩ | ⟨m, hm, heq⟩)
      · omega
      · rwa [Nat.add_left_cancel heq]
    · exact fun h => .inr ⟨_, h, rfl⟩

/-- The search of a text finds the first place where the needle stands. -/
theorem occurrence?_spec (needle cs : List Char) :
    (∀ n, occurrence? needle cs = some n → Stands needle cs n ∧ ∀ m, Stands needle cs m → n ≤ m) ∧
      (occurrence? needle cs = none → ∀ m, ¬Stands needle cs m) := by
  fun_induction occurrence? needle cs with
  | case1 hn =>
    rw [List.isEmpty_iff] at hn
    refine ⟨?_, nofun⟩
    rintro _ ⟨⟩
    exact ⟨⟨[], [], by rw [hn]; rfl, rfl⟩, fun m _ => Nat.zero_le m⟩
  | case2 hn =>
    refine ⟨nofun, ?_⟩
    rintro - m ⟨front, back, hc, -⟩
    have hnil := (append_eq_nil_iff.1 (append_eq_nil_iff.1 hc.symm).2).1
    exact hn (List.isEmpty_iff.2 hnil)
  | case3 c cs hp =>
    have hpre := isPrefixOf_iff_prefix.1 hp
    refine ⟨?_, nofun⟩
    rintro _ ⟨⟩
    exact ⟨stands_cons.2 (.inl ⟨hpre, rfl⟩), fun m _ => Nat.zero_le m⟩
  | case4 c cs hp ih =>
    replace hp : ¬needle <+: c :: cs := fun hpre => hp <| isPrefixOf_iff_prefix.2 hpre
    constructor
    · intro n hn
      obtain ⟨k, hk, rfl⟩ := Option.map_eq_some_iff.1 hn
      obtain ⟨hs, hl⟩ := ih.1 k hk
      refine ⟨stands_cons.2 (.inr ⟨k, hs, rfl⟩), fun m hm => ?_⟩
      rcases stands_cons.1 hm with ⟨hpre, -⟩ | ⟨j, hj, rfl⟩
      · exact absurd hpre hp
      · exact Nat.add_le_add_left (hl j hj) _
    · intro hn m hm
      rcases stands_cons.1 hm with ⟨hpre, -⟩ | ⟨j, hj, -⟩
      · exact hp hpre
      · exact ih.2 (Option.map_eq_none_iff.1 hn) j hj

namespace Source

variable {s : Source} {gs hs : List Glyph} {o start : Nat}

/-! ### Searching a source -/

/-- The offsets from `start` on that no literal covers and at which the needle stands. -/
def occurrences (s : Source) (needle : List Char) (start : Nat) : Set Nat :=
  {o | start ≤ o ∧ Stands needle s.text o ∧ ¬∃ span ∈ s.spans, span.start ≤ o ∧ o < span.stop}

theorem first_of_occurrence? (hc : text = front ++ rest) (h : occurrence? needle rest = some n) :
    Stands needle text (byteSize front + n) ∧
      ∀ m, Stands needle text m → byteSize front ≤ m → byteSize front + n ≤ m := by
  obtain ⟨hs, hl⟩ := (occurrence?_spec needle rest).1 n h
  refine ⟨hc ▸ stands_append.2 hs, fun m hm hle => ?_⟩
  rw [hc, ← Nat.add_sub_cancel' hle, stands_append] at hm
  have := hl _ hm
  omega

theorem isBoundary_stop {span : Span} (h : span ∈ s.spans) : IsBoundary s.text span.stop := by
  obtain ⟨kind, front, lit, back, -, hc, rfl⟩ := exists_cut_of_mem_spansOf h
  exact ⟨front ++ lit, back, by rw [← s.chars_pieces, hc], by simp⟩

/-- A place that the search jumps over is no occurrence: up to the next place where the needle
stands it does not stand, and from there to the end of the literal every place is covered. -/
theorem occurrences_eq_of_literalEnd? (hle : ∀ m, Stands needle s.text m → start ≤ m → o ≤ m) (ho : start ≤ o)
    {stop : Nat} (h : s.literalEnd? o = some stop) : s.occurrences needle start = s.occurrences needle stop := by
  obtain ⟨span, hm, hs, hlt, rfl⟩ := (s.literalEnd?_eq_some_iff o stop).1 h
  ext m
  refine ⟨fun ⟨hst, hn, hu⟩ => ⟨?_, hn, hu⟩, fun ⟨hst, hn, hu⟩ => ⟨by omega, hn, hu⟩⟩
  by_contra hlt'
  exact hu ⟨span, hm, hs.trans (hle m hn hst), by omega⟩

/-- What the search finds is the first occurrence, and where it finds nothing there is none. -/
theorem find?_spec (s : Source) (needle : List Char) (hb : IsBoundary s.text start) :
    (∀ o, s.find? needle start = some o → IsLeast (s.occurrences needle start) o) ∧
      (s.find? needle start = none → s.occurrences needle start = ∅) := by
  -- Along the loop the occurrences from the cursor on stay the same.
  fun_induction find? s needle start with
  | case1 start _ ht =>
    obtain ⟨front, rest', hc, rfl, ht'⟩ := hb.exists_textFrom?
    cases ht.symm.trans ht'
  | case2 start _ rest ht hn =>
    obtain ⟨front, rest', hc, rfl, ht'⟩ := hb.exists_textFrom?
    cases ht.symm.trans ht'
    refine ⟨nofun, fun _ => Set.eq_empty_of_forall_notMem ?_⟩
    rintro o ⟨hle, hs, -⟩
    rw [hc, ← Nat.add_sub_cancel' hle, stands_append] at hs
    exact (occurrence?_spec needle rest).2 hn _ hs
  | case3 start _ rest ht skipped hk he =>
    obtain ⟨front, rest', hc, rfl, ht'⟩ := hb.exists_textFrom?
    cases ht.symm.trans ht'
    obtain ⟨hs, hfirst⟩ := first_of_occurrence? hc hk
    refine ⟨?_, nofun⟩
    rintro _ ⟨⟩
    have hu : ¬∃ span ∈ s.spans, span.start ≤ byteSize front + skipped ∧ byteSize front + skipped < span.stop := by
      rintro ⟨span, hm, hst, hlt⟩
      cases he.symm.trans ((s.literalEnd?_eq_some_iff _ _).2 ⟨span, hm, hst, hlt, rfl⟩)
    exact ⟨⟨Nat.le_add_right _ _, hs, hu⟩, fun m ⟨hle, hm, _⟩ => hfirst m hm hle⟩
  | case4 start _ rest ht skipped hk stop he ih =>
    obtain ⟨front, rest', hc, rfl, ht'⟩ := hb.exists_textFrom?
    cases ht.symm.trans ht'
    obtain ⟨-, hfirst⟩ := first_of_occurrence? hc hk
    rw [occurrences_eq_of_literalEnd? hfirst (Nat.le_add_right _ _) he]
    obtain ⟨span, hm, -, -, rfl⟩ := (s.literalEnd?_eq_some_iff _ _).1 he
    exact ih (isBoundary_stop hm)
  | case5 start hlt => exact absurd hb.le_byteSize hlt

theorem find?_iff (s : Source) (needle : List Char) (hb : IsBoundary s.text start) :
    (∀ o, s.find? needle start = some o ↔ IsLeast (s.occurrences needle start) o) ∧
      (s.find? needle start = none ↔ s.occurrences needle start = ∅) := by
  obtain ⟨hsome, hnone⟩ := s.find?_spec needle hb
  refine ⟨fun o => ⟨hsome o, fun ho => ?_⟩, hnone, fun he => ?_⟩
  · cases hf : s.find? needle start with
    | none => exact absurd (hnone hf) ho.nonempty.ne_empty
    | some found => exact congrArg some ((hsome found hf).unique ho)
  · cases hf : s.find? needle start with
    | none => rfl
    | some found => exact absurd he (hsome found hf).nonempty.ne_empty

/-! ### Searching glyphs -/

theorem offsetOf_le_of_suffix (h : hs <:+ gs) (hg : gs <:+ s.glyphs) : s.offsetOf gs ≤ s.offsetOf hs := by
  obtain ⟨mid, rfl⟩ := h
  obtain ⟨front, hf⟩ := hg
  rw [offsetOf_append hf.symm]
  exact Nat.le_add_right _ _

/-- Glyphs of a source are told by where they begin. -/
theorem eq_of_offsetOf_eq (hg : gs <:+ s.glyphs) (hh : hs <:+ s.glyphs)
    (h : s.offsetOf gs = s.offsetOf hs) : gs = hs := by
  have key {gs hs : List Glyph} (hle : gs <:+ hs) (hh : hs <:+ s.glyphs) (h : s.offsetOf gs = s.offsetOf hs) :
      gs = hs := by
    obtain ⟨mid, rfl⟩ := hle
    obtain ⟨front, hf⟩ := hh
    rw [offsetOf_append hf.symm] at h
    cases mid with
    | nil => rfl
    | cons g mid =>
      have hp := byteSize_pos (show glyphText (g :: mid) ≠ [] from cons_ne_nil _ _)
      omega
  rcases suffix_or_suffix_of_suffix hg hh with hle | hle
  · exact key hle hh h
  · exact (key hle hg h.symm).symm

theorem isCovered_offsetOf (hg : gs <:+ s.glyphs) :
    s.isCovered (s.offsetOf gs) = false ↔ ∀ g ∈ gs.head?, g.cover = none := by
  cases gs with
  | nil =>
    have hc : ¬Covers 0 s.pieces s.size := fun hc => by
      have := hc.bounds.2
      rw [piecesSize, s.chars_pieces, size] at this
      omega
    rw [← isCovered_iff] at hc
    simpa [offsetOf] using hc
  | cons g gs => simp [offsetOf, isCovered_offset (hg.subset mem_cons_self)]

/-- The occurrences behind some glyphs are the places where the needle begins among them. -/
theorem mem_occurrences (hg : gs <:+ s.glyphs) : o ∈ s.occurrences needle (s.offsetOf gs) ↔
    ∃ hs, hs <:+ gs ∧ Begins needle hs ∧ o = s.offsetOf hs := by
  have hc (o : Nat) : (¬∃ span ∈ s.spans, span.start ≤ o ∧ o < span.stop) ↔ s.isCovered o = false :=
    (not_congr (s.isCovered_iff o).symm).trans (Bool.not_eq_true _).to_iff
  constructor
  · rintro ⟨hle, ⟨front, back, ht, rfl⟩, hu⟩
    rw [text_eq_glyphText] at ht
    obtain ⟨pre, hs, hp, rfl, hb⟩ := map_eq_append_iff.1 ht
    have ho : s.offsetOf hs = byteSize (glyphText pre) := offsetOf_of_append hp
    have hs' : hs <:+ s.glyphs := ⟨pre, hp.symm⟩
    rw [hc, ← glyphText, ← ho, isCovered_offsetOf hs'] at hu
    refine ⟨hs, ?_, ⟨hu, back, hb.symm⟩, ho.symm⟩
    rcases suffix_or_suffix_of_suffix hs' hg with hl | hl
    · exact hl
    · -- Where the needle begins before the rest of the text, it does not begin behind it.
      have hle' := offsetOf_le_of_suffix hl hs'
      exact eq_of_offsetOf_eq hs' hg (hle'.antisymm (ho ▸ hle)) ▸ suffix_rfl
  · rintro ⟨hs, hl, ⟨hu, back, hb⟩, rfl⟩
    obtain ⟨pre, hp⟩ := hl.trans hg
    refine ⟨offsetOf_le_of_suffix hl hg, ⟨glyphText pre, back, ?_, offsetOf_of_append hp.symm⟩, ?_⟩
    · rw [hb, text_of_append hp.symm]
    · rw [hc, isCovered_offsetOf (hl.trans hg)]
      exact hu

/-- A search from where a reader stands ends at the glyphs that are found place by place. -/
theorem find?_offsetOf (h : gs <:+ s.glyphs) (needle : List Char) :
    s.find? needle (s.offsetOf gs) = (findGlyphs needle gs).map s.offsetOf := by
  obtain ⟨front, ht, ho⟩ := text_of_suffix h
  obtain ⟨hsome, hnone⟩ := s.find?_iff needle ⟨front, _, ht.symm, ho.symm⟩
  cases hf : findGlyphs needle gs with
  | none =>
    refine hnone.2 (Set.eq_empty_of_forall_notMem fun o ho => ?_)
    obtain ⟨hs, hend, hb, -⟩ := (mem_occurrences h).1 ho
    obtain ⟨found, hfound, -⟩ := exists_found_of_begins hend hb
    cases hf.symm.trans hfound
  | some found =>
    have hend := suffix_of_findGlyphs hf
    refine (hsome _).2 ⟨(mem_occurrences h).2 ⟨found, hend, begins_of_findGlyphs hf, rfl⟩, fun o hm => ?_⟩
    obtain ⟨hs, hend', hb, rfl⟩ := (mem_occurrences h).1 hm
    obtain ⟨found', hfound, hle⟩ := exists_found_of_begins hend' hb
    cases hf.symm.trans hfound
    exact offsetOf_le_of_suffix hle (hend.trans h)

/-- **The next occurrence.** From every place between two characters on, the search finds the first
offset that no literal covers and at which the needle stands, and nothing exactly if there is none.
It ends for every needle; the empty one stands everywhere, also behind the last character. -/
theorem find?_first {text : List Char} {start : Nat} {s : Source} (h : ofText text = .ok s) (hb : IsBoundary text start)
    (needle : List Char) : (∀ o, s.find? needle start = some o ↔ IsLeast (s.occurrences needle start) o) ∧
      (s.find? needle start = none ↔ s.occurrences needle start = ∅) := by
  rw [← text_ofText h] at hb
  exact s.find?_iff needle hb

/-- In `é';';` the semicolon in the string is jumped over, and so is every place in the string for
the empty needle. -/
theorem find?_first_behindQuote : ∃ s, ofText ['é', '\'', ';', '\'', ';'] = .ok s ∧
    IsBoundary ['é', '\'', ';', '\'', ';'] 2 ∧ s.find? [';'] 2 = some 5 ∧ IsLeast (s.occurrences [';'] 2) 5 ∧
    IsLeast (s.occurrences [] 2) 5 ∧ s.occurrences ['é'] 2 = ∅ := by
  have heval : ∃ s, ofText ['é', '\'', ';', '\'', ';'] = .ok s ∧
      s.find? [';'] 2 = some 5 ∧ s.find? [] 2 = some 5 ∧ s.find? ['é'] 2 = none := by decide +kernel
  obtain ⟨s, hs, hmark, hempty, hnone⟩ := heval
  have hb : IsBoundary ['é', '\'', ';', '\'', ';'] 2 := ⟨['é'], _, rfl, rfl⟩
  exact ⟨s, hs, hb, hmark, ((find?_first hs hb [';']).1 5).1 hmark, ((find?_first hs hb []).1 5).1 hempty,
    (find?_first hs hb ['é']).2.1 hnone⟩

end Source

end Pagewright
