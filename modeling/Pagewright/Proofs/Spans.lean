import Mathlib.Tactic.ByContra
import Pagewright.Source

/-!
# The spans of literals

Later stages cut a text at the ends of its literals, so a cut has to be possible there, and the
query for the literal at an offset has to find the one that covers it. A span is traced back to the
text before its literal, the literal, and the text behind it (`exists_cut_of_mem_spansOf`); all that
is said of a single span follows from this cut. The spans are in order (`pairwise_spansOf`), which
is what the search by halving relies on. -/

namespace Pagewright

open List

variable {text cs : List Char} {offset : Nat} {ps : List Piece} {s : Source} {span : Span}

/-- A character of the text begins at `offset`, or the text ends there. -/
def IsBoundary (text : List Char) (offset : Nat) : Prop :=
  ∃ front back, front ++ back = text ∧ byteSize front = offset

theorem byteSize_pos (h : cs ≠ []) : 0 < byteSize cs := by
  cases cs with
  | nil => exact absurd rfl h
  | cons c cs =>
    have := c.utf8Size_pos
    simp only [byteSize]
    omega

theorem append_inj_of_byteSize {front back front' back' : List Char} (h : front ++ back = front' ++ back')
    (hs : byteSize front = byteSize front') : front = front' ∧ back = back' := by
  have hn (rest : List Char) (hr : byteSize rest = 0) : rest = [] := by
    by_contra hne
    have hp := byteSize_pos hne
    omega
  rcases append_eq_append_iff.1 h with ⟨rest, rfl, rfl⟩ | ⟨rest, rfl, rfl⟩
  · rw [byteSize_append] at hs
    rw [hn rest (by omega), append_nil]
    exact ⟨rfl, rfl⟩
  · rw [byteSize_append] at hs
    rw [hn rest (by omega), append_nil]
    exact ⟨rfl, rfl⟩

theorem IsBoundary.le_byteSize (h : IsBoundary text offset) : offset ≤ byteSize text := by
  obtain ⟨front, back, rfl, rfl⟩ := h
  simp

/-! ### Single spans -/

theorem exists_opening_of_mem_piecesFrom {ctx : ScanContext} (h : piecesFrom ctx offset cs = .ok ps)
    {kind : LiteralKind} (hm : .literal kind text ∈ ps) :
    ∃ ctx' c rest n, text = c :: rest.take n ∧ opening ctx' c rest = .literal kind n := by
  fun_induction piecesFrom ctx offset cs generalizing ps with
  | case1 =>
    cases h
    cases hm
  | case2 ctx offset c rest kind' n ho ih =>
    obtain ⟨qs, hq, rfl⟩ := exists_of_map_eq_ok h
    rcases mem_cons.1 hm with heq | hm
    · cases heq
      exact ⟨ctx, c, rest, n, rfl, ho⟩
    · exact ih hq hm
  | case3 => cases h
  | case4 ctx offset c rest _ ih =>
    obtain ⟨qs, hq, rfl⟩ := exists_of_map_eq_ok h
    rcases mem_append.1 hm with hc | hm
    · obtain ⟨d, -, hd⟩ := mem_map.1 hc
      cases hd
    · exact ih hq hm
  | case5 ctx offset c rest _ ih =>
    obtain ⟨qs, hq, rfl⟩ := exists_of_map_eq_ok h
    rcases mem_cons.1 hm with heq | hm
    · cases heq
    · exact ih hq hm

/-- A span is that of a literal: it begins behind the text before the literal and has its size. -/
theorem exists_cut_of_mem_spansOf (h : span ∈ spansOf offset ps) :
    ∃ kind front text back, .literal kind text ∈ ps ∧ ps.flatMap Piece.chars = front ++ text ++ back ∧
      span = ⟨offset + byteSize front, offset + byteSize front + byteSize text⟩ := by
  induction ps generalizing offset with
  | nil => cases h
  | cons p ps ih =>
    cases p with
    | code c =>
      obtain ⟨kind, front, text, back, hm, hc, rfl⟩ := ih h
      refine ⟨kind, c :: front, text, back, mem_cons_of_mem _ hm, ?_, ?_⟩
      · simp [Piece.chars, hc]
      · simp only [byteSize, Nat.add_assoc]
    | literal kind' text' =>
      rcases mem_cons.1 h with rfl | h
      · exact ⟨kind', [], text', ps.flatMap Piece.chars, mem_cons_self, rfl, rfl⟩
      · obtain ⟨kind, front, text, back, hm, hc, rfl⟩ := ih h
        refine ⟨kind, text' ++ front, text, back, mem_cons_of_mem _ hm, ?_, ?_⟩
        · simp [Piece.chars, hc]
        · simp only [byteSize_append, Nat.add_assoc]

theorem le_start_of_mem_spansOf (h : span ∈ spansOf offset ps) : offset ≤ span.start := by
  obtain ⟨kind, front, text, back, -, -, rfl⟩ := exists_cut_of_mem_spansOf h
  exact Nat.le_add_right _ _

/-! ### The order of the spans -/

theorem pairwise_spansOf (offset : Nat) (ps : List Piece) : (spansOf offset ps).Pairwise fun a b => a.stop ≤ b.start := by
  induction ps generalizing offset with
  | nil => exact List.Pairwise.nil
  | cons p ps ih =>
    cases p with
    | code c => exact ih _
    | literal kind text => exact List.Pairwise.cons (fun span h => le_start_of_mem_spansOf h) (ih _)

namespace Source

theorem text_ofText (h : ofText text = .ok s) : s.text = text := by
  unfold ofText at h
  split at h
  · cases h
    rfl
  · cases h

/-- The pieces of a source are those of its text. -/
theorem pieces_ofText (h : ofText text = .ok s) : Pagewright.pieces text = .ok s.pieces := by
  unfold ofText at h
  split at h
  · next hp =>
    cases h
    exact hp
  · cases h

/-- A text whose literals all end has a source, with the pieces of the text. -/
theorem ofText_of_pieces (h : Pagewright.pieces text = .ok ps) : ofText text = .ok ⟨text, ps, pieces_chars h⟩ := by
  unfold ofText
  split
  · next qs hq =>
    obtain rfl : qs = ps := Except.ok.inj (hq.symm.trans h)
    rfl
  · next e he =>
    rw [h] at he
    cases he

theorem boundaries_of_mem_spans (h : ofText text = .ok s) (hs : span ∈ s.spans) :
    span.start < span.stop ∧ IsBoundary text span.start ∧ IsBoundary text span.stop := by
  obtain ⟨kind, front, lit, back, hm, hc, rfl⟩ := exists_cut_of_mem_spansOf hs
  rw [s.chars_pieces, text_ofText h] at hc
  obtain ⟨-, c, rest, n, hl, -⟩ := exists_opening_of_mem_piecesFrom (pieces_ofText h) hm
  have hp : 0 < byteSize lit := byteSize_pos (by rw [hl]; exact cons_ne_nil _ _)
  refine ⟨by dsimp only; omega, ⟨front, lit ++ back, ?_, by simp⟩, ⟨front ++ lit, back, ?_, by simp⟩⟩
  · rw [hc, append_assoc]
  · exact hc.symm

theorem pairwise_stop_le (s : Source) : s.spans.Pairwise fun a b => a.stop ≤ b.start :=
  pairwise_spansOf 0 s.pieces

theorem start_le_stop (hs : span ∈ s.spans) : span.start ≤ span.stop := by
  obtain ⟨kind, front, lit, back, -, -, rfl⟩ := exists_cut_of_mem_spansOf hs
  exact Nat.le_add_right _ _

theorem pairwise_spans (h : ofText text = .ok s) : s.spans.Pairwise fun a b => a.start < b.start ∧ a.stop ≤ b.start := by
  refine s.pairwise_stop_le.imp_of_mem ?_
  intro a b ha _ hb
  have := (boundaries_of_mem_spans h ha).1
  exact ⟨by omega, hb⟩

end Source

/-! ### Search by halving -/

theorem partitionPoint_spec {p : Nat → Bool} (hp : ∀ i j, i ≤ j → p j → p i) (low size : Nat) :
    low ≤ partitionPoint p low size ∧ partitionPoint p low size ≤ low + size ∧ (∀ k, low ≤ k → k < partitionPoint p low size → p k) ∧
      (∀ k, partitionPoint p low size ≤ k → k < low + size → p k = false) := by
  fun_induction partitionPoint p low size with
  | case1 low => refine ⟨Nat.le_refl _, Nat.le_refl _, ?_, ?_⟩ <;> intro k <;> omega
  | case2 low size hs hm ih =>
    obtain ⟨hl, hh, ht, hf⟩ := ih
    refine ⟨by omega, by omega, fun k _ hk => ?_, fun k hk _ => hf k hk (by omega)⟩
    by_cases hle : k ≤ low + size / 2
    · exact hp k _ hle hm
    · exact ht k (by omega) hk
  | case3 low size hs hm ih =>
    obtain ⟨hl, hh, ht, hf⟩ := ih
    refine ⟨hl, by omega, ht, fun k hk _ => ?_⟩
    by_cases hlt : k < low + size / 2
    · exact hf k hk hlt
    · rw [Bool.eq_false_iff]
      intro hk'
      exact hm (hp _ k (by omega) hk')

namespace Source

theorem spansUpTo_spec (s : Source) (offset : Nat) : s.spansUpTo offset ≤ s.spans.length ∧
      ∀ k (hk : k < s.spans.length), s.spans[k].start ≤ offset ↔ k < s.spansUpTo offset := by
  have hm : ∀ i j : Nat, i ≤ j → s.spans[j]?.any (·.start ≤ offset) → s.spans[i]?.any (·.start ≤ offset) := by
    intro i j hi hj
    obtain ⟨b, hb, hle⟩ := (Option.any_eq_true _ _).1 hj
    obtain ⟨hjl, rfl⟩ := List.getElem?_eq_some_iff.1 hb
    refine (Option.any_eq_true _ _).2 ⟨s.spans[i], getElem?_eq_getElem (by omega), ?_⟩
    rcases Nat.lt_or_eq_of_le hi with hlt | rfl
    · have := pairwise_iff_getElem.1 s.pairwise_stop_le i j (by omega) hjl hlt
      have := start_le_stop (getElem_mem (show i < s.spans.length by omega))
      simp only [decide_eq_true_eq] at hle ⊢
      omega
    · exact hle
  obtain ⟨-, hl, ht, hf⟩ := partitionPoint_spec hm 0 s.spans.length
  simp only [Nat.zero_add] at hl hf
  refine ⟨hl, fun k hk => ⟨fun hle => ?_, fun hlt => ?_⟩⟩
  · by_contra hg
    have := hf k (Nat.le_of_not_lt hg) hk
    simp [getElem?_eq_getElem hk, hle] at this
  · have := ht k (Nat.zero_le k) hlt
    simpa [getElem?_eq_getElem hk] using this

/-- The query finds an end exactly where a literal covers the offset, and the end of that
literal. -/
theorem literalEnd?_eq_some_iff (s : Source) (offset stop : Nat) :
    s.literalEnd? offset = some stop ↔
      ∃ span ∈ s.spans, span.start ≤ offset ∧ offset < span.stop ∧ stop = span.stop := by
  obtain ⟨hl, hs⟩ := s.spansUpTo_spec offset
  unfold literalEnd?
  split
  · next hz =>
    -- No span begins early enough.
    refine ⟨fun hn => absurd hn (by simp), ?_⟩
    rintro ⟨span, hm, ht, -, -⟩
    obtain ⟨k, hk, rfl⟩ := getElem_of_mem hm
    have := (hs k hk).1 ht
    omega
  · next k hc =>
    have hk : k < s.spans.length := by omega
    have ht : s.spans[k].start ≤ offset := (hs k hk).2 (by omega)
    rw [getElem?_eq_getElem hk]
    constructor
    · intro ho
      obtain ⟨span, hp, rfl⟩ := Option.map_eq_some_iff.1 ho
      obtain ⟨rfl, hlt⟩ := by simpa [Option.filter_eq_some_iff] using hp
      exact ⟨_, getElem_mem hk, ht, hlt, rfl⟩
    · -- A span before the last one that begins early enough has ended where that one begins.
      rintro ⟨span, hm, hle, hlt, rfl⟩
      obtain ⟨j, hj, rfl⟩ := getElem_of_mem hm
      have hjk := (hs j hj).1 hle
      have heq : j = k := by
        by_contra hne
        have := pairwise_iff_getElem.1 s.pairwise_stop_le j k hj hk (by omega)
        omega
      subst heq
      refine Option.map_eq_some_iff.2 ⟨s.spans[j], ?_, rfl⟩
      simp [hlt]

/-- **Literal spans.** The spans of a text are not empty, lie inside it, begin and end between two
characters, come in increasing order and do not overlap; and the query for an offset answers with
the end of the span that covers it, if there is one. -/
theorem spans_ordered_and_query_exact {text : List Char} {s : Source} (h : ofText text = .ok s) :
    (∀ span ∈ s.spans, span.start < span.stop ∧ span.stop ≤ byteSize text ∧
      IsBoundary text span.start ∧ IsBoundary text span.stop) ∧
    (s.spans.Pairwise fun a b => a.start < b.start ∧ a.stop ≤ b.start) ∧
    ∀ offset stop, s.literalEnd? offset = some stop ↔
      ∃ span ∈ s.spans, span.start ≤ offset ∧ offset < span.stop ∧ stop = span.stop := by
  refine ⟨fun span hspan => ?_, pairwise_spans h, s.literalEnd?_eq_some_iff⟩
  obtain ⟨hlt, hstart, hstop⟩ := boundaries_of_mem_spans h hspan
  exact ⟨hlt, hstop.le_byteSize, hstart, hstop⟩

/-- The spans of `a'é\''/*/*/b`: the string ends where the comment begins, and the escaped quote
lies in the string. -/
theorem spans_quote_before_comment :
    ∃ s, ofText ['a', '\'', 'é', '\\', '\'', '\'', '/', '*', '/', '*', '/', 'b'] = .ok s ∧
      s.spans = [⟨1, 7⟩, ⟨7, 12⟩] ∧
      (∀ span ∈ s.spans, span.start < span.stop ∧ span.stop ≤ 13) ∧ s.literalEnd? 5 = some 7 := by
  have hpieces :
      Pagewright.pieces ['a', '\'', 'é', '\\', '\'', '\'', '/', '*', '/', '*', '/', 'b'] =
        .ok [.code 'a', .literal (.quoted '\'') ['\'', 'é', '\\', '\'', '\''],
          .literal .blockComment ['/', '*', '/', '*', '/'], .code 'b'] := by decide +kernel
  have hsource := ofText_of_pieces hpieces
  obtain ⟨hspans, -, hquery⟩ := spans_ordered_and_query_exact hsource
  refine ⟨_, hsource, rfl, fun span hspan => ?_, ?_⟩
  · obtain ⟨hlt, hle, -, -⟩ := hspans span hspan
    exact ⟨hlt, Nat.le_trans hle (by decide)⟩
  · exact (hquery 5 7).2 ⟨⟨1, 7⟩, mem_cons_self, by decide, by decide, rfl⟩

end Source

end Pagewright
