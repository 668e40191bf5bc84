import Pagewright.Proofs.Blanking
import Pagewright.Proofs.Routes

/-!
# Positions of faults in a page

A page is read from the text in which the classes are blanked out, and its faults are reported with
positions of that text. The offset of a fault is one of the source, outside the classes or where a
class begins (`Source.exists_boundary_of_place`), with the same line. The column is the same only if
no character of several bytes is blanked before it on the line (`classless_positions`). -/

namespace Pagewright

open List

variable {ctx : ScanContext} {cs rest text : List Char}

/-! ### Places in a text -/

/-- The offset is the end of the text, or stands at a character that is no blank or right behind
one. -/
def IsPlaceIn (text : List Char) (offset : Nat) : Prop :=
  offset = byteSize text ∨ ∃ front c back, text = front ++ c :: back ∧ isBlank c = false ∧
    (offset = byteSize front ∨ offset = byteSize front + c.utf8Size)

theorem isLiteralStart_of_unterminated {c : Char} {fault : ParseFault}
    (h : opening ctx c rest = .unterminated fault) : isLiteralStart c := by
  unfold opening at h
  repeat' split at h
  all_goals cases h
  · simp_all [isLiteralStart]
  · simp_all [isLiteralStart]

theorem exists_start_of_unterminated {offset : Nat} {e : Unterminated} (h : piecesFrom ctx offset cs = .error e) :
    ∃ front c back, cs = front ++ c :: back ∧ isBlank c = false ∧ e.offset = offset + byteSize front := by
  -- What is wrong with the rest is wrong with the whole.
  have onward {ctx : ScanContext} {offset : Nat} {read rest : List Char} {f : List Piece → List Piece}
      (h : (piecesFrom ctx (offset + byteSize read) rest).map f = .error e)
      (ih : piecesFrom ctx (offset + byteSize read) rest = .error e → ∃ front c back, rest = front ++ c :: back ∧
        isBlank c = false ∧ e.offset = offset + byteSize read + byteSize front) :
      ∃ front c back, read ++ rest = front ++ c :: back ∧ isBlank c = false ∧ e.offset = offset + byteSize front := by
    obtain ⟨front, c, back, rfl, hc, he⟩ := ih (eq_error_of_map_eq_error h)
    exact ⟨read ++ front, c, back, (append_assoc _ _ _).symm, hc, by rw [he, byteSize_append, Nat.add_assoc]⟩
  fun_induction piecesFrom ctx offset cs with
  | case1 => cases h
  | case2 ctx offset c rest kind n _ ih | case4 ctx offset c rest _ ih =>
    have := onward h ih
    rwa [cons_append, take_append_drop] at this
  | case3 ctx offset c rest fault ho =>
    cases h
    exact ⟨[], c, rest, rfl, isBlank_of_isLiteralStart (isLiteralStart_of_unterminated ho), rfl⟩
  | case5 ctx offset c rest _ ih => exact @onward _ _ [c] rest _ h ih

namespace Source

variable {s : Source} {blocks : List Span} {offset : Nat}

theorem IsPlace.isPlaceIn (h : s.IsPlace offset) : IsPlaceIn s.text offset := by
  rcases h with rfl | ⟨g, gs, ⟨front, hf⟩, hb, ho⟩
  · exact .inl rfl
  · have hs : g.offset = byteSize (glyphText front) := offsetOf_of_append hf.symm
    refine .inr ⟨glyphText front, g.char, glyphText gs, text_of_append hf.symm, hb, ho.imp (fun heq => ?_) fun heq => ?_⟩
    · rw [heq, hs]
    · rw [heq, offsetOf_tail hf.symm, hs]

theorem isPlaceIn_of_ofText {e : CompileError} (h : Page.ofText text = .error e) :
    ∃ offset fault, IsPlaceIn text offset ∧ e = .atOffset text offset fault := by
  rcases of_bind_eq_error h with hs | ⟨s, hs, h⟩
  · unfold ofText at hs
    split at hs
    · cases hs
    · next unterminated hp =>
      cases hs
      obtain ⟨front, c, back, rfl, hc, ho⟩ := exists_start_of_unterminated hp
      rw [Nat.zero_add] at ho
      exact ⟨_, _, .inr ⟨front, c, back, rfl, hc, .inl ho⟩, rfl⟩
  · have he : ∀ node ∈ ({} : Page).nodes, s.ReadNode node := by rintro node ⟨⟩
    obtain ⟨offset, fault, hl, rfl⟩ := (arrives_readPageFrom (isScan_ofText hs) s.isRest_glyphs he).2 e h
    have ht := text_ofText hs
    exact ⟨offset, fault, ht ▸ hl.isPlaceIn, by rw [error, ht]⟩

theorem exists_boundary_of_place (hb : ∀ block ∈ blocks, IsBoundary s.text block.start ∧ IsBoundary s.text block.stop)
    (h : IsPlaceIn (blankOut blocks s.glyphs) offset) :
    IsBoundary s.text offset ∧ (blocks.any (·.contains offset) = false ∨ ∃ block ∈ blocks, block.start = offset) := by
  rcases h with rfl | ⟨front, c, back, hu, hc, ho⟩
  · rw [byteSize_blankOut, ← text_eq_glyphText]
    refine ⟨⟨s.text, [], append_nil _, rfl⟩, .inl (any_eq_false.2 fun block hl => ?_)⟩
    have hs := (hb block hl).2.le_byteSize
    simp only [Span.contains, Bool.and_eq_true, decide_eq_true_eq]
    omega
  · obtain ⟨pre, g, after, hg, rfl, hou, rfl⟩ := exists_cut_of_blankOut hu hc
    have hst : g.offset = byteSize (glyphText pre) := (position_of_append hg).1
    rw [byteSize_blankOut, ← hst] at ho
    rcases ho with rfl | rfl
    · exact ⟨isBoundary_of_suffix ⟨pre, hg.symm⟩, .inl hou⟩
    · have hco : s.glyphs = (pre ++ [g]) ++ after := by rw [hg, append_assoc]; rfl
      have hbo := isBoundary_of_suffix ⟨pre ++ [g], hco.symm⟩
      rw [offsetOf_tail hg] at hbo
      refine ⟨hbo, ?_⟩
      rw [or_iff_not_imp_left, Bool.not_eq_false, any_eq_true]
      rintro ⟨block, hl, hcn⟩
      refine ⟨block, hl, ?_⟩
      -- The range does not hold the character before the place, and no character reaches over its beginning.
      have he := (hb block hl).1.le_or_le (text_of_append hg)
      have hn := any_eq_false.1 hou block hl
      simp only [Span.contains, Bool.and_eq_true, decide_eq_true_eq, not_and, not_lt] at hcn hn
      omega

end Source

/-- **Positions in the text without classes.** Every boundary of the source has its line there. Its
column is larger by the bytes that the characters blanked before it on the line have more than
characters, and so is that of the source exactly if they have one byte each. A fault of the page is
reported at a boundary of the source outside the classes, or where a class begins. -/
theorem classless_positions {text pageText : List Char} (h : classlessText text = .ok pageText) :
    ∃ s blocks, Source.ofText text = .ok s ∧ s.classBlocks = .ok blocks ∧
      (∀ offset, IsBoundary text offset →
        Position.ofOffset pageText offset = ⟨(Position.ofOffset text offset).line,
          (Position.ofOffset text offset).column + extraBytes (s.blankedBefore blocks offset)⟩ ∧
        (Position.ofOffset pageText offset = Position.ofOffset text offset ↔
          ∀ g ∈ s.blankedBefore blocks offset, g.char.utf8Size = 1)) ∧
      ∀ e, Page.ofText pageText = .error e → ∃ offset fault, IsBoundary text offset ∧
        (blocks.any (·.contains offset) = false ∨ ∃ block ∈ blocks, block.start = offset) ∧
        e = .parse fault (some ⟨(Position.ofOffset text offset).line,
          (Position.ofOffset text offset).column + extraBytes (s.blankedBefore blocks offset)⟩) := by
  obtain ⟨s, hs, h⟩ := bind_eq_ok.1 h
  obtain ⟨blocks, hblocks, h⟩ := bind_eq_ok.1 h
  cases h
  obtain rfl := Source.text_ofText hs
  have hposition {offset : Nat} (hoffset : IsBoundary s.text offset) :
      Position.ofOffset (blankOut blocks s.glyphs) offset = ⟨(Position.ofOffset s.text offset).line,
        (Position.ofOffset s.text offset).column + extraBytes (s.blankedBefore blocks offset)⟩ :=
    Source.position_blankOut blocks hoffset
  refine ⟨s, blocks, hs, hblocks, fun offset hoffset => ⟨hposition hoffset, ?_⟩, fun e he => ?_⟩
  · rw [hposition hoffset, ← extraBytes_eq_zero_iff]
    constructor
    · intro heq
      have hcolumn := congrArg Position.column heq
      dsimp only at hcolumn
      omega
    · intro hzero
      rw [hzero]
      rfl
  · obtain ⟨offset, fault, hplace, rfl⟩ := Source.isPlaceIn_of_ofText he
    obtain ⟨hboundary, hwhere⟩ := Source.exists_boundary_of_place
      (fun block hblock => Source.boundaries_of_mem_classBlocks hblocks hblock) hplace
    refine ⟨offset, fault, hboundary, hwhere, ?_⟩
    rw [CompileError.atOffset, hposition hboundary]

/-- The position of the fault, if there is one. -/
def faultPosition? {α : Type} : Except CompileError α → Option Position
  | .ok _ => none
  | .error e => e.position?

theorem exists_error_of_faultPosition? {α : Type} {r : Except CompileError α} {p : Position}
    (h : faultPosition? r = some p) : ∃ e, r = .error e ∧ e.position? = some p := by
  cases r with
  | ok _ => cases h
  | error e => exact ⟨e, rfl, h⟩

/-- Page text behind two classes on one line, the first of which has a character of two bytes. -/
def accentedRow : List Char := "class A\x7bstate:x\x7bé\x7d\x7d class B\x7b\x7d p\x7b\x7d\n)".toList

/-- The instance stands one column further to the right than in the source, and the fault on the
next line where it is. -/
theorem classless_positions_accentedRow :
    ∃ pageText e, classlessText accentedRow = .ok pageText ∧
      Position.ofOffset pageText 31 = ⟨1, 32⟩ ∧ Position.ofOffset accentedRow 31 = ⟨1, 31⟩ ∧
      Page.ofText pageText = .error e ∧ e.position? = some ⟨2, 1⟩ ∧
      ∃ s blocks, Source.ofText accentedRow = .ok s ∧ s.classBlocks = .ok blocks ∧
        (∀ offset, IsBoundary accentedRow offset →
          Position.ofOffset pageText offset = ⟨(Position.ofOffset accentedRow offset).line,
            (Position.ofOffset accentedRow offset).column + extraBytes (s.blankedBefore blocks offset)⟩ ∧
          (Position.ofOffset pageText offset = Position.ofOffset accentedRow offset ↔
            ∀ g ∈ s.blankedBefore blocks offset, g.char.utf8Size = 1)) ∧
        ∀ e, Page.ofText pageText = .error e → ∃ offset fault, IsBoundary accentedRow offset ∧
          (blocks.any (·.contains offset) = false ∨ ∃ block ∈ blocks, block.start = offset) ∧
          e = .parse fault (some ⟨(Position.ofOffset accentedRow offset).line,
            (Position.ofOffset accentedRow offset).column + extraBytes (s.blankedBefore blocks offset)⟩) := by
  have heval : ∃ pageText, classlessText accentedRow = .ok pageText ∧
      Position.ofOffset pageText 31 = ⟨1, 32⟩ ∧ Position.ofOffset accentedRow 31 = ⟨1, 31⟩ ∧
      faultPosition? (Page.ofText pageText) = some ⟨2, 1⟩ := by
    decide +kernel
  obtain ⟨pageText, hclassless, hpage, hsource, hfault⟩ := heval
  obtain ⟨e, he, hposition⟩ := exists_error_of_faultPosition? hfault
  exact ⟨pageText, e, hclassless, hpage, hsource, he, hposition, classless_positions hclassless⟩

/-- A class with a character of two bytes, and a fault right behind it. -/
def accentedFault : List Char := "class A\x7bstyle\x7ba:'é';\x7d\x7d=".toList

/-- The mark is character 23 of the source and is reported in column 24. -/
theorem page_fault_column_shifted :
    ∃ pageText e, classlessText accentedFault = .ok pageText ∧ Page.ofText pageText = .error e ∧
      accentedFault.drop 22 = ['='] ∧ Position.ofOffset accentedFault 23 = ⟨1, 23⟩ ∧ e.position? = some ⟨1, 24⟩ := by
  have heval : ∃ pageText, classlessText accentedFault = .ok pageText ∧
      faultPosition? (Page.ofText pageText) = some ⟨1, 24⟩ := by
    decide +kernel
  obtain ⟨pageText, hclassless, hfault⟩ := heval
  obtain ⟨e, he, hposition⟩ := exists_error_of_faultPosition? hfault
  exact ⟨pageText, e, hclassless, he, by decide +kernel, by decide +kernel, hposition⟩

end Pagewright
