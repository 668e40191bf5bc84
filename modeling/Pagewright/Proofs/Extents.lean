import Mathlib.Data.List.Basic
import Pagewright.Proofs.Blanking
import Pagewright.Proofs.Routes
import Pagewright.Proofs.Searching

/-!
# Where classes end

The end of a class is found twice: its block ends with the group of its first brace, where only
braces count, and a reader ends at the brace that closes the body, having passed over groups of all
kinds. The two ends are the same exactly if the braces between them are balanced (`exists_extent`),
and so they are if no other group cuts through one of braces (`Source.BracesNest`). -/

namespace Pagewright

open List

variable {front group back brace keyword mid v : List Glyph} {text : List Char}

/-! ### Glyphs passed over -/

/-- Between the glyphs and the rest, no brace counts. -/
def SkipsTo (gs rest : List Glyph) : Prop := ∃ front, gs = front ++ rest ∧ ∀ g ∈ front, g.IsIdle '{' '}'

/-- Between the glyphs and the rest, `n` open braces become `k`. -/
def CountsTo (n k : Nat) (gs rest : List Glyph) : Prop := ∃ front, gs = front ++ rest ∧ nesting '{' '}' n front = some k

variable {n k l place stop : Nat} {gs hs rest : List Glyph} {g : Glyph}

theorem SkipsTo.refl (gs : List Glyph) : SkipsTo gs gs := ⟨[], rfl, by simp⟩

theorem SkipsTo.cons (hg : g.IsIdle '{' '}') (h : SkipsTo gs rest) : SkipsTo (g :: gs) rest := by
  obtain ⟨front, rfl, hf⟩ := h
  exact ⟨g :: front, rfl, forall_mem_cons.2 ⟨hg, hf⟩⟩

theorem SkipsTo.trans (h : SkipsTo gs hs) (h' : SkipsTo hs rest) : SkipsTo gs rest := by
  obtain ⟨front, rfl, hf⟩ := h
  obtain ⟨mid, rfl, hm⟩ := h'
  exact ⟨front ++ mid, (append_assoc _ _ _).symm, forall_mem_append.2 ⟨hf, hm⟩⟩

theorem SkipsTo.countsTo (h : SkipsTo gs rest) (n : Nat) : CountsTo n n gs rest := by
  obtain ⟨front, rfl, hf⟩ := h
  exact ⟨front, rfl, nesting_of_idle hf⟩

theorem CountsTo.refl (n : Nat) (gs : List Glyph) : CountsTo n n gs gs := ⟨[], rfl, rfl⟩

theorem CountsTo.trans (h : CountsTo n k gs hs) (h' : CountsTo k l hs rest) : CountsTo n l gs rest := by
  obtain ⟨front, rfl, hf⟩ := h
  obtain ⟨mid, rfl, hm⟩ := h'
  exact ⟨front ++ mid, (append_assoc _ _ _).symm, by rw [nesting_append, hf]; exact hm⟩

theorem countsTo_opened (h : g.IsCode '{') (n : Nat) (gs : List Glyph) : CountsTo n (n + 1) (g :: gs) gs := ⟨[g], rfl, nesting_opener h⟩

theorem countsTo_closed (h : g.IsCode '}') (n : Nat) (gs : List Glyph) : CountsTo (n + 1) n (g :: gs) gs :=
  ⟨[g], rfl, nesting_closer (by decide) h⟩

theorem skipsTo_dropWhile {p : Glyph → Bool} (hp : ∀ g, p g → g.IsIdle '{' '}') (gs : List Glyph) : SkipsTo gs (gs.dropWhile p) :=
  ⟨gs.takeWhile p, (takeWhile_append_dropWhile).symm, fun g hg => hp g (mem_takeWhile_imp hg)⟩

theorem isIdle_of_ne (ho : g.char ≠ '{') (hc : g.char ≠ '}') : g.IsIdle '{' '}' := .inr ⟨ho, hc⟩

theorem isIdle_of_isBlank (h : isBlank g.char) : g.IsIdle '{' '}' := by
  refine isIdle_of_ne ?_ ?_ <;> intro heq <;> rw [heq] at h <;> exact absurd h (by decide)

theorem isIdle_of_isWordPart (h : isWordPart g.char) : g.IsIdle '{' '}' := by
  refine isIdle_of_ne ?_ ?_ <;> intro heq <;> rw [heq] at h <;> exact absurd h (by decide +kernel)

theorem findGlyphs_of_skipsTo (h : SkipsTo gs (g :: rest)) (hg : g.IsCode '{') : findGlyphs ['{'] gs = some (g :: rest) := by
  obtain ⟨front, rfl, hr⟩ := h
  induction front with
  | nil => simp [findGlyphs, startsWith, hg.1, hg.2]
  | cons f front ih =>
    obtain ⟨hf, hr⟩ := forall_mem_cons.1 hr
    rw [cons_append, findGlyphs, if_neg, ih hr]
    simp only [startsWith, Bool.and_eq_true, decide_eq_true_eq, not_and, Option.isNone_iff_eq_none]
    intro hc hh
    rcases hf with ho | ⟨hne, -⟩
    · rw [hc] at ho
      cases ho
    · exact absurd hh.symm hne

namespace Source

variable {s : Source} {start : List Glyph} {c closer : Char} {post pre : List Piece} {table table' : ClassTable}

/-! ### Tokens -/

theorem IsRest.skipsTo_dropUntil (hs : s.IsScan) (h : s.IsRest (g :: gs))
    (hc : g.cover = some stop) : SkipsTo (g :: gs) (dropUntil stop gs) := by
  obtain ⟨-, -, lit, hl, hco⟩ := h.of_cover hs hc
  exact ⟨lit, hl, fun g hg => .inl (hco g hg)⟩

theorem skipsTo_skipTrivia (hs : s.IsScan) (h : s.IsRest gs) : SkipsTo gs (skipTrivia gs) := by
  fun_induction skipTrivia gs with
  | case1 | case4 | case5 => exact .refl _
  | case2 g rest hb ih => exact (ih (h.tail_of_blank hs hb)).cons (isIdle_of_isBlank hb)
  | case3 g rest hb stop ho hm ih => exact (h.skipsTo_dropUntil hs ho).trans (ih (h.of_cover hs ho).2.1)

theorem skipsTo_lexHere (hs : s.IsScan) (h : s.IsRest (g :: gs))
    (hk : ∀ c ∈ ['{', '}', '/'], (lexHere g gs).1 ≠ .mark c) : SkipsTo (g :: gs) (lexHere g gs).2 := by
  have hw := skipsTo_dropWhile (p := fun g => isWordPart g.char) (fun g hg => isIdle_of_isWordPart hg) gs
  unfold lexHere at hk ⊢
  split
  · next stop hc =>
    split at hc
    · exact h.skipsTo_dropUntil hs hc
    · cases hc
  · next hn =>
    rw [hn] at hk
    split_ifs at hk ⊢ with ha hd
    · exact hw.cons (isIdle_of_isWordPart (by rw [isWordPart, isNameChar_of_isNameStart ha, Bool.true_or]))
    · rw [Bool.and_eq_true, decide_eq_true_eq] at hd
      exact hw.cons (isIdle_of_ne (by rw [hd.1]; decide) (by rw [hd.1]; decide))
    · exact (SkipsTo.refl gs).cons (isIdle_of_ne (fun heq => hk '{' (by simp) (by rw [heq])) fun heq => hk '}' (by simp) (by rw [heq]))

theorem skipsTo_token (hs : s.IsScan) (h : s.IsRest gs) (hk : ∀ c ∈ ['{', '}', '/'], (s.token gs).token.kind ≠ .mark c) :
    SkipsTo gs (s.token gs).rest := by
  have hsk := skipsTo_skipTrivia hs h
  have hr := isRest_skipTrivia hs h
  cases hg : skipTrivia gs with
  | nil =>
    rw [(token_of_nil hg).2, ← hg]
    exact hsk
  | cons g post =>
    obtain ⟨hf, hn⟩ := token_of_cons (s := s) hg
    rw [hg] at hsk hr
    rw [hf] at hk
    rw [hn]
    exact hsk.trans (skipsTo_lexHere hs hr hk)

theorem exists_code_of_mark (hs : s.IsScan) (h : s.IsRest gs)
    (hk : (s.token gs).token.kind = .mark c) (hc : isLiteralStart c = false) :
    ∃ pre post g, s.BeginsCode pre post g (s.token gs).rest ∧ g.IsCode c ∧ skipTrivia gs = g :: (s.token gs).rest ∧
      SkipsTo gs (g :: (s.token gs).rest) := by
  obtain ⟨pre, post, g, rest, hsk, hh, ho⟩ := beginsCode_of_mark hs h hk hc
  obtain ⟨g', hg, -⟩ := token_of_mark hk
  obtain ⟨rfl, rfl⟩ := cons.inj (hsk.symm.trans hg)
  have hi := skipsTo_skipTrivia hs h
  rw [hsk] at hi
  exact ⟨pre, post, g, ho, ⟨congrArg Glyph.cover ho.glyph_eq, hh⟩, hsk, hi⟩

/-! ### Groups and values -/

/-- In every group, of whatever brackets, the braces that are opened are closed, and no others. -/
def BracesNest (s : Source) : Prop :=
  ∀ start < s.size, s.isCovered start = false → ∀ stop, s.matchBracket start = .ok stop →
    nesting '{' '}' 0 (s.glyphsBetween start stop) = some 0

instance (s : Source) : Decidable s.BracesNest :=
  decidable_of_iff (∀ start < s.size, s.isCovered start = false → ∀ stop ∈ (s.matchBracket start).toOption,
    nesting '{' '}' 0 (s.glyphsBetween start stop) = some 0) <| by
    refine forall₃_congr fun start _ _ => forall_congr' fun stop => imp_congr_left ?_
    cases s.matchBracket start <;> simp [Except.toOption]

theorem glyphsBetween_offsetOf (h : s.glyphs = front ++ (mid ++ back)) :
    s.glyphsBetween (s.offsetOf (mid ++ back)) (s.offsetOf back) = mid := by
  rw [offsetOf_append h, offsetOf_of_append h]
  exact glyphsBetween_of_append h

theorem BeginsCode.matchBracket (h : s.BeginsCode pre post g gs) (hp : closer? g.char = some closer)
    (hsp : splitGroup g.char closer 0 (g :: gs) = some (group, rest)) : s.matchBracket g.offset = .ok (s.offsetOf rest) := by
  unfold Source.matchBracket
  rw [h.glyphsFrom]
  simp only [if_true, hp, hsp]

theorem countsTo_group (hn : s.BracesNest) (h : g :: gs <:+ s.glyphs)
    (hc : g.cover = none) (hp : closer? g.char = some closer)
    (hsp : splitGroup g.char closer 0 (g :: gs) = some (group, rest)) (n : Nat) : CountsTo n n (g :: gs) rest := by
  obtain ⟨before, post, hco⟩ := beginsCode_of_suffix h hc
  obtain ⟨front, hf⟩ := h
  have ha := splitGroup_append hsp
  have ho : g.offset = piecesSize before := congrArg Glyph.offset hco.glyph_eq
  have hlt : g.offset < s.size := by
    have hm : g ∈ s.glyphs := hf ▸ mem_append_right front mem_cons_self
    have hb := offset_bounds_of_mem_glyphsOf hm
    rw [piecesSize, s.chars_pieces] at hb
    rw [size]
    omega
  have hv : s.isCovered g.offset = false := ho ▸ isCovered_of_code hco.pieces_eq
  have he : s.glyphsBetween g.offset (s.offsetOf rest) = group := by
    have hg : s.glyphs = front ++ (group ++ rest) := by rw [ha, hf]
    have := glyphsBetween_offsetOf hg
    rwa [ha] at this
  have hr := hn g.offset hlt hv _ (hco.matchBracket hp hsp)
  rw [he] at hr
  refine ⟨group, ha.symm, ?_⟩
  have := nesting_add hr n
  rwa [Nat.zero_add] at this

theorem CutsOff.countsTo (hn : s.BracesNest) {place : Nat}
    {gs v rest : List Glyph} (hgs : gs <:+ s.glyphs) (h : s.CutsOff place gs v rest) (n : Nat) : CountsTo n n gs rest := by
  cases gs with
  | nil => exact absurd h not_cutsOff_nil
  | cons g gs =>
    have ht : gs <:+ s.glyphs := (suffix_cons g gs).trans hgs
    obtain ⟨-, -, ⟨hc, rfl⟩ | ⟨-, rfl⟩⟩ | ⟨more, -, hg, hm⟩ |
      ⟨closer, group, after, more, hco, hp, hsp, -, hm⟩ := h.cases
    · exact ((SkipsTo.refl rest).cons (isIdle_of_ne (by rw [hc]; decide) (by rw [hc]; decide))).countsTo n
    · exact .refl n _
    · have hi : g.IsIdle '{' '}' := by
        refine hg.imp_right fun ⟨ho, hl⟩ => ⟨fun heq => ?_, fun heq => ?_⟩
        · rw [heq] at ho
          cases ho
        · rw [heq] at hl
          cases hl
      exact (((SkipsTo.refl gs).cons hi).countsTo n).trans (hm.countsTo hn ht n)
    · have hlt := splitGroup_length hsp
      have ha : after <:+ s.glyphs := .trans ⟨group, splitGroup_append hsp⟩ hgs
      exact (countsTo_group hn hgs hco hp hsp n).trans (hm.countsTo hn ha n)
termination_by gs.length

/-! ### What is reached -/

theorem Reached.countsTo (hs : ofText text = .ok s) (hn : s.BracesNest) (h : s.Reached start n gs) : CountsTo 0 n start gs := by
  have hsc := isScan_ofText hs
  induction h with
  | start => exact .refl 0 _
  | token hr hk ih => exact ih.trans ((skipsTo_token hsc (hr.isRest hsc) hk).countsTo _)
  | opened hr hk ih =>
    obtain ⟨pre, post, g, -, hg, -, hsk⟩ := exists_code_of_mark hsc (hr.isRest hsc) hk rfl
    exact (ih.trans (hsk.countsTo _)).trans (countsTo_opened hg _ _)
  | closed hr hk ih =>
    obtain ⟨pre, post, g, -, hg, -, hsk⟩ := exists_code_of_mark hsc (hr.isRest hsc) hk rfl
    exact (ih.trans (hsk.countsTo _)).trans (countsTo_closed hg _ _)
  | @group _ gs group rest opener closer hr hp hk hsp ih =>
    have ho := isLiteralStart_of_closer? hp
    obtain ⟨pre, post, g, hc, ⟨hco, rfl⟩, hi, hsk⟩ := exists_code_of_mark hsc (hr.isRest hsc) hk ho
    rw [hi] at hsp
    exact (ih.trans (hsk.countsTo _)).trans (countsTo_group hn hc.isRest_cons.suffix hco hp hsp _)
  | value hr hu ih => exact ih.trans (hu.countsTo hn (hr.isRest hsc).suffix _)

/-! ### The two ends of a class -/

theorem exists_cut_of_readClass (hs : ofText text = .ok s) (h : s.IsRest gs)
    {r : Read ClassDef gs.length} (hr : s.readClass gs = .ok r) :
    ∃ brace body last, SkipsTo gs (brace :: (body ++ last :: r.rest)) ∧ brace.IsCode '{' ∧ last.IsCode '}' ∧
      (s.BracesNest → nesting '{' '}' 0 body = some 0) := by
  have hsc := isScan_ofText hs
  have hk : s.KeptByTokens fun mid => s.IsRest mid ∧ SkipsTo gs mid := by
    refine ⟨And.left, fun hm hki => ⟨isRest_token hsc hm.1 (hki '/' (by simp)), ?_⟩⟩
    exact hm.2.trans (skipsTo_token hsc hm.1 hki)
  obtain ⟨-, inside, ⟨mid, ⟨hm, hsk⟩, ho, rfl⟩, close, hre, hc, hrs⟩ := (arrives_readClass hsc hk ⟨h, .refl gs⟩).1 r hr
  obtain ⟨_, _, brace, hco, hb, -, hbe⟩ := exists_code_of_mark hsc hm ho rfl
  have he := hre.isRest hsc
  obtain ⟨_, _, last, -, hl, -, trivia, hcl, ht⟩ := exists_code_of_mark hsc he hc rfl
  obtain ⟨front, hf⟩ := hre.suffix_start
  rw [← hrs] at hcl
  have hi : (s.token mid).rest = (front ++ trivia) ++ last :: r.rest := by rw [← hf, hcl, append_assoc]
  refine ⟨brace, front ++ trivia, last, ?_, hb, hl, fun hn => ?_⟩
  · rw [← hi]
    exact hsk.trans hbe
  · obtain ⟨body, hbo, hne⟩ := (hre.countsTo hs hn).trans (SkipsTo.countsTo ⟨trivia, hcl, ht⟩ 0)
    rw [append_cancel_right (hi.symm.trans hbo)]
    exact hne

/-- **The end of a class.** Where a class is read, it is read to the end of its block exactly if the
braces in its body, as far as it was read, are balanced. -/
theorem IsClassBlock.extent (hs : ofText text = .ok s) {block : Span}
    (h : s.IsClassBlock keyword brace group rest block) {r : Read ClassDef keyword.length} (hr : s.readClass keyword = .ok r) :
    ∃ opening, s.find? ['{'] block.start = some opening ∧ (s.offsetOf r.rest = block.stop ↔
        nesting '{' '}' 0 (s.glyphsBetween (opening + 1) (s.offsetOf r.rest - 1)) = some 0) ∧
      (s.BracesNest → s.offsetOf r.rest = block.stop) := by
  obtain ⟨-, hre⟩ := h.glyphsFrom
  obtain ⟨first, body, last, hk, hfi, hl, hn⟩ := exists_cut_of_readClass hs hre hr
  have hb : brace = first :: (body ++ last :: r.rest) := Option.some.inj (h.find_brace.symm.trans (findGlyphs_of_skipsTo hk hfi))
  have hu : first :: (body ++ last :: r.rest) <:+ s.glyphs := by
    obtain ⟨front, hfr, -⟩ := hk
    exact .trans ⟨front, hfr.symm⟩ h.suffix
  have ht : block.start = s.offsetOf keyword := by rw [h.block_eq]
  have hfn : s.find? ['{'] block.start = some first.offset := by
    rw [ht, find?_offsetOf h.suffix, h.find_brace, hb]
    rfl
  have hc := h.cut
  rw [hb, splitGroup_opener hfi] at hc
  obtain ⟨⟨group', rest'⟩, hg, heq⟩ := Option.map_eq_some_iff.1 hc
  obtain ⟨-, rfl⟩ := Prod.mk.inj heq
  -- The block ends where the class was read to if the body is balanced, and not otherwise.
  have hi : r.rest = rest' ↔ nesting '{' '}' 0 body = some 0 := by
    constructor
    · rintro rfl
      obtain ⟨body', last', rfl, heq, -, hne⟩ := (splitGroup_eq_some_iff (by decide)).1 hg
      rw [append_cons, append_assoc, append_assoc] at heq
      obtain ⟨rfl, -⟩ := append_inj' heq (by simp)
      exact hne
    · intro hne
      have ha : splitGroup '{' '}' (0 + 1) (body ++ last :: r.rest) = some (body ++ [last], r.rest) :=
        (splitGroup_eq_some_iff (by decide)).2 ⟨body, last, rfl, by rw [append_assoc]; rfl, hl, hne⟩
      exact (Prod.mk.inj (Option.some.inj (ha.symm.trans hg))).2
  have he : s.offsetOf r.rest = block.stop ↔ r.rest = rest' := by
    have hso : block.stop = s.offsetOf rest' := by rw [h.block_eq]
    have ha : r.rest <:+ s.glyphs := .trans ⟨first :: (body ++ [last]), by simp⟩ hu
    have hbl : rest' <:+ s.glyphs := (List.IsSuffix.trans ⟨group', splitGroup_append hg⟩ (suffix_cons first _)).trans hu
    rw [hso]
    exact ⟨eq_of_offsetOf_eq ha hbl, fun heq => by rw [heq]⟩
  have hbe : s.glyphsBetween (first.offset + 1) (s.offsetOf r.rest - 1) = body := by
    obtain ⟨front, hfr⟩ := hu
    have ho : first.char.utf8Size = 1 ∧ last.char.utf8Size = 1 := by
      rw [hfi.2, hl.2]
      decide
    have hin : s.glyphs = (front ++ [first]) ++ (body ++ last :: r.rest) := by rw [← hfr, append_assoc]; rfl
    have hbo := glyphsBetween_offsetOf hin
    have hl' : s.glyphs = ((front ++ [first]) ++ body) ++ last :: r.rest := hin.trans (append_assoc _ _ _).symm
    rw [offsetOf_tail hfr.symm, ho.1] at hbo
    rw [offsetOf_tail hl', ho.2]
    exact hbo
  refine ⟨first.offset, hfn, ?_, fun hbr => (he.trans hi).2 (hn hbr)⟩
  rw [hbe]
  exact he.trans hi

/-- What a class that begins at the offset takes, up to where reading it ends. -/
def classExtent? (s : Source) (start : Nat) : Option Span :=
  (s.readClass (s.glyphsFrom start)).toOption.map fun r => ⟨start, s.offsetOf r.rest⟩

theorem exists_of_readClasses {starts : List Nat} (h : s.readClasses table starts = .ok table') :
    ∀ start ∈ starts, ∃ r, s.readClass (s.glyphsFrom start) = .ok r := by
  induction starts generalizing table with
  | nil => simp
  | cons start starts ih =>
    obtain ⟨c, hc, h⟩ := bind_eq_ok.1 h
    split at h
    · exact forall_mem_cons.2 ⟨⟨c, hc⟩, ih h⟩
    · cases h

end Source

/-- **Blocks and readings of classes.** Of a text whose classes are read, each class is read up to
the end of its block exactly if the braces between the first one and the last one that were read are
balanced. If in every group of the text the braces are balanced, then every class is read to the end
of its block, and what is blanked out of the page is what was read. -/
theorem class_extents {text : List Char} {table : ClassTable} (h : ClassTable.ofText text = .ok table) :
    ∃ s blocks, Source.ofText text = .ok s ∧ s.classBlocks = .ok blocks ∧
      (∀ block ∈ blocks, ∃ opening stop, s.find? ['{'] block.start = some opening ∧
        s.classExtent? block.start = some ⟨block.start, stop⟩ ∧
        (stop = block.stop ↔ nesting '{' '}' 0 (s.glyphsBetween (opening + 1) (stop - 1)) = some 0)) ∧
      (s.BracesNest → blocks.filterMap (fun block => s.classExtent? block.start) = blocks ∧
        classlessText text = .ok (blankOut (blocks.filterMap fun block => s.classExtent? block.start) s.glyphs)) := by
  obtain ⟨s, hs, h⟩ := bind_eq_ok.1 h
  obtain ⟨blocks, hblocks, h⟩ := bind_eq_ok.1 h
  have hclass : ∀ block ∈ blocks, ∃ opening stop, s.find? ['{'] block.start = some opening ∧
      s.classExtent? block.start = some ⟨block.start, stop⟩ ∧
      (stop = block.stop ↔ nesting '{' '}' 0 (s.glyphsBetween (opening + 1) (stop - 1)) = some 0) ∧
      (s.BracesNest → stop = block.stop) := by
    intro block hblock
    obtain ⟨keyword, brace, group, rest, hclass⟩ := Source.exists_of_mem_classBlocksFrom suffix_rfl hblocks hblock
    obtain ⟨r, hr⟩ := Source.exists_of_readClasses h block.start (mem_map_of_mem hblock)
    have hextent : s.classExtent? block.start = some ⟨block.start, s.offsetOf r.rest⟩ := by
      rw [Source.classExtent?, hr]
      rfl
    obtain ⟨hfrom, -⟩ := hclass.glyphsFrom
    revert r
    rw [hfrom]
    intro r hr hextent
    obtain ⟨opening, hfind, hiff, hnest⟩ := hclass.extent hs hr
    exact ⟨opening, _, hfind, hextent, hiff, hnest⟩
  refine ⟨s, blocks, hs, hblocks, fun block hblock => ?_, fun hnest => ?_⟩
  · obtain ⟨opening, stop, hfind, hextent, hiff, -⟩ := hclass block hblock
    exact ⟨opening, stop, hfind, hextent, hiff⟩
  · have hextents : blocks.filterMap (fun block => s.classExtent? block.start) = blocks := by
      refine (filterMap_congr ?_).trans filterMap_some
      intro block hblock
      obtain ⟨opening, stop, -, hextent, -, hstop⟩ := hclass block hblock
      rw [hextent, hstop hnest]
    refine ⟨hextents, ?_⟩
    rw [hextents, classlessText, hs]
    show (s.classBlocks >>= fun blocks => pure (blankOut blocks s.glyphs)) = _
    rw [hblocks]
    rfl

/-- Two classes, with groups of all kinds in a value and in a method of the first. -/
def groupsInClasses : List Char :=
  "class A\x7bpublic\x7bvar x=f(\x7ba:[1]\x7d);m(a)\x7bg[\x7b\x7d]\x7d\x7d\x7dp\x7b\x7dclass B\x7b\x7d".toList

theorem class_extents_groupsInClasses :
    ∃ table, ClassTable.ofText groupsInClasses = .ok table ∧ table.classes.map (·.name) = ["A", "B"] ∧
      ∃ s blocks, Source.ofText groupsInClasses = .ok s ∧ s.classBlocks = .ok blocks ∧ s.BracesNest ∧
        blocks.filterMap (fun block => s.classExtent? block.start) = [⟨0, 45⟩, ⟨48, 57⟩] ∧
        (∀ block ∈ blocks, ∃ opening stop, s.find? ['{'] block.start = some opening ∧
          s.classExtent? block.start = some ⟨block.start, stop⟩ ∧
          (stop = block.stop ↔ nesting '{' '}' 0 (s.glyphsBetween (opening + 1) (stop - 1)) = some 0)) ∧
        blocks.filterMap (fun block => s.classExtent? block.start) = blocks ∧
        classlessText groupsInClasses =
          .ok (blankOut (blocks.filterMap fun block => s.classExtent? block.start) s.glyphs) := by
  have htable : ∃ table, ClassTable.ofText groupsInClasses = .ok table ∧ table.classes.map (·.name) = ["A", "B"] := by
    decide +kernel
  have heval : ∃ s, Source.ofText groupsInClasses = .ok s ∧ s.BracesNest ∧ s.classBlocks = .ok [⟨0, 45⟩, ⟨48, 57⟩] := by
    decide +kernel
  obtain ⟨table, hread, hnames⟩ := htable
  obtain ⟨s, blocks, hs, hblocks, hclasses, hnested⟩ := class_extents hread
  obtain ⟨s', hs', hnest, hspans⟩ := heval
  cases hs.symm.trans hs'
  cases hblocks.symm.trans hspans
  obtain ⟨hextents, hblank⟩ := hnested hnest
  exact ⟨table, hread, hnames, s, _, hs, hblocks, hnest, hextents, hclasses, hextents, hblank⟩

/-- A class in which a parenthesis is opened before a brace that closes a group and closed behind
it. -/
def crossedGroups : List Char := "class A\x7bpublic\x7bm(\x7d)\x7b\x7d\x7d\x7d".toList

/-- The class is read to the end of the text, but its block ends before the last brace. -/
theorem class_extent_crossed :
    ∃ table s, ClassTable.ofText crossedGroups = .ok table ∧ Source.ofText crossedGroups = .ok s ∧
      s.classBlocks = .ok [⟨0, 22⟩] ∧ s.classExtent? 0 = some ⟨0, 23⟩ := by
  have htable : ∃ table, ClassTable.ofText crossedGroups = .ok table := by
    decide +kernel
  have heval : ∃ s, Source.ofText crossedGroups = .ok s ∧
      s.classBlocks = .ok [⟨0, 22⟩] ∧ s.classExtent? 0 = some ⟨0, 23⟩ := by
    decide +kernel
  obtain ⟨table, hread⟩ := htable
  obtain ⟨s, hs, hfacts⟩ := heval
  exact ⟨table, s, hread, hs, hfacts⟩

end Pagewright
