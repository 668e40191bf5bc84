import Pagewright.Include
import Pagewright.Proofs.Searching

/-!
# Directives

The include directives of a text are ranges of its bytes. `Directives` says which ones it has, by
searches outside all literals; a text is divided at exactly these (`divideIncludesFrom_eq_ok_iff`).
They are replaced backwards, or the text is put together anew from left to right; both give the same
text (`replaceBackwards_eq_spliceForwards`). -/

namespace Pagewright

open List

variable {d d' : Directive} {ds : List Directive} {found rest : List Glyph}
  {needle back between content front word : List Char} {semicolon g : Glyph}

/-! ### Texts cut at byte offsets -/

/-- The first `n` bytes of a text. -/
def takeBytes : Nat → List Char → List Char
  | _, [] => []
  | n, c :: cs => if n = 0 then [] else c :: takeBytes (n - c.utf8Size) cs

/-- A text without its first `n` bytes. -/
def dropBytes : Nat → List Char → List Char
  | _, [] => []
  | n, c :: cs => if n = 0 then c :: cs else dropBytes (n - c.utf8Size) cs

theorem takeBytes_append (front back : List Char) : takeBytes (byteSize front) (front ++ back) = front := by
  induction front with
  | nil => cases back <;> rfl
  | cons c front ih =>
    have hp := c.utf8Size_pos
    rw [cons_append, takeBytes, byteSize, if_neg (by omega), Nat.add_sub_cancel_left, ih]

theorem dropBytes_append (front back : List Char) : dropBytes (byteSize front) (front ++ back) = back := by
  induction front with
  | nil => cases back <;> rfl
  | cons c front ih =>
    have hp := c.utf8Size_pos
    rw [cons_append, dropBytes, byteSize, if_neg (by omega), Nat.add_sub_cancel_left, ih]

/-! ### Directives of a text -/

/-- An include directive: the range that it takes in its text, and the path in it. -/
structure Directive where
  start : Nat
  stop : Nat
  path : Path

/-- The text with the range from `start` to `stop` replaced. -/
def replaceRange (text : List Char) (start stop : Nat) (new : List Char) : List Char :=
  takeBytes start text ++ new ++ dropBytes stop text

/-- The text with the directives replaced in place, the last one first. -/
def replaceBackwards (text : List Char) : List (Directive × List Char) → List Char
  | [] => text
  | (d, new) :: rest => replaceRange (replaceBackwards text rest) d.start d.stop new

/-- The text from `offset` on with the directives replaced, put together from left to right. -/
def spliceForwards (offset : Nat) (cs : List Char) : List (Directive × List Char) → List Char
  | [] => cs
  | (d, new) :: rest =>
    takeBytes (d.start - offset) cs ++ new ++ spliceForwards d.stop (dropBytes (d.stop - offset) cs) rest

/-- The text from `offset` on divided at the directives. -/
def divideAt (offset : Nat) (cs : List Char) : List Directive → DividedText
  | [] => ⟨[], cs⟩
  | d :: ds =>
    let rest := divideAt d.stop (dropBytes (d.stop - offset) cs) ds
    ⟨(takeBytes (d.start - offset) cs, d.path) :: rest.includes, rest.tail⟩

namespace Source

variable {s : Source} {gs : List Glyph} {o : Nat} {c : Char} {divided : DividedText}

/-- The directive is the first one from an offset on: it begins with the word `*include` and ends
with the next semicolon, both outside every literal, with a path between them. -/
def FindsDirective (s : Source) (offset : Nat) (d : Directive) : Prop :=
  s.find? includeWord offset = some d.start ∧
    ∃ semicolon, s.find? [';'] d.start = some semicolon ∧ d.stop = semicolon + 1 ∧
      directivePath? (dropBytes (d.start + byteSize includeWord) (takeBytes semicolon s.text)) = some d.path

/-- The directives from an offset on, of which there are no more behind the last. -/
inductive Directives (s : Source) : Nat → List Directive → Prop where
  | none {offset : Nat} (h : s.find? includeWord offset = none) : Directives s offset []
  | cons {offset : Nat} {d : Directive} {ds : List Directive} (h : s.FindsDirective offset d)
      (hrest : Directives s d.stop ds) : Directives s offset (d :: ds)

/-- One of the directives from an offset on; what follows it need not be well formed. -/
inductive HasDirective (s : Source) : Nat → Directive → Prop where
  | here {offset : Nat} {d : Directive} (h : s.FindsDirective offset d) : HasDirective s offset d
  | later {offset : Nat} {first d : Directive} (h : s.FindsDirective offset first)
      (hrest : HasDirective s first.stop d) : HasDirective s offset d

theorem FindsDirective.unique (h : s.FindsDirective o d) (h' : s.FindsDirective o d') : d = d' := by
  obtain ⟨start, stop, path⟩ := d
  obtain ⟨hs, semicolon, he, ht, hp⟩ := h
  obtain ⟨hs', semicolon', he', ht', hp'⟩ := h'
  cases hs.symm.trans hs'
  cases he.symm.trans he'
  cases ht.trans ht'.symm
  cases hp.symm.trans hp'
  rfl

theorem Directives.hasDirective (h : s.Directives o ds) : ∀ d ∈ ds, s.HasDirective o d := by
  induction h with
  | none h => nofun
  | cons h hr ih => exact forall_mem_cons.2 ⟨.here h, fun d hd => .later h (ih d hd)⟩

theorem HasDirective.mem (h : s.HasDirective o d) (hd : s.Directives o ds) : d ∈ ds := by
  induction h generalizing ds with
  | here h =>
    cases hd with
    | none hn => cases hn.symm.trans h.1
    | cons h' _ => exact h.unique h' ▸ mem_cons_self
  | later h _ ih =>
    cases hd with
    | none hn => cases hn.symm.trans h.1
    | cons h' hr =>
      cases h.unique h'
      exact mem_cons_of_mem _ (ih hr)

/-! ### Directives and glyphs -/

/-- The text between two places where a reader can stand. -/
theorem exists_front_of_suffix (h : gs <:+ s.glyphs) (hu : found <:+ gs) :
    ∃ front, glyphText gs = front ++ glyphText found ∧ s.offsetOf found = s.offsetOf gs + byteSize front ∧
      glyphText (gs.take (gs.length - found.length)) = front := by
  obtain ⟨between, rfl⟩ := hu
  obtain ⟨front, h⟩ := h
  exact ⟨glyphText between, glyphText_append _ _, offsetOf_append h.symm, by simp⟩

theorem isRest_of_findGlyphs (h : s.IsRest gs) (hn : needle ≠ []) (hf : findGlyphs needle gs = some found) :
    s.IsRest found ∧ ∃ g rest, found = g :: rest ∧ s.IsRest rest ∧ needle <+: glyphText found := by
  obtain ⟨g, rest, rfl, hc, hs⟩ := findGlyphs_spec hn hf
  have hu := (suffix_of_findGlyphs hf).trans h.suffix
  obtain ⟨pre, post, ho⟩ := beginsCode_of_suffix hu hc
  exact ⟨ho.isRest_cons, g, rest, rfl, ho.isRest, hs⟩

theorem char_of_findGlyphs (h : findGlyphs [c] gs = some (g :: rest)) : g.char = c := by
  obtain ⟨g', rest', heq, -, hs⟩ := findGlyphs_spec (by simp) h
  simpa [glyphText, eq_comm] using hs

theorem body_eq (hf : found <:+ s.glyphs) (hu : rest <:+ found) (hw : word <+: glyphText found)
    (hl : word.length ≤ found.length - rest.length) : dropBytes (s.offsetOf found + byteSize word) (takeBytes (s.offsetOf rest) s.text) =
      glyphText ((found.take (found.length - rest.length)).drop word.length) := by
  obtain ⟨front, ht, ho⟩ := text_of_suffix hf
  obtain ⟨between, hg, ho', ha⟩ := exists_front_of_suffix hf hu
  have hb : word <+: between := by
    refine prefix_of_prefix_length_le hw (hg ▸ prefix_append _ _) ?_
    rw [← ha]
    simpa [glyphText] using hl
  obtain ⟨body, rfl⟩ := hb
  have hp : s.text = (front ++ word ++ body) ++ glyphText rest := by
    rw [ht, hg]
    simp
  have hi : s.offsetOf rest = byteSize (front ++ word ++ body) := by
    rw [ho', ho]
    simp
  have hst : s.offsetOf found + byteSize word = byteSize (front ++ word) := by rw [ho, byteSize_append]
  rw [hi, hst, hp, takeBytes_append, dropBytes_append]
  rw [glyphText, map_drop, ← glyphText, ha, drop_left]

theorem length_le_of_prefix (h : word <+: between ++ c :: back) (hc : c ∉ word) : word.length ≤ between.length := by
  by_contra hlt
  obtain ⟨tail, rfl⟩ := prefix_of_prefix_length_le (prefix_append between (c :: back)) h (by omega)
  rw [prefix_append_right_inj] at h
  cases tail with
  | nil => simp at hlt
  | cons d tail =>
    obtain ⟨rfl, -⟩ := cons_prefix_cons.1 h
    exact hc (by simp)

/-- The glyphs of the first directive: those from its word on, and those from its semicolon on. -/
structure DirectiveGlyphs (s : Source) (gs found : List Glyph) (semicolon : Glyph) (rest : List Glyph) : Prop where
  found_eq : findGlyphs includeWord gs = some found
  semicolon_eq : findGlyphs [';'] found = some (semicolon :: rest)
  isRest_found : s.IsRest found
  isRest_semicolon : s.IsRest (semicolon :: rest)
  isRest_rest : s.IsRest rest
  offset_rest : s.offsetOf rest = s.offsetOf (semicolon :: rest) + 1

theorem directiveGlyphs_of_findGlyphs (h : s.IsRest gs) (hf : findGlyphs includeWord gs = some found)
    (he : findGlyphs [';'] found = some (semicolon :: rest)) : s.DirectiveGlyphs gs found semicolon rest := by
  obtain ⟨hr, -⟩ := isRest_of_findGlyphs h (by decide) hf
  obtain ⟨hr', g, rest', heq, hr'', -⟩ := isRest_of_findGlyphs hr (by decide) he
  cases heq
  obtain ⟨front, hg⟩ := hr'.suffix
  refine ⟨hf, he, hr, hr', hr'', ?_⟩
  rw [offsetOf_tail hg.symm, char_of_findGlyphs he]
  rfl

theorem DirectiveGlyphs.body_eq (h : s.DirectiveGlyphs gs found semicolon rest) :
    dropBytes (s.offsetOf found + byteSize includeWord) (takeBytes (s.offsetOf (semicolon :: rest)) s.text) =
      glyphText ((found.take (found.length - (semicolon :: rest).length)).drop includeWord.length) := by
  obtain ⟨g, post, -, -, hw⟩ := findGlyphs_spec (by decide) h.found_eq
  have hu := suffix_of_findGlyphs h.semicolon_eq
  obtain ⟨between, hg, -, ht⟩ := exists_front_of_suffix h.isRest_found.suffix hu
  refine Source.body_eq h.isRest_found.suffix hu hw ?_
  have hle : includeWord.length ≤ between.length := by
    have hc : glyphText (semicolon :: rest) = ';' :: glyphText rest := by
      rw [← char_of_findGlyphs h.semicolon_eq]
      rfl
    rw [hg, hc] at hw
    exact length_le_of_prefix hw (by decide)
  have hl := congrArg length ht
  simp only [glyphText, length_map, length_take] at hl
  omega

/-- The first directive from where a reader stands, by its glyphs. -/
theorem findsDirective_offsetOf (h : s.IsRest gs) :
    s.FindsDirective (s.offsetOf gs) d ↔ ∃ found semicolon rest, s.DirectiveGlyphs gs found semicolon rest ∧ directivePath? (glyphText
        ((found.take (found.length - (semicolon :: rest).length)).drop includeWord.length)) = some d.path ∧
      d.start = s.offsetOf found ∧ d.stop = s.offsetOf rest := by
  constructor
  · rintro ⟨ht, o, ho, hso, hp⟩
    rw [find?_offsetOf h.suffix] at ht
    obtain ⟨found, hf, ht⟩ := Option.map_eq_some_iff.1 ht
    obtain ⟨hr, -⟩ := isRest_of_findGlyphs h (by decide) hf
    rw [← ht, find?_offsetOf hr.suffix] at ho
    obtain ⟨behind, hb, rfl⟩ := Option.map_eq_some_iff.1 ho
    obtain ⟨semicolon, rest, rfl, -⟩ := findGlyphs_spec (by decide) hb
    have hg := directiveGlyphs_of_findGlyphs h hf hb
    refine ⟨found, semicolon, rest, hg, ?_, ht.symm, hso.trans hg.offset_rest.symm⟩
    rw [← hg.body_eq, ht, hp]
  · rintro ⟨found, semicolon, rest, hg, hp, ht, hso⟩
    refine ⟨?_, s.offsetOf (semicolon :: rest), ?_, hso.trans hg.offset_rest, ?_⟩
    · rw [find?_offsetOf h.suffix, hg.found_eq, ht]
      rfl
    · rw [ht, find?_offsetOf hg.isRest_found.suffix, hg.semicolon_eq]
      rfl
    · rw [ht, hg.body_eq, hp]

theorem DirectiveGlyphs.cut (h : s.IsRest gs) (hg : s.DirectiveGlyphs gs found semicolon rest) :
    ∃ front dir, glyphText gs = front ++ dir ++ glyphText rest ∧
      s.offsetOf found = s.offsetOf gs + byteSize front ∧ s.offsetOf rest = s.offsetOf found + byteSize dir ∧
      glyphText (gs.take (gs.length - found.length)) = front ∧ takeBytes (s.offsetOf found - s.offsetOf gs) (glyphText gs) = front ∧
      dropBytes (s.offsetOf rest - s.offsetOf gs) (glyphText gs) = glyphText rest := by
  obtain ⟨front, hf, ho, ht⟩ := exists_front_of_suffix h.suffix (suffix_of_findGlyphs hg.found_eq)
  have hu := (suffix_cons semicolon rest).trans (suffix_of_findGlyphs hg.semicolon_eq)
  obtain ⟨dir, hd, ho', -⟩ := exists_front_of_suffix hg.isRest_found.suffix hu
  refine ⟨front, dir, by rw [hf, hd, append_assoc], ho, ho', ht, ?_, ?_⟩
  · rw [ho, Nat.add_sub_cancel_left, hf, takeBytes_append]
  · rw [ho', ho, Nat.add_assoc, Nat.add_sub_cancel_left, ← byteSize_append, hf, hd, ← append_assoc, dropBytes_append]

theorem divideAt_cons (h : s.IsRest gs) (hg : s.DirectiveGlyphs gs found semicolon rest)
    (hst : d.start = s.offsetOf found) (ho : d.stop = s.offsetOf rest) (ds : List Directive) :
    divideAt (s.offsetOf gs) (glyphText gs) (d :: ds) = ⟨(glyphText (gs.take (gs.length - found.length)), d.path) ::
        (divideAt (s.offsetOf rest) (glyphText rest) ds).includes, (divideAt (s.offsetOf rest) (glyphText rest) ds).tail⟩ := by
  obtain ⟨front, dir, -, -, -, ht, hb, he⟩ := hg.cut h
  rw [divideAt, hst, ho, hb, he, ht]

theorem Directives.exists_first (hds : s.Directives (s.offsetOf gs) ds)
    (h : s.IsRest gs) (hf : findGlyphs includeWord gs = some found) : ∃ d, s.FindsDirective (s.offsetOf gs) d := by
  cases hds with
  | none hn =>
    rw [find?_offsetOf h.suffix, hf] at hn
    cases hn
  | cons hd _ => exact ⟨_, hd⟩

/-- **Divided texts.** A text is divided at its directives, if all of them are well formed. -/
theorem divideIncludesFrom_eq_ok_iff (h : s.IsRest gs) : s.divideIncludesFrom gs = .ok divided ↔
      ∃ ds, s.Directives (s.offsetOf gs) ds ∧ divided = divideAt (s.offsetOf gs) (glyphText gs) ds := by
  fun_induction divideIncludesFrom s gs generalizing divided with
  | case1 gs hn =>
    have hf : s.find? includeWord (s.offsetOf gs) = none := by rw [find?_offsetOf h.suffix, hn]; rfl
    constructor
    · intro heq
      cases heq
      exact ⟨[], .none hf, rfl⟩
    · rintro ⟨ds, hds, rfl⟩
      cases hds with
      | none _ => rfl
      | cons hd _ => cases hf.symm.trans hd.1
  | case2 gs found ho hn =>
    refine ⟨nofun, ?_⟩
    rintro ⟨ds, hds, -⟩
    obtain ⟨d, hd⟩ := hds.exists_first h ho
    obtain ⟨found', semicolon, rest, hg, -⟩ := (findsDirective_offsetOf h).1 hd
    cases ho.symm.trans hg.found_eq
    cases hn.symm.trans hg.semicolon_eq
  | case3 gs found ho hn =>
    obtain ⟨_, _, heq, -⟩ := findGlyphs_spec (by decide) hn
    cases heq
  | case4 gs found ho semicolon rest he hn =>
    refine ⟨nofun, ?_⟩
    rintro ⟨ds, hds, -⟩
    obtain ⟨d, hd⟩ := hds.exists_first h ho
    obtain ⟨found', semicolon', rest', hg, hp, -⟩ := (findsDirective_offsetOf h).1 hd
    cases ho.symm.trans hg.found_eq
    cases he.symm.trans hg.semicolon_eq
    cases hn.symm.trans hp
  | case5 gs found ho semicolon rest he path hp ih =>
    have hg := directiveGlyphs_of_findGlyphs h ho he
    have hfi : s.FindsDirective (s.offsetOf gs) ⟨s.offsetOf found, s.offsetOf rest, path⟩ :=
      (findsDirective_offsetOf h).2 ⟨found, semicolon, rest, hg, hp, rfl, rfl⟩
    have hc := divideAt_cons h hg (d := ⟨s.offsetOf found, s.offsetOf rest, path⟩) rfl rfl
    constructor
    · intro heq
      obtain ⟨inner, hi, rfl⟩ := exists_of_map_eq_ok heq
      obtain ⟨ds, hds, rfl⟩ := (ih hg.isRest_rest).1 hi
      exact ⟨_ :: ds, .cons hfi hds, (hc ds).symm⟩
    · rintro ⟨ds, hds, rfl⟩
      cases hds with
      | none hn => cases hn.symm.trans hfi.1
      | cons hd hr =>
        cases hfi.unique hd
        rw [(ih hg.isRest_rest).2 ⟨_, hr, rfl⟩, hc]
        rfl

/-- **Both orders.** Directives replaced in place, the last one first, give what is put together
from left to right. -/
theorem replaceBackwards_eq (h : s.IsRest gs) (ht : s.text = front ++ glyphText gs) (ho : s.offsetOf gs = byteSize front)
    {rs : List (Directive × List Char)} (hds : s.Directives (s.offsetOf gs) (rs.map Prod.fst)) :
    replaceBackwards s.text rs = front ++ spliceForwards (s.offsetOf gs) (glyphText gs) rs := by
  induction rs generalizing gs front with
  | nil => exact ht
  | cons r rs ih =>
    obtain ⟨d, new⟩ := r
    cases hds with
    | cons hd hr =>
      obtain ⟨found, semicolon, rest, hg, -, hst, hso⟩ := (findsDirective_offsetOf h).1 hd
      obtain ⟨pre, dir, hgs, hf, hb, -, ha, hdr⟩ := hg.cut h
      rw [hso] at hr
      have hst' : d.start = byteSize (front ++ pre) := by rw [hst, hf, ho, byteSize_append]
      have hso' : d.stop = byteSize (front ++ pre ++ dir) := by
        rw [hso, hb, ← hst, hst', byteSize_append (front ++ pre)]
      have hfr : s.text = front ++ pre ++ dir ++ glyphText rest := by rw [ht, hgs]; simp
      have hi := ih hg.isRest_rest hfr (by rw [← hso, hso']) hr
      rw [← hst] at ha
      rw [← hso] at hdr
      rw [replaceBackwards, hi, replaceRange, spliceForwards, ha, hdr, hso', dropBytes_append, hst']
      rw [append_assoc (front ++ pre), takeBytes_append, ← hso', hso]
      simp

theorem replaceBackwards_eq_spliceForwards (hs : ofText content = .ok s)
    {rs : List (Directive × List Char)} (hd : s.Directives 0 (rs.map Prod.fst)) :
    replaceBackwards content rs = spliceForwards 0 content rs := by
  have hz : s.offsetOf s.glyphs = 0 := offsetOf_glyphsOf (nil_append _).symm
  have ht : s.text = [] ++ glyphText s.glyphs := by rw [glyphs, glyphText_glyphsOf, s.chars_pieces]; rfl
  rw [← hz] at hd
  have hp := replaceBackwards_eq (isRest_glyphs s) ht hz hd
  rw [nil_append] at hp ht
  rwa [hz, ← ht, text_ofText hs] at hp

/-- **Divided texts.** A text is divided at its directives, if all of them are well formed. -/
theorem divideIncludes_eq_ok_iff (hs : ofText content = .ok s) :
    s.divideIncludes = .ok divided ↔ ∃ ds, s.Directives 0 ds ∧ divided = divideAt 0 content ds := by
  have hz : s.offsetOf s.glyphs = 0 := offsetOf_glyphsOf (nil_append _).symm
  have ht : content = glyphText s.glyphs := by rw [glyphs, glyphText_glyphsOf, s.chars_pieces, text_ofText hs]
  rw [divideIncludes, divideIncludesFrom_eq_ok_iff (isRest_glyphs s), hz, ← ht]

end Source

end Pagewright
