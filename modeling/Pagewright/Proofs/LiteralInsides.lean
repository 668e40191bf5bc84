import Mathlib.Data.Option.Basic
import Pagewright.Proofs.Seams

/-!
# What stands inside a literal

The inside of a string or comment is replaced by another one of the same size that does not end it
either. Behind the literal a scan goes on as before. Only one thing looks inside: a slash before it
that is code because the pattern it could begin has no end on its line. With the new inside it may
find one. The literals stay where they are exactly if that happens to no slash, and then all
searches that pass over literals find the same as before. -/

namespace Pagewright

open List

variable {kind : LiteralKind} {c quote : Char} {lit lit' back inside cs front new rest : List Char}
  {ctx ctx' dtx : ScanContext} {before after ps qs : List Piece}

/-! ### Other insides -/

/-- What a literal of the kind begins with, patterns apart. -/
def LiteralKind.head : LiteralKind → List Char
  | quoted quote => [quote]
  | lineComment => ['/', '/']
  | blockComment => ['/', '*']
  | pattern => []

/-- What a literal of the kind ends with, patterns apart. -/
def LiteralKind.tail : LiteralKind → List Char
  | quoted quote => [quote]
  | blockComment => ['*', '/']
  | lineComment | pattern => []

/-- The text ends no literal of the kind that it stands in. -/
def LiteralKind.Holds (inside : List Char) : LiteralKind → Prop
  | quoted quote => ∀ c ∈ inside, c ≠ quote ∧ c ≠ '\\' ∧ (c = '\n' → quote = '`')
  | lineComment => '\n' ∉ inside
  | blockComment => ¬['*', '/'] <:+: inside
  | pattern => False

/-- The second literal is the first one with another inside of the same size. -/
def LiteralKind.Refills (kind : LiteralKind) (lit lit' : List Char) : Prop :=
  ∃ inside inside', lit = kind.head ++ (inside ++ kind.tail) ∧ lit' = kind.head ++ (inside' ++ kind.tail) ∧
    byteSize inside' = byteSize inside ∧ kind.Holds inside'

theorem endsQuote_of_holds (h : (LiteralKind.quoted quote).Holds inside) : EndsQuote quote (inside ++ [quote]) := by
  induction inside with
  | nil => exact .quote
  | cons c inside ih =>
    obtain ⟨⟨hne, he, hb⟩, h⟩ := forall_mem_cons.1 h
    exact .cons he (by simpa using hb) hne (ih h)

theorem endsComment_of_holds (h : LiteralKind.blockComment.Holds inside) : EndsComment (inside ++ ['*', '/']) := by
  induction inside with
  | nil => exact .close
  | cons c inside ih =>
    refine .cons c ?_ (ih fun hi => h (hi.trans (suffix_cons c inside).isInfix))
    rintro rfl hd
    cases inside with
    | nil => cases hd
    | cons d inside =>
      cases hd
      exact h ⟨[], inside, rfl⟩

theorem LiteralKind.Refills.byteSize_eq (h : kind.Refills lit lit') : byteSize lit' = byteSize lit := by
  obtain ⟨inside, inside', rfl, rfl, hi, -⟩ := h
  rw [byteSize_append, byteSize_append, byteSize_append, byteSize_append, hi]

/-- A literal with another inside is read in every context where it stands. -/
theorem LiteralKind.Takes.refill (h : kind.Takes ctx c (lit ++ back) lit.length) (hf : kind.Refills (c :: lit) lit') :
    ∃ new, lit' = c :: new ∧ ∀ dtx, kind.Takes dtx c (new ++ back) new.length := by
  have hm := h.meets (c :: lit)
  obtain ⟨inside, inside', hl, rfl, -, hh⟩ := hf
  cases kind with
  | quoted quote =>
    obtain ⟨rfl, hq, -⟩ := h
    refine ⟨inside' ++ [c], rfl, fun dtx => ⟨rfl, hq, ?_⟩⟩
    exact (quotedLength_append_iff hq).2 (endsQuote_of_holds hh)
  | lineComment =>
    obtain ⟨rfl, -, -⟩ := h
    refine ⟨'/' :: (inside' ++ []), rfl, fun dtx => ⟨rfl, rfl, ?_⟩⟩
    rw [append_nil, takeWhile_append_of_pos, takeWhile_eq_nil.2 hm, append_nil]
    rintro d hd
    rcases mem_cons.1 hd with rfl | hd
    · decide
    · exact bne_iff_ne.2 fun hb => hh (hb ▸ hd)
  | blockComment =>
    obtain ⟨rfl, -, -⟩ := h
    refine ⟨'*' :: (inside' ++ ['*', '/']), rfl, fun dtx => ⟨rfl, rfl, ?_⟩⟩
    rw [cons_append, drop_one, tail_cons, commentLength_append_iff.2 (endsComment_of_holds hh)]
    rfl
  | pattern => cases hh

theorem Piece.IsRead.refill (h : (literal kind lit).IsRead) (hf : kind.Refills lit lit') : (literal kind lit').IsRead := by
  obtain ⟨ctx, c, lit, back, rfl, ht⟩ := h
  obtain ⟨new, rfl, hn⟩ := ht.refill hf
  exact ⟨ctx, c, new, back, rfl, hn ctx⟩

theorem LiteralKind.Refills.getLast?_eq (h : kind.Refills lit lit') (hk : kind ≠ .lineComment) :
    lit'.getLast? = lit.getLast? := by
  obtain ⟨inside, inside', rfl, rfl, -, hh⟩ := h
  cases kind with
  | quoted | blockComment => simp [tail]
  | lineComment => exact absurd rfl hk
  | pattern => cases hh

/-! ### Scans -/

theorem Alike.refill (h : Alike (c :: lit ++ rest) (c :: new ++ rest) ctx dtx)
    (hb : kind.Begins c cs) : Alike rest rest (ctx.afterLiteral kind) (dtx.afterLiteral kind) := by
  cases kind with
  | quoted | pattern => exact alike_afterLiteral ctx dtx hb (by simp) rest rest
  | lineComment | blockComment =>
    obtain ⟨rfl, -⟩ := hb
    exact h.skip (by decide) (by decide) fun _ _ => rfl

/-- **Other insides.** With another inside of a literal a text is scanned as before exactly if no
pattern ends now that an open slash before the literal could begin. -/
theorem Passes.refill_iff (h : Passes false [] ctx (before ++ .literal kind lit :: after) ctx')
    (hc : ctx.IsOpen) (hf : kind.Refills lit lit') : Scans ctx (before ++ .literal kind lit' :: after) ↔
      ∀ rest, OpenSlash (lit ++ after.flatMap Piece.chars) ctx before rest →
        patternLength false (rest.flatMap Piece.chars ++ (lit' ++ after.flatMap Piece.chars)) = none := by
  obtain ⟨mid, hb, hl⟩ := h.split (by rintro c - - ⟨⟩)
  cases hl with
  | @literal _ _ _ c lit _ ho ha =>
    rw [append_nil] at hb ho
    obtain ⟨new, rfl, ht⟩ := (opening_eq_literal ho).refill hf
    have hi : (∃ mid', Passes false ((Piece.literal kind (c :: new) :: after).flatMap Piece.chars) ctx before mid') ↔ _ :=
      hb.resume_iff (hc.alike hc _ _) (.inl rfl)
    refine Iff.trans ⟨fun hsc => ?_, ?_⟩ hi
    · obtain ⟨mid', hp, -⟩ := hsc.exists_passes (by rintro c - - ⟨⟩)
      exact ⟨mid', hp⟩
    · rintro ⟨mid', hp⟩
      have hal : Alike (after.flatMap Piece.chars ++ []) (after.flatMap Piece.chars ++ []) (mid.afterLiteral kind)
          (mid'.afterLiteral kind) := by
        rw [append_nil]
        exact (hb.alike hp (hc.alike hc _ _)).refill (begins_of_opening ho)
      exact hp.scans_append (.literal (ht mid').opening_eq (ha.restart hal))

/-! ### Searches -/

/-- Glyphs with the same code at the same offsets, and literals of the same size between them that
begin with the same character and do not differ in whether they end with a part of a word, before a
line break apart. -/
inductive SameCode : List Glyph → List Glyph → Prop where
  | nil : SameCode [] []
  | code {gs hs : List Glyph} (c : Char) (offset : Nat) (h : SameCode gs hs) :
      SameCode (⟨c, offset, none⟩ :: gs) (⟨c, offset, none⟩ :: hs)
  | literal {gs hs : List Glyph} {c : Char} {lit lit' : List Char} (stop offset : Nat) (hc : isLiteralStart c = true)
      (hsize : byteSize (c :: lit') = byteSize (c :: lit)) (hends : (∀ g ∈ gs.head?, g.char = '\n') ∨
        (c :: lit').getLast?.any isWordPart = (c :: lit).getLast?.any isWordPart) (h : SameCode gs hs) :
      SameCode (coveredGlyphs stop offset (c :: lit) ++ gs) (coveredGlyphs stop offset (c :: lit') ++ hs)

namespace SameCode

variable {gs hs : List Glyph} {needle : List Char} {o : Nat}

theorem startsWith_eq (h : SameCode gs hs) (hn : ∀ c ∈ needle, isLiteralStart c = false) :
    startsWith needle gs = startsWith needle hs ∧
      (startsWith needle gs → SameCode (gs.drop needle.length) (hs.drop needle.length)) := by
  induction needle generalizing gs hs with
  | nil => exact ⟨rfl, fun _ => h⟩
  | cons c needle ih =>
    rw [forall_mem_cons] at hn
    cases h with
    | nil => exact ⟨rfl, by simp [startsWith]⟩
    | code d o h =>
      obtain ⟨ha, hr⟩ := ih h hn.2
      rw [startsWith, ha]
      exact ⟨rfl, fun h => hr (ha ▸ (Bool.and_eq_true_iff.1 h).2)⟩
    | @literal _ _ d _ _ stop o hd hi he h =>
      have hne : c ≠ d := fun heq => absurd (heq ▸ hn.1) (by simp [hd])
      simp [coveredGlyphs, startsWith, hne]

theorem head_isBlank (h : SameCode gs hs) : (gs.head?.any fun g => isBlank g.char) = hs.head?.any fun g => isBlank g.char := by
  cases h <;> rfl

theorem findGlyphs (h : SameCode gs hs) (hn : ∀ c ∈ needle, isLiteralStart c = false) :
    Option.Rel SameCode (findGlyphs needle gs) (findGlyphs needle hs) := by
  induction h with
  | nil =>
    unfold Pagewright.findGlyphs
    split_ifs
    · exact .some .nil
    · exact .none
  | @code gs hs c o h ih =>
    rw [Pagewright.findGlyphs, Pagewright.findGlyphs, ((SameCode.code c o h).startsWith_eq hn).1]
    split_ifs
    · exact .some (.code c o h)
    · exact ih
  | literal stop o hc hi he h ih =>
    rw [findGlyphs_coveredGlyphs, findGlyphs_coveredGlyphs]
    exact ih

theorem findKeyword_coveredGlyphs (before : Option Char) (stop o : Nat) (c : Char) (lit : List Char) (gs : List Glyph) :
    findKeyword needle before (coveredGlyphs stop o (c :: lit) ++ gs) = findKeyword needle (c :: lit).getLast? gs := by
  induction lit generalizing before o c with
  | nil => simp [coveredGlyphs, findKeyword]
  | cons d lit ih =>
    rw [coveredGlyphs, cons_append, findKeyword, ih]
    simp

theorem findKeyword (h : SameCode gs hs) (hn : ∀ c ∈ needle, isLiteralStart c = false ∧ c ≠ '\n') (hne : needle ≠ [])
    {before pre' : Option Char} (hb : (∀ g ∈ gs.head?, g.char = '\n') ∨ pre'.any isWordPart = before.any isWordPart) :
    Option.Rel SameCode (findKeyword needle before gs) (findKeyword needle pre' hs) := by
  induction h generalizing before pre' with
  | nil => exact .none
  | @code gs hs c o h ih =>
    obtain ⟨ha, hr⟩ := (SameCode.code c o h).startsWith_eq fun d hd => (hn d hd).1
    rw [Pagewright.findKeyword, Pagewright.findKeyword, ← ha]
    cases ht : startsWith needle (⟨c, o, none⟩ :: gs) with
    | false => simpa using ih (.inr rfl)
    | true =>
      have hc : c ≠ '\n' := by
        obtain ⟨d, needle, rfl⟩ := exists_cons_of_ne_nil hne
        rw [startsWith, Bool.and_eq_true, decide_eq_true_eq] at ht
        obtain rfl : d = c := ht.1
        exact (hn d mem_cons_self).2
      rw [(hr ht).head_isBlank, hb.resolve_left (by simpa using hc)]
      split_ifs
      · exact .some (.code c o h)
      · exact ih (.inr rfl)
  | literal stop o hc hi he h ih =>
    rw [findKeyword_coveredGlyphs, findKeyword_coveredGlyphs]
    exact ih he

theorem splitGroup (h : SameCode gs hs) (opener closer : Char) (d : Nat) :
    Option.Rel (fun cut cut' => SameCode cut.2 cut'.2) (splitGroup opener closer d gs) (splitGroup opener closer d hs) := by
  have onward {cut cut' : Option (List Glyph × List Glyph)} (h : Option.Rel (fun cut cut' => SameCode cut.2 cut'.2) cut cut')
      (front front' : List Glyph) : Option.Rel (fun cut cut' => SameCode cut.2 cut'.2)
        (cut.map fun cut => (front ++ cut.1, cut.2)) (cut'.map fun cut => (front' ++ cut.1, cut.2)) := by
    cases h with
    | none => exact .none
    | some h => exact .some h
  induction h generalizing d with
  | nil => exact .none
  | code c o h ih =>
    rw [Pagewright.splitGroup, Pagewright.splitGroup]
    split_ifs
    · exact onward (ih d) [_] [_]
    · exact onward (ih (d + 1)) [_] [_]
    · exact .none
    · exact .some h
    · exact onward (ih (d - 1)) [_] [_]
    · exact onward (ih d) [_] [_]
  | literal stop o hc hi he h ih =>
    rw [splitGroup_coveredGlyphs, splitGroup_coveredGlyphs]
    exact onward (ih d) _ _

theorem splitAtBreaks_ne_nil (gs : List Glyph) : splitAtBreaks gs ≠ [] := by
  cases gs with
  | nil => simp [splitAtBreaks]
  | cons g gs =>
    rw [splitAtBreaks]
    split_ifs
    · simp
    · split <;> simp

theorem exists_splitAtBreaks_cons {g : Glyph} (h : (g.cover.isNone && g.char = '\n') = false) (gs : List Glyph) :
    ∃ line lines, splitAtBreaks gs = line :: lines ∧ splitAtBreaks (g :: gs) = (g.char :: line) :: lines := by
  obtain ⟨line, lines, hl⟩ := exists_cons_of_ne_nil (splitAtBreaks_ne_nil gs)
  exact ⟨line, lines, hl, by simp [splitAtBreaks, h, hl]⟩

theorem map_byteSize_splitAtBreaks_cons {g : Glyph} (h : (g.cover.isNone && g.char = '\n') = false) (gs : List Glyph) :
    (splitAtBreaks (g :: gs)).map byteSize = ((splitAtBreaks gs).map byteSize).modifyHead (g.char.utf8Size + ·) := by
  obtain ⟨line, lines, hl, hc⟩ := exists_splitAtBreaks_cons h gs
  rw [hl, hc]
  rfl

theorem map_byteSize_splitAtBreaks_coveredGlyphs (stop o : Nat) (text : List Char) (gs : List Glyph) :
    (splitAtBreaks (coveredGlyphs stop o text ++ gs)).map byteSize = ((splitAtBreaks gs).map byteSize).modifyHead (byteSize text + ·) := by
  induction text generalizing o with
  | nil =>
    rw [coveredGlyphs, nil_append]
    cases (splitAtBreaks gs).map byteSize with
    | nil => rfl
    | cons size sizes => rw [modifyHead_cons, byteSize, Nat.zero_add]
  | cons c text ih =>
    rw [coveredGlyphs, cons_append, map_byteSize_splitAtBreaks_cons rfl, ih]
    simp [Function.comp_def, byteSize, Nat.add_assoc]

theorem splitAtBreaks (h : SameCode gs hs) : (splitAtBreaks hs).map byteSize = (splitAtBreaks gs).map byteSize := by
  induction h with
  | nil => rfl
  | @code gs hs c o h ih =>
    by_cases hb : c = '\n'
    · simp [Pagewright.splitAtBreaks, hb, ih]
    · rw [map_byteSize_splitAtBreaks_cons (by simpa using hb), map_byteSize_splitAtBreaks_cons (by simpa using hb), ih]
  | literal stop o hc hi he h ih =>
    rw [map_byteSize_splitAtBreaks_coveredGlyphs, map_byteSize_splitAtBreaks_coveredGlyphs, ih, hi]

variable {s u : Source}

theorem offsetOf_eq (h : SameCode gs hs) (hi : u.size = s.size) : u.offsetOf hs = s.offsetOf gs := by
  cases h with
  | nil => exact hi
  | code | literal => rfl

theorem bind_eq {α β : Type} {R : α → α → Prop} {a b : Option α} (h : Option.Rel R a b)
    {f g : α → Option β} (hf : ∀ x y, a = some x → R x y → g y = f x) : b.bind g = a.bind f := by
  cases h with
  | none => rfl
  | some h => exact hf _ _ rfl h

theorem toOption_classBlocksFrom (s : Source) (gs : List Glyph) : (s.classBlocksFrom gs).toOption =
    (Pagewright.findKeyword "class".toList none gs).elim (some []) fun keyword => (Pagewright.findGlyphs ['{'] gs).bind fun brace =>
      if s.offsetOf brace < s.offsetOf keyword then
        (Pagewright.splitGroup '{' '}' 0 brace).bind fun cut => (s.classBlocksFrom cut.2).toOption
      else (Pagewright.findGlyphs ['{'] keyword).bind fun body => (Pagewright.splitGroup '{' '}' 0 body).bind fun cut =>
        (s.classBlocksFrom cut.2).toOption.map (⟨s.offsetOf keyword, s.offsetOf cut.2⟩ :: ·) := by
  have hsk (gs : List Glyph) (f : List Glyph → Except CompileError (List Span)) :
      (s.skipBraces gs >>= fun rest => f rest.1).toOption = (Pagewright.splitGroup '{' '}' 0 gs).bind fun cut => (f cut.2).toOption := by
    unfold Source.skipBraces
    split
    · next rest hp =>
      change (f rest).toOption = _
      rw [hp]
      rfl
    · next hp =>
      rw [hp]
      rfl
  rw [Source.classBlocksFrom]
  split
  · next hk =>
    rw [hk]
    rfl
  · next keyword hk =>
    rw [hk, Option.elim_some]
    dsimp only
    split
    · next hb =>
      rw [hb]
      rfl
    · next brace hb =>
      rw [hb, Option.bind_some]
      split_ifs
      · exact hsk brace s.classBlocksFrom
      · split
        · next ho =>
          rw [ho]
          rfl
        · next body ho =>
          rw [ho, Option.bind_some]
          refine (hsk body fun rest => s.classBlocksFrom rest >>= fun blocks => pure (⟨_, s.offsetOf rest⟩ :: blocks)).trans ?_
          congr 1
          funext cut
          cases s.classBlocksFrom cut.2 <;> rfl

theorem classBlocksFrom {gs hs : List Glyph} (h : SameCode gs hs) (hi : u.size = s.size) :
    (u.classBlocksFrom hs).toOption = (s.classBlocksFrom gs).toOption := by
  have hw : ∀ c ∈ "class".toList, isLiteralStart c = false ∧ c ≠ '\n' := fun c hc => by
    simpa using all_eq_true.1 (show "class".toList.all (fun c => !isLiteralStart c && c != '\n') by decide) c hc
  have hb : ∀ c ∈ ['{'], isLiteralStart c = false := forall_mem_singleton.2 rfl
  have hk : Option.Rel SameCode (Pagewright.findKeyword "class".toList none gs)
      (Pagewright.findKeyword "class".toList none hs) := h.findKeyword hw (by decide) (.inr rfl)
  rw [toOption_classBlocksFrom, toOption_classBlocksFrom]
  generalize hf : Pagewright.findKeyword "class".toList none gs = keyword? at hk
  generalize Pagewright.findKeyword "class".toList none hs = keyword'? at hk
  cases hk with
  | none => rfl
  | some hk =>
    refine bind_eq (h.findGlyphs hb) fun brace brace' ho hbr => ?_
    rw [hk.offsetOf_eq hi, hbr.offsetOf_eq hi]
    split_ifs
    · refine bind_eq (hbr.splitGroup '{' '}' 0) fun cut cut' hu hr => ?_
      have hlt := Nat.lt_of_lt_of_le (splitGroup_length hu) (findGlyphs_length_le ho)
      exact classBlocksFrom hr hi
    · refine bind_eq (hk.findGlyphs hb) fun body body' ho hbo => ?_
      refine bind_eq (hbo.splitGroup '{' '}' 0) fun cut cut' hu hr => ?_
      have hlt := Nat.lt_of_lt_of_le (splitGroup_length hu)
        (Nat.le_trans (findGlyphs_length_le ho) (findKeyword_length_le hf))
      rw [hr.offsetOf_eq hi, classBlocksFrom hr hi]
termination_by gs.length

theorem matchBracket (h : SameCode (s.glyphsFrom o) (u.glyphsFrom o)) (hi : u.size = s.size) : ∃ found : Except ParseFault Nat,
      s.matchBracket o = found.mapError (s.error o) ∧ u.matchBracket o = found.mapError (u.error o) := by
  unfold Source.matchBracket
  generalize s.glyphsFrom o = gs at h
  generalize u.glyphsFrom o = hs at h
  cases h with
  | nil => exact ⟨.error .notABracket, rfl, rfl⟩
  | code c start h =>
    dsimp only
    split
    · exact ⟨.error .notABracket, rfl, rfl⟩
    · next closer _ =>
      have hg := (SameCode.code c start h).splitGroup c closer 0
      generalize Pagewright.splitGroup c closer 0 (⟨c, start, none⟩ :: _) = cut at hg
      generalize Pagewright.splitGroup c closer 0 (⟨c, start, none⟩ :: _) = cut' at hg
      cases hg with
      | none => exact ⟨.error (.unbalanced c), rfl, rfl⟩
      | some hr => exact ⟨.ok _, rfl, congrArg Except.ok (hr.offsetOf_eq hi)⟩
  | @literal _ _ c _ _ stop start hc hl he h =>
    have hn : closer? c = none := by
      rcases isLiteralStart_cases hc with rfl | rfl | rfl | rfl <;> rfl
    simp only [coveredGlyphs, cons_append, hn, ite_self]
    exact ⟨.error .notABracket, rfl, rfl⟩

theorem cons {p : Piece} (hp : p.IsRead)
    (h : SameCode (glyphsOf (o + byteSize p.chars) ps) (glyphsOf (o + byteSize p.chars) qs)) :
    SameCode (glyphsOf o (p :: ps)) (glyphsOf o (p :: qs)) := by
  cases p with
  | code c => exact .code c o h
  | literal kind text =>
    obtain ⟨_, c, lit, _, rfl, ht⟩ := hp
    refine .literal _ o ?_ rfl (.inr rfl) h
    rcases ht.quote_or_slash with (rfl | rfl | rfl) | rfl <;> rfl

theorem refl (hr : ∀ p ∈ ps, p.IsRead) (o : Nat) : SameCode (glyphsOf o ps) (glyphsOf o ps) := by
  induction ps generalizing o with
  | nil => exact .nil
  | cons p ps ih =>
    rw [forall_mem_cons] at hr
    exact .cons hr.1 (ih hr.2 _)

theorem refill (hr : ∀ p ∈ before ++ .literal kind lit :: after, p.IsRead)
    (he : LiteralsEnd [] (before ++ .literal kind lit :: after)) (hf : kind.Refills lit lit') (o : Nat) :
    SameCode (glyphsOf o (before ++ .literal kind lit :: after)) (glyphsOf o (before ++ .literal kind lit' :: after)) := by
  induction before generalizing o with
  | cons p before ih =>
    rw [cons_append, forall_mem_cons] at hr
    exact .cons hr.1 (ih hr.2 he.2 _)
  | nil =>
    rw [nil_append, forall_mem_cons] at hr
    obtain ⟨⟨_, c, lit, _, rfl, ht⟩, hr⟩ := hr
    have hi := hf.byteSize_eq
    obtain ⟨new, rfl, -⟩ := ht.refill hf
    rw [nil_append, nil_append, glyphsOf, glyphsOf, hi]
    refine .literal _ o ?_ hi ?_ (.refl hr _)
    · rcases ht.quote_or_slash with (rfl | rfl | rfl) | rfl <;> rfl
    · by_cases hk : kind = .lineComment
      · subst hk
        refine .inl fun g hg => ?_
        replace he := he.1
        rw [append_nil, ← glyphText_glyphsOf (o + byteSize (c :: lit)), glyphText, head?_map, Option.mem_def.1 hg] at he
        simpa using he g.char rfl
      · rw [hf.getLast?_eq hk]
        exact .inr rfl

end SameCode

namespace Source

variable {s u : Source} {text : List Char}

theorem sameCode_glyphsFrom (h : ofText text = .ok s) (hp : s.pieces = before ++ .literal kind lit :: after)
    (hu : u.pieces = before ++ .literal kind lit' :: after) (hf : kind.Refills lit lit')
    (ht : text = front ++ c :: back) (hc : s.isCovered (byteSize front) = false) :
    SameCode (s.glyphsFrom (byteSize front)) (u.glyphsFrom (byteSize front)) := by
  obtain ⟨front, after', rfl, ho⟩ := beginsCode_of_uncovered h ht hc
  change SameCode (s.glyphsFrom (piecesSize front)) (u.glyphsFrom (piecesSize front))
  rw [glyphsFrom_of_pieces ho.pieces_eq]
  obtain ⟨_, ha⟩ := scans_of_piecesFrom (pieces_ofText h)
  rw [hp] at ha
  have hr := ha.isRead
  rcases append_eq_append_iff.1 (hp.symm.trans ho.pieces_eq) with ⟨mid, rfl, hm⟩ | ⟨mid, rfl, hm⟩
  · -- The literal stands before the character.
    cases mid with
    | nil => cases hm
    | cons p mid =>
      obtain ⟨rfl, rfl⟩ := cons.inj hm
      have hi : piecesSize (before ++ .literal kind lit :: mid) = piecesSize (before ++ .literal kind lit' :: mid) := by
        simp [hf.byteSize_eq]
      replace hu : u.pieces = before ++ .literal kind lit' :: mid ++ .code c :: after' := by
        rw [hu, append_assoc]
        rfl
      rw [hi, glyphsFrom_of_pieces hu]
      exact .refl (fun q hq => hr q (by simp [mem_cons.1 hq])) _
  · -- It stands behind it.
    cases mid with
    | nil => cases hm
    | cons p mid =>
      obtain ⟨rfl, rfl⟩ := cons.inj hm
      rw [append_assoc] at hu
      rw [glyphsFrom_of_pieces hu]
      rw [append_assoc] at hr
      rw [append_assoc] at ha
      exact .refill (fun q hq => hr q (mem_append_right front hq)) (literalsEnd_append.1 ha.literalsEnd).2 hf _

/-- **Insides of literals.** With another inside of a literal, as large as before, the ranges of all
literals stay the same exactly if no pattern ends now that an open slash before the literal could
begin. Then the ranges of the classes, the matches of brackets outside the literals and the places
where lines are divided stay the same, too. -/
theorem spans_refill_iff (h : ofText text = .ok s) (hp : s.pieces = before ++ .literal kind lit :: after)
    (hf : kind.Refills lit lit') {text' : List Char}
    (ht' : text' = before.flatMap Piece.chars ++ (lit' ++ after.flatMap Piece.chars)) :
    ((∃ u, ofText text' = .ok u ∧ u.spans = s.spans) ↔
      ∀ rest, OpenSlash (lit ++ after.flatMap Piece.chars) {} before rest →
        patternLength false (rest.flatMap Piece.chars ++ (lit' ++ after.flatMap Piece.chars)) = none) ∧
    ∀ u, ofText text' = .ok u → u.spans = s.spans →
      u.classBlocks.toOption = s.classBlocks.toOption ∧
      (∀ front c back, text = front ++ c :: back → s.isCovered (byteSize front) = false →
        ∃ found : Except ParseFault Nat, s.matchBracket (byteSize front) = found.mapError (s.error (byteSize front)) ∧
          u.matchBracket (byteSize front) = found.mapError (u.error (byteSize front))) ∧
      (splitAtBreaks u.glyphs).map byteSize = (splitAtBreaks s.glyphs).map byteSize := by
  obtain ⟨_, ha⟩ := scans_of_piecesFrom (pieces_ofText h)
  rw [hp] at ha
  have hi := hf.byteSize_eq
  have hn : spansOf 0 (before ++ .literal kind lit' :: after) = s.spans := by
    rw [spans, hp, spansOf_append, spansOf_append, spansOf, spansOf, hi]
  have hc : (before ++ .literal kind lit' :: after).flatMap Piece.chars = text' := by
    rw [ht', flatMap_append]
    rfl
  have hr : ∀ p ∈ before ++ .literal kind lit' :: after, p.IsRead := by
    have hr := ha.isRead
    rw [forall_mem_append, forall_mem_cons] at hr ⊢
    exact ⟨hr.1, hr.2.1.refill hf, hr.2.2⟩
  have hm (u : Source) (hu : ofText text' = .ok u) (heq : u.spans = s.spans) :
      u.pieces = before ++ .literal kind lit' :: after := by
    refine eq_of_spans (isRead hu) hr ?_ (heq.trans hn.symm)
    rw [hc, u.chars_pieces, text_ofText hu]
  refine ⟨Iff.trans ⟨?_, fun hsc => ?_⟩ (ha.refill_iff isOpen_start hf), fun u hu heq => ?_⟩
  · rintro ⟨u, hu, heq⟩
    exact hm u hu heq ▸ scans_of_piecesFrom (pieces_ofText hu)
  · have hp' := hsc.piecesFrom_eq 0
    rw [hc] at hp'
    exact ⟨_, ofText_of_pieces hp', hn⟩
  · have hu' := hm u hu heq
    have ho : SameCode s.glyphs u.glyphs := by
      rw [glyphs, glyphs, hp, hu']
      exact .refill ha.isRead ha.literalsEnd hf 0
    have hz : u.size = s.size := by
      rw [size, size, ← u.chars_pieces, ← s.chars_pieces, hp, hu']
      simp [byteSize_append, Piece.chars, hi]
    exact ⟨ho.classBlocksFrom hz, fun front c back ht hv =>
      (sameCode_glyphsFrom h hp hu' hf ht hv).matchBracket hz, ho.splitAtBreaks⟩

/-- In `/'['()` the slash begins no pattern. The string may hold the other bracket, and the group
behind it is found as before. -/
theorem spans_refill_bracket : ∃ s u, ofText ['/', '\'', '[', '\'', '(', ')'] = .ok s ∧
    ofText ['/', '\'', '(', '\'', '(', ')'] = .ok u ∧ u.spans = s.spans ∧
      ∃ found : Except ParseFault Nat, s.matchBracket 4 = found.mapError (s.error 4) ∧
        u.matchBracket 4 = found.mapError (u.error 4) := by
  have hp : Pagewright.pieces ['/', '\'', '[', '\'', '(', ')'] =
      .ok [.code '/', .literal (.quoted '\'') ['\'', '[', '\''], .code '(', .code ')'] := by decide +kernel
  have ho := ofText_of_pieces hp
  have hf : (LiteralKind.quoted '\'').Refills ['\'', '[', '\''] ['\'', '(', '\''] :=
    ⟨['['], ['('], rfl, rfl, rfl, forall_mem_singleton.2 (by decide)⟩
  obtain ⟨ha, hm⟩ := spans_refill_iff ho (show _ = [.code '/'] ++ _ from rfl) hf rfl
  obtain ⟨u, hu, heq⟩ := ha.2 fun rest hr => by
    cases hr with
    | here => decide
    | code _ hr => cases hr
  have hc := isCovered_of_code (s := ⟨_, _, pieces_chars hp⟩)
    (show _ = [Piece.code '/', _] ++ _ from rfl)
  exact ⟨_, u, ho, hu, heq, (hm u hu heq).2.1 ['/', '\'', '[', '\''] '(' [')'] rfl hc⟩

/-- In `/'['/` the slash begins no pattern, but it does with another character in the string. -/
theorem spans_not_refilled : ∃ s u, ofText ['/', '\'', '[', '\'', '/'] = .ok s ∧ s.spans = [⟨1, 4⟩] ∧
    ofText ['/', '\'', 'a', '\'', '/'] = .ok u ∧ u.spans = [⟨0, 5⟩] ∧
      (LiteralKind.quoted '\'').Refills ['\'', '[', '\''] ['\'', 'a', '\''] := by
  have hp : Pagewright.pieces ['/', '\'', '[', '\'', '/'] =
      .ok [.code '/', .literal (.quoted '\'') ['\'', '[', '\''], .code '/'] := by decide +kernel
  have hp' : Pagewright.pieces ['/', '\'', 'a', '\'', '/'] =
      .ok [.literal .pattern ['/', '\'', 'a', '\'', '/']] := by decide +kernel
  exact ⟨_, _, ofText_of_pieces hp, rfl, ofText_of_pieces hp', rfl,
    ['['], ['a'], rfl, rfl, rfl, forall_mem_singleton.2 (by decide)⟩

end Source

end Pagewright
