import Pagewright.Proofs.Crossings
import Pagewright.Proofs.Directives

/-!
# Texts put together

Texts that were scanned by themselves are put together, as lists of pieces (`parts`). At a seam,
what ends one of them can run on into the next: a comment up to the end of its line, or the flags of
a pattern. And a slash may be read otherwise, since that depends on what stands before it. Nothing
else can go wrong: the pieces of the whole are those of the parts exactly if the literals at the
seams end there (`SeamsEnd`) and every slash is in a literal of the whole if and only if it is in
one of its part (`scansAs_iff`). Both are so where every part but the last ends a statement and a
line (`scans_flatten`). -/

namespace Pagewright

open List
open Piece (chars)

variable {ctx : ScanContext} {start n : Nat} {p : Piece} {ps qs part : List Piece} {behind own lit' : List Char}
  {parts : List (List Piece)} {kind : LiteralKind} {c : Char} {rest lit back back' cs text word needle : List Char}
  {ctx' dtx : ScanContext} {kind' : LiteralKind} {strict : Bool}

/-! ### Pieces of scans -/

/-- The piece, if it is a literal, ends where `next?` follows it. -/
def Piece.Ends (next? : Option Char) : Piece → Prop
  | code _ => True
  | literal kind text => (literal kind text).Meets next?

/-- All literals among the pieces end where they end, with `behind` to follow. -/
def LiteralsEnd (behind : List Char) : List Piece → Prop
  | [] => True
  | p :: ps => p.Ends (ps.flatMap Piece.chars ++ behind).head? ∧ LiteralsEnd behind ps

theorem Source.isRead {s : Source} (h : Source.ofText text = .ok s) : ∀ p ∈ s.pieces, p.IsRead :=
  (scans_of_piecesFrom (Source.pieces_ofText h)).choose_spec.isRead

theorem Passes.literalsEnd (h : Passes strict behind ctx ps ctx') : LiteralsEnd behind ps := by
  induction h with
  | nil => trivial
  | literal ho _ ih => exact ⟨(opening_eq_literal ho).meets _, ih⟩
  | doubled _ _ ih => exact ⟨trivial, trivial, ih⟩
  | code _ _ _ ih => exact ⟨trivial, ih⟩

theorem Piece.IsRead.chars_ne_nil (h : p.IsRead) : p.chars ≠ [] := by
  cases p with
  | code c => exact cons_ne_nil c []
  | literal kind text =>
    obtain ⟨_, c, lit, _, rfl, -⟩ := h
    exact cons_ne_nil c lit

theorem literalsEnd_append : LiteralsEnd behind (ps ++ qs) ↔
    LiteralsEnd (qs.flatMap chars ++ behind) ps ∧ LiteralsEnd behind qs := by
  induction ps with
  | nil => exact (iff_of_eq (true_and _)).symm
  | cons p ps ih => rw [cons_append, LiteralsEnd, LiteralsEnd, ih, flatMap_append, append_assoc, and_assoc]

theorem literalsEnd_iff_last (hr : ∀ p ∈ ps, p.IsRead) (h : LiteralsEnd own ps) :
    LiteralsEnd behind ps ↔ ∀ p ∈ ps.getLast?, p.Ends behind.head? := by
  induction ps with
  | nil => exact ⟨fun _ => nofun, fun _ => trivial⟩
  | cons p ps ih =>
    rw [forall_mem_cons] at hr
    cases ps with
    | nil => simp [LiteralsEnd]
    | cons q ps =>
      obtain ⟨c, cs, hq⟩ := exists_cons_of_ne_nil (hr.2 q mem_cons_self).chars_ne_nil
      have hh (back : List Char) : ((q :: ps).flatMap chars ++ back).head? = some c := by
        rw [flatMap_cons, hq]
        rfl
      have hf := h.1
      rw [hh] at hf
      rw [LiteralsEnd, hh, ih hr.2 h.2]
      exact and_iff_right hf

theorem isRead_of_mem_flatten (h : ∀ part ∈ parts, ∀ p ∈ part, p.IsRead) (hp : p ∈ parts.flatten) : p.IsRead := by
  obtain ⟨part, ha, hp⟩ := mem_flatten.1 hp
  exact h part ha p hp

/-! ### Seams -/

/-- The literals at the ends of the parts end there. -/
def SeamsEnd (parts : List (List Piece)) : Prop :=
  ∀ before part after, parts = before ++ part :: after →
    ∀ p ∈ part.getLast?, p.Ends (after.flatten.flatMap chars).head?

theorem seamsEnd_cons : SeamsEnd (part :: parts) ↔
    (∀ p ∈ part.getLast?, p.Ends (parts.flatten.flatMap chars).head?) ∧ SeamsEnd parts := by
  constructor
  · intro h
    exact ⟨h [] part parts rfl, fun pre part' post hp => h (part :: pre) part' post (by rw [hp]; rfl)⟩
  · rintro ⟨hf, hr⟩ pre part' post hp
    cases pre with
    | nil =>
      obtain ⟨rfl, rfl⟩ := cons.inj hp
      exact hf
    | cons first pre => exact hr pre part' post (cons.inj hp).2

theorem literalsEnd_flatten (hr : ∀ part ∈ parts, ∀ p ∈ part, p.IsRead)
    (ho : ∀ part ∈ parts, ∃ own, LiteralsEnd own part) : LiteralsEnd [] parts.flatten ↔ SeamsEnd parts := by
  induction parts with
  | nil => exact ⟨fun _ pre part post h => by simp at h, fun _ => trivial⟩
  | cons part parts ih =>
    rw [forall_mem_cons] at hr ho
    obtain ⟨own, hp⟩ := ho.1
    rw [flatten_cons, literalsEnd_append, seamsEnd_cons, ih hr.2 ho.2, append_nil, literalsEnd_iff_last hr.1 hp]

/-! ### The same text twice -/

theorem covers_cons_literal : Covers start (.literal kind (c :: lit) :: ps) start := by
  refine ⟨⟨start, start + byteSize (c :: lit)⟩, mem_cons_self, Nat.le_refl _, ?_⟩
  have hp := byteSize_pos (cons_ne_nil c lit)
  dsimp only
  omega

theorem LiteralKind.Begins.unique (h : kind.Begins c rest) (h' : kind'.Begins c rest) : kind = kind' := by
  cases kind <;> cases kind' <;> simp_all [LiteralKind.Begins]

theorem LiteralKind.Takes.kind_eq
    (h : kind.Takes ctx c rest n) (h' : kind'.Takes dtx c (lit ++ own) lit.length) (ht : rest = lit ++ back) : kind = kind' := by
  have hb := begins_of_opening h.opening_eq
  have hb' := begins_of_opening h'.opening_eq
  have hh : (lit ++ back).head? = (lit ++ own).head? := by
    cases lit with
    | nil => exact absurd (opening_literal_pos h'.opening_eq) (Nat.lt_irrefl 0)
    | cons d lit => rfl
  rw [ht] at hb
  refine hb.unique ?_
  cases kind' <;> simpa [LiteralKind.Begins, hh] using hb'

theorem LiteralKind.Takes.unique (h : kind.Takes ctx c (lit ++ rest) lit.length)
    (hl : (Piece.literal kind (c :: lit)).Meets back.head?)
    (h' : kind'.Takes dtx c (lit' ++ own) lit'.length) (hm : (Piece.literal kind' (c :: lit')).Meets back'.head?)
    (ht : lit ++ back = lit' ++ back') : kind = kind' ∧ lit = lit' ∧ back = back' := by
  replace h := h.resume (fun _ => rfl) hl
  obtain rfl := h.kind_eq h' ht
  have hp (hk : kind = .pattern) : dtx.allowsPattern = ctx.allowsPattern := by
    subst hk
    rw [h.2.2.2.1, h'.2.2.2.1]
  have hr := (h'.resume hp hm).opening_eq
  rw [← ht, h.opening_eq] at hr
  injection hr with _ hl
  exact ⟨rfl, append_inj ht hl⟩

/-- Every slash of a text is in a literal of both ways to cut it into pieces, or of none. -/
def SlashesAlike (start : Nat) (ps qs : List Piece) : Prop :=
  ∀ front back, ps.flatMap chars = front ++ '/' :: back →
    (Covers start ps (start + byteSize front) ↔ Covers start qs (start + byteSize front))

theorem SlashesAlike.tail (h : SlashesAlike start (p :: ps) (p :: qs)) : SlashesAlike (start + byteSize p.chars) ps qs := by
  intro front back hc
  have hs : piecesSize [p] = byteSize p.chars := piecesSize_cons p []
  have hb (rest : List Piece) : Covers start ([p] ++ rest) (start + byteSize p.chars + byteSize front) ↔
      Covers (start + byteSize p.chars) rest (start + byteSize p.chars + byteSize front) := by
    rw [covers_append, hs]
    refine or_iff_right fun hf => ?_
    have ho := hf.bounds.2
    omega
  have hl := h (p.chars ++ front) back (by rw [flatMap_cons, hc, append_assoc])
  rw [byteSize_append, ← Nat.add_assoc] at hl
  exact (hb ps).symm.trans (hl.trans (hb qs))

/-- Where a literal is read, it begins with a quote or a slash. -/
theorem LiteralKind.Takes.quote_or_slash (h : kind.Takes ctx c rest n) : (c = '\'' ∨ c = '"' ∨ c = '`') ∨ c = '/' := by
  cases kind with
  | quoted => exact .inl h.2.1
  | lineComment | blockComment | pattern => exact .inr h.1

theorem exists_cons_of_chars_eq (h : qs.flatMap Piece.chars = c :: cs) (hr : ∀ q ∈ qs, q.IsRead) :
    (∃ rest, qs = .code c :: rest ∧ rest.flatMap Piece.chars = cs) ∨
      ∃ kind lit rest ctx own, qs = .literal kind (c :: lit) :: rest ∧ lit ++ rest.flatMap Piece.chars = cs ∧
        kind.Takes ctx c (lit ++ own) lit.length := by
  cases qs with
  | nil => cases h
  | cons q rest =>
    cases q with
    | code d =>
      obtain ⟨rfl, rfl⟩ := cons.inj h
      exact .inl ⟨rest, rfl, rfl⟩
    | literal kind text =>
      obtain ⟨ctx, d, lit, own, rfl, ht⟩ := hr _ mem_cons_self
      obtain ⟨rfl, rfl⟩ := cons.inj h
      exact .inr ⟨kind, lit, rest, ctx, own, rfl, rfl, ht⟩

theorem eq_nil_of_chars (hr : ∀ q ∈ qs, q.IsRead) (h : qs.flatMap Piece.chars = []) : qs = [] := by
  cases qs with
  | nil => rfl
  | cons q qs => exact absurd (append_eq_nil_iff.1 h).1 (hr q mem_cons_self).chars_ne_nil

/-- **Slashes.** A text is cut into pieces in one way only, if the literals among the pieces were
read and end where they end, and every slash is in a literal of both or of none. -/
theorem eq_of_slashes (hp : ∀ p ∈ ps, p.IsRead) (hr : ∀ q ∈ qs, q.IsRead) (hl : LiteralsEnd [] ps) (he : LiteralsEnd [] qs)
    (hc : qs.flatMap Piece.chars = ps.flatMap Piece.chars) (hs : SlashesAlike start ps qs) : ps = qs := by
  induction ps generalizing start qs with
  | nil => exact (eq_nil_of_chars hr hc).symm
  | cons p ps ih =>
    rw [forall_mem_cons] at hp
    -- Where one has a literal and the other has code, there is a slash.
    have hu {c : Char} (hc : (Piece.code c).IsRead) (hq : (c = '\'' ∨ c = '"' ∨ c = '`') ∨ c = '/') : c = '/' := hq.resolve_left hc
    cases p with
    | code c =>
      rcases exists_cons_of_chars_eq hc hr with ⟨qs, rfl, hq⟩ | ⟨kind, lit, qs, dtx, own, rfl, hq, ht⟩
      · rw [ih hp.2 (forall_mem_cons.1 hr).2 hl.2 he.2 hq hs.tail]
      · obtain rfl := hu hp.1 ht.quote_or_slash
        exact absurd ((hs [] _ rfl).2 covers_cons_literal) not_covers_cons_code
    | literal kind text =>
      obtain ⟨ctx, c, lit, back, rfl, ht⟩ := hp.1
      rcases exists_cons_of_chars_eq hc hr with ⟨qs, rfl, hq⟩ | ⟨kind', lit', qs, dtx, own, rfl, hq, ht'⟩
      · obtain rfl := hu (hr (.code c) mem_cons_self) ht.quote_or_slash
        exact absurd ((hs [] _ rfl).1 covers_cons_literal) not_covers_cons_code
      · rw [LiteralsEnd, append_nil] at hl he
        obtain ⟨rfl, rfl, hb⟩ := ht.unique hl.1 ht' he.1 hq.symm
        rw [ih hp.2 (forall_mem_cons.1 hr).2 hl.2 he.2 hb.symm hs.tail]

theorem eq_of_spans (hp : ∀ p ∈ ps, p.IsRead) (hr : ∀ q ∈ qs, q.IsRead)
    (hc : qs.flatMap chars = ps.flatMap chars) (hs : spansOf start ps = spansOf start qs) : ps = qs := by
  -- The first literal behind a character does not begin with it.
  have hl (start : Nat) (c : Char) (rest : List Piece) (stop : Nat) (spans : List Span) :
      spansOf (start + c.utf8Size) rest ≠ ⟨start, stop⟩ :: spans := by
    intro heq
    have hle := le_start_of_mem_spansOf (heq ▸ mem_cons_self)
    have hp := c.utf8Size_pos
    dsimp only at hle
    omega
  induction ps generalizing start qs with
  | nil => exact (eq_nil_of_chars hr hc).symm
  | cons p ps ih =>
    rw [forall_mem_cons] at hp
    cases p with
    | code c =>
      rcases exists_cons_of_chars_eq hc hr with ⟨qs, rfl, hq⟩ | ⟨_, _, _, _, _, rfl, _, _⟩
      · rw [ih hp.2 (forall_mem_cons.1 hr).2 hq hs]
      · exact absurd hs (hl start c ps _ _)
    | literal kind text =>
      obtain ⟨ctx, c, lit, back, rfl, ht⟩ := hp.1
      rcases exists_cons_of_chars_eq hc hr with ⟨qs, rfl, hq⟩ | ⟨kind', lit', qs, dtx, own, rfl, hq, ht'⟩
      · exact absurd hs.symm (hl start c qs _ _)
      · obtain ⟨hf, he⟩ := cons.inj hs
        have hi : byteSize lit = byteSize lit' := by
          have hst := (Span.mk.inj hf).2
          simp only [byteSize] at hst
          omega
        obtain ⟨rfl, hb⟩ := append_inj_of_byteSize hq hi.symm
        obtain rfl := ht.kind_eq ht' rfl
        rw [ih hp.2 (forall_mem_cons.1 hr).2 hb he]

/-- The literals of the text are those of the parts, each moved to where its part is. -/
def ScansAs (text : List Char) (parts : List (List Piece)) : Prop :=
  ∃ u, Source.ofText text = .ok u ∧ u.spans = spansOf 0 parts.flatten

/-- Every slash of the text is in a literal of it if and only if it is in one of its part. -/
def SlashesKept (text : List Char) (parts : List (List Piece)) : Prop :=
  ∃ u, Source.ofText text = .ok u ∧ ∀ front back, text = front ++ '/' :: back →
    (u.isCovered (byteSize front) = true ↔ Covers 0 parts.flatten (byteSize front))

theorem pieces_of_spans (hr : ∀ part ∈ parts, ∀ p ∈ part, p.IsRead) {u : Source}
    (ht : parts.flatten.flatMap chars = text) (hu : Source.ofText text = .ok u)
    (hs : u.spans = spansOf 0 parts.flatten) : u.pieces = parts.flatten := by
  refine eq_of_spans (Source.isRead hu) (fun p => isRead_of_mem_flatten hr) ?_ hs
  rw [ht, u.chars_pieces, Source.text_ofText hu]

/-- **Texts put together.** The literals of the whole are those of the parts exactly if they end at
the seams and every slash is in a literal of the whole if and only if it is in one of its part. -/
theorem scansAs_iff (hr : ∀ part ∈ parts, ∀ p ∈ part, p.IsRead) (ho : ∀ part ∈ parts, ∃ own, LiteralsEnd own part)
    (ht : parts.flatten.flatMap chars = text) : ScansAs text parts ↔ SeamsEnd parts ∧ SlashesKept text parts := by
  have hs {u : Source} (hu : Source.ofText text = .ok u) : LiteralsEnd [] u.pieces :=
    (scans_of_piecesFrom (Source.pieces_ofText hu)).choose_spec.literalsEnd
  constructor
  · rintro ⟨u, hu, hsp⟩
    have hp := pieces_of_spans hr ht hu hsp
    refine ⟨(literalsEnd_flatten hr ho).1 (hp ▸ hs hu), u, hu, fun front back _ => ?_⟩
    rw [Source.isCovered_iff, hp]
  · rintro ⟨he, u, hu, hl⟩
    have hsa : parts.flatten.flatMap chars = u.pieces.flatMap chars := by
      rw [ht, u.chars_pieces, Source.text_ofText hu]
    have hr' : ∀ p ∈ parts.flatten, p.IsRead := fun p => isRead_of_mem_flatten hr
    have ha : SlashesAlike 0 u.pieces parts.flatten := by
      intro front back hcu
      rw [Nat.zero_add, ← Source.isCovered_iff]
      exact hl front back (by rw [← hcu, ← hsa, ht])
    refine ⟨u, hu, ?_⟩
    rw [← eq_of_slashes (Source.isRead hu) hr' (hs hu) ((literalsEnd_flatten hr ho).2 he) hsa ha]
    rfl

/-! ### Seams between lines -/

/-- The pieces end with a line break, and what follows them begins as a text does. -/
def EndsStatement (ps : List Piece) : Prop :=
  readyBehind true ps = true ∧
    (ps = [] ∨ ∃ front, ps = front ++ [.code '\n'] ∧ (front.flatMap chars).getLast? ≠ some '\\')

instance : DecidablePred EndsStatement := fun ps =>
  decidable_of_iff (readyBehind true ps = true ∧
    (ps = [] ∨ (ps.getLast? = some (.code '\n') ∧ (ps.dropLast.flatMap chars).getLast? ≠ some '\\'))) <| by
    refine and_congr_right fun _ => or_congr_right ⟨fun ⟨hlast, hback⟩ => ?_, ?_⟩
    · obtain ⟨front, rfl⟩ := getLast?_eq_some_iff.1 hlast
      exact ⟨front, rfl, by simpa using hback⟩
    · rintro ⟨front, rfl, hback⟩
      simpa using hback

theorem EndsStatement.exists_passes {dtx' : ScanContext} (h : EndsStatement ps) (ho : Passes false own dtx ps dtx')
    (hd : dtx.IsOpen) (hc : ctx.IsOpen) (behind : List Char) : ∃ ctx', Passes false behind ctx ps ctx' ∧ ctx'.IsOpen := by
  suffices hp : ∃ ctx', Passes false behind ctx ps ctx' by
    obtain ⟨ctx', hp⟩ := hp
    exact ⟨ctx', hp, hp.isOpen_of_readyBehind (fun _ => hc) h.1⟩
  rcases h.2 with rfl | ⟨front, rfl, hl⟩
  · exact ⟨ctx, .nil ctx⟩
  · have hs : SignApart front [.code '\n'] := by rintro c (rfl | rfl) _ <;> simp
    obtain ⟨mid, hf, -⟩ := ho.split hs
    have hm : ∀ p ∈ front.getLast?, p.Meets (('\n' :: behind).head?) := fun p _ => p.meets_of_ne (by decide) (by decide) fun _ _ => rfl
    have hk : KeepsSlashes (front.flatMap chars ++ []) ('\n' :: behind) := by
      rw [append_nil]
      exact ⟨fun _ => by simp [patternLength], fun he => absurd he hl⟩
    replace hf : Passes false ([] ++ '\n' :: own) dtx front mid := hf
    obtain ⟨ctx', hp, -⟩ := hf.resume (hd.alike hc _ _) (.inr hm) fun _ => hk
    have hb : opening ctx' '\n' behind = .plain := by simp [opening]
    exact ⟨_, hp.append (.code (fun h => by cases h) hb (.nil _))⟩

/-- The pieces were read from where nothing has begun that goes on. -/
def ReadAnew (part : List Piece) : Prop := ∃ own ctx ctx', ScanContext.IsOpen ctx ∧ Passes false own ctx part ctx'

/-- **Parts that end their lines.** The whole is scanned as its parts are, if each but the last ends
a statement and a line. -/
theorem scans_flatten (ha : ∀ part ∈ parts, ReadAnew part) (he : ∀ part ∈ parts.dropLast, EndsStatement part)
    (hc : ctx.IsOpen) : Scans ctx parts.flatten := by
  induction parts generalizing ctx with
  | nil => exact .nil ctx
  | cons part parts ih =>
    rw [forall_mem_cons] at ha
    obtain ⟨hp, ha⟩ := ha
    cases parts with
    | nil =>
      obtain ⟨_, _, _, hd, ho⟩ := hp
      simpa using ho.scans hd hc
    | cons next parts =>
      rw [dropLast_cons_cons, forall_mem_cons] at he
      obtain ⟨own, dtx, dtx', hd, ho⟩ := hp
      obtain ⟨ctx', hpa, hc'⟩ := he.1.exists_passes ho hd hc ((next :: parts).flatten.flatMap chars)
      exact hpa.scans_append (ih ha he.2 hc')

theorem endsStatement_flatten (h : ∀ part ∈ parts, EndsStatement part) : EndsStatement parts.flatten := by
  induction parts with
  | nil => exact ⟨rfl, .inl rfl⟩
  | cons part parts ih =>
    rw [forall_mem_cons] at h
    obtain ⟨⟨hr, hp⟩, ha⟩ := h
    obtain ⟨hr', he⟩ := ih ha
    rw [flatten_cons]
    refine ⟨by rw [readyBehind_append, hr, hr'], ?_⟩
    rcases he with hn | ⟨front, hf, hl⟩
    · rwa [hn, append_nil]
    · refine .inr ⟨part ++ front, by rw [hf, append_assoc], ?_⟩
      rw [flatMap_append, getLast?_append]
      cases hb : (front.flatMap chars).getLast? with
      | some c => rwa [hb] at hl
      | none => rcases hp with rfl | ⟨_, rfl, -⟩ <;> simp [chars]

/-! ### Words -/

/-- The word stands among the pieces, beginning with a character of code. -/
def HasWord (word : List Char) (ps : List Piece) : Prop :=
  ∃ before c after, ps = before ++ .code c :: after ∧ word <+: (Piece.code c :: after).flatMap chars

/-- A seam divides the word. -/
def SplitsWord (word : List Char) (parts : List (List Piece)) : Prop :=
  ∃ before after head tail, parts = before ++ after ∧ word = head ++ tail ∧ head ≠ [] ∧ tail ≠ [] ∧
    head.map .code <:+ before.flatten ∧ tail <+: after.flatten.flatMap chars

theorem hasWord_append_left (h : HasWord word ps) (qs : List Piece) : HasWord word (ps ++ qs) := by
  obtain ⟨pre, c, post, rfl, hw⟩ := h
  refine ⟨pre, c, post ++ qs, by rw [append_assoc]; rfl, hw.trans ?_⟩
  exact ⟨qs.flatMap chars, by simp⟩

theorem hasWord_append_right (h : HasWord word qs) (ps : List Piece) : HasWord word (ps ++ qs) := by
  obtain ⟨pre, c, post, rfl, hw⟩ := h
  exact ⟨ps ++ pre, c, post, (append_assoc ..).symm, hw⟩

theorem eq_map_code_of_chars (hr : ∀ p ∈ ps, p.IsRead) (h : ps.flatMap chars = cs)
    (hc : ∀ c ∈ cs, isLiteralStart c = false) : ps = cs.map .code := by
  induction cs generalizing ps with
  | nil => exact eq_nil_of_chars hr h
  | cons c cs ih =>
    rw [forall_mem_cons] at hc
    rcases exists_cons_of_chars_eq h hr with ⟨rest, rfl, he⟩ | ⟨_, _, _, _, _, _, _, ht⟩
    · rw [map_cons, ih (forall_mem_cons.1 hr).2 he hc.2]
    · have hs : isLiteralStart c := by rcases ht.quote_or_slash with (rfl | rfl | rfl) | rfl <;> decide
      rw [hs] at hc
      cases hc.1

theorem hasWord_append_iff (hw : ∀ c ∈ word, isLiteralStart c = false)
    (hr : ∀ p ∈ ps, p.IsRead) : HasWord word (ps ++ qs) ↔ HasWord word ps ∨ HasWord word qs ∨
      ∃ head tail, word = head ++ tail ∧ head ≠ [] ∧ tail ≠ [] ∧ head.map .code <:+ ps ∧ tail <+: qs.flatMap chars := by
  constructor
  · rintro ⟨pre, c, post, heq, hf⟩
    rcases append_eq_append_iff.1 heq with ⟨between, rfl, hq⟩ | ⟨between, rfl, hq⟩
    · exact .inr (.inl ⟨between, c, post, hq, hf⟩)
    · cases between with
      | nil => exact .inr (.inl ⟨[], c, post, hq.symm, hf⟩)
      | cons first between =>
        obtain ⟨rfl, rfl⟩ := cons.inj hq
        replace hf : word <+: (Piece.code c :: between).flatMap chars ++ qs.flatMap chars := by
          rw [← flatMap_append]
          exact hf
        rcases prefix_or_prefix_of_prefix hf (prefix_append _ _) with hi | ⟨tail, ht⟩
        · exact .inl ⟨pre, c, between, rfl, hi⟩
        · cases tail with
          | nil => exact .inl ⟨pre, c, between, rfl, (append_nil _ ▸ ht) ▸ prefix_refl _⟩
          | cons d tail =>
            have hc : ∀ p ∈ .code c :: between, p.IsRead := fun p hp => hr p (mem_append_right pre hp)
            have ha := eq_map_code_of_chars hc rfl fun d hd => hw d (ht ▸ mem_append_left _ hd)
            rw [← ht, prefix_append_right_inj] at hf
            refine .inr (.inr ⟨_, d :: tail, ht.symm, cons_ne_nil c _, cons_ne_nil d tail, ?_, hf⟩)
            rw [← ha]
            exact suffix_append pre _
  · rintro (h | h | ⟨head, tail, rfl, hh, -, ⟨pre, rfl⟩, ht⟩)
    · exact hasWord_append_left h qs
    · exact hasWord_append_right h ps
    · obtain ⟨c, head, rfl⟩ := exists_cons_of_ne_nil hh
      refine ⟨pre, c, head.map .code ++ qs, by simp, ?_⟩
      rw [flatMap_cons, flatMap_append, flatMap_chars_map_code]
      exact (prefix_append_right_inj (c :: head)).2 ht

theorem hasWord_flatten_iff (hw : ∀ c ∈ word, isLiteralStart c = false) (hr : ∀ part ∈ parts, ∀ p ∈ part, p.IsRead) :
    HasWord word parts.flatten ↔ (∃ part ∈ parts, HasWord word part) ∨ SplitsWord word parts := by
  constructor
  · intro h
    induction parts with
    | nil =>
      obtain ⟨pre, c, post, heq, -⟩ := h
      simp at heq
    | cons part parts ih =>
      rw [forall_mem_cons] at hr
      rw [flatten_cons, hasWord_append_iff hw hr.1] at h
      rcases h with h | h | ⟨head, tail, hs, hh, ht, hb, ha⟩
      · exact .inl ⟨part, mem_cons_self, h⟩
      · rcases ih hr.2 h with ⟨part', hp', h⟩ | ⟨pre, post, head, tail, rfl, hs, hh, ht, hb, ha⟩
        · exact .inl ⟨part', mem_cons_of_mem part hp', h⟩
        · refine .inr ⟨part :: pre, post, head, tail, rfl, hs, hh, ht, ?_, ha⟩
          exact hb.trans (suffix_append part _)
      · exact .inr ⟨[part], parts, head, tail, rfl, hs, hh, ht, by simpa using hb, ha⟩
  · rintro (⟨part, hp, h⟩ | ⟨pre, post, head, tail, rfl, hs⟩)
    · obtain ⟨pre, post, rfl⟩ := append_of_mem hp
      rw [flatten_append]
      exact hasWord_append_right (hasWord_append_left h _) _
    · have hr' : ∀ p ∈ pre.flatten, p.IsRead := fun p =>
        isRead_of_mem_flatten fun part hp => hr part (mem_append_left post hp)
      rw [flatten_append, hasWord_append_iff hw hr']
      exact .inr (.inr ⟨head, tail, hs⟩)

/-! ### Words among glyphs -/

theorem not_splitsWord_of_endsStatement (hw : '\n' ∉ word)
    (h : ∀ part ∈ parts.dropLast, EndsStatement part) : ¬SplitsWord word parts := by
  rintro ⟨pre, post, head, tail, rfl, rfl, hh, ht, hs, hp⟩
  have ha : post ≠ [] := by
    rintro rfl
    exact ht (prefix_nil.1 hp)
  have he := endsStatement_flatten fun part hpa => h part <| by
    rw [dropLast_append_of_ne_nil ha]
    exact mem_append_left _ hpa
  obtain ⟨head, c, rfl⟩ := head.eq_nil_or_concat.resolve_left hh
  obtain ⟨front, hf⟩ := hs
  rw [concat_eq_append, map_append, ← append_assoc] at hf
  rcases he.2 with hn | ⟨front', hf', -⟩
  · rw [hn] at hf
    simp at hf
  · rw [hf'] at hf
    have hc := (append_inj' hf rfl).2
    simp only [map_cons, map_nil, cons.injEq, Piece.code.injEq, and_true] at hc
    exact hw (by simp [hc])

theorem findGlyphs_coveredGlyphs (needle : List Char) (stop o : Nat) (text : List Char) (gs : List Glyph) :
    findGlyphs needle (coveredGlyphs stop o text ++ gs) = findGlyphs needle gs := by
  induction text generalizing o with
  | nil => rfl
  | cons c text ih =>
    rw [coveredGlyphs, cons_append, findGlyphs]
    simpa using ih _

theorem exists_cut_of_findGlyphs {offset : Nat} (hn : needle ≠ []) {found : List Glyph}
    (h : findGlyphs needle (glyphsOf offset ps) = some found) :
    ∃ pre c post, ps = pre ++ .code c :: post ∧ found = glyphsOf (offset + piecesSize pre) (.code c :: post) ∧
      needle <+: c :: post.flatMap chars := by
  obtain ⟨g, gs, rfl, hc, hs⟩ := Source.findGlyphs_spec hn h
  obtain ⟨pre, post, hp, hg, hr⟩ := exists_code_of_suffix (suffix_of_findGlyphs h) hc
  have hf : g :: gs = glyphsOf (offset + piecesSize pre) (.code g.char :: post) := by rw [glyphsOf, ← hr, ← hg]
  refine ⟨pre, g.char, post, hp, hf, ?_⟩
  rw [hf, glyphText_glyphsOf] at hs
  exact hs

theorem exists_findGlyphs_append (h : HasWord needle ps) (o : Nat) (qs : List Piece) :
    ∃ found, findGlyphs needle (glyphsOf o (ps ++ qs)) = some found ∧ (qs.flatMap chars).length < found.length := by
  obtain ⟨pre, c, post, rfl, hw⟩ := h
  have hb : Source.Begins needle (glyphsOf (o + piecesSize pre) (.code c :: (post ++ qs))) := by
    refine ⟨by simp [glyphsOf], hw.trans ?_⟩
    rw [glyphText_glyphsOf]
    simp
  rw [append_assoc, cons_append, glyphsOf_append]
  obtain ⟨found, hf, hs⟩ := Source.exists_found_of_begins (suffix_append _ _) hb
  refine ⟨found, hf, Nat.lt_of_lt_of_le ?_ hs.length_le⟩
  rw [length_glyphsOf, flatMap_cons, flatMap_append, length_append, length_append]
  have hc : (chars (.code c)).length = 1 := rfl
  omega

theorem findGlyphs_eq_none_iff (hn : needle ≠ []) (o : Nat) (ps : List Piece) :
    findGlyphs needle (glyphsOf o ps) = none ↔ ¬HasWord needle ps := by
  constructor
  · intro ho h
    obtain ⟨found, hf, -⟩ := exists_findGlyphs_append h o []
    rw [append_nil, ho] at hf
    cases hf
  · intro h
    by_contra hf
    obtain ⟨found, hf⟩ := Option.ne_none_iff_exists'.1 hf
    obtain ⟨pre, c, post, rfl, -, hw⟩ := exists_cut_of_findGlyphs hn hf
    exact h ⟨pre, c, post, rfl, hw⟩

end Pagewright
