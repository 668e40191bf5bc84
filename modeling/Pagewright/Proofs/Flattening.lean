import Pagewright.Proofs.Expansion
import Pagewright.Proofs.Seams

/-!
# Literals of expanded files

The text of a file with all directives expanded is put together from parts: the passages of the
files between their directives, each with its literals from the scan of its own file. The whole
keeps these literals if what ends one part does not run on into the next, which nothing sees to.
`resolve_literals_kept_iff` says when they are kept and when no directive comes about at a seam, and
that both are so where every part but the last ends a statement and a line. -/

namespace Pagewright

open List
open Piece (chars)

variable {ps dir passage rest : List Piece} {offset start stop : Nat} {front pre post : List Piece} {s u a b : Source}
  {ctx : ScanContext} {rs : List (Directive × List (List Piece))}

/-! ### Pieces cut at byte offsets -/

/-- The pieces in the first `n` bytes. -/
def takePieces : Nat → List Piece → List Piece
  | _, [] => []
  | n, p :: ps => if n = 0 then [] else p :: takePieces (n - byteSize p.chars) ps

/-- The pieces behind the first `n` bytes. -/
def dropPieces : Nat → List Piece → List Piece
  | _, [] => []
  | n, p :: ps => if n = 0 then p :: ps else dropPieces (n - byteSize p.chars) ps

theorem cutPieces_append (h : ∀ p ∈ front, p.IsRead) (back : List Piece) :
    takePieces (piecesSize front) (front ++ back) = front ∧ dropPieces (piecesSize front) (front ++ back) = back := by
  induction front with
  | nil => cases back <;> exact ⟨rfl, rfl⟩
  | cons p front ih =>
    rw [forall_mem_cons] at h
    have hp := byteSize_pos h.1.chars_ne_nil
    have hn : ¬byteSize p.chars + piecesSize front = 0 := by omega
    rw [cons_append, takePieces, dropPieces, piecesSize_cons, if_neg hn, if_neg hn, Nat.add_sub_cancel_left, (ih h.2).1, (ih h.2).2]
    exact ⟨rfl, rfl⟩

/-- The pieces from `offset` on, cut at the directives, with the parts that each one stands for in
its place. -/
def interleave (offset : Nat) (ps : List Piece) : List (Directive × List (List Piece)) → List (List Piece)
  | [] => [ps]
  | (d, parts) :: rest =>
    takePieces (d.start - offset) ps :: parts ++ interleave d.stop (dropPieces (d.stop - offset) ps) rest

/-! ### Passages -/

/-- The pieces from the first character of a directive to its semicolon. -/
def IsDirective (dir : List Piece) : Prop := ∃ body, dir = .code '*' :: body ++ [.code ';']

theorem Source.FindsDirective.exists_cut (hp : s.pieces = pre ++ post) {d : Directive} (h : s.FindsDirective (piecesSize pre) d) :
    ∃ passage dir rest, post = passage ++ dir ++ rest ∧ IsDirective dir ∧ d.start = piecesSize (pre ++ passage) ∧
      d.stop = piecesSize (pre ++ (passage ++ dir)) ∧ ¬HasWord includeWord passage := by
  have hr : s.IsRest (glyphsOf (piecesSize pre) post) := ⟨pre, post, hp, rfl⟩
  rw [← offsetOf_glyphsOf hp, findsDirective_offsetOf hr] at h
  obtain ⟨found, semicolon, behind, hg, -, ht, ho⟩ := h
  obtain ⟨passage, c, mid, rfl, rfl, hw⟩ := exists_cut_of_findGlyphs (by decide) hg.found_eq
  obtain rfl : '*' = c := (cons_prefix_cons.1 hw).1
  obtain ⟨body, c, rest, hm, hse, he⟩ := exists_cut_of_findGlyphs (by decide) hg.semicolon_eq
  obtain rfl : ';' = c := (cons_prefix_cons.1 he).1
  cases body with
  | nil => cases hm
  | cons p body =>
    obtain ⟨rfl, rfl⟩ := cons.inj hm
    have hb : behind = glyphsOf (piecesSize (pre ++ (passage ++ (.code '*' :: body ++ [.code ';'])))) rest := by
      rw [(cons.inj hse).2]
      simp [Nat.add_assoc]
    refine ⟨passage, _, rest, by simp, ⟨body, rfl⟩, ?_, ?_, fun hh => ?_⟩
    · rw [ht, ← piecesSize_append]
      exact offsetOf_glyphsOf (by rw [hp, append_assoc])
    · rw [ho, hb]
      exact offsetOf_glyphsOf (by rw [hp]; simp)
    · -- A word in the passage would have been found before the directive.
      obtain ⟨found, hf, hl⟩ := exists_findGlyphs_append hh (piecesSize pre) (.code '*' :: (body ++ .code ';' :: rest))
      cases hf.symm.trans hg.found_eq
      rw [length_glyphsOf] at hl
      exact Nat.lt_irrefl _ hl

theorem Scans.cut_directive (ht : ctx.IsOpen) (hd : IsDirective dir)
    (h : Scans ctx (passage ++ dir ++ rest)) : ReadAnew passage ∧ ∃ ctx', ctx'.IsOpen ∧ Scans ctx' rest := by
  obtain ⟨body, rfl⟩ := hd
  have hs : SignApart (passage ++ (.code '*' :: body ++ [.code ';'])) rest := by
    intro c hc hl
    rw [← append_assoc, getLast?_concat] at hl
    rcases hc with rfl | rfl <;> cases hl
  obtain ⟨ctx', hp, hr⟩ := h.exists_passes hs
  have he : readyBehind false (passage ++ (.code '*' :: body ++ [.code ';'])) := by
    rw [readyBehind_append, readyBehind_append]
    rfl
  obtain ⟨mid, ha, -⟩ := hp.split (by rintro c (rfl | rfl) - <;> simp)
  exact ⟨⟨_, _, _, ht, ha⟩, ctx', hp.isOpen_of_readyBehind (fun hf => by cases hf) he, hr⟩

theorem Source.Directives.interleave_spec (hi : s.pieces = pre ++ post) (hc : ctx.IsOpen) (hsc : Scans ctx post)
    (hds : s.Directives (piecesSize pre) (rs.map Prod.fst)) : (interleave (piecesSize pre) post rs).flatten.flatMap chars =
        spliceForwards (piecesSize pre) (post.flatMap chars) (rs.map fun r => (r.1, r.2.flatten.flatMap chars)) ∧
      ∀ part ∈ interleave (piecesSize pre) post rs, (ReadAnew part ∧ ¬HasWord includeWord part) ∨ ∃ r ∈ rs, part ∈ r.2 := by
  induction rs generalizing ctx pre post with
  | nil =>
    cases hds with
    | none hn =>
      refine ⟨by simp [interleave, spliceForwards], forall_mem_singleton.2 (.inl ⟨?_, ?_⟩)⟩
      · obtain ⟨ctx', hpa⟩ := hsc
        exact ⟨_, _, _, hc, hpa⟩
      · have he : s.IsRest (glyphsOf (piecesSize pre) post) := ⟨pre, post, hi, rfl⟩
        rw [← offsetOf_glyphsOf hi, find?_offsetOf he.suffix, Option.map_eq_none_iff] at hn
        exact (findGlyphs_eq_none_iff (by decide) _ _).1 hn
  | cons r rs ih =>
    obtain ⟨d, parts⟩ := r
    cases hds with
    | @cons _ d _ hd hds =>
      obtain ⟨passage, dir, rest, rfl, hdi, hst, ho, hw⟩ := hd.exists_cut hi
      have hra := hsc.choose_spec.isRead
      rw [forall_mem_append] at hra
      obtain ⟨ha, ctx', hc', hsc'⟩ := hsc.cut_directive hc hdi
      rw [ho] at hds
      obtain ⟨hh, hm⟩ := ih (by rw [hi, append_assoc, append_assoc, append_assoc]) hc' hsc' hds
      have hb : d.start - piecesSize pre = piecesSize passage := by
        rw [hst, piecesSize_append, Nat.add_sub_cancel_left]
      have hbe : d.stop - piecesSize pre = piecesSize (passage ++ dir) := by
        rw [ho, piecesSize_append, Nat.add_sub_cancel_left]
      have ht : takePieces (piecesSize passage) (passage ++ dir ++ rest) = passage := by
        rw [append_assoc, (cutPieces_append (fun p hp => hra.1 p (mem_append_left _ hp)) _).1]
      have hf : takeBytes (piecesSize passage) ((passage ++ dir ++ rest).flatMap chars) = passage.flatMap chars := by
        rw [append_assoc, flatMap_append]
        exact takeBytes_append _ _
      have hba : dropBytes (piecesSize (passage ++ dir)) ((passage ++ dir ++ rest).flatMap chars) = rest.flatMap chars := by
        rw [flatMap_append]
        exact dropBytes_append _ _
      rw [interleave, hb, hbe, ht, (cutPieces_append hra.1 _).2, map_cons, spliceForwards, hb, hbe,
        hf, hba, ho, ← hh, cons_append, forall_mem_cons, forall_mem_append]
      refine ⟨by simp, .inl ⟨ha, hw⟩, fun part hpr => .inr ⟨_, mem_cons_self, hpr⟩, fun part hpr => ?_⟩
      rcases hm part hpr with hps | ⟨r, hr, hpr⟩
      · exact .inl hps
      · exact .inr ⟨r, mem_cons_of_mem _ hr, hpr⟩

namespace FileSet

variable {fs : FileSet} {p entry : Path} {t content : List Char} {parts : List (List Piece)}

/-- The parts of the text of a file: its own passages, and for each directive the parts of the file
that it names, or its text as one part that was scanned by itself. -/
inductive Parts (fs : FileSet) : Path → List (List Piece) → Prop where
  | file {p : Path} {content : String} {s : Source} {rs : List (Directive × List (List Piece))}
      (hload : fs.load p = .ok content) (hs : Source.ofText content.toList = .ok s) (hds : s.Directives 0 (rs.map Prod.fst))
      (hrs : ∀ r ∈ rs, Parts fs (p.folder.join r.1.path) r.2) : Parts fs p (interleave 0 s.pieces rs)
  | whole {p : Path} {t : List Char} {u : Source} (ht : fs.Expanded p t) (hu : Source.ofText t = .ok u) : Parts fs p [u.pieces]

theorem interleave_of_file (hs : Source.ofText content = .ok s)
    (hd : s.Directives 0 (rs.map Prod.fst)) : (interleave 0 s.pieces rs).flatten.flatMap chars =
        spliceForwards 0 content (rs.map fun r => (r.1, r.2.flatten.flatMap chars)) ∧
      ∀ part ∈ interleave 0 s.pieces rs, (ReadAnew part ∧ ¬HasWord includeWord part) ∨ ∃ r ∈ rs, part ∈ r.2 := by
  have hp := Source.Directives.interleave_spec (show s.pieces = [] ++ s.pieces from rfl) isOpen_start
    (scans_of_piecesFrom (Source.pieces_ofText hs)) hd
  rwa [s.chars_pieces, Source.text_ofText hs] at hp

theorem Parts.expanded (h : fs.Parts p parts) : fs.Expanded p (parts.flatten.flatMap chars) := by
  induction h with
  | @file p content s rs hl hs hd hrs ih =>
    rw [(interleave_of_file hs hd).1]
    refine .file hl hs (by rwa [map_map]) fun r hr => ?_
    obtain ⟨q, hq, rfl⟩ := mem_map.1 hr
    exact ih q hq
  | whole ht hu =>
    rw [flatten_singleton, Source.chars_pieces, Source.text_ofText hu]
    exact ht

theorem Parts.readAnew (h : fs.Parts p parts) : ∀ part ∈ parts, ReadAnew part := by
  induction h with
  | @file p content s rs hl hs hd hrs ih =>
    intro part hp
    rcases (interleave_of_file hs hd).2 part hp with h | ⟨r, hr, hp⟩
    · exact h.1
    · exact ih r hr part hp
  | whole ht hu =>
    obtain ⟨ctx', ha⟩ := scans_of_piecesFrom (Source.pieces_ofText hu)
    exact forall_mem_singleton.2 ⟨_, _, _, isOpen_start, ha⟩

theorem Expanded.exists_parts (h : fs.Expanded p t) : ∃ parts, fs.Parts p parts ∧ ∀ part ∈ parts, ¬HasWord includeWord part := by
  induction h with
  | @file p content s rs hl hs hd hr ih =>
    have hc : ∃ qs : List (Directive × List (List Piece)), qs.map Prod.fst = rs.map Prod.fst ∧
        ∀ q ∈ qs, fs.Parts (p.folder.join q.1.path) q.2 ∧ ∀ part ∈ q.2, ¬HasWord includeWord part := by
      clear hd hr
      induction rs with
      | nil => exact ⟨[], rfl, nofun⟩
      | cons r rs ihs =>
        obtain ⟨hf, he⟩ := forall_mem_cons.1 ih
        obtain ⟨parts, hp⟩ := hf
        obtain ⟨qs, hqs, ha⟩ := ihs he
        exact ⟨(r.1, parts) :: qs, by rw [map_cons, hqs, map_cons], forall_mem_cons.2 ⟨hp, ha⟩⟩
    obtain ⟨qs, hqs, ha⟩ := hc
    rw [← hqs] at hd
    refine ⟨_, .file hl hs hd fun q hq => (ha q hq).1, fun part hpa => ?_⟩
    rcases (interleave_of_file hs hd).2 part hpa with h | ⟨q, hq, hpa⟩
    · exact h.2
    · exact (ha q hq).2 part hpa

theorem isLiteralStart_of_mem_includeWord {c : Char} (h : c ∈ includeWord) : isLiteralStart c = false := by
  have ha : (includeWord.all fun c => !isLiteralStart c) := by decide
  simpa using all_eq_true.1 ha c h

theorem directives_nil_iff (u : Source) : u.Directives 0 [] ↔ ¬HasWord includeWord u.pieces := by
  have hf : u.find? includeWord 0 = none ↔ ¬HasWord includeWord u.pieces := by
    have hz : u.offsetOf u.glyphs = 0 := Source.offsetOf_glyphsOf (nil_append _).symm
    rw [← hz, Source.find?_offsetOf suffix_rfl, Option.map_eq_none_iff]
    exact findGlyphs_eq_none_iff (by decide) 0 u.pieces
  rw [← hf]
  exact ⟨fun hd => by cases hd; assumption, .none⟩

theorem expand_eq_of_directives (hu : Source.ofText t = .ok u) (h : u.Directives 0 []) (base : Path)
    (chain : List Path) : fs.expand base chain (String.ofList t) = .ok t := by
  refine expandWith_eq_ok_iff.2 ⟨u, [], by rwa [String.toList_ofList], h, nofun, ?_⟩
  rw [String.toList_ofList]
  rfl

/-- **Literals of expanded files.** Whatever parts an expanded text is put together from, its
literals are those of the parts exactly if these end at the seams and each slash is in a literal of
the text if and only if it is in one of its part. No directive is found in it then exactly if none
was in a part and no seam divides one. If each part but the last ends a statement and a line, the
literals are kept, and if none of them has a directive, to expand the text again changes nothing. -/
theorem resolve_literals_kept_iff (h : fs.resolve entry = .ok t) :
    (∃ parts, fs.Parts entry parts ∧ ∀ part ∈ parts, ¬HasWord includeWord part) ∧
      ∀ parts, fs.Parts entry parts → parts.flatten.flatMap Piece.chars = t ∧
        (ScansAs t parts ↔ SeamsEnd parts ∧ SlashesKept t parts) ∧
        (ScansAs t parts → ((∃ u, Source.ofText t = .ok u ∧ u.Directives 0 []) ↔
          (∀ part ∈ parts, ¬HasWord includeWord part) ∧ ¬SplitsWord includeWord parts)) ∧
        ((∀ part ∈ parts.dropLast, EndsStatement part) → ScansAs t parts ∧ ((∀ part ∈ parts, ¬HasWord includeWord part) →
          ∀ base chain, fs.expand base chain (String.ofList t) = .ok t)) := by
  refine ⟨(expanded_of_resolveIn h).exists_parts, fun parts hparts => ?_⟩
  have hanew := hparts.readAnew
  have hread : ∀ part ∈ parts, ∀ p ∈ part, p.IsRead := fun part hpart => by
    obtain ⟨_, _, _, -, hpasses⟩ := hanew part hpart
    exact hpasses.isRead
  have hown : ∀ part ∈ parts, ∃ own, LiteralsEnd own part := fun part hpart => by
    obtain ⟨own, _, _, -, hpasses⟩ := hanew part hpart
    exact ⟨own, hpasses.literalsEnd⟩
  have hchars : parts.flatten.flatMap Piece.chars = t := by
    have hroom : fs.unused [] < fs.depth := by
      rw [unused_nil]
      exact fs.card_keys_lt_depth
    have hresolve := hparts.expanded.resolveIn_eq (fs.nests_nil entry) (not_hasCircle_of_resolveIn h) hroom
    exact Except.ok.inj (hresolve.symm.trans h)
  have hdirectives {u : Source} (hu : Source.ofText t = .ok u) (hpieces : u.pieces = parts.flatten) :
      u.Directives 0 [] ↔ (∀ part ∈ parts, ¬HasWord includeWord part) ∧ ¬SplitsWord includeWord parts := by
    rw [directives_nil_iff, hpieces, hasWord_flatten_iff (fun c => isLiteralStart_of_mem_includeWord) hread, not_or]
    simp only [not_exists, not_and]
  refine ⟨hchars, scansAs_iff hread hown hchars, ?_, fun hends => ?_⟩
  · rintro ⟨u, hu, hspans⟩
    rw [← hdirectives hu (pieces_of_spans hread hchars hu hspans)]
    refine ⟨?_, fun hds => ⟨u, hu, hds⟩⟩
    rintro ⟨u', hu', hds⟩
    cases hu.symm.trans hu'
    exact hds
  · have hscan := (scans_flatten hanew hends isOpen_start).piecesFrom_eq 0
    rw [hchars] at hscan
    obtain ⟨u, hu, hpieces⟩ : ∃ u, Source.ofText t = .ok u ∧ u.pieces = parts.flatten :=
      ⟨_, Source.ofText_of_pieces hscan, rfl⟩
    refine ⟨⟨u, hu, by rw [← hpieces]; rfl⟩, fun hword base chain => ?_⟩
    exact expand_eq_of_directives hu ((hdirectives hu hpieces).2 ⟨hword, not_splitsWord_of_endsStatement (by decide) hends⟩) base chain

/-- Two files, of which one can include the other. -/
def pair (a b : Source) : FileSet := ⟨[(⟨"a"⟩, String.ofList a.text), (⟨"b"⟩, String.ofList b.text)]⟩

theorem parts_pair (ha : Source.ofText a.text = .ok a) (hb : Source.ofText b.text = .ok b)
    (hd : a.Directives 0 [⟨start, stop, ⟨"b"⟩⟩]) (hn : b.Directives 0 []) :
    (pair a b).Parts ⟨"a"⟩ (interleave 0 a.pieces [(⟨start, stop, ⟨"b"⟩⟩, [b.pieces])]) := by
  have hf : (pair a b).load ⟨"a"⟩ = .ok (String.ofList a.text) := by
    have ho : (Path.normalize ⟨"b"⟩).components ≠ (Path.normalize ⟨"a"⟩).components := by decide
    simp [load, pair, Path.same, ho]
  have hs : (pair a b).load ⟨"b"⟩ = .ok (String.ofList b.text) := by simp [load, pair, Path.same]
  have hp : (Path.folder ⟨"a"⟩).join ⟨"b"⟩ = ⟨"b"⟩ := by decide
  refine .file hf (by rw [String.toList_ofList]; exact ha) hd (forall_mem_singleton.2 ?_)
  rw [hp]
  exact @Parts.file _ _ _ _ [] hs (by rw [String.toList_ofList]; exact hb) hn fun r hr => by cases hr

/-- A file that ends with a comment, and the line break behind it. -/
def endedComment : Source :=
  ⟨_, "class B\x7b\x7d\n".toList.map .code ++ [.literal .lineComment "// é".toList, .code '\n'], rfl⟩

/-- A file with a directive in its first line. -/
def directiveLine : Source :=
  ⟨_, "*include l: ".toList.map .code ++ .literal (.quoted '\'') "'b'".toList :: ";\np\x7bt:".toList.map .code ++
    .literal (.quoted '\'') "'x'".toList :: ";\x7d".toList.map .code, rfl⟩

/-- The literals of both files are those of the expanded text. -/
theorem resolve_literals_kept_iff_endedComment :
    ∃ u, Source.ofText "class B\x7b\x7d\n// é\n\np\x7bt:'x';\x7d".toList = .ok u ∧ u.spans = [⟨10, 15⟩, ⟨21, 24⟩] ∧
      ∀ base chain, (pair directiveLine endedComment).expand base chain "class B\x7b\x7d\n// é\n\np\x7bt:'x';\x7d" =
        .ok "class B\x7b\x7d\n// é\n\np\x7bt:'x';\x7d".toList := by
  have ha : Source.ofText directiveLine.text = .ok directiveLine :=
    Source.ofText_of_pieces (by decide +kernel)
  have hb : Source.ofText endedComment.text = .ok endedComment :=
    Source.ofText_of_pieces (by decide +kernel)
  have hds : directiveLine.Directives 0 [⟨0, 16, ⟨"b"⟩⟩] :=
    .cons ⟨by decide +kernel, 15, by decide +kernel, rfl, by decide +kernel⟩ (.none (by decide +kernel))
  have hresolve : (pair directiveLine endedComment).resolve ⟨"a"⟩ = .ok "class B\x7b\x7d\n// é\n\np\x7bt:'x';\x7d".toList := by
    decide +kernel
  obtain ⟨-, hall⟩ := resolve_literals_kept_iff hresolve
  obtain ⟨-, -, -, hends⟩ := hall _ (parts_pair ha hb hds (.none (by decide +kernel)))
  obtain ⟨⟨u, hu, hspans⟩, hagain⟩ := hends (by decide +kernel)
  have hword : ((interleave 0 directiveLine.pieces [(⟨0, 16, ⟨"b"⟩⟩, [endedComment.pieces])]).all fun part =>
      (findGlyphs includeWord (glyphsOf 0 part)).isNone) = true := by decide +kernel
  refine ⟨u, hu, hspans.trans (by decide +kernel), hagain fun part hpart => ?_⟩
  exact (findGlyphs_eq_none_iff (by decide) 0 part).1 (Option.isNone_iff_eq_none.1 (all_eq_true.1 hword part hpart))

/-- A file that is a comment without a line break. -/
def openComment : Source := ⟨_, [.literal .lineComment "// c".toList], rfl⟩

/-- A file with a directive and more in one line. -/
def directiveBefore : Source :=
  ⟨_, "*include l: ".toList.map .code ++ .literal (.quoted '\'') "'b'".toList :: "; p\x7b\x7d".toList.map .code, rfl⟩

/-- A file with a directive inside the word of one. -/
def directiveInside : Source :=
  ⟨_, "*inc*include l: ".toList.map .code ++ .literal (.quoted '\'') "'b'".toList :: ";lude l: ".toList.map .code ++
    .literal (.quoted '\'') "'b'".toList :: [.code ';'], rfl⟩

/-- A comment at the end of an included file takes in what stands behind the directive, and an empty
file included inside the word of a directive makes another one, found when the text is expanded
again. -/
theorem comment_and_directive_cross_seams :
    ((pair directiveBefore openComment).resolve ⟨"a"⟩ = .ok "// c p\x7b\x7d".toList ∧
      (pair directiveBefore openComment).Parts ⟨"a"⟩ [[], openComment.pieces, " p\x7b\x7d".toList.map .code] ∧
      ¬ScansAs "// c p\x7b\x7d".toList [[], openComment.pieces, " p\x7b\x7d".toList.map .code]) ∧
    (pair directiveInside ⟨[], [], rfl⟩).resolve ⟨"a"⟩ = .ok "*include l: 'b';".toList ∧
      (pair directiveInside ⟨[], [], rfl⟩).expand ⟨""⟩ [] "*include l: 'b';" = .ok [] := by
  refine ⟨⟨by decide +kernel, ?_, ?_⟩, by decide +kernel, by decide +kernel⟩
  · have ha : Source.ofText directiveBefore.text = .ok directiveBefore :=
      Source.ofText_of_pieces (by decide +kernel)
    have hb : Source.ofText openComment.text = .ok openComment :=
      Source.ofText_of_pieces (by decide +kernel)
    have hds : directiveBefore.Directives 0 [⟨0, 16, ⟨"b"⟩⟩] :=
      .cons ⟨by decide +kernel, 15, by decide +kernel, rfl, by decide +kernel⟩ (.none (by decide +kernel))
    exact parts_pair ha hb hds (.none (by decide +kernel))
  · rintro ⟨u, hu, hspans⟩
    have hwhole : Pagewright.pieces "// c p\x7b\x7d".toList = .ok [.literal .lineComment "// c p\x7b\x7d".toList] := by
      decide +kernel
    rw [Source.spans, Except.ok.inj ((Source.pieces_ofText hu).symm.trans hwhole)] at hspans
    revert hspans
    decide +kernel

end FileSet

end Pagewright
