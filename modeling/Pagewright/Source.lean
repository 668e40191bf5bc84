import Pagewright.Literal

/-!
# Sources: texts with their literals marked

A `Source` is a text together with its pieces. Readers walk over its glyphs: the characters with
their byte offsets, each knowing where the literal that covers it ends. All searches here pass over
covered glyphs or jump over literals: `find?` looks for a text, `splitGroup` for the end of a
bracketed group, `lines` for line breaks.
-/

namespace Pagewright

variable {opener closer : Char} {gs group rest found : List Glyph} {depth : Nat}

/-- A character of a text with its offset and, inside a literal, the offset where that ends. -/
structure Glyph where
  char : Char
  offset : Nat
  cover : Option Nat
deriving DecidableEq, Repr

/-- The half-open range of offsets that a literal takes. -/
structure Span where
  start : Nat
  stop : Nat
deriving DecidableEq, Repr

/-- The characters of some glyphs. -/
def glyphText (gs : List Glyph) : List Char := gs.map Glyph.char

/-- The glyphs of a literal text that begins at `offset` and ends at `stop`. -/
def coveredGlyphs (stop : Nat) : Nat → List Char → List Glyph
  | _, [] => []
  | offset, c :: cs => ⟨c, offset, some stop⟩ :: coveredGlyphs stop (offset + c.utf8Size) cs

/-- The glyphs of the pieces of a text that begins at `offset`. -/
def glyphsOf : Nat → List Piece → List Glyph
  | _, [] => []
  | offset, .code c :: ps => ⟨c, offset, none⟩ :: glyphsOf (offset + c.utf8Size) ps
  | offset, .literal _ text :: ps =>
    coveredGlyphs (offset + byteSize text) offset text ++ glyphsOf (offset + byteSize text) ps

/-- The ranges of the literals among the pieces of a text that begins at `offset`. -/
def spansOf : Nat → List Piece → List Span
  | _, [] => []
  | offset, .code c :: ps => spansOf (offset + c.utf8Size) ps
  | offset, .literal _ text :: ps =>
    ⟨offset, offset + byteSize text⟩ :: spansOf (offset + byteSize text) ps

/-- A text and its pieces. -/
structure Source where
  text : List Char
  pieces : List Piece
  chars_pieces : pieces.flatMap Piece.chars = text

/-! ### Brackets -/

/-- The bracket that closes a group which `c` opens. -/
def closer? (c : Char) : Option Char :=
  if c = '{' then some '}' else if c = '(' then some ')' else if c = '[' then some ']' else none

/-- A bracket that ends a group. -/
def isCloser (c : Char) : Bool := c = '}' || c = ')' || c = ']'

/-- Cuts off the glyphs up to the bracket that closes the group, `depth` groups being open. Other
brackets and covered glyphs do not count. -/
def splitGroup (opener closer : Char) : Nat → List Glyph → Option (List Glyph × List Glyph)
  | _, [] => none
  | depth, g :: gs =>
    let onward (depth : Nat) :=
      (splitGroup opener closer depth gs).map fun (group, rest) => (g :: group, rest)
    if g.cover.isSome then onward depth
    else if g.char = opener then onward (depth + 1)
    else if g.char = closer then
      if depth = 0 then none else if depth = 1 then some ([g], gs) else onward (depth - 1)
    else onward depth

/-- A group and what follows it make up the glyphs it was cut off from. -/
theorem splitGroup_append
    (h : splitGroup opener closer depth gs = some (group, rest)) : group ++ rest = gs := by
  induction gs generalizing depth group with
  | nil => simp [splitGroup] at h
  | cons g gs ih =>
    have onward {d : Nat} (h : (splitGroup opener closer d gs).map
        (fun (group, rest) => (g :: group, rest)) = some (group, rest)) :
        group ++ rest = g :: gs := by
      obtain ⟨⟨group', rest'⟩, hs, heq⟩ := Option.map_eq_some_iff.1 h
      simp only [Prod.mk.injEq] at heq
      obtain ⟨rfl, rfl⟩ := heq
      simp [ih hs]
    simp only [splitGroup] at h
    split at h
    · exact onward h
    · split at h
      · exact onward h
      · split at h
        · split at h
          · cases h
          · split at h
            · cases h; rfl
            · exact onward h
        · exact onward h

theorem splitGroup_ne_nil (h : splitGroup opener closer depth gs = some (group, rest)) : group ≠ [] := by
  cases gs with
  | nil => simp [splitGroup] at h
  | cons g gs =>
    simp only [splitGroup] at h
    repeat' split at h
    all_goals first
      | (obtain ⟨⟨_, _⟩, _, heq⟩ := Option.map_eq_some_iff.1 h; cases heq; simp)
      | (cases h; simp)
      | cases h

/-- What follows a group is shorter than the whole. -/
theorem splitGroup_length
    (h : splitGroup opener closer depth gs = some (group, rest)) : rest.length < gs.length := by
  have hne := splitGroup_ne_nil h
  have ha := congrArg List.length (splitGroup_append h)
  have := List.length_pos_iff.2 hne
  simp at ha
  omega

/-! ### Search -/

/-- Whether the text of the glyphs begins with `needle`. -/
def startsWith : List Char → List Glyph → Bool
  | [], _ => true
  | _ :: _, [] => false
  | c :: cs, g :: gs => c = g.char && startsWith cs gs

/-- The glyphs from the first uncovered place on where `needle` stands. -/
def findGlyphs (needle : List Char) : List Glyph → Option (List Glyph)
  | [] => if needle.isEmpty then some [] else none
  | g :: gs =>
    if g.cover.isNone && startsWith needle (g :: gs) then some (g :: gs) else findGlyphs needle gs

theorem suffix_of_findGlyphs {needle : List Char} (h : findGlyphs needle gs = some found) : found <:+ gs := by
  fun_induction findGlyphs needle gs with
  | case1 | case3 =>
    cases h
    exact List.suffix_rfl
  | case2 => cases h
  | case4 g gs _ ih => exact (ih h).trans (List.suffix_cons g gs)

theorem findGlyphs_length_le {needle : List Char} (h : findGlyphs needle gs = some found) : found.length ≤ gs.length :=
  (suffix_of_findGlyphs h).length_le

/-- The rest of a text from an offset on, if a character begins there or the text ends there. -/
def textFrom? : Nat → List Char → Option (List Char)
  | 0, cs => some cs
  | _ + 1, [] => none
  | n + 1, c :: cs => if c.utf8Size ≤ n + 1 then textFrom? (n + 1 - c.utf8Size) cs else none

/-- The number of bytes before the first place of a text where `needle` stands. -/
def occurrence? (needle : List Char) : List Char → Option Nat
  | [] => if needle.isEmpty then some 0 else none
  | c :: cs =>
    if needle.isPrefixOf (c :: cs) then some 0
    else (occurrence? needle cs).map (c.utf8Size + ·)

/-- The first of the `size` indices from `low` on that fails `p`, or the index behind them, found by
halving. Indices that satisfy `p` have to stand before those that fail. -/
def partitionPoint (p : Nat → Bool) (low size : Nat) : Nat :=
  if size = 0 then low
  else if p (low + size / 2) then partitionPoint p (low + size / 2 + 1) (size - size / 2 - 1)
  else partitionPoint p low (size / 2)
termination_by size
decreasing_by all_goals omega

/-- The parts of the text between uncovered line feeds; there is always at least one. -/
def splitAtBreaks : List Glyph → List (List Char)
  | [] => [[]]
  | g :: gs =>
    if g.cover.isNone && g.char = '\n' then [] :: splitAtBreaks gs
    else match splitAtBreaks gs with
      | [] => [[g.char]]
      | line :: lines => (g.char :: line) :: lines

namespace Source

/-- The source of a text, if all its literals end. -/
def ofText (text : List Char) : Except CompileError Source :=
  match h : Pagewright.pieces text with
  | .ok ps => .ok ⟨text, ps, pieces_chars h⟩
  | .error e => .error (.atOffset text e.offset e.fault)

/-- The number of bytes of the text. -/
def size (s : Source) : Nat := byteSize s.text

/-- The characters of the text with offsets and covers. -/
def glyphs (s : Source) : List Glyph := glyphsOf 0 s.pieces

/-- The ranges of the literals, in order. -/
def spans (s : Source) : List Span := spansOf 0 s.pieces

/-- The glyphs that begin at `offset` or behind it. -/
def glyphsFrom (s : Source) (offset : Nat) : List Glyph := s.glyphs.dropWhile (·.offset < offset)

/-- The offset at which the glyphs `gs` of the source begin. -/
def offsetOf (s : Source) : List Glyph → Nat
  | [] => s.size
  | g :: _ => g.offset

/-- The position of an offset. -/
def position (s : Source) (offset : Nat) : Position := Position.ofOffset s.text offset

/-- A fault found at an offset. -/
def error (s : Source) (offset : Nat) (fault : ParseFault) : CompileError :=
  .atOffset s.text offset fault

/-- The number of literals that begin at an offset or before it. -/
def spansUpTo (s : Source) (offset : Nat) : Nat :=
  partitionPoint (fun k => s.spans[k]?.any (·.start ≤ offset)) 0 s.spans.length

/-- The end of the literal that covers an offset: of those that begin there or before, only the last
can reach it. -/
def literalEnd? (s : Source) (offset : Nat) : Option Nat :=
  match s.spansUpTo offset with
  | 0 => none
  | k + 1 => (s.spans[k]?.filter (offset < ·.stop)).map Span.stop

/-- Whether a literal covers an offset. -/
def isCovered (s : Source) (offset : Nat) : Bool := (s.literalEnd? offset).isSome

/-- Whether a character begins at an offset, or the text ends there. -/
def isBoundary (s : Source) (offset : Nat) : Bool := s.offsetOf (s.glyphsFrom offset) = offset

theorem lt_of_literalEnd? {s : Source} {offset stop : Nat} (h : s.literalEnd? offset = some stop) :
    offset < stop := by
  unfold literalEnd? at h
  split at h
  · cases h
  · obtain ⟨span, hs, rfl⟩ := Option.map_eq_some_iff.1 h
    simpa using (Option.filter_eq_some_iff.1 hs).2

/-- The first offset from `start` on, outside every literal, at which `needle` stands; none if
`start` lies inside a character or behind the end. Where a literal covers the next place at which it
stands, the search goes on behind that literal. -/
def find? (s : Source) (needle : List Char) (start : Nat) : Option Nat :=
  if _ : start ≤ s.size then
    match textFrom? start s.text with
    | none => none
    | some rest =>
      match occurrence? needle rest with
      | none => none
      | some skipped =>
        match _ : s.literalEnd? (start + skipped) with
        | none => some (start + skipped)
        | some stop => s.find? needle stop
  else none
termination_by s.size + 1 - start
decreasing_by
  have := lt_of_literalEnd? ‹_›
  omega

/-- The offset just behind the bracket that closes the group opened at `start`. -/
def matchBracket (s : Source) (start : Nat) : Except CompileError Nat :=
  match s.glyphsFrom start with
  | [] => .error (s.error start .notABracket)
  | g :: gs =>
    match if g.offset = start then closer? g.char else none with
    | none => .error (s.error start .notABracket)
    | some closer =>
      match splitGroup g.char closer 0 (g :: gs) with
      | some (_, rest) => .ok (s.offsetOf rest)
      | none => .error (s.error start (.unbalanced g.char))

/-- The lines of the text; a line feed inside a literal does not end one. Carriage returns before a
line break and an empty last line are dropped. -/
def lines (s : Source) : List (List Char) :=
  let parts := splitAtBreaks s.glyphs
  let ended := parts.dropLast.map (dropEndWhile (· = '\r'))
  match parts.getLast? with
  | some [] | none => ended
  | some rest => ended ++ [rest]

end Source

end Pagewright
