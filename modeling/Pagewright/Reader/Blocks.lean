import Pagewright.ClassTable.Basic
import Pagewright.Reader.Class
import Pagewright.Reader.Page

/-!
# Class blocks

Classes stand between the instances of a page. `Source.classBlocks` finds the range of each,
passing over instances whole; `ClassTable.ofText` reads the classes in these ranges, and
`classlessText` blanks the ranges out, so that offsets and lines of what remains stay as they were.
-/

namespace Pagewright

/-- The glyphs from the first uncovered place on where the word stands with a blank behind it and no
part of a word before it, `before` being what stands there. -/
def findKeyword (word : List Char) (before : Option Char) : List Glyph → Option (List Glyph)
  | [] => none
  | g :: gs =>
    if g.cover.isNone && startsWith word (g :: gs) && !before.any isWordPart &&
        ((g :: gs).drop word.length).head?.any (isBlank ·.char) then
      some (g :: gs)
    else findKeyword word (some g.char) gs

theorem findKeyword_length_le {word : List Char} {before : Option Char} {gs found : List Glyph}
    (h : findKeyword word before gs = some found) : found.length ≤ gs.length := by
  induction gs generalizing before with
  | nil => simp [findKeyword] at h
  | cons g gs ih =>
    unfold findKeyword at h
    split at h
    · cases h; simp
    · have := ih h
      simp only [List.length_cons]; omega

namespace Source

/-- Reads the braced group at the front of `gs` and gives what follows it. -/
def skipBraces (s : Source) (gs : List Glyph) :
    Except CompileError { rest : List Glyph // rest.length < gs.length } :=
  match h : splitGroup '{' '}' 0 gs with
  | some (_, rest) => .ok ⟨rest, splitGroup_length h⟩
  | none => .error (s.error (s.offsetOf gs) (.unbalanced '{'))

/-- The ranges of the classes among the glyphs. What stands before the glyphs is no part of a
word. -/
def classBlocksFrom (s : Source) (gs : List Glyph) : Except CompileError (List Span) :=
  match _hk : findKeyword "class".toList none gs with
  | none => .ok []
  | some keyword =>
    let start := s.offsetOf keyword
    match _hb : findGlyphs ['{'] gs with
    | none => .error (s.error start .classWithoutBody)
    | some brace =>
      if s.offsetOf brace < start then do
        let rest ← s.skipBraces brace
        s.classBlocksFrom rest.1
      else match _hc : findGlyphs ['{'] keyword with
        | none => .error (s.error start .classWithoutBody)
        | some body => do
          let rest ← s.skipBraces body
          let blocks ← s.classBlocksFrom rest.1
          return ⟨start, s.offsetOf rest.1⟩ :: blocks
termination_by gs.length
decreasing_by
  · exact Nat.lt_of_lt_of_le rest.2 (findGlyphs_length_le _hb)
  · exact Nat.lt_of_lt_of_le rest.2
      (Nat.le_trans (findGlyphs_length_le _hc) (findKeyword_length_le _hk))

/-- The ranges of the classes of a source. -/
def classBlocks (s : Source) : Except CompileError (List Span) := s.classBlocksFrom s.glyphs

/-- Reads the classes that begin at the offsets given and adds them to the table. -/
def readClasses (s : Source) (table : ClassTable) : List Nat → Except CompileError ClassTable
  | [] => .ok table
  | start :: starts => do
    let c ← s.readClass (s.glyphsFrom start)
    match table.insert? c.value with
    | some table => s.readClasses table starts
    | none => throw (.collision .duplicate c.value.name "class table")

end Source

/-- The classes that a text declares. -/
def ClassTable.ofText (text : List Char) : Except CompileError ClassTable := do
  let s ← Source.ofText text
  let blocks ← s.classBlocks
  s.readClasses .empty (blocks.map Span.start)

/-- Whether an offset lies in a range. -/
def Span.contains (span : Span) (offset : Nat) : Bool := span.start ≤ offset && offset < span.stop

/-- The text with the characters in the ranges replaced by as many spaces as they have bytes, line
feeds excepted. -/
def blankOut (blocks : List Span) (gs : List Glyph) : List Char :=
  gs.flatMap fun g =>
    if g.char != '\n' && blocks.any (·.contains g.offset) then List.replicate g.char.utf8Size ' '
    else [g.char]

/-- The text with its classes blanked out. -/
def classlessText (text : List Char) : Except CompileError (List Char) := do
  let s ← Source.ofText text
  let blocks ← s.classBlocks
  return blankOut blocks s.glyphs

end Pagewright
