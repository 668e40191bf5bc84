import Pagewright.Reader.Basic

/-!
# Raw texts

Bodies, parameter lists and values are not read but cut out: a body up to the brace that closes it,
a value up to the semicolon or closing bracket behind it. Brackets inside are passed over whole.
-/

namespace Pagewright

/-- What stands between the brackets of a group. -/
def insideGroup (group : List Glyph) : List Glyph := (group.drop 1).dropLast

/-- The parts of the glyphs between those that stand at one of the offsets. -/
def splitAtOffsets (offsets : List Nat) : List Glyph → List (List Char)
  | [] => [[]]
  | g :: gs =>
    if offsets.contains g.offset then [] :: splitAtOffsets offsets gs
    else match splitAtOffsets offsets gs with
      | [] => [[g.char]]
      | part :: parts => (g.char :: part) :: parts

namespace Source

/-- Reads a group from its opening to its closing bracket. -/
def readGroup (s : Source) (opener closer : Char) (gs : List Glyph) :
    Except CompileError (Read (List Glyph) gs.length) := do
  let first ← s.readMark opener gs
  match h : splitGroup opener closer 0 (skipTrivia gs) with
  | some (group, rest) =>
    return ⟨group, rest, Nat.lt_of_lt_of_le (splitGroup_length h) (skipTrivia_length_le gs)⟩
  | none => throw (s.error first.value.start (.unbalanced opener))

/-- Reads a block in braces; gives what stands inside and where that begins. -/
def readBlock (s : Source) (gs : List Glyph) :
    Except CompileError (Read (String × Nat) gs.length) := do
  let r ← s.readGroup '{' '}' gs
  return r.map fun group =>
    (String.ofList (glyphText (insideGroup group)), s.offsetOf (group.take 1) + 1)

/-- The offsets of the commas before `stop` that stand inside no group. -/
def topCommas (s : Source) (stop : Nat) (gs : List Glyph) : Except CompileError (List Nat) :=
  match gs with
  | [] => .ok []
  | g :: rest =>
    if stop ≤ g.offset then .ok []
    else if g.cover.isSome then s.topCommas stop rest
    else match closer? g.char with
      | some closer =>
        match _h : splitGroup g.char closer 0 (g :: rest) with
        | some (_, after) => s.topCommas stop after
        | none => .error (s.error g.offset (.unbalanced g.char))
      | none =>
        if g.char = ',' then (s.topCommas stop rest).map (g.offset :: ·) else s.topCommas stop rest
termination_by gs.length
decreasing_by all_goals first | simp; done | exact splitGroup_length ‹_›

/-- Reads a parameter list; gives the parameters without blanks around them. -/
def readParams (s : Source) (gs : List Glyph) :
    Except CompileError (Read (List String) gs.length) := do
  let r ← s.readGroup '(' ')' gs
  let inside := (skipTrivia gs).drop 1
  let stop := s.offsetOf (r.value.drop (r.value.length - 1))
  let commas ← s.topCommas stop inside
  let parts := (splitAtOffsets commas (insideGroup r.value)).map trim
  return r.map fun _ => (parts.filter (!·.isEmpty)).map String.ofList

/-- Cuts off a value, which began at `start`. A semicolon behind it is dropped, a closing bracket
stays. -/
def cutValue (s : Source) (start : Nat) (gs : List Glyph) :
    Except CompileError (Read (List Glyph) (gs.length + 1)) :=
  match gs with
  | [] => .error (s.error start .unterminatedValue)
  | g :: rest =>
    if g.cover.isSome then do
      let r ← s.cutValue start rest
      return (r.map (g :: ·)).weaken (by simp)
    else match closer? g.char with
      | some closer =>
        match h : splitGroup g.char closer 0 (g :: rest) with
        | some (group, after) => do
          let r ← s.cutValue start after
          return (r.map (group ++ ·)).weaken (by have := splitGroup_length h; omega)
        | none => .error (s.error g.offset (.unbalanced g.char))
      | none =>
        if g.char = ';' then .ok ⟨[], rest, by simp only [List.length_cons]; omega⟩
        else if isCloser g.char then .ok ⟨[], g :: rest, by simp⟩
        else do
          let r ← s.cutValue start rest
          return (r.map (g :: ·)).weaken (by simp)
termination_by gs.length
decreasing_by all_goals first | simp; done | exact splitGroup_length h

/-- Reads a value without blanks around it. -/
def readValue (s : Source) (gs : List Glyph) :
    Except CompileError (Read String (gs.length + 1)) := do
  let r ← s.cutValue (s.offsetOf gs) gs
  return r.map fun value => String.ofList (trim (glyphText value))

end Source

end Pagewright
