/-!
# Offsets and positions

Offsets into a text count bytes of its UTF-8 form; positions count lines and characters from one,
and only a line feed starts a line. `Position.ofOffset` turns the first into the second. An offset
inside a character stands behind that character, one past the end stands at the end.
-/

namespace Pagewright

/-- The number of bytes of a text in UTF-8. -/
def byteSize : List Char → Nat
  | [] => 0
  | c :: cs => c.utf8Size + byteSize cs

@[simp] theorem byteSize_append (cs ds : List Char) :
    byteSize (cs ++ ds) = byteSize cs + byteSize ds := by
  induction cs with
  | nil => simp [byteSize]
  | cons c cs ih => simp [byteSize, ih, Nat.add_assoc]

/-- A line and a column, both counted from one. -/
structure Position where
  line : Nat
  column : Nat
deriving DecidableEq, Repr

namespace Position

/-- The place of the first character. -/
def first : Position := ⟨1, 1⟩

/-- The place after a character at `p`. -/
def next (p : Position) (c : Char) : Position :=
  if c = '\n' then ⟨p.line + 1, 1⟩ else ⟨p.line, p.column + 1⟩

/-- The place `offset` bytes into a text that begins at `p`. -/
def advance (p : Position) : List Char → Nat → Position
  | _, 0 => p
  | [], _ => p
  | c :: cs, n + 1 => (p.next c).advance cs (n + 1 - c.utf8Size)

/-- The position of a byte offset. -/
def ofOffset (text : List Char) (offset : Nat) : Position := first.advance text offset

/-- The place, in the whole text, of a position counted in a part that begins at `base`. -/
def relativeTo (p base : Position) : Position :=
  if p.line = 1 then ⟨base.line, base.column + p.column - 1⟩
  else ⟨base.line + p.line - 1, p.column⟩

/-- Line and column with a colon between them. -/
def render (p : Position) : String := s!"{p.line}:{p.column}"

end Position

end Pagewright
