import Pagewright.Token

/-!
# Reading steps

A reader takes a value off the front of the remaining glyphs. Its result says what is left and that
this is less than there was, so a loop of readers comes to an end.
-/

namespace Pagewright

/-- A value that was read, and a rest shorter than `n`. -/
structure Read (α : Type) (n : Nat) where
  value : α
  rest : List Glyph
  rest_lt : rest.length < n

namespace Read

/-- The same result under a larger bound. -/
def weaken {α : Type} {m n : Nat} (r : Read α m) (h : m ≤ n) : Read α n :=
  ⟨r.value, r.rest, Nat.lt_of_lt_of_le r.rest_lt h⟩

/-- The result with its value changed. -/
def map {α β : Type} {n : Nat} (f : α → β) (r : Read α n) : Read β n :=
  ⟨f r.value, r.rest, r.rest_lt⟩

/-- What was read behind `r`, as read together with it. -/
def followedBy {α β : Type} {n : Nat} (r : Read α n) (q : Read β r.rest.length) : Read β n :=
  q.weaken (Nat.le_of_lt r.rest_lt)

/-- What was read behind `r`, if anything was, as read together with it. -/
def followedByAny {α β : Type} {n : Nat} (r : Read α n) (q : Read β (r.rest.length + 1)) : Read β n :=
  q.weaken r.rest_lt

/-- The result where nothing had to be read. -/
def relax {α : Type} {n : Nat} (r : Read α n) : Read α (n + 1) := r.weaken (Nat.le_succ n)

/-- Nothing is read. -/
def nothing {α : Type} (value : α) (gs : List Glyph) : Read α (gs.length + 1) :=
  ⟨value, gs, Nat.lt_succ_self _⟩

end Read

namespace Source

/-- Something else stands where `what` should. -/
def unexpected (s : Source) (found : Token) (what : String) : CompileError :=
  s.error found.start (.expected what found.describe)

/-- Takes a token of kind `kind`, if it comes next. -/
def take? (s : Source) (kind : TokenKind) (h : kind ≠ .eof) (gs : List Glyph) :
    Option (Read Token gs.length) :=
  if heq : (s.token gs).token.kind = kind then
    some ⟨(s.token gs).token, (s.token gs).rest, (s.token gs).rest_lt (by rw [heq]; exact h)⟩
  else none

/-- Takes the mark `c`, if it comes next. -/
def takeMark? (s : Source) (c : Char) (gs : List Glyph) : Option (Read Token gs.length) :=
  s.take? (.mark c) (by simp) gs

/-- Takes the word `name`, if it comes next. -/
def takeWord? (s : Source) (name : String) (gs : List Glyph) : Option (Read Token gs.length) :=
  s.take? (.word name) (by simp) gs

/-- Reads the mark `c`. -/
def readMark (s : Source) (c : Char) (gs : List Glyph) : Except CompileError (Read Token gs.length) :=
  match s.takeMark? c gs with
  | some r => .ok r
  | none => .error (s.unexpected (s.token gs).token s!"'{c}'")

/-- Reads any word. -/
def readWord (s : Source) (what : String) (gs : List Glyph) :
    Except CompileError (Read String gs.length) :=
  match h : (s.token gs).token.kind with
  | .word name => .ok ⟨name, (s.token gs).rest, (s.token gs).rest_lt_of_word h⟩
  | _ => .error (s.unexpected (s.token gs).token what)

/-- Reads a word that a script can use as a name. -/
def readName (s : Source) (what : String) (gs : List Glyph) :
    Except CompileError (Read String gs.length) := do
  let r ← s.readWord what gs
  if r.value.toList.contains '-' then
    throw (s.error (s.token gs).token.start (.invalidName what r.value))
  return r

/-- The token behind the first one. -/
def secondToken (s : Source) (gs : List Glyph) : Token := (s.token (s.token gs).rest).token

end Source

end Pagewright
