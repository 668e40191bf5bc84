import Pagewright.Error
import Pagewright.Text.Blank
import Pagewright.Text.Letter

/-!
# Literals of a text

Member bodies hold script code as it stands, so every search over a source has to pass over the
strings, templates, patterns and comments of that code without looking inside. `pieces` cuts a text
into single characters of code and whole literals; nothing is lost (`pieces_chars`), and everything
else about literals is read off the pieces.

A slash is the hard case: it begins a comment, begins a pattern, or divides. Which of the two last
ones it is depends on what stands before it, and `ScanContext` keeps just that much: the last
character that is neither blank nor comment, and the text from the beginning of the last word on.
-/

namespace Pagewright

variable {cs text : List Char}

/-- The kinds of literal. -/
inductive LiteralKind where
  /-- A string or template between two equal quotes. -/
  | quoted (quote : Char)
  /-- A comment up to the end of its line. -/
  | lineComment
  /-- A comment between `/*` and `*/`. -/
  | blockComment
  /-- A regular expression with its flags. -/
  | pattern
deriving DecidableEq, Repr

/-- A part of a text: one character of code, or a literal as it was written. -/
inductive Piece where
  | code (c : Char)
  | literal (kind : LiteralKind) (text : List Char)
deriving DecidableEq, Repr

/-- The characters of a piece. -/
def Piece.chars : Piece → List Char
  | code c => [c]
  | literal _ text => text

/-! ### How far a literal reaches

Each function takes the text behind the beginning of a literal and counts the characters up to and
including its end, if there is one. A backslash takes the next character with it.
-/

/-- The rest of a string, which ends on its line, or of a template, which need not. -/
def quotedLength (quote : Char) : List Char → Option Nat
  | [] => none
  | '\\' :: _ :: cs => (quotedLength quote cs).map (· + 2)
  | c :: cs =>
    if c = '\n' && quote != '`' then none
    else if c = quote then some 1
    else (quotedLength quote cs).map (· + 1)

/-- The rest of a block comment. -/
def commentLength : List Char → Option Nat
  | [] => none
  | '*' :: '/' :: _ => some 2
  | _ :: cs => (commentLength cs).map (· + 1)

/-- The rest of a pattern, which ends on its line; a slash in square brackets does not end it, and
letters behind its end are flags. -/
def patternLength (bracketed : Bool) : List Char → Option Nat
  | [] => none
  | '\\' :: _ :: cs => (patternLength bracketed cs).map (· + 2)
  | c :: cs =>
    if c = '\n' then none
    else if c = '/' && !bracketed then some (1 + (cs.takeWhile Char.isAlpha).length)
    else if c = '[' then (patternLength true cs).map (· + 1)
    else if c = ']' then (patternLength false cs).map (· + 1)
    else (patternLength bracketed cs).map (· + 1)

/-! ### What stands before -/

/-- What the meaning of a slash or a doubled sign depends on. -/
structure ScanContext where
  /-- The last character that is neither blank nor part of a comment. -/
  last : Option Char := none
  /-- The text from the beginning of the last word on. -/
  word : List Char := []
  /-- Whether the character just before is blank. -/
  spaced : Bool := false

/-- Words after which a slash begins a pattern. -/
def patternWords : List String :=
  ["return", "typeof", "case", "do", "else", "in", "of", "void", "yield", "await", "delete"]

/-- Marks after which a slash begins a pattern. -/
def patternMarks : List Char :=
  ['(', ',', '=', ':', '[', '!', '&', '|', '?', '{', '}', ';', '+', '-', '*', '%', '<', '>', '~', '^']

namespace ScanContext

/-- Whether a slash would begin a pattern here. -/
def allowsPattern (ctx : ScanContext) : Bool :=
  match ctx.last with
  | none => true
  | some c =>
    if isPlainWordChar c then patternWords.contains (String.ofList (ctx.word.takeWhile isPlainWordChar))
    else patternMarks.contains c

/-- Whether an operand has just ended, so that a doubled sign belongs to it. -/
def endsOperand (ctx : ScanContext) : Bool :=
  ctx.last.any fun c => isPlainWordChar c || c = ')' || c = ']'

/-- The context behind the character `c` of code, with `rest` to follow. -/
def afterCode (ctx : ScanContext) (c : Char) (rest : List Char) : ScanContext :=
  if isPlainBlank c then { ctx with spaced := true }
  else if isPlainWordChar c && (!ctx.last.any isPlainWordChar || ctx.spaced) then
    ⟨some c, c :: rest, false⟩
  else ⟨some c, ctx.word, false⟩

/-- The context behind a literal. A comment leaves what stood before it in force. -/
def afterLiteral (ctx : ScanContext) : LiteralKind → ScanContext
  | .quoted quote => ⟨some quote, ctx.word, false⟩
  | .pattern => ⟨some '/', ctx.word, false⟩
  | .lineComment | .blockComment => { ctx with spaced := false }

/-- The context behind a doubled sign that belongs to an operand. -/
def afterStep (ctx : ScanContext) : ScanContext := ⟨some ')', ctx.word, false⟩

end ScanContext

/-! ### The pieces of a text -/

/-- What begins at a character. -/
inductive Opening where
  /-- A literal, with the number of characters that follow its first one. -/
  | literal (kind : LiteralKind) (length : Nat)
  /-- A literal that does not end. -/
  | unterminated (fault : ParseFault)
  /-- A doubled sign behind an operand. -/
  | doubled
  /-- Code. -/
  | plain

/-- What begins at the character `c`, with `rest` to follow. -/
def opening (ctx : ScanContext) (c : Char) (rest : List Char) : Opening :=
  if c = '\'' || c = '"' || c = '`' then
    match quotedLength c rest with
    | some n => .literal (.quoted c) n
    | none => .unterminated (.unterminatedQuote c)
  else if c = '/' && rest.head? = some '/' then
    .literal .lineComment (rest.takeWhile (· != '\n')).length
  else if c = '/' && rest.head? = some '*' then
    match commentLength (rest.drop 1) with
    | some n => .literal .blockComment (n + 1)
    | none => .unterminated .unterminatedComment
  else if (c = '+' || c = '-') && rest.head? = some c && ctx.endsOperand then .doubled
  else if c = '/' && ctx.allowsPattern then
    match patternLength false rest with
    | some n => .literal .pattern n
    | none => .plain
  else .plain

/-- A literal that does not end, and the offset of its beginning. -/
structure Unterminated where
  fault : ParseFault
  offset : Nat
deriving Repr

/-- The pieces of the text `cs`, which begins at `offset` in the context `ctx`. -/
def piecesFrom (ctx : ScanContext) (offset : Nat) (cs : List Char) :
    Except Unterminated (List Piece) :=
  match cs with
  | [] => .ok []
  | c :: rest =>
    match opening ctx c rest with
    | .literal kind n =>
      (piecesFrom (ctx.afterLiteral kind) (offset + byteSize (c :: rest.take n)) (rest.drop n)).map
        (.literal kind (c :: rest.take n) :: ·)
    | .unterminated fault => .error ⟨fault, offset⟩
    | .doubled =>
      (piecesFrom ctx.afterStep (offset + byteSize (c :: rest.take 1)) (rest.drop 1)).map
        ((c :: rest.take 1).map .code ++ ·)
    | .plain =>
      (piecesFrom (ctx.afterCode c rest) (offset + c.utf8Size) rest).map (.code c :: ·)
termination_by cs.length
decreasing_by all_goals simp; try omega

/-- The pieces of a text. -/
def pieces (text : List Char) : Except Unterminated (List Piece) := piecesFrom {} 0 text

theorem flatMap_chars_map_code (cs : List Char) : (cs.map Piece.code).flatMap Piece.chars = cs := by
  induction cs with
  | nil => rfl
  | cons c cs ih => simp [Piece.chars, ih]

/-- A mapped result succeeds only when the result does. -/
theorem exists_of_map_eq_ok {ε α β : Type} {f : α → β} {r : Except ε α} {b : β}
    (h : r.map f = .ok b) : ∃ a, r = .ok a ∧ f a = b := by
  cases r with
  | error e => cases h
  | ok a => exact ⟨a, rfl, Except.ok.inj h⟩

/-- Two steps succeed when the first does and then the second. -/
theorem bind_eq_ok {ε α β : Type} {x : Except ε α} {f : α → Except ε β} {b : β} :
    (x >>= f) = .ok b ↔ ∃ a, x = .ok a ∧ f a = .ok b := by
  cases x with
  | error e =>
    constructor
    · rintro ⟨⟩
    · rintro ⟨_, ⟨⟩, _⟩
  | ok a =>
    constructor
    · exact fun h => ⟨a, rfl, h⟩
    · rintro ⟨_, ⟨⟩, h⟩
      exact h

theorem eq_error_of_map_eq_error {ε α β : Type} {f : α → β} {r : Except ε α} {e : ε} (h : r.map f = .error e) : r = .error e := by
  cases r with
  | error e' =>
    cases h
    rfl
  | ok a => cases h

theorem of_bind_eq_error {ε α β : Type} {x : Except ε α} {f : α → Except ε β} {e : ε}
    (h : (x >>= f) = .error e) : x = .error e ∨ ∃ a, x = .ok a ∧ f a = .error e := by
  cases x with
  | error e' =>
    cases h
    exact .inl rfl
  | ok a => exact .inr ⟨a, rfl, h⟩

/-- That a computation succeeds, and what holds of its result, is seen by running it. -/
instance decidableExistsOk {ε α : Type} {r : Except ε α} {P : α → Prop} [DecidablePred P] :
    Decidable (∃ a, r = .ok a ∧ P a) :=
  match r with
  | .error _ => .isFalse fun ⟨_, h, _⟩ => by cases h
  | .ok a => decidable_of_iff (P a) ⟨fun h => ⟨a, rfl, h⟩, fun ⟨_, h, hp⟩ => Except.ok.inj h ▸ hp⟩

instance decidableIsOk {ε α : Type} {r : Except ε α} : Decidable (∃ a, r = .ok a) :=
  decidable_of_iff (∃ a, r = .ok a ∧ True) (by simp only [and_true])

instance (priority := low) decidableEqOk {ε α : Type} [DecidableEq α] (r : Except ε α) (a : α) : Decidable (r = .ok a) :=
  match r with
  | .error _ => .isFalse fun h => by cases h
  | .ok b => decidable_of_iff (b = a) (by rw [Except.ok.injEq])

/-- The pieces of a text put together are the text, wherever it begins. -/
theorem piecesFrom_chars {ctx : ScanContext} {offset : Nat} {ps : List Piece}
    (h : piecesFrom ctx offset cs = .ok ps) : ps.flatMap Piece.chars = cs := by
  fun_induction piecesFrom ctx offset cs generalizing ps with
  | case1 => cases h; rfl
  | case2 ctx offset c rest kind n _ ih =>
    obtain ⟨qs, hq, rfl⟩ := exists_of_map_eq_ok h
    simp [Piece.chars, ih hq]
  | case3 => cases h
  | case4 ctx offset c rest _ ih =>
    obtain ⟨qs, hq, rfl⟩ := exists_of_map_eq_ok h
    rw [List.flatMap_append, flatMap_chars_map_code, ih hq]
    simp only [List.cons_append, List.take_append_drop]
  | case5 ctx offset c rest _ ih =>
    obtain ⟨qs, hq, rfl⟩ := exists_of_map_eq_ok h
    simp [Piece.chars, ih hq]

/-- The pieces of a text put together are the text. -/
theorem pieces_chars {ps : List Piece} (h : pieces text = .ok ps) : ps.flatMap Piece.chars = text :=
  piecesFrom_chars h

end Pagewright
