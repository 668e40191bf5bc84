import Pagewright.Source

/-!
# Tokens of the page language

Tokens are read on demand from the front of the remaining glyphs: `Source.token` passes over blanks
and comments and takes one token off. A pattern is not a token of this language: its slashes are
marks, and what stands between them is read as if it stood outside.
-/

namespace Pagewright

/-- What a token is. -/
inductive TokenKind where
  /-- A word; behind its first character it may hold `-`. -/
  | word (name : String)
  /-- A quoted literal with its quotes. -/
  | quoted (raw : String)
  /-- A word behind a star. -/
  | directive (name : String)
  /-- Any other character. -/
  | mark (c : Char)
  /-- The end of the text. -/
  | eof
deriving DecidableEq, Repr

/-- A token and the offsets between which it stands. -/
structure Token where
  kind : TokenKind
  start : Nat
  stop : Nat
deriving DecidableEq, Repr

namespace Token

/-- Whether the token is the word given. -/
def isWord (t : Token) (name : String) : Bool := t.kind = .word name

/-- Whether the token is a word. -/
def isAnyWord (t : Token) : Bool :=
  match t.kind with
  | .word _ => true
  | _ => false

/-- Whether the token is the mark given. -/
def isMark (t : Token) (c : Char) : Bool := t.kind = .mark c

/-- How a message names the token. -/
def describe (t : Token) : String :=
  match t.kind with
  | .word name => s!"'{name}'"
  | .quoted raw => raw
  | .directive name => s!"'*{name}'"
  | .mark c => s!"'{c}'"
  | .eof => "end of input"

end Token

/-- A character that can continue a word of the page language. -/
def isWordPart (c : Char) : Bool := isNameChar c || c = '-'

/-- Whether the glyphs begin like a comment. -/
def beginsComment (gs : List Glyph) : Bool :=
  startsWith ['/', '/'] gs || startsWith ['/', '*'] gs

/-- The glyphs that begin at `stop` or behind it. -/
def dropUntil (stop : Nat) (gs : List Glyph) : List Glyph := gs.dropWhile (·.offset < stop)

theorem dropUntil_length_le (stop : Nat) (gs : List Glyph) : (dropUntil stop gs).length ≤ gs.length :=
  (List.dropWhile_sublist _).length_le

/-- Passes over blanks and comments. -/
def skipTrivia (gs : List Glyph) : List Glyph :=
  match gs with
  | [] => []
  | g :: rest =>
    if isBlank g.char then skipTrivia rest
    else match g.cover with
      | some stop => if beginsComment (g :: rest) then skipTrivia (dropUntil stop rest) else g :: rest
      | none => g :: rest
termination_by gs.length
decreasing_by
  · simp
  · have := dropUntil_length_le stop rest
    simp only [List.length_cons]; omega

theorem skipTrivia_length_le (gs : List Glyph) : (skipTrivia gs).length ≤ gs.length := by
  fun_induction skipTrivia gs with
  | case1 => simp
  | case2 g rest _ ih => simp only [List.length_cons]; omega
  | case3 g rest _ stop _ _ ih =>
    have := dropUntil_length_le stop rest
    simp only [List.length_cons]; omega
  | case4 => simp
  | case5 => simp

/-- A token at the front of `gs` and the glyphs behind it. -/
structure Lexeme (gs : List Glyph) where
  token : Token
  rest : List Glyph
  rest_le : rest.length ≤ gs.length
  rest_lt : token.kind ≠ .eof → rest.length < gs.length

namespace Lexeme

variable {gs : List Glyph} {name : String}

theorem rest_lt_of_word (l : Lexeme gs)
    (h : l.token.kind = .word name) : l.rest.length < gs.length :=
  l.rest_lt (by rw [h]; exact TokenKind.noConfusion)

theorem rest_lt_of_directive (l : Lexeme gs)
    (h : l.token.kind = .directive name) : l.rest.length < gs.length :=
  l.rest_lt (by rw [h]; exact TokenKind.noConfusion)

theorem rest_lt_of_brace (l : Lexeme gs) (h : l.token.kind = .mark '}') : l.rest.length < gs.length :=
  l.rest_lt (by rw [h]; exact TokenKind.noConfusion)

end Lexeme

/-- The glyphs of the word at the front. -/
def wordGlyphs (gs : List Glyph) : List Glyph := gs.takeWhile (isWordPart ·.char)

/-- The glyphs behind the word at the front. -/
def afterWord (gs : List Glyph) : List Glyph := gs.dropWhile (isWordPart ·.char)

theorem afterWord_length_le (gs : List Glyph) : (afterWord gs).length ≤ gs.length :=
  (List.dropWhile_sublist _).length_le

/-- The kind of the token at the front of glyphs that are neither blank nor comment, and the
glyphs behind it. -/
def lexHere (g : Glyph) (gs : List Glyph) : TokenKind × List Glyph :=
  match if g.char = '\'' || g.char = '"' || g.char = '`' then g.cover else none with
  | some stop =>
    (.quoted (String.ofList (glyphText (g :: gs.takeWhile (·.offset < stop)))), dropUntil stop gs)
  | none =>
    if isNameStart g.char then
      (.word (String.ofList (glyphText (g :: wordGlyphs gs))), afterWord gs)
    else if g.char = '*' && (gs.head?.any (isNameStart ·.char)) then
      (.directive (String.ofList (glyphText (wordGlyphs gs))), afterWord gs)
    else (.mark g.char, gs)

theorem lexHere_length_le (g : Glyph) (gs : List Glyph) : (lexHere g gs).2.length ≤ gs.length := by
  unfold lexHere
  split
  · exact dropUntil_length_le _ _
  · split
    · exact afterWord_length_le gs
    · split
      · exact afterWord_length_le gs
      · exact Nat.le_refl _

namespace Source

/-- The first token of the glyphs. -/
def token (s : Source) (gs : List Glyph) : Lexeme gs :=
  match h : skipTrivia gs with
  | [] => ⟨⟨.eof, s.size, s.size⟩, [], by simp, by simp⟩
  | g :: after =>
    have hle : (lexHere g after).2.length < gs.length := by
      have h₁ := skipTrivia_length_le gs
      have h₂ := lexHere_length_le g after
      rw [h, List.length_cons] at h₁
      omega
    ⟨⟨(lexHere g after).1, g.offset, s.offsetOf (lexHere g after).2⟩, (lexHere g after).2,
      Nat.le_of_lt hle, fun _ => hle⟩

/-- All tokens of the glyphs, the end included. -/
def tokensFrom (s : Source) (gs : List Glyph) : List Token :=
  if _h : (s.token gs).token.kind = .eof then [(s.token gs).token]
  else (s.token gs).token :: s.tokensFrom (s.token gs).rest
termination_by gs.length
decreasing_by exact (s.token gs).rest_lt ‹_›

/-- All tokens of the text, the end included. -/
def tokens (s : Source) : List Token := s.tokensFrom s.glyphs

end Source

end Pagewright
