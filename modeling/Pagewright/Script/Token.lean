import Pagewright.Source

/-!
# Script tokens

The tokens of a script text. Every token keeps the blanks and comments before it, so the text can
be put together again from its tokens and what stands behind the last one (`scriptTokens_text`).
Only the marks that matter for names and scopes have a kind of their own.
-/

namespace Pagewright

/-- The three pairs of brackets. -/
inductive Bracket where
  | round
  | square
  | curly
deriving DecidableEq, Repr

/-- The kinds of script token. -/
inductive ScriptKind where
  | word (name : String)
  | opener (b : Bracket)
  | closer (b : Bracket)
  | comma
  | semicolon
  | colon
  /-- The mark `.`. -/
  | dot
  /-- The mark `?.`. -/
  | optionalDot
  /-- The mark `...`. -/
  | spread
  /-- The mark `=>`. -/
  | arrow
  /-- Any other character. -/
  | other (c : Char)
  /-- A string, template or regular expression. -/
  | literal
  | number
deriving DecidableEq, Repr

/-- A script token. -/
structure ScriptToken where
  kind : ScriptKind
  /-- Its offset in the text. -/
  start : Nat
  /-- The blanks and comments before it. -/
  gap : List Char
  /-- The token as it was written. -/
  text : List Char
deriving DecidableEq, Repr

/-- Whether a literal is a comment. -/
def LiteralKind.isComment : LiteralKind → Bool
  | lineComment | blockComment => true
  | quoted _ | pattern => false

/-- The characters of code at the front that satisfy `p`, and the pieces behind them. -/
def codeWhile (p : Char → Bool) : List Piece → List Char × List Piece
  | .code c :: ps =>
    if p c then (c :: (codeWhile p ps).1, (codeWhile p ps).2) else ([], .code c :: ps)
  | ps => ([], ps)

theorem codeWhile_length_le (p : Char → Bool) (ps : List Piece) : (codeWhile p ps).2.length ≤ ps.length := by
  fun_induction codeWhile p ps with
  | case1 c ps _ ih => simp only [List.length_cons]; omega
  | case2 => simp
  | case3 => simp

/-- The characters and the pieces behind them make up the pieces. -/
theorem codeWhile_pieces (p : Char → Bool) (ps : List Piece) :
    (codeWhile p ps).1.map .code ++ (codeWhile p ps).2 = ps := by
  fun_induction codeWhile p ps with
  | case1 c ps _ ih => simp [ih]
  | case2 => rfl
  | case3 => rfl

/-- A character that can continue a number. -/
def isNumberPart (c : Char) : Bool := isAlphanumeric c || c = '.' || c = '_'

/-- The kind of a mark that is one character. -/
def markKind : Char → ScriptKind
  | '(' => .opener .round
  | '[' => .opener .square
  | '{' => .opener .curly
  | ')' => .closer .round
  | ']' => .closer .square
  | '}' => .closer .curly
  | ',' => .comma
  | ';' => .semicolon
  | ':' => .colon
  | '.' => .dot
  | c => .other c

/-- Whether the pieces begin with a decimal digit. -/
def beginsWithDigit : List Piece → Bool
  | .code c :: _ => c.isDigit
  | _ => false

/-- The mark at the front: its kind, its text and the pieces behind it. `?.` is not read before a
digit, where the point belongs to a number. -/
def lexMark : Char → List Piece → ScriptKind × List Char × List Piece
  | '.', .code '.' :: .code '.' :: ps => (.spread, ['.', '.', '.'], ps)
  | '=', .code '>' :: ps => (.arrow, ['=', '>'], ps)
  | '?', .code '.' :: ps =>
    if beginsWithDigit ps then (.other '?', ['?'], .code '.' :: ps)
    else (.optionalDot, ['?', '.'], ps)
  | c, ps => (markKind c, [c], ps)

/-- The token that begins with the character `c`, which is not blank: its kind, its text and the
pieces behind it. -/
def lexScript (c : Char) (ps : List Piece) : ScriptKind × List Char × List Piece :=
  if isNameStart c then
    (.word (String.ofList (c :: (codeWhile isNameChar ps).1)), c :: (codeWhile isNameChar ps).1,
      (codeWhile isNameChar ps).2)
  else if c.isDigit then
    (.number, c :: (codeWhile isNumberPart ps).1, (codeWhile isNumberPart ps).2)
  else lexMark c ps

theorem lexMark_length_le (c : Char) (ps : List Piece) : (lexMark c ps).2.2.length ≤ ps.length := by
  unfold lexMark
  split <;> try split
  all_goals simp only [List.length_cons]; omega

theorem lexMark_pieces (c : Char) (ps : List Piece) :
    (lexMark c ps).2.1.map .code ++ (lexMark c ps).2.2 = .code c :: ps := by
  unfold lexMark
  split <;> try split
  all_goals rfl

theorem lexScript_length_le (c : Char) (ps : List Piece) : (lexScript c ps).2.2.length ≤ ps.length := by
  unfold lexScript
  split
  · exact codeWhile_length_le _ _
  · split
    · exact codeWhile_length_le _ _
    · exact lexMark_length_le c ps

/-- A token that begins with a character of code is made of characters of code. -/
theorem lexScript_pieces (c : Char) (ps : List Piece) :
    (lexScript c ps).2.1.map .code ++ (lexScript c ps).2.2 = .code c :: ps := by
  unfold lexScript
  split
  · simp [codeWhile_pieces]
  · split
    · simp [codeWhile_pieces]
    · exact lexMark_pieces c ps

theorem lexScript_chars (c : Char) (ps : List Piece) :
    (lexScript c ps).2.1 ++ (lexScript c ps).2.2.flatMap Piece.chars = c :: ps.flatMap Piece.chars := by
  have hp := congrArg (List.flatMap Piece.chars) (lexScript_pieces c ps)
  rwa [List.flatMap_append, flatMap_chars_map_code] at hp

/-- The tokens of the pieces of a text, and what stands behind the last one. The pieces begin at
`offset`, behind the blanks and comments in `gap`. -/
def scriptTokensFrom (offset : Nat) (gap : List Char) (ps : List Piece) :
    List ScriptToken × List Char :=
  match ps with
  | [] => ([], gap)
  | .literal kind text :: ps =>
    if kind.isComment then scriptTokensFrom (offset + byteSize text) (gap ++ text) ps
    else
      (⟨.literal, offset, gap, text⟩ :: (scriptTokensFrom (offset + byteSize text) [] ps).1,
        (scriptTokensFrom (offset + byteSize text) [] ps).2)
  | .code c :: ps =>
    if isBlank c then scriptTokensFrom (offset + c.utf8Size) (gap ++ [c]) ps
    else
      (⟨(lexScript c ps).1, offset, gap, (lexScript c ps).2.1⟩ ::
          (scriptTokensFrom (offset + byteSize (lexScript c ps).2.1) [] (lexScript c ps).2.2).1,
        (scriptTokensFrom (offset + byteSize (lexScript c ps).2.1) [] (lexScript c ps).2.2).2)
termination_by ps.length
decreasing_by
  · simp
  · simp
  · simp
  · exact Nat.lt_succ_of_le (lexScript_length_le c ps)

/-- The tokens of a source, and what stands behind the last one. -/
def Source.scriptTokens (s : Source) : List ScriptToken × List Char := scriptTokensFrom 0 [] s.pieces

/-- A token with what stands before it. -/
def ScriptToken.chars (t : ScriptToken) : List Char := t.gap ++ t.text

theorem scriptTokensFrom_chars (offset : Nat) (gap : List Char) (ps : List Piece) :
    (scriptTokensFrom offset gap ps).1.flatMap ScriptToken.chars ++ (scriptTokensFrom offset gap ps).2 =
      gap ++ ps.flatMap Piece.chars := by
  fun_induction scriptTokensFrom offset gap ps with
  | case1 => simp
  | case2 offset gap kind text ps _ ih => simp [ih, Piece.chars]
  | case3 offset gap kind text ps _ ih =>
    simp only [List.flatMap_cons, List.append_assoc, ScriptToken.chars, ih, Piece.chars]
    simp
  | case4 offset gap c ps _ ih => simp [ih, Piece.chars]
  | case5 offset gap c ps _ ih =>
    simp only [List.flatMap_cons, List.append_assoc, ScriptToken.chars, ih, Piece.chars]
    simp [lexScript_chars]

/-- The tokens and what stands behind them make up the text. -/
theorem Source.scriptTokens_text (s : Source) :
    s.scriptTokens.1.flatMap ScriptToken.chars ++ s.scriptTokens.2 = s.text := by
  rw [scriptTokens, scriptTokensFrom_chars, s.chars_pieces, List.nil_append]

end Pagewright
