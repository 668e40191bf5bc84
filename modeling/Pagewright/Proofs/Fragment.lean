import Pagewright.Script.Qualify

/-!
# A fragment of the script language

Programs as trees: declarations, functions, blocks and expression statements over names, numbers,
strings, member access, calls and arrow functions. Names, numbers and strings carry what makes them
such, so every tree can be printed. Two things are defined on the trees: the lexemes of a program,
and its lexical scoping, where the free occurrences of ambient names are replaced by what they are
reached by (`qualifiedAll`). A name is in scope

* behind `let` and `const`, from the declaration to the end of the block;
* behind `var` and as the name of a function, from the declaration to the end of the function around;
* as a parameter, in the body of the function.
-/

namespace Pagewright

namespace Fragment

/-! ### Names, numbers and strings -/

/-- The words that declare names or open scopes. Other keywords are read as names are. -/
def scopeWords : List String := ["catch", "const", "for", "function", "let", "var"]

/-- A name. -/
structure Identifier where
  first : Char
  others : List Char
  isNameStart_first : isNameStart first = true
  isNameChar_others : others.all isNameChar = true
  not_scopeWord : String.ofList (first :: others) ∉ scopeWords

/-- A name as it is written. -/
def Identifier.text (x : Identifier) : String := String.ofList (x.first :: x.others)

/-- A digit and what may follow it in a number: further digits, letters, points and low lines. -/
structure Digits where
  first : Char
  others : List Char
  isDigit_first : first.isDigit = true
  isNumberPart_others : others.all isNumberPart = true

/-- The sign of an exponent. -/
inductive Sign where
  | plus
  | minus

/-- A sign as it is written. -/
def Sign.char : Sign → Char
  | plus => '+'
  | minus => '-'

/-- A number: digits, with or without a point before them and a signed exponent behind. An unsigned
exponent belongs to the digits. -/
structure Numeral where
  pointed : Bool
  digits : Digits
  exponent? : Option (Sign × Digits)

/-- A character inside a string, or one with a backslash before it. -/
inductive QuotedChar where
  | plain (c : Char)
  | escaped (c : Char)

/-- A character inside a string as it is written. -/
def QuotedChar.chars : QuotedChar → List Char
  | plain c => [c]
  | escaped c => ['\\', c]

/-- A string between two equal quotes. -/
structure QuotedText where
  quote : Char
  inside : List QuotedChar
  isQuote : quote = '\'' ∨ quote = '"'
  plain_inside : ∀ c, .plain c ∈ inside → c ≠ quote ∧ c ≠ '\\' ∧ c ≠ '\n'

/-- A string as it is written. -/
def QuotedText.chars (t : QuotedText) : List Char :=
  t.quote :: t.inside.flatMap QuotedChar.chars ++ [t.quote]

/-! ### Programs -/

/-- The words that declare a name with a value. -/
inductive DeclarationWord where
  | letWord
  | constWord
  | varWord

/-- A word as it is written. -/
def DeclarationWord.text : DeclarationWord → String
  | letWord => "let"
  | constWord => "const"
  | varWord => "var"

mutual
/-- What members are taken of and what is called. -/
inductive Operand where
  | name (x : Identifier)
  | member (b : Operand) (x : Identifier)
  | call (b : Operand) (args : List Expr)
/-- An expression. -/
inductive Expr where
  | operand (b : Operand)
  | number (n : Numeral)
  | text (t : QuotedText)
  /-- An arrow function with a list of parameters and a block. -/
  | function (params : List Identifier) (body : List Stmt)
  /-- An arrow function with one bare parameter and an expression. -/
  | arrow (x : Identifier) (body : Expr)
/-- A statement. -/
inductive Stmt where
  | declare (word : DeclarationWord) (x : Identifier) (value : Expr)
  | function (f : Identifier) (params : List Identifier) (body : List Stmt)
  | block (body : List Stmt)
  | expression (e : Expr)
end

/-! ### Printing -/

/-- A token without its place. -/
structure Lexeme where
  kind : ScriptKind
  gap : List Char
  text : List Char

/-- A lexeme with what stands before it. -/
def Lexeme.chars (l : Lexeme) : List Char := l.gap ++ l.text

/-- A word behind a gap. -/
def word (gap : List Char) (name : String) : Lexeme := ⟨.word name, gap, name.toList⟩

/-- A mark of one character behind a gap. -/
def mark (gap : List Char) (c : Char) : Lexeme := ⟨markKind c, gap, [c]⟩

/-- The mark of an arrow function. -/
def arrowMark : Lexeme := ⟨.arrow, [' '], ['=', '>']⟩

/-- Digits behind a gap. -/
def Digits.lexeme (gap : List Char) (d : Digits) : Lexeme := ⟨.number, gap, d.first :: d.others⟩

/-- A signed exponent. -/
def exponentLexemes : Option (Sign × Digits) → List Lexeme
  | none => []
  | some (sign, digits) => [mark [] sign.char, digits.lexeme []]

/-- A number behind a gap. -/
def Numeral.lexemes (gap : List Char) (n : Numeral) : List Lexeme :=
  (if n.pointed then [mark gap '.', n.digits.lexeme []] else [n.digits.lexeme gap]) ++
    exponentLexemes n.exponent?

/-- The parameters behind the first one. -/
def moreParams : List Identifier → List Lexeme
  | [] => []
  | x :: xs => mark [] ',' :: word [' '] x.text :: moreParams xs

/-- Parameters with commas between them. -/
def paramLexemes : List Identifier → List Lexeme
  | [] => []
  | x :: xs => word [] x.text :: moreParams xs

mutual
/-- The lexemes of an operand, the first behind a gap. -/
def Operand.lexemes (gap : List Char) : Operand → List Lexeme
  | .name x => [word gap x.text]
  | .member b x => b.lexemes gap ++ [mark [] '.', word [] x.text]
  | .call b args => b.lexemes gap ++ mark [] '(' :: argLexemes args ++ [mark [] ')']
/-- The lexemes of an expression, the first behind a gap. -/
def Expr.lexemes (gap : List Char) : Expr → List Lexeme
  | .operand b => b.lexemes gap
  | .number n => n.lexemes gap
  | .text t => [⟨.literal, gap, t.chars⟩]
  | .function params body =>
    mark gap '(' :: paramLexemes params ++ mark [] ')' :: arrowMark :: mark [' '] '{' ::
      stmtLexemes [' '] body ++ [mark [' '] '}']
  | .arrow x body => word gap x.text :: arrowMark :: body.lexemes [' ']
/-- The lexemes of a statement, the first behind a gap. -/
def Stmt.lexemes (gap : List Char) : Stmt → List Lexeme
  | .declare w x value =>
    word gap w.text :: word [' '] x.text :: mark [' '] '=' :: value.lexemes [' '] ++ [mark [] ';']
  | .function f params body =>
    word gap "function" :: word [' '] f.text :: mark [] '(' :: paramLexemes params ++
      mark [] ')' :: mark [' '] '{' :: stmtLexemes [' '] body ++ [mark [' '] '}']
  | .block body => mark gap '{' :: stmtLexemes [' '] body ++ [mark [' '] '}']
  | .expression e => e.lexemes gap ++ [mark [] ';']
/-- The arguments of a call with commas between them. -/
def argLexemes : List Expr → List Lexeme
  | [] => []
  | e :: es => e.lexemes [] ++ moreArgs es
/-- The arguments behind the first one. -/
def moreArgs : List Expr → List Lexeme
  | [] => []
  | e :: es => mark [] ',' :: e.lexemes [' '] ++ moreArgs es
/-- Statements, the first behind a gap and each other behind a space. -/
def stmtLexemes (gap : List Char) : List Stmt → List Lexeme
  | [] => []
  | st :: sts => st.lexemes gap ++ stmtLexemes [' '] sts
end

/-- Parameters in brackets. -/
def paramGroup (gap : List Char) (params : List Identifier) : List Lexeme :=
  mark gap '(' :: paramLexemes params ++ [mark [] ')']

/-- A block. -/
def blockLexemes (gap : List Char) (body : List Stmt) : List Lexeme :=
  mark gap '{' :: stmtLexemes [' '] body ++ [mark [' '] '}']

theorem Expr.lexemes_function (gap : List Char) (params : List Identifier) (body : List Stmt) :
    (function params body).lexemes gap = paramGroup gap params ++ (arrowMark :: blockLexemes [' '] body) := by
  simp [lexemes, paramGroup, blockLexemes]

theorem Stmt.lexemes_function (gap : List Char) (f : Identifier) (params : List Identifier)
    (body : List Stmt) : (function f params body).lexemes gap =
      word gap "function" :: word [' '] f.text :: (paramGroup [] params ++ blockLexemes [' '] body) := by
  simp [lexemes, paramGroup, blockLexemes]

/-- The text of some lexemes. -/
def textOf (ls : List Lexeme) : List Char := ls.flatMap Lexeme.chars

/-- A program as it is printed. -/
def print (program : List Stmt) : List Char := textOf (stmtLexemes [] program)

theorem textOf_cons (l : Lexeme) (ls : List Lexeme) : textOf (l :: ls) = l.chars ++ textOf ls := List.flatMap_cons

theorem textOf_append (ls ls' : List Lexeme) : textOf (ls ++ ls') = textOf ls ++ textOf ls' := List.flatMap_append

/-- A lexeme at an offset. -/
def Lexeme.token (l : Lexeme) (offset : Nat) : ScriptToken := ⟨l.kind, offset, l.gap, l.text⟩

/-- The tokens of some lexemes, from number `n` on, where `f` gives the offset of each number. -/
def place (f : Nat → Nat) (n : Nat) : List Lexeme → List ScriptToken
  | [] => []
  | l :: ls => l.token (f n) :: place f (n + 1) ls

theorem place_append (f : Nat → Nat) (n : Nat) (ls ls' : List Lexeme) :
    place f n (ls ++ ls') = place f n ls ++ place f (n + ls.length) ls' := by
  induction ls generalizing n with
  | nil => rfl
  | cons l ls ih => simp [place, ih, Nat.add_assoc, Nat.add_comm 1]

theorem Operand.exists_first (gap : List Char) : ∀ b : Operand, ∃ x : Identifier, ∃ ls, b.lexemes gap = word gap x.text :: ls
  | .name x => ⟨x, [], rfl⟩
  | .member b x => by
    obtain ⟨y, ls, hb⟩ := b.exists_first gap
    exact ⟨y, ls ++ [mark [] '.', word [] x.text], by rw [lexemes, hb]; rfl⟩
  | .call b args => by
    obtain ⟨y, ls, hb⟩ := b.exists_first gap
    exact ⟨y, ls ++ mark [] '(' :: argLexemes args ++ [mark [] ')'], by rw [lexemes, hb]; rfl⟩

/-- An expression begins behind its gap, and not with a brace. -/
theorem Expr.exists_first (gap : List Char) (e : Expr) :
    ∃ l ls, e.lexemes gap = l :: ls ∧ l.gap = gap ∧ l.kind ≠ .opener .curly := by
  cases e with
  | operand b =>
    obtain ⟨x, ls, hb⟩ := b.exists_first gap
    exact ⟨_, ls, hb, rfl, nofun⟩
  | number n =>
    rw [lexemes, Numeral.lexemes]
    split
    · exact ⟨mark gap '.', _, rfl, rfl, by simp [mark, markKind]⟩
    · exact ⟨_, _, rfl, rfl, nofun⟩
  | text t => exact ⟨_, [], rfl, rfl, nofun⟩
  | function params body => exact ⟨mark gap '(', _, rfl, rfl, by simp [mark, markKind]⟩
  | arrow x body => exact ⟨_, _, rfl, rfl, nofun⟩

theorem Expr.length_lexemes_pos (gap : List Char) (e : Expr) : 0 < (e.lexemes gap).length := by
  obtain ⟨l, ls, hl, -⟩ := e.exists_first gap
  rw [hl]
  exact Nat.succ_pos ls.length

/-! ### Scoping -/

/-- The instance as a name. -/
def selfIdentifier : Identifier := ⟨'_', ['_', 's', 'e', 'l', 'f'], by decide, by decide, by decide⟩

/-- The capsule of the instance as a name. -/
def capsuleIdentifier : Identifier :=
  ⟨'_', ['_', 'p', 'r', 'o', 't', 'e', 'c', 't', 'e', 'd'], by decide, by decide, by decide⟩

/-- A member of the instance. -/
def Identifier.reached (x : Identifier) : Access → Operand
  | .direct => .member (.name selfIdentifier) x
  | .capsule => .member (.member (.name selfIdentifier) capsuleIdentifier) x

/-- An occurrence of a name: free, if it is not in scope, and then a member of the instance, if it
is an ambient name. -/
def Identifier.resolved (a : Ambient) (scope : List String) (x : Identifier) : Operand :=
  if x.text ∈ scope then .name x
  else match a.get? x.text with
    | none => .name x
    | some access => x.reached access

mutual
/-- The names that a statement declares for the function around it. -/
def Stmt.hoisted : Stmt → List String
  | .declare .varWord x _ => [x.text]
  | .declare .letWord _ _ | .declare .constWord _ _ => []
  | .function f _ _ => [f.text]
  | .block body => hoistedAll body
  | .expression _ => []
/-- The names that some statements declare for the function around them. -/
def hoistedAll : List Stmt → List String
  | [] => []
  | st :: sts => hoistedAll sts ++ st.hoisted
end

/-- The names that a statement declares for the block around it only. -/
def Stmt.blockNames : Stmt → List String
  | .declare .letWord x _ | .declare .constWord x _ => [x.text]
  | _ => []

/-- The names that a statement brings into scope behind it, in the same block. -/
def Stmt.declared (st : Stmt) : List String := st.blockNames ++ st.hoisted

/-- The names of some parameters. -/
def paramNames (params : List Identifier) : List String := params.map Identifier.text

mutual
/-- An operand with the free ambient names replaced, `scope` being the names in scope. -/
def Operand.qualified (a : Ambient) (scope : List String) : Operand → Operand
  | .name x => x.resolved a scope
  | .member b x => .member (b.qualified a scope) x
  | .call b args => .call (b.qualified a scope) (qualifiedArgs a scope args)
/-- An expression with the free ambient names replaced. -/
def Expr.qualified (a : Ambient) (scope : List String) : Expr → Expr
  | .operand b => .operand (b.qualified a scope)
  | .number n => .number n
  | .text t => .text t
  | .function params body => .function params (qualifiedAll a (paramNames params ++ scope) body)
  | .arrow x body => .arrow x (body.qualified a (x.text :: scope))
/-- A statement with the free ambient names replaced. -/
def Stmt.qualified (a : Ambient) (scope : List String) : Stmt → Stmt
  | .declare w x value => .declare w x (value.qualified a (x.text :: scope))
  | .function f params body =>
    .function f params (qualifiedAll a (paramNames params ++ f.text :: scope) body)
  | .block body => .block (qualifiedAll a scope body)
  | .expression e => .expression (e.qualified a scope)
/-- Arguments with the free ambient names replaced. -/
def qualifiedArgs (a : Ambient) (scope : List String) : List Expr → List Expr
  | [] => []
  | e :: es => e.qualified a scope :: qualifiedArgs a scope es
/-- Statements with the free ambient names replaced, each with what those before it declare in
scope. -/
def qualifiedAll (a : Ambient) (scope : List String) : List Stmt → List Stmt
  | [] => []
  | st :: sts => st.qualified a scope :: qualifiedAll a (st.declared ++ scope) sts
end

end Fragment

end Pagewright
