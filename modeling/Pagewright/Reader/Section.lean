import Pagewright.Quoted
import Pagewright.Reader.Raw
import Pagewright.Syntax

/-!
# Sections of a class or instance

The braced lists that classes and instances have in common: style and attribute declarations, and
the members of one visibility.
-/

namespace Pagewright

/-- The characters behind at most `n` leading dashes. -/
def dropDashes : Nat → List Char → List Char
  | n + 1, '-' :: cs => dropDashes n cs
  | _, cs => cs

/-- Whether a key can be the name of a style property or attribute: at most two dashes, a letter or
`_`, then letters, digits and `_ . : -`. -/
def isPropertyKey (key : List Char) : Bool :=
  match dropDashes 2 key with
  | [] => false
  | c :: cs =>
    (c.isAlpha || c = '_') && cs.all fun d => d.isAlphanum || d = '_' || d = '.' || d = ':' || d = '-'

/-- The key that a token gives, if it can give one: a word as it is, a quoted text without its
quotes. -/
def Token.key? (t : Token) : Option String :=
  match t.kind with
  | .word key => some key
  | .quoted raw => some ((stringLiteral? raw).getD raw)
  | _ => none

/-- The visibility that a token opens a section of. -/
def Token.visibility? (t : Token) : Option Visibility :=
  if t.isWord "private" then some .priv
  else if t.isWord "protected" then some .prot
  else if t.isWord "public" then some .pub
  else none

namespace Source

/-- Reads the declarations of a section, up to and with the brace that ends it, and adds them to
`map`. With `unquote`, a quoted value loses its quotes. -/
def readDeclarations (s : Source) (unquote : Bool) (map : PropertyMap) (gs : List Glyph) :
    Except CompileError (Read PropertyMap gs.length) := do
  if let some r := s.takeMark? '}' gs then
    return r.map fun _ => map
  let lexeme := s.token gs
  match hk : lexeme.token.key? with
  | none => throw (s.unexpected lexeme.token "a property name")
  | some key =>
    have hlt : lexeme.rest.length < gs.length :=
      lexeme.rest_lt (by intro he; simp [Token.key?, he] at hk)
    if !isPropertyKey key.toList then
      throw (s.error lexeme.token.start (.invalidKey key))
    let colon ← s.readMark ':' lexeme.rest
    let value ← s.readValue colon.rest
    have hle : value.rest.length < gs.length := by
      have h₁ := colon.rest_lt
      have h₂ := value.rest_lt
      omega
    let text := if unquote then (stringLiteral? value.value).getD value.value else value.value
    let more ← s.readDeclarations unquote (map.insert key text) value.rest
    return more.weaken (Nat.le_of_lt hle)
termination_by gs.length

/-- Reads a section of declarations with its braces. -/
def readSection (s : Source) (unquote : Bool) (map : PropertyMap) (gs : List Glyph) :
    Except CompileError (Read PropertyMap gs.length) := do
  let brace ← s.readMark '{' gs
  let r ← s.readDeclarations unquote map brace.rest
  return brace.followedBy r

/-- Reads the parameters and the body of a method. -/
def readMethod (s : Source) (name : String) (gs : List Glyph) :
    Except CompileError (Read Method gs.length) := do
  let params ← s.readParams gs
  let block ← s.readBlock params.rest
  return params.followedBy (block.map fun (body, offset) => ⟨name, params.value, body, offset⟩)

/-- Reads what follows the word `var`, `let` or `const`. -/
def readVariable (s : Source) (gs : List Glyph) :
    Except CompileError (Read Variable gs.length) := do
  let name ← s.readName "variable name" gs
  match s.takeMark? '=' name.rest with
  | some equals =>
    let value ← s.readValue equals.rest
    return name.followedBy (equals.followedByAny (value.map fun text => ⟨name.value, some text⟩))
  | none =>
    match s.takeMark? ';' name.rest with
    | some stop => return name.followedBy (stop.map fun _ => ⟨name.value, none⟩)
    | none => return name.map fun name => ⟨name, none⟩

/-- Reads one member and adds it to the members given. -/
def readMember (s : Source) (v : Visibility) (members : Members) (gs : List Glyph) :
    Except CompileError (Read Members gs.length) := do
  let lexeme := s.token gs
  let token := lexeme.token
  let second := s.secondToken gs
  match hk : token.kind with
  | .word word =>
    let first : Read String gs.length := ⟨word, lexeme.rest, lexeme.rest_lt_of_word hk⟩
    if word = "var" || word = "let" || word = "const" then
      let x ← s.readVariable first.rest
      return first.followedBy (x.map (members.addVariable v))
    else if word = "constructor" && second.isMark '(' then
      if v != .pub then throw (s.error token.start .constructorNotPublic)
      if members.constructor?.isSome then throw (s.error token.start .duplicateConstructor)
      let m ← s.readMethod "constructor" first.rest
      return first.followedBy (m.map fun m => { members with constructor? := some m })
    else if (word = "get" || word = "set" || word = "on") && second.isAnyWord then
      let name ←
        if word = "on" then s.readWord "event name" first.rest
        else s.readName "accessor name" first.rest
      let m ← s.readMethod name.value name.rest
      let add (m : Method) : Members :=
        if word = "get" then { members with getters := members.getters ++ [m] }
        else if word = "set" then { members with setters := members.setters ++ [m] }
        else { members with handlers := members.handlers ++ [m] }
      return first.followedBy (name.followedBy (m.map add))
    else if word = "function" && second.isAnyWord then
      let name ← s.readName "method name" first.rest
      let m ← s.readMethod name.value name.rest
      return first.followedBy (name.followedBy (m.map (members.addMethod v)))
    else if second.isMark '(' then
      let name ← s.readName "method name" gs
      let m ← s.readMethod name.value name.rest
      return name.followedBy (m.map (members.addMethod v))
    else throw (s.unexpected token s!"a member declaration in the {v.keyword} section")
  | _ => throw (s.unexpected token s!"a member declaration in the {v.keyword} section")

/-- Reads the members behind the brace of a section, up to and with the brace that ends it. -/
def readMembers (s : Source) (v : Visibility) (members : Members) (gs : List Glyph) :
    Except CompileError (Read Members gs.length) := do
  if let some r := s.takeMark? '}' gs then
    return r.map fun _ => members
  let r ← s.readMember v members gs
  let more ← s.readMembers v r.value r.rest
  return r.followedBy more
termination_by gs.length
decreasing_by exact r.rest_lt

/-- Reads a section of members with its braces. -/
def readTier (s : Source) (v : Visibility) (members : Members) (gs : List Glyph) :
    Except CompileError (Read Members gs.length) := do
  let brace ← s.readMark '{' gs
  let r ← s.readMembers v members brace.rest
  return brace.followedBy r

end Source

end Pagewright
