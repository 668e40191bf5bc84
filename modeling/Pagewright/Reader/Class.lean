import Pagewright.Reader.Node

/-!
# Reading classes

A class is its head, `class Name extends Parent, Parent`, and a braced body of sections and child
instances.
-/

namespace Pagewright

namespace Source

/-- Reads the parents behind the word `extends`, if that comes next. -/
def readParents (s : Source) (gs : List Glyph) :
    Except CompileError (Read (List String) (gs.length + 1)) := do
  match s.takeWord? "extends" gs with
  | none => return .nothing [] gs
  | some word =>
    let parents ← s.readEntries "parent name" word.rest
    return (word.followedBy parents).relax

/-- Reads the head of a class, up to and with its brace. -/
def readClassHead (s : Source) (gs : List Glyph) :
    Except CompileError (Read ClassDef gs.length) := do
  match s.takeWord? "class" gs with
  | none => throw (s.unexpected (s.token gs).token "'class'")
  | some word =>
    let name ← s.readName "class name" word.rest
    let parents ← s.readParents name.rest
    let brace ← s.readMark '{' parents.rest
    let own : ClassDef :=
      { name := name.value, parents := parents.value, offset := word.value.start }
    return word.followedBy (name.followedByAny (parents.followedBy (brace.map fun _ => own)))

/-- Reads the next thing in the body of the class `own`; gives nothing at the brace that ends it,
else the class with that thing added. -/
def readClassItem (s : Source) (own : ClassDef) (gs : List Glyph) :
    Except CompileError (Read (Option ClassDef) gs.length) := do
  let lexeme := s.token gs
  let token := lexeme.token
  let second := s.secondToken gs
  match hk : token.kind with
  | .eof => throw (s.error own.offset (.unterminatedClass own.name))
  | .mark '}' =>
    return ⟨none, lexeme.rest, lexeme.rest_lt_of_brace hk⟩
  | .word word =>
    let first : Read String gs.length := ⟨word, lexeme.rest, lexeme.rest_lt_of_word hk⟩
    if word = "style" && second.isMark '{' then
      let r ← s.readSection false own.style first.rest
      return first.followedBy (r.map fun style => some { own with style })
    else if word = "attributes" && second.isMark '{' then
      let r ← s.readSection true own.attributes first.rest
      return first.followedBy (r.map fun attributes => some { own with attributes })
    else if word = "state" && second.isMark ':' then
      let colon ← s.readMark ':' first.rest
      let state ← s.readWord "state name" colon.rest
      let block ← s.readBlock state.rest
      return first.followedBy (colon.followedBy (state.followedBy (block.map fun (body, _) =>
        some { own with states := own.states ++ [(state.value, trimString body)] })))
    else match if second.isMark '{' then token.visibility? else none with
    | some v =>
      let r ← s.readTier v own.members first.rest
      return first.followedBy (r.map fun members => some { own with members })
    | none =>
      let child ← s.readNode gs
      return child.map fun node => some { own with children := own.children ++ [node] }
  | _ => throw (s.unexpected token "a class section or child instance")

/-- Reads the rest of the body of the class `own`. -/
def readClassBody (s : Source) (own : ClassDef) (gs : List Glyph) :
    Except CompileError (Read ClassDef gs.length) := do
  let item ← s.readClassItem own gs
  match item.value with
  | none => return item.map fun _ => own
  | some own =>
    let r ← s.readClassBody own item.rest
    return item.followedBy r
termination_by gs.length
decreasing_by exact item.rest_lt

/-- Reads a class. -/
def readClass (s : Source) (gs : List Glyph) : Except CompileError (Read ClassDef gs.length) := do
  let head ← s.readClassHead gs
  let r ← s.readClassBody head.value head.rest
  return head.followedBy r

end Source

end Pagewright
