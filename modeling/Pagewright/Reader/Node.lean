import Pagewright.Reader.Section

/-!
# Reading instances

An instance is read in one loop with the instances that are still open on a stack: the head of an
inner instance opens it, a brace closes the innermost one and makes it a child of the next.
-/

namespace Pagewright

namespace Source

/-- Reads the entries behind the first one, each behind a comma. -/
def readMoreEntries (s : Source) (what : String) (entries : List String) (gs : List Glyph) :
    Except CompileError (Read (List String) (gs.length + 1)) := do
  match s.takeMark? ',' gs with
  | none => return .nothing entries gs
  | some comma =>
    let entry ← s.readWord what comma.rest
    let more ← s.readMoreEntries what (entries ++ [entry.value]) entry.rest
    return (comma.followedBy (entry.followedByAny more)).relax
termination_by gs.length
decreasing_by exact Nat.lt_trans entry.rest_lt comma.rest_lt

/-- Reads one or more entries with commas between them. -/
def readEntries (s : Source) (what : String) (gs : List Glyph) :
    Except CompileError (Read (List String) gs.length) := do
  let entry ← s.readWord what gs
  let more ← s.readMoreEntries what [entry.value] entry.rest
  return entry.followedByAny more

/-- Reads the name behind the word `as`, if that comes next. -/
def readAlias (s : Source) (gs : List Glyph) :
    Except CompileError (Read (Option String) (gs.length + 1)) := do
  match s.takeWord? "as" gs with
  | none => return .nothing none gs
  | some word =>
    let name ← s.readName "instance name" word.rest
    return (word.followedBy (name.map some)).relax

/-- Reads the head of an instance, up to and with its brace. -/
def readHead (s : Source) (gs : List Glyph) : Except CompileError (Read Instance gs.length) := do
  let entries ← s.readEntries "class or tag name" gs
  let name ← s.readAlias entries.rest
  let brace ← s.readMark '{' name.rest
  let own : Instance :=
    { entries := entries.value, name? := name.value, offset := (s.token gs).token.start }
  return entries.followedByAny (name.followedBy (brace.map fun _ => own))

/-- One thing in the body of an instance. -/
inductive NodeItem where
  /-- The brace that ends the body. -/
  | close
  /-- A section or an assignment, with the instance it makes of the one given. -/
  | change (own : Instance)
  /-- The head of an instance inside. -/
  | child (head : Instance)

/-- Reads the next thing in the body of the instance `own`. -/
def readNodeItem (s : Source) (own : Instance) (gs : List Glyph) :
    Except CompileError (Read NodeItem gs.length) := do
  let lexeme := s.token gs
  let token := lexeme.token
  let second := s.secondToken gs
  match hk : token.kind with
  | .eof => throw (s.error own.offset (.unterminatedInstance own.entries))
  | .mark '}' =>
    return ⟨.close, lexeme.rest, lexeme.rest_lt_of_brace hk⟩
  | .word word =>
    let first : Read String gs.length := ⟨word, lexeme.rest, lexeme.rest_lt_of_word hk⟩
    if word = "style" && second.isMark '{' then
      let r ← s.readSection false own.style first.rest
      return first.followedBy (r.map fun style => .change { own with style })
    else if word = "attributes" && second.isMark '{' then
      let r ← s.readSection true own.attributes first.rest
      return first.followedBy (r.map fun attributes => .change { own with attributes })
    else match if second.isMark '{' then token.visibility? else none with
    | some v =>
      let r ← s.readTier v own.members first.rest
      return first.followedBy (r.map fun members => .change { own with members })
    | none =>
      if second.isMark '=' then
        let name ← s.readName "variable name" gs
        let equals ← s.readMark '=' name.rest
        let value ← s.readValue equals.rest
        return name.followedBy (equals.followedByAny (value.map fun text =>
          .change { own with assignments := own.assignments.insert name.value text }))
      else
        let head ← s.readHead gs
        return head.map .child
  | _ => throw (s.unexpected token "a section, assignment or child instance")

/-- Reads the rest of the instance `inner`, which stands inside the instances `outer`, innermost
first, and of these. -/
def readBody (s : Source) (inner : Node) (outer : List Node) (gs : List Glyph) :
    Except CompileError (Read Node gs.length) := do
  let item ← s.readNodeItem inner.label gs
  match item.value with
  | .close =>
    match outer with
    | [] => return item.map fun _ => inner
    | parent :: outer =>
      let r ← s.readBody (parent.addChild inner) outer item.rest
      return item.followedBy r
  | .change own =>
    let r ← s.readBody (.node own inner.children) outer item.rest
    return item.followedBy r
  | .child head =>
    let r ← s.readBody (.node head []) (inner :: outer) item.rest
    return item.followedBy r
termination_by gs.length
decreasing_by all_goals exact item.rest_lt

/-- Reads an instance with the instances inside it. -/
def readNode (s : Source) (gs : List Glyph) : Except CompileError (Read Node gs.length) := do
  let head ← s.readHead gs
  let r ← s.readBody (.node head.value []) [] head.rest
  return head.followedBy r

end Source

end Pagewright
