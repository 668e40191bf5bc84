import Pagewright.Reader.Node

/-!
# Reading the body of a page

What is left of a source without its classes: instances and data files.
-/

namespace Pagewright

namespace Source

/-- Reads a data file, `*json label: 'path';`, from behind its directive. -/
def readDataFile (s : Source) (gs : List Glyph) :
    Except CompileError (Read DataFile gs.length) := do
  let label ← s.readName "data label" gs
  let colon ← s.readMark ':' label.rest
  let quoted := s.token colon.rest
  let path? := match quoted.token.kind with
    | .quoted raw => stringLiteral? raw
    | _ => none
  match path? with
  | none => throw (s.unexpected quoted.token "a quoted data file path")
  | some path =>
    let stop ← s.readMark ';' quoted.rest
    return (stop.map fun _ => ⟨label.value, path⟩).weaken (by
      have h₁ := label.rest_lt
      have h₂ := colon.rest_lt
      have h₃ := quoted.rest_le
      omega)

/-- Reads the rest of the page body and adds it to `page`. -/
def readPageFrom (s : Source) (page : Page) (gs : List Glyph) : Except CompileError Page := do
  let lexeme := s.token gs
  let token := lexeme.token
  match hk : token.kind with
  | .eof => return page
  | .directive name =>
    let first : Read String gs.length := ⟨name, lexeme.rest, lexeme.rest_lt_of_directive hk⟩
    if name = "json" then
      let file ← s.readDataFile first.rest
      s.readPageFrom { page with dataFiles := page.dataFiles ++ [file.value] } file.rest
    else if name = "include" then throw (s.error token.start .unresolvedInclude)
    else throw (s.error token.start (.unknownDirective name))
  | .word word =>
    if word = "class" then throw (s.error token.start .nestedClass)
    let node ← s.readNode gs
    s.readPageFrom { page with nodes := page.nodes ++ [node.value] } node.rest
  | _ => throw (s.unexpected token "an instance or directive")
termination_by gs.length
decreasing_by
  · exact Nat.lt_trans file.rest_lt first.rest_lt
  · exact node.rest_lt

/-- Reads the body of a page. -/
def readPage (s : Source) : Except CompileError Page := s.readPageFrom {} s.glyphs

end Source

/-- The page body that a text without classes describes. -/
def Page.ofText (text : List Char) : Except CompileError Page := do (← Source.ofText text).readPage

end Pagewright
