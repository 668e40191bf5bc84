import Pagewright.Behavior.Script
import Pagewright.Check
import Pagewright.Include
import Pagewright.Markup.Document
import Pagewright.Reader.Blocks
import Pagewright.Stylesheet

/-!
# Compiling pages

A source without include directives is read, checked and turned into the three files of a page:
markup, stylesheet and behavior script.
-/

namespace Pagewright

/-- The classes and the page body of a source. -/
structure PageSource where
  text : List Char
  table : ClassTable
  page : Page

/-- The files of a page, and what was left out of them. -/
structure PageOutput where
  markup : String
  stylesheet : String
  behavior : String
  warnings : List String
deriving DecidableEq, Repr

namespace PageSource

/-- Reads a source. -/
def read (text : List Char) : Except CompileError PageSource := do
  let table ← ClassTable.ofText text
  let page ← Page.ofText (← classlessText text)
  return ⟨text, table, page⟩

/-- Reads and checks a source. -/
def readChecked (text : List Char) : Except CompileError PageSource := do
  let source ← read text
  source.table.check text source.page
  return source

/-- The page body with its instances numbered, and how many numbers that takes. -/
def placed (source : PageSource) : List PlacedNode × Nat :=
  source.table.numberNodes 0 source.page.nodes

/-- The page body as no markup has it: without numbers. -/
def unplaced (source : PageSource) : List PlacedNode :=
  Tree.mapAll Placed.unplaced source.page.nodes

/-- The elements of the page body. -/
def elements (source : PageSource) : List Element := source.table.elements source.placed.1

/-- The markup of the page. -/
def markup (source : PageSource) (links : HeadLinks) : String :=
  renderDocument (renderElements 0 source.elements) links source.page.dataFiles

/-- The script of the page. -/
def script (source : PageSource) : Except CompileError Script :=
  Script.make source.table source.text source.placed.2 source.placed.1

/-- The script of a page without markup. -/
def scriptAlone (source : PageSource) : Except CompileError Script :=
  Script.make source.table source.text 0 source.unplaced

/-- The files of the page. -/
def emit (source : PageSource) (links : HeadLinks) : Except CompileError PageOutput := do
  let script ← source.script
  return {
    markup := source.markup links
    stylesheet := source.table.stylesheet
    behavior := script.render
    warnings := source.table.warnings source.placed.1 }

end PageSource

/-- Compiles a source that has no include directives left. -/
def compileText (text : List Char) (links : HeadLinks) : Except CompileError PageOutput := do
  (← PageSource.readChecked text).emit links

/-- Compiles the page whose source is the file `entry`, with all include directives expanded. -/
def compilePage {m : Type → Type} [Monad m] (load : Path → m (Except FileFault String))
    (depth : Nat) (entry : Path) (links : HeadLinks) : ExceptT CompileError m PageOutput := do
  let text ← resolveFile load depth [] entry
  ExceptT.mk (pure (compileText text links))

/-- Compiles the page whose source is a file in memory. -/
def FileSet.compile (fs : FileSet) (entry : Path) (links : HeadLinks) :
    Except CompileError PageOutput :=
  (compilePage (m := Id) fs.load fs.depth entry links).run

end Pagewright
