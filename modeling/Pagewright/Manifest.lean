import Pagewright.Error
import Pagewright.Markup.Document
import Pagewright.Toml.Document

/-!
# Manifests

The manifest of a project names its pages with their sources and says where the files of each page
go: below one folder, in a folder for each kind of file.
-/

namespace Pagewright

/-- The kinds of file that a page has. -/
inductive Artifact where
  | markup
  | stylesheet
  | behavior
deriving DecidableEq, Repr

namespace Artifact

/-- All kinds, in the order in which they are written. -/
def all : List Artifact := [markup, stylesheet, behavior]

/-- What the names of such files end with. -/
def extension : Artifact → String
  | markup => "html"
  | stylesheet => "css"
  | behavior => "js"

end Artifact

/-- Where the files of the pages go: the folder for all of them, and below it the folders for each
kind. -/
structure OutLayout where
  path : String := "www"
  js : String := "js"
  html : String := "html"
  css : String := "css"
deriving DecidableEq, Repr

namespace OutLayout

/-- The folder for a kind of file. -/
def folder (out : OutLayout) : Artifact → String
  | .markup => out.html
  | .stylesheet => out.css
  | .behavior => out.js

/-- A file in a folder, as a link names it. -/
def linkTo (folder file : String) : String :=
  let inner := dropEndWhile (· = '/') (folder.toList.dropWhile (· = '/'))
  if inner.isEmpty || inner = ['.'] then file else String.ofList inner ++ "/" ++ file

/-- Whether a step of a path is a name. -/
def isNameStep : Component → Bool
  | .name _ => true
  | .root | .here | .up => false

/-- The way from the folder of the markup to the folder for all files. -/
def wayUp (out : OutLayout) : String :=
  String.join (((Path.components ⟨out.html⟩).filter isNameStep).map fun _ => "../")

/-- The links in the markup of a page. -/
def headLinks (out : OutLayout) (page : String) : HeadLinks where
  script := out.wayUp ++ linkTo out.js (page ++ ".js")
  stylesheet := out.wayUp ++ linkTo out.css (page ++ ".css")

end OutLayout

/-- A manifest. -/
structure Manifest where
  /-- The folder that its paths are taken from. -/
  root : Path
  /-- The pages with their sources, in order of their names. -/
  sources : List (String × Path)
  out : OutLayout
deriving DecidableEq, Repr

namespace Manifest

/-- The source of a page. -/
def sourcePath? (manifest : Manifest) (page : String) : Option Path :=
  (manifest.sources.lookup page).map manifest.root.join

/-- The folder for all files of the pages. -/
def outRoot (manifest : Manifest) : Path := manifest.root.join ⟨manifest.out.path⟩

/-- The folder for a kind of file. -/
def artifactFolder (manifest : Manifest) (artifact : Artifact) : Path :=
  manifest.outRoot.join ⟨manifest.out.folder artifact⟩

/-- The file of a page. -/
def artifactPath (manifest : Manifest) (page : String) (artifact : Artifact) : Path :=
  (manifest.artifactFolder artifact).join ⟨page ++ "." ++ artifact.extension⟩

/-! ### Reading -/

/-- A character of a page name. -/
def isPagePart (c : Char) : Bool := c.isAlphanum || c = '_' || c = '.' || c = '-'

/-- Whether a name can name a page, and with it the files of the page. -/
def isPageName (name : String) : Bool :=
  match name.toList with
  | [] => false
  | c :: cs => (c.isAlphanum || c = '_') && cs.all isPagePart

/-- The entries of a table that holds only texts. -/
def texts? : Toml.Entries → Option (List (String × String))
  | [] => some []
  | (key, .text value) :: entries => (texts? entries).map ((key, value) :: ·)
  | _ => none

/-- A text that may be left out. -/
def textOr? (default : String) : Option Toml → Option String
  | none => some default
  | some (.text value) => some value
  | some _ => none

/-- A layout by the values of its parts. -/
def layout? (path js html css : Option Toml) : Option OutLayout := do
  let base : OutLayout := {}
  return {
    path := ← textOr? base.path path
    js := ← textOr? base.js js
    html := ← textOr? base.html html
    css := ← textOr? base.css css }

/-- The layout in a manifest: left out, a table, or the parts in a row. -/
def outLayout? : Option Toml → Option OutLayout
  | none => some {}
  | some (.array items) | some (.tables items) => layout? items[0]? items[1]? items[2]? items[3]?
  | some value => do
    let entries ← value.entries?
    layout? (entries.lookup "path") (entries.lookup "js") (entries.lookup "html") (entries.lookup "css")

/-- The sources in a manifest, if it has any. -/
def sources? : Option Toml → Option (Option (List (String × String)))
  | none => some none
  | some value => (value.entries?.bind texts?).map some

/-- The manifest in a text; `root` is the folder that its paths are taken from. -/
def parse (content : String) (root : Path) : Except ManifestFault Manifest := do
  let some entries := Toml.parse? content | throw .malformed
  let some sources? := sources? (entries.lookup "sources") | throw .malformed
  let some out := outLayout? (entries.lookup "out") | throw .malformed
  let some sources := sources? | throw .noSources
  if sources.isEmpty then throw .noPages
  let sorted := sources.mergeSort fun a b => !(b.1 < a.1)
  match sorted.find? fun source => !isPageName source.1 with
  | some (name, _) => throw (.invalidPage name)
  | none => return ⟨root, sorted.map fun (page, path) => (page, ⟨path⟩), out⟩

end Manifest

end Pagewright
