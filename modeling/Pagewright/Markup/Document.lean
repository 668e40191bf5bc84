import Pagewright.Markup.Element

/-!
# Documents

A document is a head with the links of a page and a body as it was written.
-/

namespace Pagewright

/-- Where the script and the stylesheet of a page are, seen from its markup. -/
structure HeadLinks where
  script : String
  stylesheet : String
deriving DecidableEq, Repr

/-- The links of a page whose script and stylesheet stand in folders beside that of its markup. -/
def HeadLinks.beside (page jsFolder cssFolder : String) : HeadLinks :=
  ⟨s!"../{jsFolder}/{page}.js", s!"../{cssFolder}/{page}.css"⟩

/-- The start tag of an element of the head. -/
def headTag (tag : String) (attributes : List (String × String)) : String :=
  "<" ++ tag ++ String.join (attributes.map fun (name, value) =>
    " " ++ name ++ "=\"" ++ escapeHead value ++ "\"") ++ ">"

/-- The head of a page: script, stylesheet, data files. -/
def renderHead (links : HeadLinks) (dataFiles : List DataFile) : String :=
  "<head>" ++
    headTag "script" [("src", links.script)] ++ "</script>" ++
    headTag "link" [("rel", "stylesheet"), ("href", links.stylesheet)] ++
    String.join (dataFiles.map fun file =>
      headTag "script" [("type", "application/json"), ("id", file.label), ("src", file.path)] ++
        "</script>") ++
    "</head>"

/-- The document for a body. -/
def renderDocument (body : String) (links : HeadLinks) (dataFiles : List DataFile) : String :=
  "<!DOCTYPE html>\n<html>" ++ renderHead links dataFiles ++ "<body>" ++ body ++ "</body></html>\n"

end Pagewright
