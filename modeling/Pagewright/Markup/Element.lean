import Pagewright.Markup.Numbering
import Pagewright.Quoted
import Pagewright.Text.Split

/-!
# Elements

The elements of a page as a tree, apart from how they are written, and the one function that
writes them: one element a line, four spaces for each level, the text of an element right behind
its start tag.
-/

namespace Pagewright

/-- An element without the elements inside it. -/
structure ElementHead where
  tag : String
  /-- Names and values in order, values as they are meant. -/
  attributes : List (String × String)
  /-- The text it begins with. -/
  text : String
deriving DecidableEq, Repr

/-- An element with the elements inside it. -/
abbrev Element := Tree ElementHead

/-- As many times four spaces. -/
def indent (level : Nat) : String := String.ofList (List.replicate (4 * level) ' ')

/-! ### The elements of a page -/

/-- The attribute `class` for the classes among the entries. -/
def classAttribute (entries : List String) : List (String × String) :=
  match entries.filter (!isTag ·) with
  | [] => []
  | classes => [("class", joinNames " " classes)]

/-- The attribute `style` for an own style. -/
def styleAttribute (style : PropertyMap) : List (String × String) :=
  match style.entries with
  | [] => []
  | entries => [("style", joinNames "; " (entries.map fun (key, value) => key ++ ": " ++ value))]

/-- The attributes of an element: classes, own style, own attributes except `id`, then the id. -/
def Placed.attributeList (own : Placed) : List (String × String) :=
  classAttribute own.entries ++ styleAttribute own.style ++
    own.attributes.entries.filter (·.1 != "id") ++
    (own.id?.toList.map fun id => ("id", idText id))

namespace ClassTable

/-- The text of an element as far as it is known: its own if it is a quoted text, else that of its
classes. -/
def staticText? (t : ClassTable) (own : Instance) : Option String :=
  match own.assignments.get? "text" with
  | some raw => stringLiteral? raw
  | none => (t.inheritedText? own.entries).bind stringLiteral?

/-- The element of an instance, without those inside. A void element has no text. -/
def elementHead (t : ClassTable) (own : Placed) : ElementHead :=
  let tag := t.resolveTag own.entries
  { tag
    attributes := own.attributeList
    text := if isVoid tag then "" else (t.staticText? own.toInstance).getD "" }

mutual
/-- The element of an instance. A void element has none inside. -/
def element (t : ClassTable) : PlacedNode → Element
  | .node own children =>
    let head := t.elementHead own
    .node head (if isVoid head.tag then [] else t.elements children)
/-- The elements of some instances. -/
def elements (t : ClassTable) : List PlacedNode → List Element
  | [] => []
  | node :: nodes => t.element node :: t.elements nodes
end

/-! ### Warnings -/

/-- What is dropped from an instance. -/
def ownWarnings (t : ClassTable) (own : Placed) (children : List PlacedNode) : List String :=
  let id := (own.id?.map idText).getD ""
  let tag := t.resolveTag own.entries
  (match own.attributes.get? "id" with
    | some value => [s!"ignoring literal id '{value}' on {id}; ids are generated"]
    | none => []) ++
  (if isVoid tag && !children.isEmpty then
    [s!"<{tag}> cannot have children; {children.length} child node(s) dropped"]
  else [])

mutual
/-- What is dropped from an instance and those inside it. -/
def nodeWarnings (t : ClassTable) : PlacedNode → List String
  | .node own children =>
    t.ownWarnings own children ++
      if isVoid (t.resolveTag own.entries) then [] else t.warnings children
/-- What is dropped from some instances, in the order of the source. -/
def warnings (t : ClassTable) : List PlacedNode → List String
  | [] => []
  | node :: nodes => t.nodeWarnings node ++ t.warnings nodes
end

end ClassTable

/-! ### Writing -/

/-- An attribute as it is written. -/
def renderAttribute (pair : String × String) : String :=
  " " ++ pair.1 ++ "=\"" ++ escapeMarkup true pair.2 ++ "\""

/-- The start tag of an element. -/
def ElementHead.startTag (head : ElementHead) : String :=
  "<" ++ head.tag ++ String.join (head.attributes.map renderAttribute) ++ ">"

mutual
/-- An element as it is written at a level. -/
def renderElement (level : Nat) : Element → String
  | .node head children =>
    indent level ++ head.startTag ++
      (if isVoid head.tag then ""
      else
        escapeMarkup false head.text ++
          (if children.isEmpty then "" else "\n" ++ renderElements (level + 1) children ++ indent level) ++
          "</" ++ head.tag ++ ">") ++
      "\n"
/-- Elements as they are written at a level. -/
def renderElements (level : Nat) : List Element → String
  | [] => ""
  | e :: es => renderElement level e ++ renderElements level es
end

end Pagewright
