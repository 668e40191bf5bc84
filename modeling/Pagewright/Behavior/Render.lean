import Pagewright.Behavior.Unit
import Pagewright.Markup.Element

/-!
# Writing scripts

Each part of a unit as it is written. Bodies keep the line breaks they have; only what stands around
them is laid out, four spaces for each level.
-/

namespace Pagewright

/-! ### Lines, blocks and functions -/

/-- A line at a level. -/
def line (level : Nat) (text : String) : String := indent level ++ text ++ "\n"

/-- What stands in braces behind a head, itself written in lines. -/
def block (level : Nat) (head : String) (lines : String) : String :=
  line level (head ++ " \x7b") ++ lines ++ line level "\x7d"

/-- A function expression that ends at a level. -/
def functionText (level : Nat) (params : List String) (body : String) : String :=
  let head := "function (" ++ joinNames ", " params ++ ") \x7b"
  let inside := trimString body
  if inside.isEmpty then head ++ "\x7d"
  else head ++ "\n" ++ indent (level + 1) ++ inside ++ "\n" ++ indent level ++ "\x7d"

/-- A function declaration at a level. -/
def functionDeclaration (level : Nat) (f : ScriptFunction) : String :=
  let head := "function " ++ f.name ++ "(" ++ joinNames ", " f.params ++ ") \x7b"
  let inside := trimString f.body
  if inside.isEmpty then line level (head ++ "\x7d")
  else line level head ++ line (level + 1) inside ++ line level "\x7d"

/-- The element of the instance. -/
def elementText : String := selfName ++ "." ++ elementName

/-- The capsule of the instance. -/
def capsuleText : String := selfName ++ "." ++ capsuleName

/-- The list of the children of the instance. -/
def childListText : String := selfName ++ "." ++ childListName

/-- A property of the instance that is read and written through functions. -/
def defineProperty (level : Nat) (name : String) (getter? setter? : Option String) : String :=
  let part (label : String) (function? : Option String) : String :=
    match function? with
    | some function => line (level + 1) (label ++ ": " ++ function ++ ",")
    | none => ""
  line level ("Object.defineProperty(" ++ selfName ++ ", " ++ scriptString name ++ ", \x7b") ++
    part "get" getter? ++
    part "set" setter? ++
    line (level + 1) "configurable: true," ++
    line (level + 1) "enumerable: true," ++
    line level "\x7d);"

/-- A property that stands for a part of the element: what is read, and what is done with a
value. -/
def elementProperty (name read write : String) : String :=
  defineProperty 2 name (some ("function () \x7b return " ++ read ++ "; \x7d"))
    (some ("function (value) \x7b " ++ write ++ "; \x7d"))

namespace ScriptUnit

/-- The beginning: the instance, its capsule, its children, its element. -/
def opening (u : ScriptUnit) : String :=
  let bound (text : Nat → String) : String := (u.anchor.markupId?.map text).getD ""
  line 1 ("const " ++ selfName ++ " = this;") ++
    bound (fun _ => line 1 (pendingName ++ ".push(" ++ selfName ++ ");")) ++
    line 1 (capsuleText ++ " = " ++ capsuleText ++ " || \x7b\x7d;") ++
    line 1 (childListText ++ " = " ++ childListText ++ " || [];") ++
    bound fun id => line 1
      (elementText ++ " = document.getElementById(" ++ scriptString (idText id) ++ ");")

/-- The calls of the units of the classes applied. -/
def chainText (u : ScriptUnit) : String :=
  String.join (u.chain.map fun (parent, args) =>
    line 1 (parent ++ ".call(" ++ selfName ++ (if args.isEmpty then "" else ", " ++ args) ++ ");"))

/-- The creation of an element where there is none. -/
def creationText (u : ScriptUnit) : String :=
  String.join (u.created.map fun tag =>
    block 1 ("if (!" ++ elementText ++ ")")
      (line 2 (elementText ++ " = document.createElement(" ++ scriptString tag ++ ");")))

/-- The constants for the methods of ancestors. -/
def aliasText (u : ScriptUnit) : String :=
  String.join (u.aliases.map fun (owner, method) =>
    let name := aliasName owner method
    line 1 ("const " ++ name ++ " = " ++ capsuleText ++ "." ++ name ++ ";"))

/-- Variables of an object. -/
def variableText (owner : String) (values : List (String × String)) : String :=
  String.join (values.map fun (name, value) => line 1 (owner ++ "." ++ name ++ " = " ++ value ++ ";"))

/-- Methods of an object. -/
def methodText (owner : String) (methods : List ScriptFunction) : String :=
  String.join (methods.map fun f =>
    line 1 (owner ++ "." ++ f.name ++ " = " ++ functionText 1 f.params f.body ++ ";"))

/-- The members: private ones are local, protected ones belong to the capsule, public ones to the
instance. -/
def memberText (u : ScriptUnit) : String :=
  String.join (u.privateVariables.map fun (name, value?) =>
    line 1 ("let " ++ name ++ ((value?.map (" = " ++ ·)).getD "") ++ ";")) ++
    String.join (u.privateMethods.map (functionDeclaration 1)) ++
    variableText capsuleText u.protectedVariables ++
    methodText capsuleText u.protectedMethods ++
    variableText selfName u.publicVariables ++
    methodText selfName u.publicMethods

/-- The methods kept for descendants that call them. -/
def publishedText (u : ScriptUnit) : String :=
  let owner := u.anchor.className?.getD ""
  String.join (u.published.map fun (name, isPublic) =>
    let holder := if isPublic then selfName else capsuleText
    line 1 (capsuleText ++ "." ++ aliasName owner name ++ " = " ++ holder ++ "." ++ name ++ ";"))

/-- An attribute: its property, and its value unless the markup has it. -/
def attributeText (u : ScriptUnit) (key value : String) : String :=
  let name := scriptString key
  elementProperty (accessorName key) (elementText ++ ".getAttribute(" ++ name ++ ")")
      (elementText ++ ".setAttribute(" ++ name ++ ", value)") ++
    if u.anchor.markupId?.isSome then ""
    else block 2 ("if (!" ++ elementText ++ ".hasAttribute(" ++ name ++ "))")
      (line 3 (elementText ++ ".setAttribute(" ++ name ++ ", " ++ scriptString value ++ ");"))

/-- What an instance shows of its element. -/
def surfaceText (u : ScriptUnit) : String :=
  block 1 ("if (" ++ elementText ++ ")")
    (((u.anchor.className?.map fun name =>
        line 2 (elementText ++ ".classList.add(" ++ scriptString name ++ ");")).getD "") ++
      String.join (u.attributes.entries.map fun (key, value) => u.attributeText key value) ++
      String.join (u.styleNames.map fun name =>
        elementProperty name (elementText ++ ".style." ++ name)
          (elementText ++ ".style." ++ name ++ " = value")) ++
      elementProperty "text" (elementText ++ ".textContent") (elementText ++ ".textContent = value") ++
      if u.hasValue then
        elementProperty "value" (elementText ++ ".value") (elementText ++ ".value = value")
      else "")

/-- The accessors. -/
def accessorText (u : ScriptUnit) : String :=
  String.join (u.accessors.map fun a =>
    defineProperty 1 a.name (a.getter?.map (functionText 2 [] ·))
      (a.setter?.map fun f => functionText 2 f.params f.body))

/-- The event handlers. -/
def handlerText (u : ScriptUnit) : String :=
  if u.handlers.isEmpty then ""
  else block 1 ("if (" ++ elementText ++ ")") (String.join (u.handlers.map fun f =>
    line 2 (elementText ++ ".addEventListener(" ++ scriptString f.name ++ ", " ++
      functionText 2 f.params f.body ++ ");")))

end ScriptUnit

/-- The constant that holds an instance without a name. -/
def ChildHandle.localName (child : ChildHandle) : String :=
  match child.anchor with
  | .byClass name => "__" ++ name
  | .byMarkup id | .byCreation id => "__" ++ idText id

namespace ScriptUnit

/-- The making of the child instances. -/
def childText (u : ScriptUnit) : String :=
  String.join (u.children.map fun child =>
    let (keyword, handle) := match child.name? with
      | some name => ("", capsuleText ++ "." ++ name)
      | none => ("const ", child.localName)
    line 1 (keyword ++ handle ++ " = new " ++ child.anchor.function ++ "();") ++
      if u.anchor.markupId?.isSome then line 1 (childListText ++ ".push(" ++ handle ++ ");")
      else line 1 (selfName ++ "." ++ childrenName ++ ".add(" ++ handle ++ ");"))

/-- The text and value it begins with; a text only where there is none yet. -/
def defaultText (u : ScriptUnit) : String :=
  String.join (u.defaults.map fun (name, value) =>
    if name = "text" then
      block 1 ("if (!" ++ elementText ++ " || !" ++ elementText ++ ".textContent)")
        (line 2 (selfName ++ ".text = " ++ value ++ ";"))
    else line 1 (selfName ++ "." ++ name ++ " = " ++ value ++ ";"))

/-- The style of an element that it creates. -/
def ownStyleText (u : ScriptUnit) : String :=
  String.join (u.ownStyle.map fun (key, value) =>
    line 1 (elementText ++ ".style.setProperty(" ++ scriptString key ++ ", " ++ scriptString value ++ ");"))

/-- The assignments and the body of the constructor. -/
def lastWork (u : ScriptUnit) : String :=
  String.join (u.assignments.map fun (key, value) => selfName ++ "." ++ key ++ " = " ++ value ++ ";\n") ++
    ((u.constructor?.map fun body => trimString body ++ "\n").getD "")

/-- The last work: done at once, or left until all instances exist if the element is in the
markup. -/
def lastWorkText (u : ScriptUnit) : String :=
  let work := trim u.lastWork.toList
  if work.isEmpty then ""
  else if u.anchor.markupId?.isSome then
    line 1 (selfName ++ "." ++ postBindName ++ " = function () \x7b") ++
      line 2 (String.ofList work) ++ line 1 "\x7d;"
  else String.join ((breakLines (trimEnd u.lastWork.toList)).map fun l => line 1 (String.ofList l))

/-- A unit as it is written. -/
def render (u : ScriptUnit) : String :=
  "function " ++ u.anchor.function ++ "(" ++ joinNames ", " u.params ++ ") \x7b\n" ++
    u.opening ++ u.chainText ++ u.creationText ++ u.aliasText ++ u.memberText ++ u.publishedText ++
    u.surfaceText ++ u.accessorText ++ u.handlerText ++
    line 1 (selfName ++ "." ++ childrenName ++ " = " ++ childApiName ++ "(" ++ selfName ++ ");") ++
    u.childText ++ u.defaultText ++ u.ownStyleText ++ u.lastWorkText ++
    "\x7d\n"

end ScriptUnit

end Pagewright
