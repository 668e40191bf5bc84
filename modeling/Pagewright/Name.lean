import Pagewright.Text.Blank
import Pagewright.Text.Letter
import Pagewright.Text.Uppercase

/-!
# Names

The names that generated scripts keep for themselves, the names that no member may have, and the
names that are read off parameters and property keys.
-/

namespace Pagewright

/-! ### Names of the generated script -/

/-- The instance, inside a unit. -/
def selfName : String := "__self"

/-- The element an instance is bound to. -/
def elementName : String := "__element"

/-- The object that holds the protected members of an instance. -/
def capsuleName : String := "__protected"

/-- The work an instance leaves until all instances exist. -/
def postBindName : String := "__postBind"

/-- The child instances of an instance. -/
def childListName : String := "__children"

/-- The instances that may have left work. -/
def pendingName : String := "__pending"

/-- The function that makes the child operations of an instance. -/
def childApiName : String := "__childApi"

/-- The member that holds the child operations of an instance. -/
def childrenName : String := "children"

/-! ### Reserved names -/

/-- The names that no member, class or instance may have. -/
def reservedNames : List String :=
  ["Array", "Date", "Infinity", "JSON", "Math", "NaN", "Number", "Object", "Promise", "String",
    "__childApi", "__children", "__element", "__pending", "__postBind", "__protected", "__self",
    "abstract", "alert", "arguments", "await", "boolean", "break", "byte", "case", "catch",
    "char", "children", "class", "clearInterval", "clearTimeout", "const", "continue", "debugger",
    "decodeURI", "decodeURIComponent", "default", "delete", "do", "document", "double", "else",
    "encodeURI", "encodeURIComponent", "enum", "eval", "export", "extends", "false", "final",
    "finally", "float", "for", "function", "goto", "hasOwnProperty", "history", "if",
    "implements", "import", "in", "instanceof", "int", "interface", "isFinite", "isNaN",
    "isPrototypeOf", "let", "location", "long", "native", "navigator", "new", "null", "package",
    "parseFloat", "parseInt", "private", "protected", "prototype", "public", "return", "self",
    "setInterval", "setTimeout", "short", "static", "super", "switch", "synchronized", "this",
    "throw", "throws", "toString", "top", "transient", "true", "try", "typeof", "undefined",
    "valueOf", "var", "void", "volatile", "while", "window", "with", "yield"]

/-- Whether a name is reserved. -/
def isReserved (name : String) : Bool := reservedNames.contains name

/-! ### Names read off other texts -/

/-- The text without the ellipses it begins with. -/
def dropEllipses : List Char → List Char
  | '.' :: '.' :: '.' :: cs => dropEllipses cs
  | cs => cs

/-- The name that a plain parameter declares: what stands before a default and behind an ellipsis. A
pattern declares none. -/
def parameterName? (parameter : String) : Option String :=
  match (dropEllipses (trim parameter.toList)).takeWhile isNameChar with
  | [] => none
  | name => some (String.ofList name)

/-- The characters of an accessor name, `begun` telling whether there is one already. -/
def camelCase (begun : Bool) (raised : Bool) : List Char → List Char
  | [] => []
  | c :: cs =>
    if c = '-' then camelCase begun begun cs
    else if raised then uppercase c ++ camelCase true false cs
    else c :: camelCase true false cs

/-- The script name of a property key: a dash with something before it is dropped and raises the
letter behind it. -/
def accessorName (key : String) : String := String.ofList (camelCase false false key.toList)

end Pagewright
