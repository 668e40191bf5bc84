/-!
# Tags

The element names that can stand where a class name can, and what is special about some of them.
-/

namespace Pagewright

/-- The tags that can be parents and entries. -/
def tags : List String :=
  ["a", "abbr", "address", "article", "aside", "audio", "b", "blockquote", "body", "br", "button",
    "canvas", "caption", "cite", "code", "col", "colgroup", "data", "datalist", "dd", "details",
    "dfn", "dialog", "div", "dl", "dt", "em", "embed", "fieldset", "figcaption", "figure",
    "footer", "form", "h1", "h2", "h3", "h4", "h5", "h6", "head", "header", "hr", "html", "i",
    "iframe", "img", "input", "ins", "kbd", "label", "legend", "li", "link", "main", "mark",
    "menu", "meter", "nav", "noscript", "object", "ol", "optgroup", "option", "output", "p",
    "param", "picture", "pre", "progress", "q", "s", "samp", "section", "select", "small",
    "source", "span", "strong", "sub", "summary", "sup", "svg", "table", "tbody", "td",
    "template", "textarea", "tfoot", "th", "thead", "time", "tr", "track", "u", "ul", "var",
    "video"]

/-- The tags of elements with a value. -/
def valueTags : List String :=
  ["button", "data", "input", "li", "meter", "option", "output", "param", "progress", "select",
    "textarea"]

/-- The tags of elements without content and end tag. -/
def voidTags : List String :=
  ["br", "col", "embed", "hr", "img", "input", "link", "param", "source", "track"]

/-- Whether a name is a tag. -/
def isTag (name : String) : Bool := tags.contains name

/-- Whether elements of a tag have a value. -/
def hasValue (tag : String) : Bool := valueTags.contains tag

/-- Whether elements of a tag have no content. -/
def isVoid (tag : String) : Bool := voidTags.contains tag

/-- The tag of an element that nothing gives a tag. -/
def defaultTag : String := "div"

end Pagewright
