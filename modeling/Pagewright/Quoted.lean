import Pagewright.Text.Blank

/-!
# Quoted values

Four ways to write a text inside another: between single quotes in a source (`escapeSingleQuoted`,
read back by `stringLiteral?`), between double quotes in a script (`scriptString`), and as text or
attribute value in markup (`escapeMarkup`, `escapeHead`).
-/

namespace Pagewright

/-! ### String literals of a source -/

/-- The text that the inside of a literal stands for. A backslash takes the next character as it is,
but `n` and `t` stand for line feed and tab; a bare quote ends the literal too early. -/
def unescape (quote : Char) : List Char → Option (List Char)
  | [] => some []
  | '\\' :: c :: cs =>
    (unescape quote cs).map ((if c = 'n' then '\n' else if c = 't' then '\t' else c) :: ·)
  | c :: cs => if c = '\\' || c = quote then none else (unescape quote cs).map (c :: ·)

/-- The text that an expression stands for if it is a single quoted string. -/
def stringLiteral? (raw : String) : Option String :=
  match trim raw.toList with
  | quote :: rest =>
    if (quote = '\'' || quote = '"') && rest.getLast? = some quote then
      (unescape quote rest.dropLast).map String.ofList
    else none
  | [] => none

/-- The inside of a single-quoted literal for a text. -/
def escapeSingleQuoted (text : String) : String :=
  String.ofList <| text.toList.flatMap fun c => if c = '\\' || c = '\'' then ['\\', c] else [c]

/-! ### String literals of a script -/

/-- How a character is written inside a double-quoted script string. -/
def scriptEscape (c : Char) : List Char :=
  if c = '"' then ['\\', '"']
  else if c = '\\' then ['\\', '\\']
  else if c = '\n' then ['\\', 'n']
  else if c = '\r' then ['\\', 'r']
  else if c = '\t' then ['\\', 't']
  else if c = '<' then ['\\', 'u', '0', '0', '3', 'c']
  else [c]

/-- The double-quoted script string for a text. -/
def scriptString (text : String) : String :=
  String.ofList (['"'] ++ text.toList.flatMap scriptEscape ++ ['"'])

/-! ### Markup -/

/-- How a character is written in the text of an element or, with `inAttribute`, in the value of an
attribute. -/
def markupEscape (inAttribute : Bool) (c : Char) : List Char :=
  if c = '&' then ['&', 'a', 'm', 'p', ';']
  else if c = '<' then ['&', 'l', 't', ';']
  else if c = '>' then ['&', 'g', 't', ';']
  else if c = '"' && inAttribute then ['&', 'q', 'u', 'o', 't', ';']
  else [c]

/-- A text as it is written in markup. -/
def escapeMarkup (inAttribute : Bool) (text : String) : String :=
  String.ofList (text.toList.flatMap (markupEscape inAttribute))

/-- How a character is written in an attribute value of the document head. -/
def headEscape (c : Char) : List Char :=
  if c = '&' then ['&', 'a', 'm', 'p', ';']
  else if c = '\u00a0' then ['&', 'n', 'b', 's', 'p', ';']
  else if c = '"' then ['&', 'q', 'u', 'o', 't', ';']
  else [c]

/-- An attribute value as it is written in the document head. -/
def escapeHead (text : String) : String := String.ofList (text.toList.flatMap headEscape)

end Pagewright
