import Pagewright.Path
import Pagewright.Text.Position

/-!
# Errors

Everything that can go wrong, by its cause. The wording of a cause is given once, in the `message`
function of its type. An error of the source text carries the position it was found at, if there
is one; `CompileError.report` puts that in front of the message.
-/

namespace Pagewright

/-- What is wrong with a source text. -/
inductive ParseFault where
  /-- A quoted literal does not end. -/
  | unterminatedQuote (quote : Char)
  /-- A block comment does not end. -/
  | unterminatedComment
  /-- A bracket was to be matched where there is none. -/
  | notABracket
  /-- A bracket is not closed. -/
  | unbalanced (bracket : Char)
  /-- Something else stands where `what` should. -/
  | expected (what found : String)
  /-- A name that no script could use. -/
  | invalidName (what name : String)
  /-- A property name that is not of the admitted form. -/
  | invalidKey (key : String)
  /-- A value runs to the end of the text. -/
  | unterminatedValue
  /-- A class body runs to the end of the text. -/
  | unterminatedClass (name : String)
  /-- An instance body runs to the end of the text. -/
  | unterminatedInstance (entries : List String)
  /-- A constructor outside the public section. -/
  | constructorNotPublic
  /-- A second constructor. -/
  | duplicateConstructor
  /-- A class without braces. -/
  | classWithoutBody
  /-- A class inside the page body. -/
  | nestedClass
  /-- An include directive that should have been expanded. -/
  | unresolvedInclude
  /-- A directive of no known kind. -/
  | unknownDirective (name : String)
  /-- An include directive that cannot be read. -/
  | invalidInclude
  /-- A file that includes itself, through the files listed. -/
  | includeCycle (chain : List Path)
  /-- Files nested deeper than there are files. -/
  | includeDepth
  /-- A parent that is neither a tag nor a class. -/
  | unknownParent (parent name : String)
  /-- Classes that inherit from each other in a circle. -/
  | inheritanceCycle (names : List String)
  /-- An instance of what is neither a tag nor a class. -/
  | unknownEntry (entry : String)
  /-- A parent call without parentheses. -/
  | callWithoutArguments (target : String)
  /-- A parent call of what no ancestor declares. -/
  | unresolvedCall (call : String)
  /-- A fault in the words given. -/
  | stated (text : String)
deriving DecidableEq, Repr

/-- The wording of a fault in a source text. -/
def ParseFault.message : ParseFault → String
  | .unterminatedQuote quote => s!"unterminated {quote} literal"
  | .unterminatedComment => "unterminated block comment"
  | .notABracket => "expected an opening bracket"
  | .unbalanced bracket => s!"unbalanced '{bracket}'"
  | .expected what found => s!"expected {what}, found {found}"
  | .invalidName what name => s!"invalid {what} '{name}'"
  | .invalidKey key => s!"invalid property name '{key}'"
  | .unterminatedValue => "expected ';' before end of input"
  | .unterminatedClass name => s!"unterminated class '{name}'"
  | .unterminatedInstance entries => "unterminated instance '" ++ joinNames ", " entries ++ "'"
  | .constructorNotPublic => "constructor must be declared in the public section"
  | .duplicateConstructor => "duplicate constructor"
  | .classWithoutBody => "class declaration without a body"
  | .nestedClass => "class declarations must appear at the top level"
  | .unresolvedInclude => "unresolved *include directive"
  | .unknownDirective name => s!"unknown directive '*{name}'"
  | .invalidInclude => "*include directive is invalid"
  | .includeCycle chain => "include cycle detected: " ++ joinNames " -> " (chain.map Path.text)
  | .includeDepth => "include directives are nested too deeply"
  | .unknownParent parent name => s!"unknown parent class '{parent}' of '{name}'"
  | .inheritanceCycle names => "inheritance cycle: " ++ joinNames " -> " names
  | .unknownEntry entry => s!"unknown class or tag '{entry}'"
  | .callWithoutArguments target => s!"parent call '^{target}' needs an argument list"
  | .unresolvedCall call => s!"unresolved parent call '{call}'"
  | .stated text => text

/-- Why a name cannot be used where it stands. -/
inductive Collision where
  /-- The name is taken already. -/
  | duplicate
  /-- The name belongs to the script language or to the generated code. -/
  | reserved
  /-- A class is named like a tag. -/
  | shadowsTag
deriving DecidableEq, Repr

/-- The wording of a collision. -/
def Collision.detail : Collision → String
  | .duplicate => "duplicate name"
  | .reserved => "reserved name"
  | .shadowsTag => "class name shadows tag"

/-- Why a file could not be read, written, created or removed. -/
inductive FileFault where
  /-- A set of files has no file of that name. -/
  | absent
  /-- No file or directory of that name. -/
  | notFound
  /-- A directory stands where a file should. -/
  | isDirectory
  /-- A file stands where a directory should. -/
  | notDirectory
  /-- Something of that name is there already. -/
  | alreadyExists
  /-- A directory that is still in use or not empty. -/
  | notEmpty
  /-- A path that the operation does not take. -/
  | invalidPath
  /-- A path, or a name in it, of too many bytes. -/
  | nameTooLong
  /-- A path that holds the character zero. -/
  | zeroCharacter
  /-- A fault in the words given. -/
  | stated (text : String)
deriving DecidableEq, Repr

/-- The wording of a file fault. -/
def FileFault.message : FileFault → String
  | .absent => "no such file"
  | .notFound => "No such file or directory (os error 2)"
  | .isDirectory => "Is a directory (os error 21)"
  | .notDirectory => "Not a directory (os error 20)"
  | .alreadyExists => "File exists (os error 17)"
  | .notEmpty => "Directory not empty (os error 39)"
  | .invalidPath => "Invalid argument (os error 22)"
  | .nameTooLong => "File name too long (os error 36)"
  | .zeroCharacter => "file name contained an unexpected NUL byte"
  | .stated text => text

/-- What is wrong with a project manifest. -/
inductive ManifestFault where
  /-- Not a table of the admitted shape. -/
  | malformed
  /-- No table of sources. -/
  | noSources
  /-- An empty table of sources. -/
  | noPages
  /-- A page name that is no file name. -/
  | invalidPage (name : String)
  /-- No manifest at that place. -/
  | missing (path : Path)
  /-- A manifest that could not be read. -/
  | unreadable (path : Path) (fault : FileFault)
  /-- A page without a source. -/
  | undeclaredPage (name : String)
  /-- A fault of the manifest at that place. -/
  | inFile (path : Path) (fault : ManifestFault)
  /-- A fault in the words given. -/
  | stated (text : String)
deriving Repr

/-- The wording of a manifest fault. -/
def ManifestFault.message : ManifestFault → String
  | .malformed => "failed to parse manifest"
  | .noSources => "manifest must declare a [sources] table"
  | .noPages => "[sources] declares no pages"
  | .invalidPage name => s!"invalid page name '{name}'; use letters, digits, '_', '-' or '.'"
  | .missing path => s!"could not find `{path.text}`"
  | .unreadable path fault => s!"failed to read `{path.text}`: {fault.message}"
  | .undeclaredPage name => s!"no source declared for page '{name}'"
  | .inFile path fault => s!"`{path.text}`: {fault.message}"
  | .stated text => text

/-- An error of any stage of a compilation. -/
inductive CompileError where
  /-- The source text is wrong. -/
  | parse (fault : ParseFault) (position : Option Position)
  /-- A name cannot be used in its scope. -/
  | collision (kind : Collision) (name scope : String)
  /-- A file could not be used. -/
  | access (path : Path) (fault : FileFault)
  /-- The manifest is wrong. -/
  | manifest (fault : ManifestFault)
  /-- A list of declarations goes on in a scope that is closed; nothing goes on from there. -/
  | closedScope
deriving Repr

namespace CompileError

/-- The wording of an error, without its position. -/
def message : CompileError → String
  | parse fault _ => fault.message
  | collision kind name scope => s!"{kind.detail} '{name}' in '{scope}'"
  | access path fault => s!"failed to access `{path.text}`: {fault.message}"
  | manifest fault => fault.message
  | closedScope => "index out of bounds"

/-- A fault found at a byte offset of `text`. -/
def atOffset (text : List Char) (offset : Nat) (fault : ParseFault) : CompileError :=
  parse fault (some (Position.ofOffset text offset))

/-- The place of an error in the source text, where it has one. -/
def position? : CompileError → Option Position
  | parse _ position => position
  | _ => none

/-- The error with its place counted from `base`, where the text it was found in begins. -/
def relocate (base : Position) : CompileError → CompileError
  | parse fault (some position) => parse fault (some (position.relativeTo base))
  | error => error

/-- The error as one line for a reader who knows the source as `location`. -/
def report (error : CompileError) (location : String) : String :=
  match error.position? with
  | some position => s!"[{location}:{position.render}] {error.message}"
  | none => s!"[{location}] {error.message}"

end CompileError

end Pagewright
