import Pagewright.Text.Split

/-!
# Paths

A path is kept as it was written. Its components are read off the text: empty segments and `.` do
not count, except for a `.` at the very beginning of a relative path. Two paths are the same when
their components are. Nothing here looks at a file.
-/

namespace Pagewright

/-- A path as it was written. -/
structure Path where
  text : String
deriving DecidableEq, Repr, Inhabited

/-- One step of a path. -/
inductive Component where
  /-- The `/` a rooted path begins with. -/
  | root
  /-- A `.` that a relative path begins with. -/
  | here
  /-- A `..`. -/
  | up
  /-- The name of a file or directory. -/
  | name (name : String)
deriving DecidableEq, Repr

namespace Path

/-- The parts of the text between slashes. -/
def segments (p : Path) : List (List Char) := splitAll '/' p.text.toList

/-- A path that begins with a slash. -/
def isRooted (p : Path) : Bool := p.text.toList.head? = some '/'

/-- A segment that is no component: empty, or a `.`. -/
def isIdle (segment : List Char) : Bool := segment.isEmpty || segment = ['.']

/-- What a segment stands for behind the beginning of a path. -/
def component? (segment : List Char) : Option Component :=
  if isIdle segment then none
  else if segment = ['.', '.'] then some .up
  else some (.name (String.ofList segment))

/-- The steps of a path. -/
def components (p : Path) : List Component :=
  let lead := if p.isRooted then [.root] else if p.segments.head? = some ['.'] then [.here] else []
  lead ++ p.segments.filterMap component?

/-- Whether two paths have the same components. -/
def same (p q : Path) : Bool := p.components = q.components

/-- `q` taken from `p`; a rooted `q` stands for itself. -/
def join (p q : Path) : Path :=
  if q.isRooted then q
  else match p.text.toList.getLast? with
    | none => q
    | some '/' => ⟨p.text ++ q.text⟩
    | some _ => ⟨p.text ++ "/" ++ q.text⟩

/-- The list without the idle segments at its end. -/
def dropIdleEnd (segments : List (List Char)) : List (List Char) :=
  (segments.reverse.dropWhile isIdle).reverse

/-- The path without its last component; there is none for the empty path and for the root. -/
def parent? (p : Path) : Option Path :=
  match p.segments with
  | [] => none
  | lead :: rest =>
    match dropIdleEnd rest with
    | [] => if lead.isEmpty then none else some ⟨""⟩
    | step :: steps =>
      match dropIdleEnd (step :: steps).dropLast with
      | [] => some (if lead.isEmpty then ⟨"/"⟩ else ⟨String.ofList lead⟩)
      | kept => some ⟨String.ofList (joinWith ['/'] (lead :: kept))⟩

/-- The name a path ends with, if its last component is one. -/
def fileName? (p : Path) : Option String :=
  match p.components.getLast? with
  | some (.name name) => some name
  | _ => none

/-- The name a path ends with, without its last extension. A dot at the beginning begins no
extension. -/
def fileStem? (p : Path) : Option String :=
  p.fileName?.map fun name =>
    match (splitAll '.' name.toList).dropLast with
    | [] | [[]] => name
    | parts => String.ofList (joinWith ['.'] parts)

/-- A path in normal form: whether it is rooted, and its steps. -/
structure Steps where
  rooted : Bool
  steps : List String
deriving DecidableEq, Repr

namespace Steps

/-- Takes one more component. A `..` removes the last step, whatever it is, and is kept where there
is none. -/
def push (s : Steps) : Component → Steps
  | .root => ⟨true, []⟩
  | .here => s
  | .up => if s.steps.isEmpty then { s with steps := [".."] } else { s with steps := s.steps.dropLast }
  | .name name => { s with steps := s.steps ++ [name] }

/-- The path that is written for a normal form. -/
def toPath (s : Steps) : Path :=
  ⟨(if s.rooted then "/" else "") ++ joinNames "/" s.steps⟩

end Steps

/-- The normal form of a path. -/
def steps (p : Path) : Steps := p.components.foldl Steps.push ⟨false, []⟩

/-- The path without `.` and with each `..` taken back. -/
def normalize (p : Path) : Path := p.steps.toPath

end Path

end Pagewright
