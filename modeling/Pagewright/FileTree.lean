import Pagewright.Error

/-!
# File trees

Files and folders as a tree, and a workspace: such a tree with one folder of it as the current one.
A path is followed step by step. Every step before the last has to lead to a folder, `..` leads to
the folder above, and a path that ends with a slash means a folder. Names and paths have a greatest
size.
-/

namespace Pagewright

/-- A file, or a folder with what is in it. -/
inductive FileTree where
  | file (content : String)
  | folder (entries : List (String × FileTree))

namespace FileTree

/-- What stands in a tree at the end of some steps. -/
def get? : FileTree → List String → Option FileTree
  | t, [] => some t
  | .file _, _ :: _ => none
  | .folder entries, name :: steps =>
    match entries.lookup name with
    | some t => t.get? steps
    | none => none

/-- The entries of a folder with one of them replaced or added. -/
def putEntry (entries : List (String × FileTree)) (name : String) (t : FileTree) :
    List (String × FileTree) :=
  if entries.any (·.1 = name) then
    entries.map fun entry => if entry.1 = name then (name, t) else entry
  else entries ++ [(name, t)]

/-- The tree with something new at the end of some steps, all of which but the last lead to
folders. -/
def put : FileTree → List String → FileTree → FileTree
  | _, [], new => new
  | .file content, _ :: _, _ => .file content
  | .folder entries, [name], new => .folder (putEntry entries name new)
  | .folder entries, name :: steps, new =>
    match entries.lookup name with
    | some t => .folder (putEntry entries name (t.put steps new))
    | none => .folder entries

/-- The tree without what stands at the end of some steps. -/
def erase : FileTree → List String → FileTree
  | _, [] => .folder []
  | .file content, _ :: _ => .file content
  | .folder entries, [name] => .folder (entries.filter (·.1 ≠ name))
  | .folder entries, name :: steps =>
    match entries.lookup name with
    | some t => .folder (putEntry entries name (t.erase steps))
    | none => .folder entries

/-- Whether it is a folder. -/
def isFolder : FileTree → Bool
  | folder _ => true
  | file _ => false

mutual
/-- All that is in a tree, each path with the content if it is a file; a folder before what is in
it, names in order. -/
def listing (path : String) : FileTree → List (String × Option String)
  | .file content => [(path, some content)]
  | .folder entries =>
    let inner := listings (if path.isEmpty then "" else path ++ "/") entries
    let sorted := inner.mergeSort fun a b => !(b.1 < a.1)
    (if path.isEmpty then [] else [(path ++ "/", none)]) ++ sorted.flatMap Prod.snd
/-- The listings of the entries of a folder, with their names. -/
def listings (place : String) :
    List (String × FileTree) → List (String × List (String × Option String))
  | [] => []
  | (name, t) :: entries => (name, listing (place ++ name) t) :: listings place entries
end

/-- The number of files in a tree. -/
def fileCount (t : FileTree) : Nat := ((t.listing "").filter (·.2.isSome)).length

end FileTree

/-- A tree with a current folder. -/
structure Workspace where
  tree : FileTree
  here : List String

/-- Where a path leads. -/
inductive Location where
  /-- To something that is there. -/
  | found (place : List String) (entry : FileTree)
  /-- To a free name in a folder; the path may say that it means a folder. -/
  | free (place : List String) (asFolder : Bool)

namespace Workspace

/-- An empty current folder. -/
def empty : Workspace :=
  ⟨.folder [("tmp", .folder [("work", .folder [])])], ["tmp", "work"]⟩

/-- How many bytes a name may have. -/
def maxNameSize : Nat := 255

/-- How many bytes a path may have. -/
def maxPathSize : Nat := 4095

/-- Follows the segments of a path from a folder. -/
def follow (tree : FileTree) : List String → List (List Char) → Except FileFault Location
  | place, [] =>
    match tree.get? place with
    | some entry => .ok (.found place entry)
    | none => .error .notFound
  | place, segment :: segments =>
    if Path.isIdle segment then follow tree place segments
    else if segment = ['.', '.'] then follow tree place.dropLast segments
    else if maxNameSize < (String.ofList segment).utf8ByteSize then .error .nameTooLong
    else
      let next := place ++ [String.ofList segment]
      match tree.get? next with
      | some (.folder _) => follow tree next segments
      | some (.file content) =>
        if segments.isEmpty then .ok (.found next (.file content)) else .error .notDirectory
      | none =>
        if segments.all List.isEmpty then .ok (.free next (!segments.isEmpty)) else .error .notFound

/-- Where a path leads. -/
def locate (w : Workspace) (path : Path) : Except FileFault Location :=
  if path.text.toList.contains '\x00' then .error .zeroCharacter
  else if path.text.isEmpty then .error .notFound
  else if maxPathSize < path.text.utf8ByteSize then .error .nameTooLong
  else follow w.tree (if path.isRooted then [] else w.here) path.segments

/-- The content of a file. -/
def read (w : Workspace) (path : Path) : Except FileFault String :=
  match w.locate path with
  | .ok (.found _ (.file content)) => .ok content
  | .ok (.found _ (.folder _)) => .error .isDirectory
  | .ok (.free _ _) => .error .notFound
  | .error fault => .error fault

/-- Whether a path leads to something. -/
def isThere (w : Workspace) (path : Path) : Bool :=
  match w.locate path with
  | .ok (.found _ _) => true
  | _ => false

/-- Whether a path leads to a folder. -/
def isFolder (w : Workspace) (path : Path) : Bool :=
  match w.locate path with
  | .ok (.found _ entry) => entry.isFolder
  | _ => false

/-- Writes a file. -/
def write (w : Workspace) (path : Path) (content : String) : Except FileFault Workspace :=
  match w.locate path with
  | .ok (.found place (.file _)) => .ok { w with tree := w.tree.put place (.file content) }
  | .ok (.found _ (.folder _)) => .error .isDirectory
  | .ok (.free _ true) => .error .isDirectory
  | .ok (.free place false) => .ok { w with tree := w.tree.put place (.file content) }
  | .error fault => .error fault

/-- Makes a folder. -/
def makeFolder (w : Workspace) (path : Path) : Except FileFault Workspace :=
  match w.locate path with
  | .ok (.found _ _) => .error .alreadyExists
  | .ok (.free place _) => .ok { w with tree := w.tree.put place (.folder []) }
  | .error fault => .error fault

/-- A path and the paths above it, which are at most `limit`. -/
def withParents : (limit : Nat) → Path → List Path
  | 0, path => [path]
  | limit + 1, path => path :: (path.parent?.map (withParents limit)).getD []

/-- Makes a folder, given with the paths above it, and those of them that are missing. What was made
before a fault stays. -/
def makeAll (w : Workspace) : List Path → Workspace × Except FileFault Unit
  | [] => (w, .error .notFound)
  | path :: above =>
    if path.text.isEmpty then (w, .ok ())
    else match w.makeFolder path with
      | .ok w' => (w', .ok ())
      | .error .notFound =>
        match w.makeAll above with
        | (w', .error fault) => (w', .error fault)
        | (w', .ok ()) =>
          match w'.makeFolder path with
          | .ok w'' => (w'', .ok ())
          | .error fault => (w', if w'.isFolder path then .ok () else .error fault)
      | .error fault => (w, if w.isFolder path then .ok () else .error fault)

/-- Makes a folder and those above it that are missing. -/
def makeFolders (w : Workspace) (path : Path) : Workspace × Except FileFault Unit :=
  w.makeAll (withParents path.segments.length path)

/-- The last segment of a path that is not empty. -/
def lastSegment (path : Path) : List Char :=
  ((path.segments.reverse.dropWhile List.isEmpty).head?).getD []

/-- Removes a folder. It is emptied first, and then the path is followed once more: a path through
what was in the folder leads nowhere by then, and the folder stays. A folder that the path calls `.`
or `..` is only emptied. -/
def removeFolder (w : Workspace) (path : Path) : Workspace × Except FileFault Unit :=
  match w.locate path with
  | .ok (.found _ (.file _)) => (w, .error .notDirectory)
  | .ok (.found place (.folder _)) =>
    let emptied := { w with tree := w.tree.put place (.folder []) }
    if !emptied.isThere path then (emptied, .ok ())
    else if lastSegment path = ['.'] then (emptied, .error .invalidPath)
    else if lastSegment path = ['.', '.'] || place.isEmpty then (emptied, .error .notEmpty)
    else ({ w with tree := w.tree.erase place }, .ok ())
  | .ok (.free _ _) => (w, .error .notFound)
  | .error fault => (w, .error fault)

/-- Removes a file or a folder, if it is there. -/
def remove (w : Workspace) (path : Path) : Workspace :=
  match w.locate path with
  | .ok (.found place _) => { w with tree := w.tree.erase place }
  | _ => w

/-- All that is in the current folder. -/
def listing (w : Workspace) : List (String × Option String) :=
  match w.tree.get? w.here with
  | some t => t.listing ""
  | none => []

/-- How deep files can include each other. A normal path to a file is the way to it from some folder
above the current one, with at most one `..` before it. -/
def depth (w : Workspace) : Nat := 2 * w.tree.fileCount * (w.here.length + 2) + 1

end Workspace

end Pagewright
