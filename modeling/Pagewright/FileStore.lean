import Pagewright.FileTree

/-!
# File stores

What a project needs of the files around it. A workspace offers it as a state that the operations
change; a running program offers it through its surroundings.
-/

namespace Pagewright

/-- A place where files are kept. -/
class FileStore (m : Type → Type) where
  /-- The content of a file. -/
  read : Path → m (Except FileFault String)
  /-- Writes a file. -/
  write : Path → String → m (Except FileFault Unit)
  /-- Whether a path leads to something. -/
  isThere : Path → m Bool
  /-- Whether a path leads to a folder. -/
  isFolder : Path → m Bool
  /-- Makes a folder and those above it that are missing. -/
  makeFolders : Path → m (Except FileFault Unit)
  /-- Removes a folder with all that is in it. -/
  removeFolder : Path → m (Except FileFault Unit)
  /-- How deep files can include each other. -/
  depth : m Nat

/-- The state of a workspace, passed from one operation to the next. -/
abbrev WorkspaceM := StateM Workspace

instance : FileStore WorkspaceM where
  read path := return (← get).read path
  write path content := do
    match (← get).write path content with
    | .ok w =>
      set w
      return .ok ()
    | .error fault => return .error fault
  isThere path := return (← get).isThere path
  isFolder path := return (← get).isFolder path
  makeFolders path := modifyGet fun w => ((w.makeFolders path).2, (w.makeFolders path).1)
  removeFolder path := modifyGet fun w => ((w.removeFolder path).2, (w.removeFolder path).1)
  depth := return (← get).depth

end Pagewright
