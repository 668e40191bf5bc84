import Pagewright.Build
import Pagewright.Template

/-!
# Commands

The commands on a project: make a new one, build it, remove what was built, compile a single file.
Each says what it prints and, if it failed, why.
-/

namespace Pagewright

/-- The manifest in the folder of a project. -/
def manifestName : String := "tessera.toml"

/-- Which files `compile` prints. -/
inductive Selection where
  | all
  | only (artifact : Artifact)
deriving DecidableEq, Repr

/-- What a command printed, and why it failed, if it did. -/
structure Outcome where
  stdout : String := ""
  stderr : String := ""
  failure? : Option String := none
deriving DecidableEq, Repr

/-- The outcome of a command that failed before it printed anything. -/
def Outcome.failed (reason : String) : Outcome := { failure? := some reason }

section Commands

variable {m : Type → Type} [Monad m] [FileStore m]

/-! ### Making a project -/

/-- Writes files, each with its path and the reason for which the command fails without it. -/
def writeFiles : List (Path × String × String) → ExceptT String m Unit
  | [] => pure ()
  | (path, content, reason) :: files => do
    match ← ExceptT.lift (FileStore.write path content) with
    | .error _ => throw reason
    | .ok () => writeFiles files

/-- Makes a project in a new folder. -/
def initProject (name : String) : m Outcome := do
  let folder : Path := ⟨name⟩
  if ← FileStore.isThere folder then
    return .failed ("Directory '" ++ name ++ "' already exists")
  if let .error _ ← FileStore.makeFolders (folder.join ⟨"src"⟩) then
    return .failed "Failed to create project directories"
  let files : List (Path × String × String) := [
    (folder.join ⟨manifestName⟩, Template.manifest, "Failed to write tessera.toml"),
    (folder.join ⟨"src/index.tsr"⟩, Template.index (folder.fileName?.getD name),
      "Failed to write src/index.tsr"),
    (folder.join ⟨"src/widgets.tsr"⟩, Template.widgets, "Failed to write src/widgets.tsr"),
    (folder.join ⟨".gitignore"⟩, Template.ignored, "Failed to write .gitignore")]
  match ← (writeFiles files).run with
  | .error reason => return .failed reason
  | .ok () => return { stdout := "     Created tessera project `" ++ name ++ "`\n" }

/-! ### Building and cleaning -/

/-- The manifest that a target means: the one in a folder, or the file itself. -/
def manifestPath (target : String) : m Path := do
  if ← FileStore.isFolder ⟨target⟩ then return Path.join ⟨target⟩ ⟨manifestName⟩
  else return ⟨target⟩

/-- Whether a manifest was found but could not be understood. -/
def isMalformed : ManifestFault → Bool
  | .malformed => true
  | .inFile _ fault => isMalformed fault
  | _ => false

/-- What a build prints. -/
def BuildReport.outcome (report : BuildReport) : Outcome :=
  let compiled := String.join (report.compiled.map fun page => "    Compiled `" ++ page ++ "`\n")
  if report.failures.isEmpty then
    { stdout := compiled ++ s!"   Finished compiling {report.compiled.length} page(s) to " ++
        report.outRoot.text ++ "\n" }
  else
    { stdout := compiled
      stderr := s!"error: {report.failures.length} page(s) failed to compile\n" ++
        String.join (report.failures.map fun failure => "  " ++ failure.report ++ "\n")
      failure? := some "Build failed" }

/-- Builds all pages of a project. -/
def buildProject (target : String) (clean : Bool) : m Outcome := do
  match ← loadManifest (← manifestPath target) with
  | .error fault =>
    return .failed (if isMalformed fault then fault.message
      else fault.message ++ "\nAre you in a Tessera project directory?")
  | .ok manifest =>
    match ← (buildAll FileStore.loader manifest clean).run with
    | .error fault => return .failed fault.message
    | .ok report => return report.outcome

/-- Removes the files that were built. -/
def cleanProject (target : String) : m Outcome := do
  match ← loadManifest (← manifestPath target) with
  | .error fault => return .failed fault.message
  | .ok manifest =>
    let folder := manifest.outRoot
    if !(← FileStore.isThere folder) then
      return { stdout := "info: No build artifacts to clean\n" }
    match ← FileStore.removeFolder folder with
    | .error _ => return .failed ("Failed to remove " ++ folder.text)
    | .ok () => return { stdout := "     Removed " ++ folder.text ++ "\n" }

/-! ### Compiling a file -/

/-- The files of a page as `compile` prints them. -/
def PageOutput.print (output : PageOutput) (page : String) : Selection → String
  | .only artifact => output.artifact artifact
  | .all =>
    "<!-- " ++ page ++ ".html -->\n" ++ output.markup ++
      "\n/* " ++ page ++ ".css */\n" ++ output.stylesheet ++
      "\n// " ++ page ++ ".js\n" ++ output.behavior

/-- Compiles one file and prints the files of its page. -/
def compileFile (file : String) (selection : Selection) : m Outcome := do
  let path : Path := ⟨file⟩
  match path.fileStem? with
  | none => return .failed ("Invalid source file name: " ++ file)
  | some page =>
    let depth ← FileStore.depth (m := m)
    match ← (compilePage FileStore.read depth path (HeadLinks.beside page "js" "css")).run with
    | .error e => return .failed (e.report file)
    | .ok output => return { stdout := output.print page selection }

end Commands

end Pagewright
