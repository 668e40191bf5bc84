import Pagewright.Compile
import Pagewright.FileStore
import Pagewright.Manifest

/-!
# Building projects

All pages of a manifest are compiled, in the order of their names, and their files written. A page
that does not compile writes nothing; the others are built all the same.
-/

namespace Pagewright

/-- A page that failed, as it is reported. -/
structure PageFailure where
  page : String
  report : String
deriving DecidableEq, Repr

/-- What a build did. -/
structure BuildReport where
  /-- The pages that were written. -/
  compiled : List String
  failures : List PageFailure
  outRoot : Path

/-- Why a build did not begin. -/
inductive BuildFault where
  /-- The old files could not be removed. -/
  | notCleaned
  /-- A folder for the files could not be made. -/
  | notCreated (folder : Path)
deriving DecidableEq, Repr

/-- The wording of a build fault. -/
def BuildFault.message : BuildFault → String
  | notCleaned => "Failed to clean output directory"
  | notCreated folder => "Failed to create output directory " ++ folder.text

/-- A file of a page. -/
def PageOutput.artifact (output : PageOutput) : Artifact → String
  | .markup => output.markup
  | .stylesheet => output.stylesheet
  | .behavior => output.behavior

/-- Where the sources of pages come from. -/
structure Loader (m : Type → Type) where
  /-- The content of a file. -/
  read : Path → m (Except FileFault String)
  /-- How deep files can include each other. -/
  depth : m Nat

/-- The files of a store as sources. -/
def FileStore.loader {m : Type → Type} [FileStore m] : Loader m := ⟨FileStore.read, FileStore.depth⟩

/-- Compiles one page of a manifest. -/
def compileEntry {m : Type → Type} [Monad m] (loader : Loader m) (manifest : Manifest) (page : String) :
    ExceptT CompileError m PageOutput := do
  let some entry := manifest.sourcePath? page | throw (.manifest (.undeclaredPage page))
  let depth ← ExceptT.lift loader.depth
  compilePage loader.read depth entry (manifest.out.headLinks page)

section Building

variable {m : Type → Type} [Monad m] [FileStore m]

/-- The manifest in a file. -/
def loadManifest (path : Path) : m (Except ManifestFault Manifest) := do
  match ← FileStore.read path with
  | .error .notFound => return .error (.missing path)
  | .error fault => return .error (.unreadable path fault)
  | .ok content =>
    match Manifest.parse content (path.parent?.getD ⟨"."⟩) with
    | .ok manifest => return .ok manifest
    | .error fault => return .error (.inFile path fault)

/-- Writes the files of a page, one kind after the other. -/
def writeArtifacts (manifest : Manifest) (page : String) (output : PageOutput) :
    List Artifact → ExceptT CompileError m Unit
  | [] => pure ()
  | artifact :: artifacts => do
    let path := manifest.artifactPath page artifact
    match ← ExceptT.lift (FileStore.write path (output.artifact artifact)) with
    | .error fault => throw (.access path fault)
    | .ok () => writeArtifacts manifest page output artifacts

/-- Compiles one page and writes its files. -/
def buildPage (loader : Loader m) (manifest : Manifest) (page : String) : ExceptT CompileError m Unit := do
  let output ← compileEntry loader manifest page
  writeArtifacts manifest page output Artifact.all

/-- Compiles pages and adds what became of them to a report. -/
def buildPages (loader : Loader m) (manifest : Manifest) (report : BuildReport) :
    List (String × Path) → m BuildReport
  | [] => return report
  | (page, source) :: pages => do
    match ← (buildPage loader manifest page).run with
    | .ok () => buildPages loader manifest { report with compiled := report.compiled ++ [page] } pages
    | .error e =>
      let failure : PageFailure := ⟨page, e.report source.text⟩
      buildPages loader manifest { report with failures := report.failures ++ [failure] } pages

/-- Makes the folders for kinds of files. -/
def makeArtifactFolders (manifest : Manifest) : List Artifact → ExceptT BuildFault m Unit
  | [] => pure ()
  | artifact :: artifacts => do
    let folder := manifest.artifactFolder artifact
    match ← ExceptT.lift (FileStore.makeFolders folder) with
    | .error _ => throw (.notCreated folder)
    | .ok () => makeArtifactFolders manifest artifacts

/-- Removes the old files, if they are to be removed and there are any. -/
def removeOld (manifest : Manifest) (clean : Bool) : ExceptT BuildFault m Unit := do
  if clean && (← ExceptT.lift (FileStore.isThere manifest.outRoot)) then
    match ← ExceptT.lift (FileStore.removeFolder manifest.outRoot) with
    | .error _ => throw .notCleaned
    | .ok () => return

/-- Builds all pages of a manifest. -/
def buildAll (loader : Loader m) (manifest : Manifest) (clean : Bool) : ExceptT BuildFault m BuildReport := do
  removeOld manifest clean
  makeArtifactFolders manifest Artifact.all
  ExceptT.lift (buildPages loader manifest ⟨[], [], manifest.outRoot⟩ manifest.sources)

end Building

end Pagewright
