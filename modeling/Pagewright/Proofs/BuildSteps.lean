import Pagewright.Command
import Pagewright.Proofs.PageFiles

/-!
# The steps of a build

What each step of a build does to a workspace: removing the old files, making the folders, building
the pages. Only the first takes files away; folders are made where nothing was
(`grew_makeArtifactFolders`), and only files with the names of files of pages are written
(`overlays_buildPages`). This holds even where the current folder itself was removed. -/

namespace Pagewright

namespace Workspace

variable {w w' w'' : Workspace} {q : List String} {names names' : List String → Prop} {paths : List Path}
  {content : String}

/-- Folders were made where nothing was, and files were written under some names. -/
def Overlays (names : List String → Prop) (w w' : Workspace) : Prop :=
  ∀ q, w'.tree.seen q = w.tree.seen q ∨ w.tree.seen q = none ∧ w'.tree.seen q = some none ∨
    names q ∧ w.tree.seen q ≠ some none ∧ ∃ content, w'.tree.seen q = some (some content)

theorem Overlays.refl (names : List String → Prop) (w : Workspace) : Overlays names w w := fun _ => .inl rfl

theorem Overlays.trans (h : Overlays names w w') (h' : Overlays names w' w'') : Overlays names w w'' := by
  intro q
  rcases h' q with heq | ⟨hn, hm⟩ | ⟨ha, hf, hw⟩
  · rw [heq]
    exact h q
  · rcases h q with heq | ⟨-, hm'⟩ | ⟨-, -, content, hw⟩
    · exact .inr (.inl ⟨heq ▸ hn, hm⟩)
    · rw [hn] at hm'
      cases hm'
    · rw [hn] at hw
      cases hw
  · rcases h q with heq | ⟨-, hm'⟩ | ⟨-, hf', -⟩
    · exact .inr (.inr ⟨ha, heq ▸ hf, hw⟩)
    · exact absurd hm' hf
    · exact .inr (.inr ⟨ha, hf', hw⟩)

theorem Grew.overlays (h : Grew paths w w') : Overlays names w w' := fun q =>
  (h.seen_cases q).imp_right fun ⟨hn, hm, _⟩ => .inl ⟨hn, hm⟩

theorem Overlays.seen_file (h : Overlays names w w') (hq : w.tree.seen q = some (some content)) :
    ∃ content', w'.tree.seen q = some (some content') ∧ (content' = content ∨ names q) := by
  rcases h q with heq | ⟨hn, -⟩ | ⟨ha, -, content', hw⟩
  · exact ⟨content, heq.trans hq, .inl rfl⟩
  · rw [hq] at hn
    cases hn
  · exact ⟨content', hw, .inr ha⟩

theorem Overlays.file_of_seen (h : Overlays names w w') (hq : w'.tree.seen q = some (some content)) :
    w.tree.seen q = some (some content) ∨ names q := by
  rcases h q with heq | ⟨-, hm⟩ | ⟨hn, -, -⟩
  · exact .inl (heq ▸ hq)
  · rw [hq] at hm
    cases hm
  · exact .inr hn

end Workspace

section Steps

open Workspace

variable {w w' : Workspace} {manifest : Manifest} {page : String} {output : PageOutput} {kind : Artifact}
  {kinds : List Artifact} {view : Workspace → Path → Except FileFault String} {d : Workspace → Nat}
  {report : BuildReport} {src : Path} {pages : List (String × Path)} {loader : Loader WorkspaceM}

/-! ### Removing -/

theorem exec_removeOld : ∃ result, w.exec (removeOld manifest true) = (result, (w.removeFolder manifest.outRoot).1) := by
  have ht : w.exec (ε := BuildFault) (ExceptT.lift (FileStore.isThere manifest.outRoot)) = (.ok (w.isThere manifest.outRoot), w) := rfl
  have hr : w.exec (ε := BuildFault) (ExceptT.lift (FileStore.removeFolder manifest.outRoot)) =
    (.ok (w.removeFolder manifest.outRoot).2, (w.removeFolder manifest.outRoot).1) := rfl
  rw [removeOld, exec_bind, ht]
  dsimp only
  rw [Bool.true_and]
  split_ifs with ho
  · rw [exec_bind, hr]
    cases (w.removeFolder manifest.outRoot).2 with
    | error | ok => exact ⟨_, rfl⟩
  · rw [removeFolder_of_not_isThere (Bool.eq_false_iff.2 ho)]
    exact ⟨_, rfl⟩

theorem exec_makeArtifactFolders_cons : w.exec (makeArtifactFolders manifest (kind :: kinds)) =
    match (w.makeFolders (manifest.artifactFolder kind)).2 with
    | .ok () => (w.makeFolders (manifest.artifactFolder kind)).1.exec (makeArtifactFolders manifest kinds)
    | .error _ => (.error (.notCreated (manifest.artifactFolder kind)), (w.makeFolders (manifest.artifactFolder kind)).1) := by
  have hm : w.exec (ε := BuildFault) (ExceptT.lift (FileStore.makeFolders (manifest.artifactFolder kind))) =
    (.ok (w.makeFolders (manifest.artifactFolder kind)).2, (w.makeFolders (manifest.artifactFolder kind)).1) := rfl
  rw [makeArtifactFolders, exec_bind, hm]
  cases (w.makeFolders (manifest.artifactFolder kind)).2 <;> rfl

/-- The paths of the folders for some kinds of files, with the paths above them. -/
def Manifest.folderPaths (manifest : Manifest) (kinds : List Artifact) : List Path :=
  kinds.flatMap fun kind => above (manifest.artifactFolder kind)

theorem grew_makeArtifactFolders : Grew (manifest.folderPaths kinds) w (w.exec (makeArtifactFolders manifest kinds)).2 := by
  induction kinds generalizing w with
  | nil => exact .refl _ w
  | cons kind kinds ih =>
    have hf : Grew (manifest.folderPaths (kind :: kinds)) w (w.makeFolders (manifest.artifactFolder kind)).1 :=
      (grew_makeFolders w (manifest.artifactFolder kind)).1.mono (List.subset_append_left _ _)
    rw [exec_makeArtifactFolders_cons]
    cases (w.makeFolders (manifest.artifactFolder kind)).2 with
    | error => exact hf
    | ok => exact hf.trans (ih.mono (List.subset_append_right _ _))

/-- The failure of a page, as it is reported. -/
def failureOf (entry : String × Path) : Except CompileError Unit → Option PageFailure
  | .ok () => none
  | .error e => some ⟨entry.1, e.report entry.2.text⟩

/-- A report to which it is added what became of a page. -/
def BuildReport.add (report : BuildReport) (entry : String × Path) (result : Except CompileError Unit) : BuildReport where
  compiled := report.compiled ++ if result.isOk then [entry.1] else []
  failures := report.failures ++ (failureOf entry result).toList
  outRoot := report.outRoot

theorem run_buildPages_cons {entry : String × Path} : (buildPages loader manifest report (entry :: pages)).run w =
      (buildPages loader manifest (report.add entry (w.exec (buildPage loader manifest entry.1)).1) pages).run
        (w.exec (buildPage loader manifest entry.1)).2 := by
  obtain ⟨page, src⟩ := entry
  have ha (result : Except CompileError Unit) : report.add (page, src) result = match result with
      | .ok () => { report with compiled := report.compiled ++ [page] }
      | .error e => { report with failures := report.failures ++ [⟨page, e.report src.text⟩] } := by
    cases result <;> simp [BuildReport.add, failureOf, Except.isOk, Except.toBool]
  rw [buildPages, StateT.run_bind, ha, exec]
  rcases (buildPage loader manifest page).run.run w with ⟨e | a, w'⟩ <;> rfl

/-- The last name on the way to a file of a page. -/
def Manifest.NamesFile (manifest : Manifest) (q : List String) : Prop :=
  ∃ page ∈ manifest.sources.map Prod.fst, ∃ kind : Artifact, q.getLast? = some (page ++ "." ++ kind.extension)

theorem overlays_writeArtifacts (hp : Manifest.isPageName page) (hs : page ∈ manifest.sources.map Prod.fst) :
    Overlays manifest.NamesFile w (w.exec (writeArtifacts manifest page output kinds)).2 := by
  induction kinds generalizing w with
  | nil => exact .refl _ w
  | cons kind kinds ih =>
    rw [exec_writeArtifacts_cons]
    split
    · next w' hw =>
      have hf : Overlays manifest.NamesFile w w' := by
        intro q
        refine (seen_write hw q).imp_right fun ⟨hl, ho, hr⟩ => .inr ⟨?_, ho, _, hr⟩
        have ha := hl.getLast? (manifest.endsIn_artifactPath hp kind)
        rw [String.ofList_toList] at ha
        exact ⟨page, hs, kind, ha⟩
      exact hf.trans ih
    · exact .refl _ w

theorem overlays_buildPage (hp : Manifest.isPageName page) (hs : page ∈ manifest.sources.map Prod.fst) :
    Overlays manifest.NamesFile w (w.exec (buildPage (.ofView view d) manifest page)).2 := by
  rw [exec_buildPage]
  split
  · exact overlays_writeArtifacts hp hs
  · exact .refl _ w

theorem overlays_buildPages (hp : ∀ page ∈ manifest.sources.map Prod.fst, Manifest.isPageName page)
    (hs : pages ⊆ manifest.sources) :
    Overlays manifest.NamesFile w ((buildPages (.ofView view d) manifest report pages).run w).2 := by
  induction pages generalizing w report with
  | nil => exact .refl _ w
  | cons e pages ih =>
    obtain ⟨page, src⟩ := e
    rw [List.cons_subset] at hs
    have ho : page ∈ manifest.sources.map Prod.fst := List.mem_map_of_mem hs.1
    have hf : Overlays manifest.NamesFile w (w.exec (buildPage (.ofView view d) manifest page)).2 := overlays_buildPage (hp page ho) ho
    rw [run_buildPages_cons]
    exact hf.trans (ih hs.2)

/-! ### All steps -/

theorem exec_buildAll {clean : Bool} : w.exec (buildAll loader manifest clean) =
    match w.exec (removeOld manifest clean) with
    | (.error e, w') => (.error e, w')
    | (.ok (), w') => match w'.exec (makeArtifactFolders manifest Artifact.all) with
      | (.error e, w'') => (.error e, w'')
      | (.ok (), w'') =>
        (.ok ((buildPages loader manifest ⟨[], [], manifest.outRoot⟩ manifest.sources).run w'').1,
          ((buildPages loader manifest ⟨[], [], manifest.outRoot⟩ manifest.sources).run w'').2) := by
  rw [buildAll, exec_bind]
  rcases w.exec (removeOld manifest clean) with ⟨e | a, w'⟩
  · rfl
  · dsimp only
    rw [exec_bind]
    rcases w'.exec (makeArtifactFolders manifest Artifact.all) with ⟨e | a, w''⟩ <;> rfl

theorem overlays_buildAll (hp : ∀ page ∈ manifest.sources.map Prod.fst, Manifest.isPageName page) :
    Overlays manifest.NamesFile (w.removeFolder manifest.outRoot).1 (w.exec (buildAll (.ofView view d) manifest true)).2 := by
  obtain ⟨result, hr⟩ : ∃ result, w.exec (removeOld manifest true) = (result, (w.removeFolder manifest.outRoot).1) := exec_removeOld
  have hm (w : Workspace) : Overlays manifest.NamesFile w (w.exec (makeArtifactFolders manifest Artifact.all)).2 :=
    grew_makeArtifactFolders.overlays
  rw [exec_buildAll, hr]
  generalize (w.removeFolder manifest.outRoot).1 = w'
  cases result with
  | error => exact .refl _ w'
  | ok =>
    dsimp only
    have hf := hm w'
    generalize w'.exec (makeArtifactFolders manifest Artifact.all) = made at hf ⊢
    obtain ⟨e | ⟨⟩, w''⟩ := made
    · exact hf
    · exact hf.trans (overlays_buildPages hp (List.Subset.refl _))

end Steps

end Pagewright
