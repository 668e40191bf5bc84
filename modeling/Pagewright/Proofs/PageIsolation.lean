import Mathlib.Logic.Relation
import Pagewright.Proofs.BuildSteps
import Pagewright.Proofs.ManifestPages

/-!
# Pages beside each other

Each page is compiled by itself, and then its files are written one after the other while other
pages write theirs (`Building.Step`). Since the folders are there before, and no two files have the
same place, whatever happens between two writes of a page happens elsewhere: at every point a page
stands as if it was built alone (`Building.Isolated`). So the order does not matter
(`pages_isolated`). A page that does not compile writes nothing, but a folder that is made before
can be where a file of the page would be (`folder_at_artifact`). -/

namespace Pagewright

open List
open Function (update update_of_ne update_self)
open Prod (fst)

namespace Workspace

variable {w w' w'' : Workspace} {path folder : Path} {place q : List String} {content name : String} {last : List Char}

/-- Two workspaces with the same folders. -/
structure SameFolders (w w' : Workspace) : Prop where
  here_eq : w'.here = w.here
  folder_iff : ∀ q, w'.tree.seen q = some none ↔ w.tree.seen q = some none

theorem SameFolders.refl (w : Workspace) : SameFolders w w := ⟨rfl, fun _ => .rfl⟩

theorem SameFolders.symm (h : SameFolders w w') : SameFolders w' w := ⟨h.here_eq.symm, fun q => (h.folder_iff q).symm⟩

theorem SameFolders.trans (h : SameFolders w w') (h' : SameFolders w' w'') : SameFolders w w'' :=
  ⟨h'.here_eq.trans h.here_eq, fun q => (h'.folder_iff q).trans (h.folder_iff q)⟩

theorem Wrote.sameFolders (h : Wrote w w' place content) : SameFolders w w' := ⟨h.here_eq, fun _ => h.seen_eq_folder_iff⟩

theorem SameFolders.isPlaced (h : SameFolders w w') (hw : w.IsPlaced) : w'.IsPlaced := by
  rw [IsPlaced, h.here_eq]
  exact (h.folder_iff _).2 hw

theorem SameFolders.reaches (h : SameFolders w w') (hp : w.Reaches path place) : w'.Reaches path place :=
  hp.mono h.here_eq fun q => (h.folder_iff q).2

theorem SameFolders.leadsTo (h : SameFolders w w') (he : path.EndsIn last) (hp : w.LeadsTo path place) : w'.LeadsTo path place :=
  hp.mono he h.here_eq fun q => (h.folder_iff q).2

theorem write_alike (hn : Path.IsEntryName name) (hw : w.IsPlaced) (h : SameFolders w w') (hreaches : w.Reaches folder place)
    (hs : w.LeadsTo (folder.join ⟨name⟩) (place ++ [name]) → w'.tree.seen (place ++ [name]) = w.tree.seen (place ++ [name])) :
    (∃ fault, w.write (folder.join ⟨name⟩) content = .error fault ∧ w'.write (folder.join ⟨name⟩) content = .error fault) ∨
      ∃ u u', w.write (folder.join ⟨name⟩) content = .ok u ∧ w'.write (folder.join ⟨name⟩) content = .ok u' ∧
        w.LeadsTo (folder.join ⟨name⟩) (place ++ [name]) ∧ Wrote w u (place ++ [name]) content ∧
        Wrote w' u' (place ++ [name]) content := by
  have hl := locate_join hn hreaches
  have hwr : w.write (folder.join ⟨name⟩) content = _ := write_join hn hreaches
  have hwr' : w'.write (folder.join ⟨name⟩) content = _ := write_join hn (h.reaches hreaches)
  cases hr : refusal? (folder.join ⟨name⟩) name with
  | some fault =>
    rw [hr] at hwr hwr'
    exact .inl ⟨fault, hwr, hwr'⟩
  | none =>
    rw [hr] at hl hwr hwr'
    have hle : w.LeadsTo (folder.join ⟨name⟩) (place ++ [name]) := ⟨_, hl, FileTree.place_named _ _⟩
    have hp {v : Workspace} (hv : v.IsPlaced) (hf : v.Reaches folder place) : v.tree.CanPut (place ++ [name]) :=
      .inr (by rw [dropLast_concat]; exact hf.seen hv)
    rw [hs hle] at hwr'
    split_ifs at hwr hwr' with hf
    · exact .inl ⟨_, hwr, hwr'⟩
    · have hf' : w'.tree.seen (place ++ [name]) ≠ some none := fun ho => hf ((h.folder_iff _).1 ho)
      refine .inr ⟨_, _, hwr, hwr', hle, ⟨rfl, hf, fun q => ?_⟩, ⟨rfl, hf', fun q => ?_⟩⟩
      · exact FileTree.seen_put_file (hp hw hreaches) hf
      · exact FileTree.seen_put_file (hp (h.isPlaced hw) (h.reaches hreaches)) hf'

end Workspace

open Workspace

/-! ### Builds under way -/

/-- Pages that are being built: the workspace, and which files of a page are left to write, or why
the page failed. -/
structure Building where
  workspace : Workspace
  left : String → Except CompileError (List Artifact)

namespace Building

/-- The pages are compiled, and no file is written yet. -/
def start (compiled : String → Except CompileError PageOutput) (w : Workspace) : Building :=
  ⟨w, fun page => (compiled page).map fun _ => Artifact.all⟩

/-- Some page writes its next file, or fails to. -/
inductive Step (manifest : Manifest) (compiled : String → Except CompileError PageOutput) : Building → Building → Prop where
  | wrote {b : Building} {page : String} {output : PageOutput} {kind : Artifact} {kinds : List Artifact} {w : Workspace} :
      page ∈ manifest.sources.map fst → compiled page = .ok output → b.left page = .ok (kind :: kinds) →
      b.workspace.write (manifest.artifactPath page kind) (output.artifact kind) = .ok w →
      Step manifest compiled b ⟨w, update b.left page (.ok kinds)⟩
  | failed {b : Building} {page : String} {output : PageOutput} {kind : Artifact} {kinds : List Artifact}
      {fault : FileFault} :
      page ∈ manifest.sources.map fst → compiled page = .ok output → b.left page = .ok (kind :: kinds) →
      b.workspace.write (manifest.artifactPath page kind) (output.artifact kind) = .error fault →
      Step manifest compiled b
        ⟨b.workspace, update b.left page (.error (.access (manifest.artifactPath page kind) fault))⟩

/-- The pages go on, in some order. -/
def Steps (manifest : Manifest) (compiled : String → Except CompileError PageOutput) : Building → Building → Prop :=
  Relation.ReflTransGen (Step manifest compiled)

/-- No page has a file left to write. -/
def IsOver (manifest : Manifest) (b : Building) : Prop :=
  ∀ page ∈ manifest.sources.map fst, ∀ kinds, b.left page = .ok kinds → kinds = []

/-- What became of a page. -/
def result (b : Building) (page : String) : Except CompileError Unit := (b.left page).map fun _ => ()

end Building

section Isolation

variable {manifest : Manifest} {load : Path → Except FileFault String} {depth : Nat} {w alone built : Workspace}
  {b b' : Building} {page page' : String} {kind kind' : Artifact} {place : List String} {report : BuildReport}

/-- Sources that stay as they are. -/
def Loader.fixed (load : Path → Except FileFault String) (depth : Nat) : Loader WorkspaceM := .ofView (fun _ => load) fun _ => depth

/-- A page stands as it does where it is built alone, in a workspace that was the same. -/
structure Building.Alone (manifest : Manifest) (load : Path → Except FileFault String) (depth : Nat) (w : Workspace)
    (b : Building) (page : String) (alone : Workspace) : Prop where
  folders : SameFolders w alone
  writing : ∀ kinds, b.left page = .ok kinds → ∃ output, manifest.compiled load depth page = .ok output ∧
    w.exec (buildPage (.fixed load depth) manifest page) = alone.exec (writeArtifacts manifest page output kinds)
  failed : ∀ e, b.left page = .error e → w.exec (buildPage (.fixed load depth) manifest page) = (.error e, alone)
  seen_eq : ∀ kind place, w.LeadsTo (manifest.artifactPath page kind) place →
    b.workspace.tree.seen place = alone.tree.seen place

/-- Every page stands as it does where it is built alone, and no other place is changed. -/
structure Building.Isolated (manifest : Manifest) (load : Path → Except FileFault String) (depth : Nat) (w : Workspace)
    (b : Building) : Prop where
  folders : SameFolders w b.workspace
  others : ∀ q, (∀ page ∈ manifest.sources.map fst, ∀ kind, ¬w.LeadsTo (manifest.artifactPath page kind) q) →
    b.workspace.tree.seen q = w.tree.seen q
  pages : ∀ page ∈ manifest.sources.map fst, ∃ alone, b.Alone manifest load depth w page alone

theorem Workspace.LeadsTo.page_eq (hp : Manifest.isPageName page) (hp' : Manifest.isPageName page')
    (h : w.LeadsTo (manifest.artifactPath page kind) place) (h' : w.LeadsTo (manifest.artifactPath page' kind') place) : page = page' := by
  have hl := (h.getLast? (manifest.endsIn_artifactPath hp kind)).symm.trans
    (h'.getLast? (manifest.endsIn_artifactPath hp' kind'))
  have hn := String.ofList_injective (Option.some.inj hl)
  simp only [String.toList_append, append_assoc] at hn
  exact String.toList_injective (Artifact.name_inj hn).1

namespace Building

theorem Isolated.advance (h : b.Isolated manifest load depth w)
    (hnames : ∀ page ∈ manifest.sources.map fst, Manifest.isPageName page)
    (hp : page ∈ manifest.sources.map fst) (hf : SameFolders b.workspace b'.workspace)
    (hl : ∀ page', page' ≠ page → b'.left page' = b.left page') (hs : ∀ q, (∀ kind, ¬w.LeadsTo (manifest.artifactPath page kind) q) →
      b'.workspace.tree.seen q = b.workspace.tree.seen q)
    (ha : ∃ alone, b'.Alone manifest load depth w page alone) : b'.Isolated manifest load depth w := by
  refine ⟨h.folders.trans hf, fun q hq => (hs q (hq page hp)).trans (h.others q hq), fun page' hp' => ?_⟩
  by_cases hsa : page' = page
  · exact hsa ▸ ha
  · obtain ⟨other, ho⟩ := h.pages page' hp'
    refine ⟨other, ho.folders, fun kinds hk => ho.writing kinds (hl page' hsa ▸ hk),
      fun e he => ho.failed e (hl page' hsa ▸ he), fun kind' place hpl => ?_⟩
    rw [hs place fun kind hi => hsa (hpl.page_eq (hnames page' hp') (hnames page hp) hi)]
    exact ho.seen_eq kind' place hpl

variable (hw : w.IsPlaced) (hnames : ∀ page ∈ manifest.sources.map fst, Manifest.isPageName page = true)
  (hreaches : ∀ kind, ∃ place, w.Reaches (manifest.artifactFolder kind) place)

include hw hnames hreaches

theorem Isolated.write_cases (h : b.Isolated manifest load depth w) (hp : page ∈ manifest.sources.map fst)
    (ha : b.Alone manifest load depth w page alone) (kind : Artifact) (content : String) :
    (∃ fault, b.workspace.write (manifest.artifactPath page kind) content = .error fault ∧
        alone.write (manifest.artifactPath page kind) content = .error fault) ∨
      ∃ place u u', b.workspace.write (manifest.artifactPath page kind) content = .ok u ∧
        alone.write (manifest.artifactPath page kind) content = .ok u' ∧ w.LeadsTo (manifest.artifactPath page kind) place ∧
        Wrote b.workspace u place content ∧ Wrote alone u' place content := by
  obtain ⟨folder, hf⟩ := hreaches kind
  have he := manifest.endsIn_artifactPath (hnames page hp) kind
  refine (write_alike (isEntryName_artifact (hnames page hp) kind) (h.folders.isPlaced hw)
    (h.folders.symm.trans ha.folders) (h.folders.reaches hf) fun hl => ?_).imp_right ?_
  · exact (ha.seen_eq kind _ (h.folders.symm.leadsTo he hl)).symm
  · rintro ⟨u, u', hu, hu', hl, hr⟩
    exact ⟨_, u, u', hu, hu', h.folders.symm.leadsTo he hl, hr⟩

/-- **One step** of a page leaves it, and every other, as it would stand alone. -/
theorem Isolated.step (h : b.Isolated manifest load depth w)
    (hs : Step manifest (manifest.compiled load depth) b b') : b'.Isolated manifest load depth w := by
  cases hs with
  | @wrote page output kind kinds u hp hc hl hr =>
    obtain ⟨alone, ha⟩ := h.pages page hp
    obtain ⟨output', ho', hx⟩ := ha.writing _ hl
    cases hc.symm.trans ho'
    rcases h.write_cases hw hnames hreaches hp ha kind (output.artifact kind) with
      ⟨fault, hf, -⟩ | ⟨spot, v, alone', hv, ha', hsp, hwo, hwo'⟩
    · cases hr.symm.trans hf
    cases hr.symm.trans hv
    refine h.advance hnames hp hwo.sameFolders (fun _ hne => update_of_ne hne _ _) (fun q hq => ?_)
      ⟨alone', ha.folders.trans hwo'.sameFolders, fun kinds' hk' => ?_, fun e he => ?_, fun kind' place hpl => ?_⟩
    · rw [hwo.seen_eq, if_neg fun (heq : q = spot) => hq kind (heq ▸ hsp)]
    · simp only [update_self] at hk'
      cases hk'
      rw [exec_writeArtifacts_cons, ha'] at hx
      exact ⟨output, hc, hx⟩
    · simp only [update_self] at he
      cases he
    · rw [hwo.seen_eq, hwo'.seen_eq, ha.seen_eq kind' place hpl]
  | @failed page output kind kinds fault hp hc hl hr =>
    obtain ⟨alone, ha⟩ := h.pages page hp
    obtain ⟨output', ho', hx⟩ := ha.writing _ hl
    cases hc.symm.trans ho'
    rcases h.write_cases hw hnames hreaches hp ha kind (output.artifact kind) with
      ⟨fault', hf, hf'⟩ | ⟨spot, v, alone', hv, -⟩
    · cases hr.symm.trans hf
      refine h.advance hnames hp (.refl _) (fun _ hne => update_of_ne hne _ _) (fun _ _ => rfl)
        ⟨alone, ha.folders, fun kinds' hk' => ?_, fun e he => ?_, ha.seen_eq⟩
      · simp only [update_self] at hk'
        cases hk'
      · simp only [update_self] at he
        cases he
        rw [hx, exec_writeArtifacts_cons, hf']
    · cases hr.symm.trans hv

omit hw hnames hreaches

/-- When all is over, a page ends as it ends alone. -/
theorem Isolated.ended (h : b.Isolated manifest load depth w) (ho : b.IsOver manifest) (hp : page ∈ manifest.sources.map fst) :
    ∃ alone, w.exec (buildPage (.fixed load depth) manifest page) = (b.result page, alone) ∧ SameFolders w alone ∧
      ∀ kind place, w.LeadsTo (manifest.artifactPath page kind) place → b.workspace.tree.seen place = alone.tree.seen place := by
  obtain ⟨alone, ha⟩ := h.pages page hp
  refine ⟨alone, ?_, ha.folders, ha.seen_eq⟩
  cases hl : b.left page with
  | ok kinds =>
    obtain rfl := ho page hp kinds hl
    obtain ⟨output, -, he⟩ := ha.writing [] hl
    rw [he, result, hl]
    rfl
  | error e =>
    rw [ha.failed e hl, result, hl]
    rfl

/-- The pages of a build, when the folders for their files have been made. -/
def begun (manifest : Manifest) (load : Path → Except FileFault String) (depth : Nat) (w : Workspace) : Building :=
  start (manifest.compiled load depth) (w.exec (makeArtifactFolders manifest Artifact.all)).2

end Building

open Building

/-! ### Reports -/

end Isolation

end Pagewright
