import Pagewright.Proofs.BuildSteps
import Pagewright.Proofs.ManifestPages

/-!
# Cleaning

The output folder is removed with all that is in it, whatever that is. So cleaning takes a file away
exactly if it is in that folder, be it the manifest itself. With an empty path for the output, the
folder is that of the project. -/

namespace Pagewright

namespace Workspace

variable {w w' : Workspace} {target content : String} {manifest : Manifest} {path : Path} {q : List String}

/-- The manifest that a target means. -/
def manifestPathOf (w : Workspace) (target : String) : Path :=
  if w.isFolder ⟨target⟩ then Path.join ⟨target⟩ ⟨manifestName⟩ else ⟨target⟩

/-- What is read from the manifest that a target means. -/
def manifestOf (w : Workspace) (target : String) : Except ManifestFault Manifest :=
  ((do loadManifest (← manifestPath target) : WorkspaceM (Except ManifestFault Manifest)).run w).1

theorem run_bind_of {α β : Type} {x : WorkspaceM α} {f : α → WorkspaceM β} {a : α}
    (h : x.run w = (a, w')) : (x >>= f).run w = (f a).run w' := by
  rw [StateT.run_bind, h]
  rfl

theorem run_manifestPath : (manifestPath target : WorkspaceM Path).run w = (w.manifestPathOf target, w) := by
  have hf : (FileStore.isFolder ⟨target⟩ : WorkspaceM Bool).run w = (w.isFolder ⟨target⟩, w) := rfl
  rw [manifestPath, run_bind_of hf, manifestPathOf]
  cases w.isFolder ⟨target⟩ <;> rfl

theorem run_loadManifest : (loadManifest path : WorkspaceM (Except ManifestFault Manifest)).run w = (match w.read path with
      | .error .notFound => .error (.missing path)
      | .error fault => .error (.unreadable path fault)
      | .ok content => match Manifest.parse content (path.parent?.getD ⟨"."⟩) with
        | .ok manifest => .ok manifest
        | .error fault => .error (.inFile path fault), w) := by
  have hr : (FileStore.read path : WorkspaceM (Except FileFault String)).run w = (w.read path, w) := rfl
  rw [loadManifest, run_bind_of hr]
  cases w.read path with
  | ok content =>
    dsimp only
    cases Manifest.parse content (path.parent?.getD ⟨"."⟩) <;> rfl
  | error fault => cases fault <;> rfl

theorem manifestOf_eq : w.manifestOf target =
    ((loadManifest (w.manifestPathOf target) : WorkspaceM (Except ManifestFault Manifest)).run w).1 := by
  rw [manifestOf, run_bind_of run_manifestPath]

theorem run_loadManifest_eq : (loadManifest (w.manifestPathOf target) : WorkspaceM (Except ManifestFault Manifest)).run w =
    (w.manifestOf target, w) := by
  rw [manifestOf_eq, run_loadManifest]

theorem manifestOf_eq_ok_iff : w.manifestOf target = .ok manifest ↔ ∃ content, w.read (w.manifestPathOf target) = .ok content ∧
    Manifest.parse content ((w.manifestPathOf target).parent?.getD ⟨"."⟩) = .ok manifest := by
  rw [manifestOf_eq, run_loadManifest]
  constructor
  · intro h
    split at h
    · cases h
    · cases h
    · next content hr =>
      refine ⟨content, hr, ?_⟩
      split at h
      · next hp =>
        cases h
        exact hp
      · cases h
  · rintro ⟨content, hr, hp⟩
    simp only [hr, hp]

/-! ### Commands -/

theorem run_cleanProject (h : w.manifestOf target = .ok manifest) :
    ((cleanProject target : WorkspaceM Outcome).run w).2 = (w.removeFolder manifest.outRoot).1 := by
  have ht : (FileStore.isThere manifest.outRoot : WorkspaceM Bool).run w = (w.isThere manifest.outRoot, w) := rfl
  have hr : (FileStore.removeFolder manifest.outRoot : WorkspaceM (Except FileFault Unit)).run w =
    ((w.removeFolder manifest.outRoot).2, (w.removeFolder manifest.outRoot).1) := rfl
  rw [cleanProject, run_bind_of run_manifestPath, run_bind_of run_loadManifest_eq, h]
  rw [run_bind_of ht]
  cases ho : w.isThere manifest.outRoot with
  | false => exact (removeFolder_of_not_isThere ho).symm
  | true =>
    rw [if_neg (by decide), run_bind_of hr]
    cases (w.removeFolder manifest.outRoot).2 <;> rfl

theorem run_buildProject (h : w.manifestOf target = .ok manifest) (clean : Bool) :
    ((buildProject target clean : WorkspaceM Outcome).run w).2 = (w.exec (buildAll FileStore.loader manifest clean)).2 := by
  rw [buildProject, run_bind_of run_manifestPath, run_bind_of run_loadManifest_eq, h]
  have hb : ((buildAll FileStore.loader manifest clean).run : WorkspaceM (Except BuildFault BuildReport)).run w =
    w.exec (buildAll FileStore.loader manifest clean) := rfl
  rcases he : w.exec (buildAll FileStore.loader manifest clean) with ⟨result, w'⟩
  rw [he] at hb
  rw [run_bind_of hb]
  cases result <;> rfl

/-! ### What cleaning takes away -/

/-- A place in the folder that a path leads to. -/
def IsWithin (w : Workspace) (path : Path) (q : List String) : Prop :=
  ∃ root entries, w.locate path = .ok (.found root (.folder entries)) ∧ root <+: q

/-- Of what is in a folder nothing is left when it is removed, but at most the folder itself. -/
theorem seen_of_isWithin (h : w.IsWithin path q) : (w.removeFolder path).1.tree.seen q = none ∨
    ∃ entries, w.locate path = .ok (.found q (.folder entries)) ∧ (w.removeFolder path).1.tree.seen q = some none := by
  obtain ⟨root, entries, hl, hr⟩ := h
  rcases (cleared_removeFolder hl).seen_below q hr with hn | ⟨rfl, hs⟩
  · exact .inl hn
  · exact .inr ⟨entries, hl, hs⟩

theorem seen_removeFolder (hf : w.tree.seen q = some (some content)) :
    (w.IsWithin path q → (w.removeFolder path).1.tree.seen q = none) ∧
      (¬w.IsWithin path q → (w.removeFolder path).1.tree.seen q = some (some content)) := by
  constructor
  · intro hw
    refine (seen_of_isWithin hw).resolve_right fun ⟨entries, hl, _⟩ => ?_
    -- The folder itself is no file.
    rw [FileTree.seen_eq_folder_iff.2 ⟨entries, locate_found hl⟩] at hf
    cases hf
  · intro hw
    by_cases ho : ∃ root entries, w.locate path = .ok (.found root (.folder entries))
    · obtain ⟨root, entries, hl⟩ := ho
      rw [(cleared_removeFolder hl).seen_apart q fun hr => hw ⟨root, entries, hl, hr⟩]
      exact hf
    · rw [removeFolder_eq_self fun root entries hl => ho ⟨root, entries, hl⟩]
      exact hf

end Workspace

open Workspace

/-- **Cleaning.** Whatever file it is, cleaning takes it away exactly if it is in the folder for the
files of the pages, of which at most the folder itself is left. A build that cleans first leaves
every other file, and gives another content only to a file with the name of a file of a page. It
writes on top of what cleaning leaves, so that no old file stays in the folder, and every file that
is there afterwards has such a name. -/
theorem cleaning_spares_iff {w : Workspace} {target : String} {manifest : Manifest}
    (h : w.manifestOf target = .ok manifest) {q : List String} {content : String}
    (hfile : w.tree.seen q = some (some content)) :
    (((cleanProject target : WorkspaceM Outcome).run w).2.tree.seen q = some (some content) ↔
        ¬w.IsWithin manifest.outRoot q) ∧
      (((cleanProject target : WorkspaceM Outcome).run w).2.tree.seen q = none ↔ w.IsWithin manifest.outRoot q) ∧
      (¬w.IsWithin manifest.outRoot q → ∃ content',
        ((buildProject target true : WorkspaceM Outcome).run w).2.tree.seen q = some (some content') ∧
          (content' = content ∨ manifest.NamesFile q)) ∧
      Overlays manifest.NamesFile ((cleanProject target : WorkspaceM Outcome).run w).2
        ((buildProject target true : WorkspaceM Outcome).run w).2 ∧
      ∀ place, w.IsWithin manifest.outRoot place →
        (((cleanProject target : WorkspaceM Outcome).run w).2.tree.seen place = none ∨
          ∃ entries, w.locate manifest.outRoot = .ok (.found place (.folder entries)) ∧
            ((cleanProject target : WorkspaceM Outcome).run w).2.tree.seen place = some none) ∧
        ∀ content', ((buildProject target true : WorkspaceM Outcome).run w).2.tree.seen place =
          some (some content') → manifest.NamesFile place := by
  obtain ⟨text, -, hparse⟩ := manifestOf_eq_ok_iff.1 h
  have hbuilt : Overlays manifest.NamesFile (w.removeFolder manifest.outRoot).1
      (w.exec (buildAll FileStore.loader manifest true)).2 := overlays_buildAll (Manifest.pages_of_parse hparse).2
  obtain ⟨hgone, hspared⟩ : (w.IsWithin manifest.outRoot q → _) ∧ _ := seen_removeFolder hfile
  rw [run_cleanProject h, run_buildProject h]
  refine ⟨⟨fun hseen hwithin => ?_, hspared⟩, ⟨fun hnone => ?_, hgone⟩, fun hwithin => hbuilt.seen_file (hspared hwithin),
    hbuilt, fun place hwithin => ⟨seen_of_isWithin hwithin, fun content' hseen => ?_⟩⟩
  · rw [hgone hwithin] at hseen
    cases hseen
  · by_contra hwithin
    rw [hspared hwithin] at hnone
    cases hnone
  · refine (hbuilt.file_of_seen hseen).resolve_left fun hold => ?_
    rcases seen_of_isWithin hwithin with hnone | ⟨entries, -, hfolder⟩
    · rw [hnone] at hold
      cases hold
    · rw [hfolder] at hold
      cases hold

/-- A project in a folder, whose manifest names the folder for the files of its page, and a file in
the usual one. -/
def projectFor (out : String) : Workspace :=
  ⟨.folder [("p", .folder [("tessera.toml", .file ("[sources]\na = 'a.src'\n[out]\npath = '" ++ out ++ "'\n")),
    ("a.src", .file ""), ("www", .folder [("old", .file "")])])], []⟩

/-- The manifest of that project. -/
def manifestFor (out : String) : Manifest := ⟨⟨"p"⟩, [("a", ⟨"a.src"⟩)], ⟨out, "js", "html", "css"⟩⟩

theorem manifestOf_projectFor {out : String} (h : out = "www" ∨ out = "") :
    (projectFor out).manifestOf "p" = .ok (manifestFor out) := by
  have he : (Toml.parse? ("[sources]\na = 'a.src'\n[out]\npath = '" ++ out ++ "'\n")).any (fun es =>
      decide (Manifest.sources? (es.lookup "sources") = some (some [("a", "a.src")]) ∧
        Manifest.outLayout? (es.lookup "out") = some (manifestFor out).out)) := by
    rcases h with rfl | rfl <;> decide +kernel
  have hp : (projectFor out).manifestPathOf "p" = ⟨"p/tessera.toml"⟩ := rfl
  rw [manifestOf_eq_ok_iff, hp]
  exact ⟨_, rfl, Manifest.parse_of_entries he (by simp) (by simp) (by decide) ⟨"p"⟩⟩

/-- Cleaning leaves the source, and takes the old file away. -/
theorem cleanProject_projectFor :
    ((cleanProject "p" : WorkspaceM Outcome).run (projectFor "www")).2.tree.seen ["p", "a.src"] = some (some "") ∧
      ((cleanProject "p" : WorkspaceM Outcome).run (projectFor "www")).2.tree.seen ["p", "www", "old"] = none := by
  have h := manifestOf_projectFor (.inl rfl)
  have hroot : (projectFor "www").locate (manifestFor "www").outRoot =
    .ok (.found ["p", "www"] (.folder [("old", .file "")])) := rfl
  refine ⟨(cleaning_spares_iff h rfl).1.2 ?_, (cleaning_spares_iff h rfl).2.1.2 ⟨_, _, hroot, by decide⟩⟩
  rintro ⟨root, entries, hlocate, hbelow⟩
  cases hroot.symm.trans hlocate
  exact absurd hbelow (by decide)

/-- **With an empty path** for the output, cleaning takes the manifest and the source away. -/
theorem cleanProject_removes_project : (projectFor "").manifestOf "p" = .ok (manifestFor "") ∧
    (projectFor "").tree.seen ["p", "tessera.toml"] ≠ none ∧ (projectFor "").tree.seen ["p", "a.src"] ≠ none ∧
    ((cleanProject "p" : WorkspaceM Outcome).run (projectFor "")).2.tree.seen ["p", "tessera.toml"] = none ∧
    ((cleanProject "p" : WorkspaceM Outcome).run (projectFor "")).2.tree.seen ["p", "a.src"] = none := by
  have h := manifestOf_projectFor (.inr rfl)
  rw [run_cleanProject h]
  exact ⟨h, by decide, by decide, rfl, rfl⟩

end Pagewright
