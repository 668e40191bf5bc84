import Mathlib.Data.List.Nodup
import Pagewright.Build
import Pagewright.Proofs.FileEffects

/-!
# The files of a page

A page is compiled from sources that are only read (`exec_buildPage`), and then its files are
written one after the other (`exec_writeArtifacts_cons`), each at a place of its own
(`Workspace.WroteAll`). A page that does not compile leaves everything as it was. Where a file
cannot be written, those before it are written all the same, and everything is as it was exactly if
they were there before with the same content (`buildPage_failed`). -/

namespace Pagewright

open List

variable {page : String}

/-! ### Sources that are only read -/

/-- What a computation gives in a workspace, and the workspace after it. -/
def Workspace.exec {ε α : Type} (w : Workspace) (x : ExceptT ε WorkspaceM α) : Except ε α × Workspace := x.run.run w

theorem Workspace.exec_bind {ε α β : Type} (w : Workspace) (x : ExceptT ε WorkspaceM α)
    (f : α → ExceptT ε WorkspaceM β) : w.exec (x >>= f) = match w.exec x with
      | (.ok a, w') => w'.exec (f a)
      | (.error e, w') => (.error e, w') := by
  rw [exec, ExceptT.run_bind, StateT.run_bind, exec]
  rcases x.run.run w with ⟨e | a, w'⟩ <;> rfl

/-- Sources that are seen in a workspace and leave it as it is. -/
def Loader.ofView (view : Workspace → Path → Except FileFault String) (depth : Workspace → Nat) : Loader WorkspaceM where
  read path := return view (← get) path
  depth := return depth (← get)

/-- In a workspace a computation gives what another one gives by itself, and leaves the workspace as
it is. -/
def Mirrors {ε α : Type} (w : Workspace) (x : ExceptT ε WorkspaceM α) (y : ExceptT ε Id α) : Prop := w.exec x = (y.run.run, w)

section Mirrors

variable {ε α β : Type} {w : Workspace}

theorem Mirrors.bind {x : ExceptT ε WorkspaceM α} {y : ExceptT ε Id α} {f : α → ExceptT ε WorkspaceM β}
    {g : α → ExceptT ε Id β} (h : Mirrors w x y) (hf : ∀ a, Mirrors w (f a) (g a)) : Mirrors w (x >>= f) (y >>= g) := by
  unfold Mirrors at *
  rw [Workspace.exec_bind, h, ExceptT.run_bind, Id.run_bind]
  cases y.run.run with
  | error e => rfl
  | ok a => exact hf a

variable {view : Workspace → Path → Except FileFault String} {depth : Workspace → Nat}

theorem mirrors_spliceIncludes {resolve : Path → ExceptT CompileError WorkspaceM (List Char)}
    {resolve' : Path → ExceptT CompileError Id (List Char)} (h : ∀ path, Mirrors w (resolve path) (resolve' path))
    (base : Path) (tail : List Char) (includes : List (List Char × Path)) :
    Mirrors w (spliceIncludes resolve base tail includes) (spliceIncludes resolve' base tail includes) := by
  induction includes with
  | nil => rfl
  | cons entry includes ih => exact (h _).bind fun _ => ih.bind fun _ => rfl

theorem mirrors_resolveFile (n : Nat) (chain : List Path) (path : Path) :
    Mirrors w (resolveFile (Loader.ofView view depth).read n chain path) (resolveFile (m := Id) (view w) n chain path) := by
  induction n generalizing chain path with
  | zero => rfl
  | succ n ih =>
    have hr : Mirrors w (ExceptT.lift ((Loader.ofView view depth).read path))
        (ExceptT.lift (m := Id) (ε := CompileError) (view w path)) := rfl
    rw [resolveFile, resolveFile]
    split_ifs with hc
    · rfl
    · refine hr.bind fun content => ?_
      cases content with
      | error fault => rfl
      | ok content =>
        have hd : Mirrors w (ExceptT.mk (pure ((Source.ofText content.toList).bind Source.divideIncludes)))
            (ExceptT.mk (pure ((Source.ofText content.toList).bind Source.divideIncludes))) := rfl
        exact hd.bind fun divided => mirrors_spliceIncludes (ih (chain ++ [path.normalize])) _ _ _

theorem mirrors_compileEntry (manifest : Manifest) (page : String) :
    Mirrors w (compileEntry (.ofView view depth) manifest page) (compileEntry (m := Id) ⟨view w, depth w⟩ manifest page) := by
  unfold compileEntry
  cases manifest.sourcePath? page with
  | none => rfl
  | some entry =>
    have hd : Mirrors w (ExceptT.lift (Loader.ofView view depth).depth)
        (ExceptT.lift (m := Id) (ε := CompileError) (depth w)) := rfl
    exact hd.bind fun n => (mirrors_resolveFile n [] entry).bind fun text => rfl

end Mirrors

/-- What a page is compiled to. -/
def Manifest.compiled (manifest : Manifest) (load : Path → Except FileFault String) (depth : Nat) (page : String) :
    Except CompileError PageOutput :=
  (compileEntry (m := Id) ⟨load, depth⟩ manifest page).run

/-! ### Writing the files -/

section Writing

variable {w w' : Workspace} {manifest : Manifest} {page : String} {output : PageOutput} {kind : Artifact}
  {kinds : List Artifact} {view : Workspace → Path → Except FileFault String} {depth : Workspace → Nat}

theorem exec_write {ε : Type} (w : Workspace) (path : Path) (content : String) :
    w.exec (ε := ε) (ExceptT.lift (FileStore.write path content)) = match w.write path content with
      | .ok w' => (.ok (.ok ()), w')
      | .error fault => (.ok (.error fault), w) := by
  have hs : w.exec (ε := ε) (ExceptT.lift (FileStore.write path content)) = match (match w.write path content with
        | .ok w' => (do set w'; return .ok () : WorkspaceM (Except FileFault Unit))
        | .error fault => return .error fault).run w with
      | (r, w') => (.ok r, w') := rfl
  rw [hs]
  cases w.write path content <;> rfl

theorem exec_writeArtifacts_cons : w.exec (writeArtifacts manifest page output (kind :: kinds)) =
    match w.write (manifest.artifactPath page kind) (output.artifact kind) with
    | .ok w' => w'.exec (writeArtifacts manifest page output kinds)
    | .error fault => (.error (.access (manifest.artifactPath page kind) fault), w) := by
  rw [writeArtifacts, Workspace.exec_bind, exec_write]
  cases w.write (manifest.artifactPath page kind) (output.artifact kind) <;> rfl

theorem exec_buildPage : w.exec (buildPage (.ofView view depth) manifest page) =
    match manifest.compiled (view w) (depth w) page with
    | .ok output => w.exec (writeArtifacts manifest page output Artifact.all)
    | .error e => (.error e, w) := by
  have hc : w.exec (compileEntry (.ofView view depth) manifest page) =
    (manifest.compiled (view w) (depth w) page, w) := mirrors_compileEntry manifest page
  rw [buildPage, Workspace.exec_bind, hc]
  cases manifest.compiled (view w) (depth w) page <;> rfl

end Writing

/-! ### Where the files are -/

namespace Artifact

variable {kind kind' : Artifact} {stem stem' : List Char}

theorem name_inj (h : stem ++ '.' :: kind.extension.toList = stem' ++ '.' :: kind'.extension.toList) : stem = stem' ∧ kind = kind' := by
  have hr := congrArg reverse h
  cases kind <;> cases kind' <;> simp [extension] at hr ⊢ <;> exact hr

theorem isName_name : Path.IsName (stem ++ '.' :: kind.extension.toList) := by
  have hl : (stem ++ '.' :: kind.extension.toList).getLast? ≠ some '.' := by
    rw [getLast?_append_of_ne_nil _ (cons_ne_nil _ _)]
    cases kind <;> decide
  refine ⟨?_, fun hu => hl (by rw [hu]; rfl)⟩
  rw [Path.isIdle, Bool.or_eq_false_iff, decide_eq_false_iff_not]
  exact ⟨by simp, fun hd => hl (by rw [hd]; rfl)⟩

theorem slash_not_mem_extension : '/' ∉ '.' :: kind.extension.toList := by
  cases kind <;> decide

end Artifact

theorem Manifest.exists_endsIn (manifest : Manifest) (page : String) (kind : Artifact) :
    ∃ stem, (manifest.artifactPath page kind).EndsIn (stem ++ '.' :: kind.extension.toList) := by
  obtain ⟨parts, stem, hs⟩ := exists_splitAll_append kind.slash_not_mem_extension page.toList
  refine ⟨stem, Path.EndsIn.join ⟨Artifact.isName_name, parts, ?_⟩ _⟩
  rw [← hs, Path.segments, String.toList_append, String.toList_append, append_assoc]
  rfl

/-- The files of a page have names that entries of folders can have. -/
theorem isEntryName_artifact (h : Manifest.isPageName page) (kind : Artifact) :
    Path.IsEntryName (page ++ "." ++ kind.extension) := by
  have ht : (page ++ "." ++ kind.extension).toList = page.toList ++ '.' :: kind.extension.toList := by
    rw [String.toList_append, String.toList_append, append_assoc]
    rfl
  refine ⟨by rw [ht]; exact Artifact.isName_name, ?_⟩
  rw [ht, mem_append, not_or]
  refine ⟨fun hs => ?_, kind.slash_not_mem_extension⟩
  unfold Manifest.isPageName at h
  split at h
  · cases h
  · next c cs hp =>
    rw [Bool.and_eq_true, all_eq_true] at h
    rw [hp] at hs
    rcases mem_cons.1 hs with rfl | hs
    · exact absurd h.1 (by decide)
    · exact absurd (h.2 _ hs) (by decide)

theorem Manifest.endsIn_artifactPath (manifest : Manifest) (h : isPageName page) (kind : Artifact) :
    (manifest.artifactPath page kind).EndsIn (page ++ "." ++ kind.extension).toList :=
  Path.EndsIn.join ⟨(isEntryName_artifact h kind).isName, [], (isEntryName_artifact h kind).segments_eq⟩ _

namespace Workspace

variable {w w' w'' : Workspace} {manifest : Manifest} {page page' : String} {output : PageOutput} {kind kind' : Artifact}
  {kinds : List Artifact} {files files' : List (List String × String)} {place q : List String} {content : String}

theorem LeadsTo.kind_eq (h : w.LeadsTo (manifest.artifactPath page kind) place)
    (h' : w.LeadsTo (manifest.artifactPath page' kind') place) : kind = kind' := by
  obtain ⟨stem, he⟩ := manifest.exists_endsIn page kind
  obtain ⟨stem', he'⟩ := manifest.exists_endsIn page' kind'
  have hl := (h.getLast? he).symm.trans (h'.getLast? he')
  exact (Artifact.name_inj (String.ofList_injective (Option.some.inj hl))).2

/-- Files were written one after the other, each at its place. -/
inductive WroteAll : Workspace → List (List String × String) → Workspace → Prop where
  | nil {w : Workspace} : WroteAll w [] w
  | cons {w w' w'' : Workspace} {place : List String} {content : String} {files : List (List String × String)} :
      Wrote w w' place content → WroteAll w' files w'' → WroteAll w ((place, content) :: files) w''

theorem WroteAll.here_eq (h : WroteAll w files w') : w'.here = w.here := by
  induction h with
  | nil => rfl
  | cons hf _ ih => exact ih.trans hf.here_eq

theorem WroteAll.seen_eq_folder_iff (h : WroteAll w files w') : w'.tree.seen q = some none ↔ w.tree.seen q = some none := by
  induction h with
  | nil => rfl
  | cons hf _ ih => exact ih.trans hf.seen_eq_folder_iff

theorem WroteAll.seen_of_not_mem (h : WroteAll w files w') (hq : q ∉ files.map Prod.fst) : w'.tree.seen q = w.tree.seen q := by
  induction h with
  | nil => rfl
  | cons hf _ ih =>
    rw [map_cons, mem_cons, not_or] at hq
    rw [ih hq.2, hf.seen_eq, if_neg hq.1]

theorem WroteAll.seen_of_mem (h : WroteAll w files w') (hf : (files.map Prod.fst).Nodup)
    (hi : (place, content) ∈ files) : w'.tree.seen place = some (some content) := by
  induction h with
  | nil => cases hi
  | cons hfr hr ih =>
    rw [map_cons, nodup_cons] at hf
    rcases mem_cons.1 hi with heq | hi
    · cases heq
      rw [hr.seen_of_not_mem hf.1, hfr.seen_eq, if_pos rfl]
    · exact ih hf.2 hi

theorem exists_wroteAll (hw : w.IsPlaced) (hi : kinds.Nodup)
    (h : w.exec (writeArtifacts manifest page output kinds) = (.ok (), w')) :
    ∃ place : Artifact → List String, (∀ kind ∈ kinds, w.LeadsTo (manifest.artifactPath page kind) (place kind)) ∧
      WroteAll w (kinds.map fun kind => (place kind, output.artifact kind)) w' := by
  induction kinds generalizing w with
  | nil =>
    cases h
    exact ⟨fun _ => [], nofun, .nil⟩
  | cons kind kinds ih =>
    rw [nodup_cons] at hi
    rw [exec_writeArtifacts_cons] at h
    split at h
    · next w₁ hwr =>
      obtain ⟨loc, hl, hwo⟩ := exists_wrote hw hwr
      obtain ⟨place, hp, ha⟩ := ih (hwo.isPlaced hw) hi.2 h
      have ho (k : Artifact) (hk : k ∈ kinds) : Function.update place kind loc.place k = place k :=
        Function.update_of_ne (fun (heq : k = kind) => hi.1 (heq ▸ hk)) _ _
      refine ⟨Function.update place kind loc.place, ?_, ?_⟩
      · intro k hk
        rcases mem_cons.1 hk with rfl | hk
        · rw [Function.update_self]
          exact ⟨loc, hl, rfl⟩
        · rw [ho k hk]
          obtain ⟨stem, he⟩ := manifest.exists_endsIn page k
          exact (hp k hk).mono he hwo.here_eq.symm fun _ => hwo.seen_eq_folder_iff.1
      · have hr : kinds.map (fun k => (Function.update place kind loc.place k, output.artifact k)) =
            kinds.map fun k => (place k, output.artifact k) :=
          map_congr_left fun k hk => by rw [ho k hk]
        rw [map_cons, Function.update_self, hr]
        exact .cons hwo ha
    · cases h

theorem nodup_places {place : Artifact → List String} (hk : kinds.Nodup)
    (h : ∀ kind ∈ kinds, w.LeadsTo (manifest.artifactPath page kind) (place kind)) : (kinds.map place).Nodup := by
  refine hk.map_on fun kind hi kind' hi' heq => ?_
  have hi'' := h kind' hi'
  rw [← heq] at hi''
  exact (h kind hi).kind_eq hi''

end Workspace

/-! ### Pages that fail -/

section Failing

variable {w w' : Workspace} {manifest : Manifest} {page : String} {output : PageOutput} {kinds : List Artifact}
  {view : Workspace → Path → Except FileFault String} {depth : Workspace → Nat} {e : CompileError}

theorem exists_of_writeArtifacts_error (h : w.exec (writeArtifacts manifest page output kinds) = (.error e, w')) :
    ∃ written kind rest fault, kinds = written ++ kind :: rest ∧ w.exec (writeArtifacts manifest page output written) = (.ok (), w') ∧
      w'.write (manifest.artifactPath page kind) (output.artifact kind) = .error fault ∧
      e = .access (manifest.artifactPath page kind) fault := by
  induction kinds generalizing w with
  | nil => cases h
  | cons kind kinds ih =>
    rw [exec_writeArtifacts_cons] at h
    split at h
    · next w₁ hw =>
      obtain ⟨written, kind', rest, fault, rfl, hr, hf⟩ := ih h
      refine ⟨kind :: written, kind', rest, fault, rfl, ?_, hf⟩
      rw [exec_writeArtifacts_cons, hw]
      exact hr
    · next fault hw =>
      cases h
      exact ⟨[], kind, kinds, fault, rfl, rfl, hw, rfl⟩

theorem writeArtifacts_idle_iff (hw : w.IsPlaced) (hk : kinds.Nodup)
    (h : w.exec (writeArtifacts manifest page output kinds) = (.ok (), w')) :
    (∀ kind ∈ kinds, w'.read (manifest.artifactPath page kind) = .ok (output.artifact kind)) ∧
      (∀ q, w'.tree.seen q ≠ w.tree.seen q → ∃ kind ∈ kinds, w.LeadsTo (manifest.artifactPath page kind) q) ∧
      ((∀ q, w'.tree.seen q = w.tree.seen q) ↔ ∀ kind ∈ kinds, w.read (manifest.artifactPath page kind) = .ok (output.artifact kind)) := by
  obtain ⟨place, hp, ha⟩ := Workspace.exists_wroteAll hw hk h
  have hn : ((kinds.map fun kind => (place kind, output.artifact kind)).map Prod.fst).Nodup := by
    rw [map_map]
    exact Workspace.nodup_places hk hp
  have hr (kind : Artifact) (hi : kind ∈ kinds) : w'.tree.seen (place kind) = some (some (output.artifact kind)) :=
    ha.seen_of_mem hn (mem_map_of_mem (f := fun kind => (place kind, output.artifact kind)) hi)
  have ho (q : List String) (hq : ∀ kind ∈ kinds, place kind ≠ q) : w'.tree.seen q = w.tree.seen q := by
    refine ha.seen_of_not_mem fun hm => ?_
    obtain ⟨file, hf, rfl⟩ := mem_map.1 hm
    obtain ⟨kind, hi, rfl⟩ := mem_map.1 hf
    exact hq kind hi rfl
  refine ⟨fun kind hi => ?_, fun q hq => ?_, fun hs kind hi => ?_, fun ht q => ?_⟩
  · obtain ⟨stem, he⟩ := manifest.exists_endsIn page kind
    refine (Workspace.read_eq_ok_iff he).2 ⟨place kind, ?_, hr kind hi⟩
    exact (hp kind hi).mono he ha.here_eq fun _ => ha.seen_eq_folder_iff.2
  · by_contra hno
    refine hq (ho q fun kind hi heq => hno ⟨kind, hi, heq ▸ hp kind hi⟩)
  · obtain ⟨stem, he⟩ := manifest.exists_endsIn page kind
    exact (Workspace.read_eq_ok_iff he).2 ⟨place kind, hp kind hi, (hs _).symm.trans (hr kind hi)⟩
  · by_cases hq : ∃ kind ∈ kinds, place kind = q
    · obtain ⟨kind, hi, rfl⟩ := hq
      obtain ⟨stem, he⟩ := manifest.exists_endsIn page kind
      obtain ⟨place', hp', hse⟩ := (Workspace.read_eq_ok_iff he).1 (ht kind hi)
      rw [hr kind hi, (hp kind hi).unique hp', hse]
    · exact ho q fun kind hi heq => hq ⟨kind, hi, heq⟩

/-- **Pages that fail.** A page that does not compile changes nothing. A page that fails to write a
file has written those before it, and so changes nothing exactly if these were there with the same
content. -/
theorem buildPage_failed (hw : w.IsPlaced) (h : w.exec (buildPage (.ofView view depth) manifest page) = (.error e, w')) :
    manifest.compiled (view w) (depth w) page = .error e ∧ w' = w ∨
    ∃ output written kind rest fault, manifest.compiled (view w) (depth w) page = .ok output ∧
      Artifact.all = written ++ kind :: rest ∧
      w'.write (manifest.artifactPath page kind) (output.artifact kind) = .error fault ∧
      e = .access (manifest.artifactPath page kind) fault ∧
      (∀ artifact ∈ written, w'.read (manifest.artifactPath page artifact) = .ok (output.artifact artifact)) ∧
      (∀ q, w'.tree.seen q ≠ w.tree.seen q → ∃ artifact ∈ written, w.LeadsTo (manifest.artifactPath page artifact) q) ∧
      ((∀ q, w'.tree.seen q = w.tree.seen q) ↔
        ∀ artifact ∈ written, w.read (manifest.artifactPath page artifact) = .ok (output.artifact artifact)) := by
  rw [exec_buildPage] at h
  split at h
  · next output hcompiled =>
    obtain ⟨written, kind, rest, fault, hkinds, hwritten, hfault, he⟩ := exists_of_writeArtifacts_error h
    have hnodup : written.Nodup := by
      have hall : Artifact.all.Nodup := by decide
      rw [hkinds] at hall
      exact hall.of_append_left
    exact .inr ⟨output, written, kind, rest, fault, hcompiled, hkinds, hfault, he, writeArtifacts_idle_iff hw hnodup hwritten⟩
  · next e' hcompiled =>
    cases h
    exact .inl ⟨hcompiled, rfl⟩

end Failing

/-- A workspace in which a folder has the name of a stylesheet. -/
def folderForStylesheet : Workspace :=
  ⟨.folder [("html", .folder []), ("css", .folder [("p.css", .folder [])]), ("js", .folder [])], []⟩

/-- A manifest with one page, whose files go into the folders of that workspace. -/
def pageInFolders : Manifest := ⟨⟨""⟩, [("p", ⟨"p.src"⟩)], ⟨"", "js", "html", "css"⟩⟩

/-- Sources that are all empty. -/
def emptySources : Loader WorkspaceM := .ofView (fun _ _ => .ok "") fun _ => 1

theorem exec_buildPage_folderForStylesheet : ∃ output w', pageInFolders.compiled (fun _ => .ok "") 1 "p" = .ok output ∧
    folderForStylesheet.exec (buildPage emptySources pageInFolders "p") = (.error (.access ⟨"css/p.css"⟩ .isDirectory), w') ∧
    w'.tree.seen ["html", "p.html"] = some (some output.markup) := by
  obtain ⟨output, ho⟩ : ∃ output, pageInFolders.compiled (fun _ => .ok "") 1 "p" = .ok output := by decide +kernel
  refine ⟨output, ⟨.folder [("html", .folder [("p.html", .file output.markup)]), ("css", .folder [("p.css", .folder [])]),
    ("js", .folder [])], []⟩, ho, ?_, ?_⟩
  · rw [emptySources, exec_buildPage, ho]
    rfl
  · rfl

/-- The page fails on its stylesheet, and has its markup written. -/
theorem buildPage_failed_stylesheet : ∃ e w' output, folderForStylesheet.IsPlaced ∧
    folderForStylesheet.exec (buildPage emptySources pageInFolders "p") = (.error e, w') ∧
    pageInFolders.compiled (fun _ => .ok "") 1 "p" = .ok output ∧
    w'.read (pageInFolders.artifactPath "p" .markup) = .ok output.markup ∧
    ¬∀ q, w'.tree.seen q = folderForStylesheet.tree.seen q := by
  obtain ⟨output, w', houtput, hbuild, -⟩ := exec_buildPage_folderForStylesheet
  have hplaced : folderForStylesheet.IsPlaced := rfl
  refine ⟨_, w', output, hplaced, hbuild, houtput, ?_⟩
  rcases buildPage_failed hplaced hbuild with ⟨herror, -⟩ | ⟨output', written, kind, rest, fault, houtput', hall, -, he, hread, -, hiff⟩
  · cases houtput.symm.trans herror
  cases houtput.symm.trans houtput'
  have hmarkup : Artifact.markup ∈ written := by
    cases written with
    | nil =>
      obtain ⟨rfl, -⟩ := cons_eq_cons.1 hall
      exact absurd (CompileError.access.inj he).1 (by decide)
    | cons first written =>
      rw [(cons_eq_cons.1 hall).1]
      exact mem_cons_self
  refine ⟨hread .markup hmarkup, fun hsame => ?_⟩
  cases hiff.1 hsame .markup hmarkup

/-- After the page failed, a file is there that was not there before. -/
theorem buildPage_markup_left : ∃ e w', folderForStylesheet.exec (buildPage emptySources pageInFolders "p") = (.error e, w') ∧
    folderForStylesheet.tree.seen ["html", "p.html"] = none ∧ w'.tree.seen ["html", "p.html"] ≠ none := by
  obtain ⟨output, w', -, hbuild, hseen⟩ := exec_buildPage_folderForStylesheet
  exact ⟨_, w', hbuild, rfl, by simp [hseen]⟩

end Pagewright
