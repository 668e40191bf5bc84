import Pagewright.Proofs.PathSteps

/-!
# What operations do to files

What is seen before and after every operation on a workspace: a file that is written is seen at its
place (`Workspace.Wrote`), folders that are made are seen where nothing was (`Workspace.Grew`), and
where a folder is removed at most the folder itself is left (`Workspace.Cleared`). Everything else
stays. -/

namespace Pagewright

open List

theorem FileTree.canPut_of_seen {t : FileTree} {place : List String} (h : t.seen place ≠ none) : t.CanPut place := by
  by_cases hp : place = []
  · exact .inl hp
  · have hpre := dropLast_prefix place
    refine .inr (seen_eq_folder_above h hpre fun heq => ?_)
    have hl := congrArg length heq
    have ho := length_pos_of_ne_nil hp
    rw [length_dropLast] at hl
    omega

namespace Workspace

open FileTree

variable {w w' w'' : Workspace} {path folder : Path} {place q : List String} {content name : String}
  {paths paths' : List Path} {asFolder : Bool}

theorem locate_free (h : w.locate path = .ok (.free place asFolder)) :
    w.tree.seen place = none ∧ (w.IsPlaced → w.tree.CanPut place) := by
  obtain ⟨-, hl⟩ := locate_iff.1 h
  cases hl with
  | free _ _ hf _ _ hg =>
    refine ⟨seen_eq_none_iff.2 hg, fun hw => .inr ?_⟩
    rw [dropLast_concat]
    exact hf.seen (hw.seen_startOf path)

/-! ### Writing -/

theorem exists_put_of_write (h : w.write path content = .ok w') : ∃ loc, w.locate path = .ok loc ∧
    w.tree.seen loc.place ≠ some none ∧ (w.IsPlaced → w.tree.CanPut loc.place) ∧
    w' = { w with tree := w.tree.put loc.place (.file content) } := by
  unfold write at h
  split at h
  · next place old hl =>
    cases h
    have hs := seen_eq_file_iff.2 (locate_found hl)
    exact ⟨_, hl, by simp [Location.place, hs], fun _ => canPut_of_seen (by simp [Location.place, hs]), rfl⟩
  · cases h
  · cases h
  · next place hl =>
    cases h
    obtain ⟨hn, hp⟩ := locate_free hl
    exact ⟨_, hl, by simp [Location.place, hn], hp, rfl⟩
  · cases h

/-- A file was written at a place that is no folder. -/
structure Wrote (w w' : Workspace) (place : List String) (content : String) : Prop where
  here_eq : w'.here = w.here
  ne_folder : w.tree.seen place ≠ some none
  seen_eq : ∀ q, w'.tree.seen q = if q = place then some (some content) else w.tree.seen q

theorem exists_wrote (hw : w.IsPlaced) (h : w.write path content = .ok w') :
    ∃ loc, w.locate path = .ok loc ∧ Wrote w w' loc.place content := by
  obtain ⟨loc, hl, hf, hp, rfl⟩ := exists_put_of_write h
  exact ⟨loc, hl, rfl, hf, fun q => seen_put_file (hp hw) hf⟩

theorem seen_write (h : w.write path content = .ok w') (q : List String) : w'.tree.seen q = w.tree.seen q ∨
    w.LeadsTo path q ∧ w.tree.seen q ≠ some none ∧ w'.tree.seen q = some (some content) := by
  obtain ⟨loc, hl, hf, -, rfl⟩ := exists_put_of_write h
  by_cases hp : w.tree.CanPut loc.place
  · have hs : (w.tree.put loc.place (.file content)).seen q = _ := seen_put_file hp hf
    split_ifs at hs with hq
    · subst hq
      exact .inr ⟨⟨loc, hl, rfl⟩, hf, hs⟩
    · exact .inl hs
  · exact .inl (seen_put_of_not_canPut hp)

theorem Wrote.seen_eq_folder_iff (h : Wrote w w' place content) : w'.tree.seen q = some none ↔ w.tree.seen q = some none := by
  rw [h.seen_eq]
  split_ifs with hq
  · subst hq
    simp [h.ne_folder]
  · rfl

theorem Wrote.isPlaced (h : Wrote w w' place content) (hw : w.IsPlaced) : w'.IsPlaced := by
  rw [IsPlaced, h.here_eq]
  exact h.seen_eq_folder_iff.2 hw

theorem write_join (hn : Path.IsEntryName name) (h : w.Reaches folder place) :
    w.write (folder.join ⟨name⟩) content = match refusal? (folder.join ⟨name⟩) name with
      | some fault => .error fault
      | none => if w.tree.seen (place ++ [name]) = some none then .error .isDirectory
          else .ok { w with tree := w.tree.put (place ++ [name]) (.file content) } := by
  rw [write, locate_join hn h]
  cases refusal? (folder.join ⟨name⟩) name with
  | some fault => rfl
  | none =>
    cases hg : w.tree.get? (place ++ [name]) with
    | none => simp [named, hg, seen_eq_none_iff.2 hg]
    | some e =>
      cases e with
      | file old => simp [named, hg, seen_eq_file_iff.2 hg]
      | folder entries => simp [named, hg, seen_eq_folder_iff.2 ⟨entries, hg⟩]

/-! ### Making folders -/

/-- Folders were made where nothing was, each of which one of the paths reaches. -/
structure Grew (paths : List Path) (w w' : Workspace) : Prop where
  here_eq : w'.here = w.here
  seen_cases : ∀ q, w'.tree.seen q = w.tree.seen q ∨
    w.tree.seen q = none ∧ w'.tree.seen q = some none ∧ ∃ path ∈ paths, w'.Reaches path q

theorem Grew.refl (paths : List Path) (w : Workspace) : Grew paths w w := ⟨rfl, fun _ => .inl rfl⟩

theorem Grew.seen_of_ne_none (h : Grew paths w w') (hq : w.tree.seen q ≠ none) : w'.tree.seen q = w.tree.seen q :=
  (h.seen_cases q).resolve_right fun hn => hq hn.1

theorem Grew.seen_folder (h : Grew paths w w') (hq : w.tree.seen q = some none) : w'.tree.seen q = some none :=
  (h.seen_of_ne_none (by simp [hq])).trans hq

theorem Grew.isPlaced (h : Grew paths w w') (hw : w.IsPlaced) : w'.IsPlaced := by
  rw [IsPlaced, h.here_eq]
  exact h.seen_folder hw

theorem Grew.reaches (h : Grew paths w w') (hp : w.Reaches path place) :
    w'.Reaches path place := hp.mono h.here_eq fun _ => h.seen_folder

theorem Grew.trans (h : Grew paths w w') (h' : Grew paths w' w'') : Grew paths w w'' := by
  refine ⟨h'.here_eq.trans h.here_eq, fun q => ?_⟩
  rcases h'.seen_cases q with heq | ⟨hn, hm⟩
  · rw [heq]
    refine (h.seen_cases q).imp_right fun ⟨hn, hm, path, hp, hr⟩ => ?_
    exact ⟨hn, hm, path, hp, h'.reaches hr⟩
  · refine .inr ⟨?_, hm⟩
    rcases h.seen_cases q with heq | ⟨hn, -⟩
    · rwa [← heq]
    · exact hn

theorem Grew.mono (h : Grew paths w w') (hp : paths ⊆ paths') : Grew paths' w w' :=
  ⟨h.here_eq, fun q => (h.seen_cases q).imp_right fun ⟨hn, hm, path, ha, hr⟩ =>
    ⟨hn, hm, path, hp ha, hr⟩⟩

theorem reaches_put (hl : w.locate path = .ok (.free place asFolder)) (hp : w.tree.CanPut place) :
    Reaches { w with tree := w.tree.put place (.folder []) } path place := by
  have hs (q : List String) : (w.tree.put place (.folder [])).seen q = if q = place then some none else w.tree.seen q :=
    seen_put_new hp (locate_free hl).1
  have hk (q : List String) (hq : w.tree.seen q = some none) : (w.tree.put place (.folder [])).seen q = some none := by
    rw [hs, hq, ite_self]
  have hn := (hs place).trans (if_pos rfl)
  obtain ⟨-, hle⟩ := locate_iff.1 hl
  cases hle with
  | free hse he hf ha hi hg =>
    rw [Reaches, hse, walks_append]
    exact ⟨_, hf.mono hk, .name ha hi hn (walks_of_isEmpty he)⟩

theorem grew_makeFolder (h : w.makeFolder path = .ok w') : Grew [path] w w' := by
  unfold makeFolder at h
  split at h
  · cases h
  · next place asFolder hl =>
    cases h
    refine ⟨rfl, fun q => ?_⟩
    by_cases hp : w.tree.CanPut place
    · have hn := (locate_free hl).1
      rw [seen_put_new hp hn]
      split_ifs with hq
      · subst hq
        exact .inr ⟨hn, rfl, path, mem_singleton_self path, reaches_put hl hp⟩
      · exact .inl rfl
    · exact .inl (seen_put_of_not_canPut hp)
  · cases h

theorem exists_reaches_makeFolder (hw : w.IsPlaced) (h : w.makeFolder path = .ok w') : ∃ place, w'.Reaches path place := by
  unfold makeFolder at h
  split at h
  · cases h
  · next place asFolder hl =>
    cases h
    exact ⟨place, reaches_put hl ((locate_free hl).2 hw)⟩
  · cases h

theorem exists_reaches_of_isFolder (h : w.isFolder path) : ∃ place, w.Reaches path place := by
  unfold isFolder at h
  split at h
  · next place e hl =>
    obtain ⟨-, hle⟩ := locate_iff.1 hl
    cases hle with
    | walked ha _ => exact ⟨place, ha⟩
    | file => cases h
  · cases h

theorem grew_makeAll (w : Workspace) (paths : List Path) : Grew paths w (w.makeAll paths).1 ∧
    (w.IsPlaced → (w.makeAll paths).2 = .ok () → ∀ path ∈ paths.head?, ∃ place, (w.makeAll paths).1.Reaches path place) := by
  induction paths with
  | nil => exact ⟨.refl [] w, nofun⟩
  | cons path above ih =>
    have hh {w' : Workspace} (h : ∃ place, w'.Reaches path place) :
        ∀ path' ∈ (path :: above).head?, ∃ place, w'.Reaches path' place := by
      rintro path' ⟨⟩
      exact h
    have hf {w' : Workspace} {fault : FileFault}
        (h : (if w'.isFolder path then Except.ok () else .error fault) = .ok ()) : ∃ place, w'.Reaches path place := by
      split_ifs at h with hp
      exact exists_reaches_of_isFolder hp
    have hs : [path] ⊆ path :: above := cons_subset.2 ⟨mem_cons_self, nil_subset _⟩
    have ha := ih.1.mono (subset_cons_self path above)
    rw [makeAll]
    by_cases he : path.text.isEmpty
    · rw [if_pos he]
      exact ⟨.refl _ w, fun _ _ => hh ⟨w.here, reaches_empty (String.isEmpty_iff.1 he)⟩⟩
    rw [if_neg he]
    split
    · next w' hm => exact ⟨(grew_makeFolder hm).mono hs, fun hw _ => hh (exists_reaches_makeFolder hw hm)⟩
    · split
      · next heq => exact ⟨by rw [heq] at ha; exact ha, nofun⟩
      · next w' heq =>
        rw [heq] at ha
        split
        · next w'' hm =>
          exact ⟨ha.trans ((grew_makeFolder hm).mono hs), fun hw _ => hh (exists_reaches_makeFolder (ha.isPlaced hw) hm)⟩
        · exact ⟨ha, fun _ h => hh (hf h)⟩
    · exact ⟨.refl _ w, fun _ h => hh (hf h)⟩

/-- The paths above a path, and itself. -/
def above (path : Path) : List Path := withParents path.segments.length path

theorem grew_makeFolders (w : Workspace) (path : Path) : Grew (above path) w (w.makeFolders path).1 ∧
    (w.IsPlaced → (w.makeFolders path).2 = .ok () → ∃ place, (w.makeFolders path).1.Reaches path place) := by
  obtain ⟨hg, hr⟩ := grew_makeAll w (above path)
  refine ⟨hg, fun hw h => hr hw h path ?_⟩
  rw [above]
  cases path.segments.length <;> rfl

/-! ### Removing folders -/

/-- A folder was removed or emptied. -/
structure Cleared (w w' : Workspace) (place : List String) : Prop where
  here_eq : w'.here = w.here
  seen_apart : ∀ q, ¬place <+: q → w'.tree.seen q = w.tree.seen q
  seen_below : ∀ q, place <+: q → w'.tree.seen q = none ∨ q = place ∧ w'.tree.seen q = some none

theorem cleared_removeFolder {entries : List (String × FileTree)}
    (h : w.locate path = .ok (.found place (.folder entries))) : Cleared w (w.removeFolder path).1 place := by
  have hp : w.tree.CanPut place := canPut_of_seen (by simp [seen_eq_folder_iff.2 ⟨entries, locate_found h⟩])
  have he : Cleared w { w with tree := w.tree.put place (.folder []) } place := by
    refine ⟨rfl, fun q hq => (seen_apart _ hq).1, fun q hq => ?_⟩
    rw [seen_put_folder hp]
    split_ifs with heq
    · exact .inr ⟨heq, rfl⟩
    · exact .inl rfl
  unfold removeFolder
  rw [h]
  dsimp only
  split_ifs with hg hd hu
  · exact he
  · exact he
  · exact he
  · have hne : place ≠ [] := fun hn => by simp [hn] at hu
    exact ⟨rfl, fun q hq => (seen_apart w.tree hq).2, fun q hq => .inl (seen_erase_below hne hq)⟩

theorem removeFolder_eq_self (h : ∀ place es, w.locate path ≠ .ok (.found place (.folder es))) : (w.removeFolder path).1 = w := by
  unfold removeFolder
  split
  · rfl
  · next place es hl => exact absurd hl (h place es)
  · rfl
  · rfl

theorem removeFolder_of_not_isThere (h : w.isThere path = false) : (w.removeFolder path).1 = w := by
  refine removeFolder_eq_self fun place es hl => ?_
  rw [isThere, hl] at h
  cases h

end Workspace

end Pagewright
