import Mathlib.Tactic.Tauto
import Pagewright.Compile

/-!
# Checked classes

What the checks before any output leave standing: no class is named like a tag, and the names that a
class claims for its members, its style and its children differ (`PageSource.checked_classes`).
-/

namespace Pagewright

open List

variable {scope name x : String} {t : ClassTable} {c : ClassDef} {members : Members} {text : List Char}
  {src : PageSource}

/-! ### Lists without repetition -/

section Keys

variable {α : Type} {f : α → String} {xs : List α} {a : α}

theorem find?_of_nodup (hn : (xs.map f).Nodup) (ha : a ∈ xs) : xs.find? (f · = f a) = some a := by
  obtain ⟨front, back, rfl⟩ := append_of_mem ha
  rw [map_append, map_cons, nodup_append] at hn
  refine find?_eq_some_iff_append.2 ⟨by simp, front, back, rfl, fun b hb => ?_⟩
  simpa using hn.2.2 (f b) (mem_map_of_mem hb) (f a) mem_cons_self

/-- Of some things, each is put behind those found if none of these has its key. -/
theorem foldl_dedup_spec (f : α → String) (xs found : List α) :
    let all := xs.foldl (fun found x => if found.any (f · = f x) then found else found ++ [x]) found
    (∀ x ∈ all, x ∈ found ∨ x ∈ xs) ∧ (∀ x, x ∈ found ∨ x ∈ xs → ∃ y ∈ all, f y = f x) ∧
      ((found.map f).Nodup → (all.map f).Nodup) := by
  induction xs generalizing found with
  | nil => exact ⟨fun x => .inl, fun x hx => ⟨x, hx.resolve_right not_mem_nil, rfl⟩, id⟩
  | cons e xs ih =>
    rw [foldl_cons]
    split
    · next ha =>
      obtain ⟨hm, he, hn⟩ := ih found
      refine ⟨fun x hx => (hm x hx).imp_right (mem_cons_of_mem e), fun x hx => ?_, hn⟩
      rcases hx with hx | hx
      · exact he x (.inl hx)
      · rcases mem_cons.1 hx with rfl | hx
        · obtain ⟨y, hy, hyn⟩ := any_eq_true.1 ha
          obtain ⟨z, hz, hzn⟩ := he y (.inl hy)
          exact ⟨z, hz, hzn.trans (by simpa using hyn)⟩
        · exact he x (.inr hx)
    · next ha =>
      obtain ⟨hm, he, hn⟩ := ih (found ++ [e])
      refine ⟨fun x hx => ?_, fun x hx => he x ?_, fun hf => hn ?_⟩
      · simpa [or_assoc] using hm x hx
      · simpa [or_assoc] using hx
      · rw [map_append, map_singleton, nodup_append]
        refine ⟨hf, pairwise_singleton _ _, fun k hk l hl heq => ?_⟩
        obtain ⟨y, hy, rfl⟩ := mem_map.1 hk
        rw [mem_singleton.1 hl] at heq
        exact ha (any_eq_true.2 ⟨y, hy, by simpa using heq⟩)

end Keys

/-! ### Names claimed -/

theorem claimNames_spec {taken : List String} {ns : List (String × Bool)} (h : claimNames scope taken ns = .ok ()) :
    (ns.map Prod.fst).Nodup ∧ (∀ name ∈ ns.map Prod.fst, name ∉ taken) ∧ ∀ e ∈ ns, e.2 = false → isReserved e.1 = false := by
  induction ns generalizing taken with
  | nil => simp
  | cons e rest ih =>
    obtain ⟨name, mayBeReserved⟩ := e
    unfold claimNames at h
    split at h
    · cases h
    · next hr =>
      split at h
      · cases h
      · next ht =>
        obtain ⟨hn, hf, hi⟩ := ih h
        refine ⟨nodup_cons.2 ⟨fun hm => hf name hm mem_cons_self, hn⟩, ?_, forall_mem_cons.2 ⟨fun hm => ?_, hi⟩⟩
        · exact forall_mem_cons.2 ⟨by simpa using ht, fun other ho hm => hf other ho (mem_cons_of_mem name hm)⟩
        · simpa [show mayBeReserved = false from hm] using hr

theorem mem_accessorNames : x ∈ members.accessorNames ↔ x ∈ (members.getters ++ members.setters).map Method.name := by
  obtain ⟨hm, he, -⟩ := foldl_dedup_spec id ((members.getters ++ members.setters).map Method.name) []
  have hf : (fun (found : List String) x => if found.any (id · = id x) then found else found ++ [x]) =
      fun found x => if found.contains x then found else found ++ [x] := by
    simp
  rw [hf, ← Members.accessorNames] at hm he
  refine ⟨fun h => (hm x h).resolve_left not_mem_nil, fun h => ?_⟩
  obtain ⟨y, hy, rfl⟩ := he x (.inr h)
  exact hy

/-- The names that a class or instance claims differ. -/
theorem nodup_of_checkNames {style : PropertyMap} {children : List Node} (h : checkNames scope members style children = .ok ()) :
    (members.privateTier.names ++ members.protectedTier.names ++ members.publicTier.names ++
      members.accessorNames ++ style.keys.map accessorName ++ instanceNames children).Nodup := by
  obtain ⟨_, hc, -⟩ := bind_eq_ok.1 h
  have hn := (claimNames_spec hc).1
  simpa [claimedNames, Function.comp_def, instanceNames] using hn

/-! ### Classes -/

theorem forall_of_forM {ε α : Type} {f : α → Except ε Unit} {xs : List α} (h : xs.forM f = .ok ()) : ∀ x ∈ xs, f x = .ok () := by
  induction xs with
  | nil => simp
  | cons x xs ih =>
    obtain ⟨⟨⟩, hx, hs⟩ := bind_eq_ok.1 h
    exact forall_mem_cons.2 ⟨hx, ih hs⟩

/-- What is known of a class that was checked: it is named like no tag, and the names inside it
differ. -/
structure ClassDef.IsChecked (c : ClassDef) : Prop where
  not_tag : isTag c.name = false
  names : checkNames c.name c.members c.style c.children = .ok ()

theorem ClassTable.isChecked_of_checkClass (h : t.checkClass text c = .ok ()) : c.IsChecked := by
  unfold checkClass at h
  dsimp only at h
  split at h
  · cases h
  · next ht =>
    split at h
    · cases h
    · split at h
      · cases h
      · obtain ⟨⟨⟩, hn, -⟩ := bind_eq_ok.1 h
        exact ⟨by simpa using ht, hn⟩

/-- The classes of a source that was read and checked. -/
theorem PageSource.checked_classes (h : readChecked text = .ok src) : ∀ c ∈ src.table.classes, c.IsChecked := by
  obtain ⟨source', hr, h⟩ := bind_eq_ok.1 h
  obtain ⟨⟨⟩, hh, h⟩ := bind_eq_ok.1 h
  cases h
  obtain ⟨⟨⟩, hl, -⟩ := bind_eq_ok.1 hh
  exact fun c hc => ClassTable.isChecked_of_checkClass (forall_of_forM hl c hc)

/-- No class is named like a tag. -/
def ClassTable.NoTags (t : ClassTable) : Prop := ∀ c ∈ t.classes, isTag c.name = false

theorem PageSource.noTags (h : readChecked text = .ok src) : src.table.NoTags := fun c hc => (checked_classes h c hc).not_tag

/-! ### Looking up classes -/

namespace ClassTable

theorem contains_iff : t.contains name ↔ name ∈ t.names := by
  rw [contains, contains_eq_mem, decide_eq_true_eq]

theorem name_of_get? (h : t.get? name = some c) : c.name = name := by
  have hn := find?_some h
  simpa using hn

theorem mem_of_get? (h : t.get? name = some c) : c ∈ t.classes := mem_of_find?_eq_some h

theorem get?_of_mem (h : c ∈ t.classes) : t.get? c.name = some c := find?_of_nodup t.nodup h

end ClassTable

/-! ### Sources that are compiled -/

/-- A source passes the checks and its script can be made, and `P` holds of both. -/
def CompilesWith (text : List Char) (P : PageSource → Script → Prop) : Prop :=
  ∃ source, PageSource.readChecked text = .ok source ∧ ∃ script, source.script = .ok script ∧ P source script

instance {text : List Char} {P : PageSource → Script → Prop} [∀ source script, Decidable (P source script)] :
    Decidable (CompilesWith text P) :=
  inferInstanceAs (Decidable (∃ source, PageSource.readChecked text = .ok source ∧
    ∃ script, source.script = .ok script ∧ P source script))

/-- What a source and its script are compiled to. -/
def PageSource.output (source : PageSource) (script : Script) (links : HeadLinks) : PageOutput where
  markup := source.markup links
  stylesheet := source.table.stylesheet
  behavior := script.render
  warnings := source.table.warnings source.placed.1

section Compiled

variable {text : List Char} {links : HeadLinks} {out : PageOutput} {P : PageSource → Script → Prop}

/-- What is compiled is a source that was read and checked, with its script. -/
theorem compileText_eq_ok_iff : compileText text links = .ok out ↔ ∃ source script,
    PageSource.readChecked text = .ok source ∧ source.script = .ok script ∧ out = source.output script links := by
  constructor
  · intro h
    obtain ⟨source, hr, h⟩ := bind_eq_ok.1 h
    obtain ⟨script, hs, h⟩ := bind_eq_ok.1 h
    cases h
    exact ⟨source, script, hr, hs, rfl⟩
  · rintro ⟨source, script, hr, hs, rfl⟩
    exact bind_eq_ok.2 ⟨source, hr, bind_eq_ok.2 ⟨script, hs, rfl⟩⟩

theorem CompilesWith.exists_output (h : CompilesWith text P) (links : HeadLinks) : ∃ source script,
    PageSource.readChecked text = .ok source ∧ source.script = .ok script ∧
      compileText text links = .ok (source.output script links) ∧ P source script := by
  obtain ⟨source, hr, script, hs, hP⟩ := h
  exact ⟨source, script, hr, hs, compileText_eq_ok_iff.2 ⟨source, script, hr, hs, rfl⟩, hP⟩

/-- What holds of all that is compiled from a source holds of what it is compiled to. -/
theorem CompilesWith.exists_and {Q : PageOutput → PageSource → Script → Prop} (h : CompilesWith text P) (links : HeadLinks)
    (hall : ∀ out, compileText text links = .ok out → ∃ source script,
      PageSource.readChecked text = .ok source ∧ source.script = .ok script ∧ Q out source script) :
    ∃ source script out, PageSource.readChecked text = .ok source ∧ source.script = .ok script ∧
      compileText text links = .ok out ∧ P source script ∧ Q out source script := by
  obtain ⟨source, script, hr, hs, ho, hP⟩ := h.exists_output links
  obtain ⟨source', script', hr', hs', hQ⟩ := hall _ ho
  cases hr.symm.trans hr'
  cases hs.symm.trans hs'
  exact ⟨source, script, _, hr, hs, ho, hP, hQ⟩

theorem CompilesWith.exists_unit {P : ScriptUnit → Prop} (h : CompilesWith text fun _ script => ∃ u ∈ script.units, P u) :
    ∃ source script u, PageSource.readChecked text = .ok source ∧ source.script = .ok script ∧ u ∈ script.units ∧ P u := by
  obtain ⟨source, hr, script, hs, u, hu⟩ := h
  exact ⟨source, script, u, hr, hs, hu⟩

end Compiled

end Pagewright
