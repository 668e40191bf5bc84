import Mathlib.Logic.Relation
import Mathlib.Order.WellFounded
import Pagewright.Proofs.Checked
import Pagewright.Proofs.Numbering

/-!
# Parents without circles

A table that passed the checks is sound (`ClassTable.IsSound`): no class is named like a tag, every
parent that is no tag is a class, and going to parents comes to an end. The last is what the search
for circles leaves behind: a list of all classes, each before its parents (`ClassTable.IsFinished`).
Else it shows a circle (`ClassTable.checkCycles_finds_circles`). All instances pass, too
(`PageSource.passes`). -/

namespace Pagewright

open List Tree

variable {c d : ClassDef} {name p : String} {names done done' done'' handles names' order path : List String}

/-- The names inside an instance were checked. -/
def HasCheckedNames (node : Node) : Prop :=
  checkNames node.label.scope node.label.members node.label.style node.children = .ok ()

namespace ClassTable

variable {t : ClassTable} {text : List Char} {children nodes : List Node}

/-- The class `d` is a parent of the class `c`. -/
def IsParent (t : ClassTable) (d c : ClassDef) : Prop := c ∈ t.classes ∧ d ∈ t.classes ∧ d.name ∈ c.parents

theorem contains_of_mem (h : c ∈ t.classes) : t.contains c.name := contains_iff.2 (mem_map_of_mem h)

theorem exists_of_contains (h : t.contains name) : ∃ c ∈ t.classes, c.name = name := mem_map.1 (contains_iff.1 h)

theorem contains_of_get?_eq_none (h : t.get? name = none) : t.contains name = false := by
  by_contra ho
  obtain ⟨c, hc, rfl⟩ := exists_of_contains (Bool.not_eq_false _ ▸ ho)
  rw [get?_of_mem hc] at h
  cases h

/-! ### Circles -/

/-- The class `name` has the class `p` among its parents. -/
def Extends (t : ClassTable) (name p : String) : Prop :=
  ∃ c, t.get? name = some c ∧ p ∈ c.parents ∧ t.contains p = true

/-- The names lead from class to parent and at last back to the first, which alone stands twice. -/
def IsCircle (t : ClassTable) (names : List String) : Prop :=
  ∃ name rest, names = name :: rest ++ [name] ∧ (name :: rest).Nodup ∧ names.IsChain t.Extends

theorem IsParent.extends (h : t.IsParent d c) : t.Extends c.name d.name := ⟨c, get?_of_mem h.1, h.2.2, contains_of_mem h.2.1⟩

theorem exists_isParent (h : Relation.TransGen t.Extends name p) :
    ∃ c d, t.get? name = some c ∧ t.get? p = some d ∧ Relation.TransGen t.IsParent d c := by
  have hs {name p : String} (h : t.Extends name p) :
      ∃ c d, t.get? name = some c ∧ t.get? p = some d ∧ t.IsParent d c := by
    obtain ⟨c, hg, hp, hc⟩ := h
    obtain ⟨d, hd, rfl⟩ := exists_of_contains hc
    exact ⟨c, d, hg, get?_of_mem hd, mem_of_get? hg, hd, hp⟩
  induction h with
  | single h =>
    obtain ⟨c, d, hc, hd, hp⟩ := hs h
    exact ⟨c, d, hc, hd, .single hp⟩
  | tail _ h ih =>
    obtain ⟨c, d, hc, hd, hp⟩ := ih
    obtain ⟨d', e, hd', he, hp'⟩ := hs h
    cases hd.symm.trans hd'
    exact ⟨c, e, hc, he, .head hp' hp⟩

theorem IsCircle.exists_transGen (h : t.IsCircle names) : ∃ name, Relation.TransGen t.Extends name name := by
  obtain ⟨name, rest, rfl, -, hc⟩ := h
  have hp := isChain_iff_pairwise.1 (hc.imp fun _ _ => Relation.TransGen.single)
  exact ⟨name, rel_of_pairwise_cons hp (by simp)⟩

/-! ### The search for circles -/

/-- In the list each class stands before its parents. -/
def IsFinished (t : ClassTable) : List String → Prop
  | [] => True
  | name :: rest => (∀ p, t.Extends name p → p ∈ rest) ∧ t.IsFinished rest

/-- Following some names leads from the classes finished before to those finished then. -/
structure Finishes (t : ClassTable) (names done done' : List String) : Prop where
  isFinished : t.IsFinished done → t.IsFinished done'
  suffix : done <:+ done'
  mem : ∀ name ∈ names, t.contains name = true → name ∈ done'

/-- The error shows a circle, at the class that it begins with. -/
def ReportsCircle (t : ClassTable) (text : List Char) (e : CompileError) : Prop :=
  ∃ c ∈ t.classes, ∃ names, e = .atOffset text c.offset (.inheritanceCycle names) ∧ t.IsCircle names ∧
    names.head? = some c.name

/-- Following some names finishes them or shows a circle. -/
def Decides (t : ClassTable) (text : List Char) (names done : List String) : Except CompileError (List String) → Prop
  | .ok done' => t.Finishes names done done'
  | .error e => t.ReportsCircle text e

theorem Finishes.refl (h : ∀ name ∈ names, t.contains name → name ∈ done) : t.Finishes names done done := ⟨id, suffix_refl _, h⟩

theorem Finishes.append (h : t.Finishes names done done')
    (h' : t.Finishes names' done' done'') : t.Finishes (names ++ names') done done'' := by
  refine ⟨fun hd => h'.isFinished (h.isFinished hd), h.suffix.trans h'.suffix, ?_⟩
  intro name hn hc
  rcases mem_append.1 hn with hn | hn
  · exact h'.suffix.subset (h.mem name hn hc)
  · exact h'.mem name hn hc

theorem Finishes.cons (hg : t.get? name = some c) (h : t.Finishes c.parents done done') :
    t.Finishes [name] done (name :: done') := by
  refine ⟨fun ho => ⟨?_, h.isFinished ho⟩, h.suffix.trans (suffix_cons _ _), ?_⟩
  · rintro p ⟨d, hd, hp, hc⟩
    cases hg.symm.trans hd
    exact h.mem p hp hc
  · intro x hx _
    rw [mem_singleton.1 hx]
    exact mem_cons_self

theorem reportsCircle_cycleError (hn : path.Nodup) (hc : (path ++ [name]).IsChain t.Extends)
    (hm : name ∈ path) : t.ReportsCircle text (t.cycleError text path name) := by
  obtain ⟨front, rest, rfl, hf⟩ := eq_append_cons_of_mem hm
  have hd : (front ++ name :: rest).dropWhile (· != name) = name :: rest := by
    rw [dropWhile_append_of_pos, dropWhile_cons_of_neg (by simp)]
    intro x hx
    exact bne_iff_ne.2 fun h => hf (h ▸ hx)
  rw [append_assoc] at hc
  have hp : ((name :: rest) ++ [name]).IsChain t.Extends := hc.right_of_append
  -- The last class of the path has this one among its parents.
  obtain ⟨-, -, hl⟩ := isChain_append.1 hp
  obtain ⟨-, -, -, hco⟩ := hl _ (getLast_mem_getLast? (cons_ne_nil name rest)) name rfl
  obtain ⟨c, hcl, rfl⟩ := exists_of_contains hco
  refine ⟨c, hcl, _, ?_, ⟨c.name, rest, rfl, hn.of_append_right, hp⟩, rfl⟩
  rw [cycleError, hd, get?_of_mem hcl]
  rfl

theorem decides_visit (text : List Char) : (∀ path done name, path.Nodup → (path ++ [name]).IsChain t.Extends →
      t.Decides text [name] done (t.visit text path done name)) ∧
    ∀ path done parents, path.Nodup → (∀ p ∈ parents, t.contains p → (path ++ [p]).IsChain t.Extends) →
      t.Decides text parents done (t.visitAll text path done parents) := by
  apply visit.mutual_induct t
  -- A name: finished before, closing a circle, no class, or a class that is finished behind its parents.
  · intro path done name ho _ _
    rw [visit, if_pos ho]
    refine Finishes.refl fun x hx _ => ?_
    rw [mem_singleton.1 hx]
    simpa using ho
  · intro path done name ho ha hn hc
    rw [visit, if_neg ho, dif_pos ha]
    exact reportsCircle_cycleError hn hc ha
  · intro path done name ho ha hg _ _
    rw [visit, if_neg ho, dif_neg ha]
    split
    · refine Finishes.refl fun x hx hco => ?_
      rw [mem_singleton.1 hx, contains_of_get?_eq_none hg] at hco
      cases hco
    · next c hc =>
      rw [hg] at hc
      cases hc
  · intro path done name ho ha c hg ih hn hc
    rw [visit, if_neg ho, dif_neg ha]
    split
    · next hno =>
      rw [hg] at hno
      cases hno
    · next d hd =>
      cases hg.symm.trans hd
      have hpa := ih (concat_eq_append ▸ hn.concat ha) fun p hp hco =>
        isChain_append.2 ⟨hc, .singleton p, by simpa using ⟨c, hg, hp, hco⟩⟩
      revert hpa
      cases t.visitAll text (path ++ [name]) done c.parents with
      | error e => exact id
      | ok done' => exact Finishes.cons hg
  -- Names one after the other.
  · intro path done _ _
    rw [visitAll]
    exact Finishes.refl (forall_mem_nil _)
  · intro path done p ps hp ihp ihps hn hc
    obtain ⟨hf, hr⟩ := forall_mem_cons.1 hc
    have hfi := ihp hn (hf hp)
    rw [visitAll, if_pos hp]
    revert hfi
    cases t.visit text path done p with
    | error e => exact id
    | ok done₁ =>
      intro hfi
      have hre := ihps done₁ hn hr
      change t.Decides text (p :: ps) done (t.visitAll text path done₁ ps)
      revert hre
      cases t.visitAll text path done₁ ps with
      | error e => exact id
      | ok done' => exact hfi.append
  · intro path done p ps hp ihps hn hc
    rw [visitAll, if_neg hp]
    have hre := ihps hn (forall_mem_cons.1 hc).2
    revert hre
    cases t.visitAll text path done ps with
    | error e => exact id
    | ok done' =>
      intro hre
      refine ⟨hre.isFinished, hre.suffix, forall_mem_cons.2 ⟨fun hco => absurd hco hp, hre.mem⟩⟩

theorem acc_of_isFinished (h : t.IsFinished order) (hc : c ∈ t.classes) (hm : c.name ∈ order) : Acc t.IsParent c := by
  induction order generalizing c with
  | nil => cases hm
  | cons name rest ih =>
    obtain ⟨hp, hr⟩ := h
    rcases mem_cons.1 hm with rfl | hm
    · constructor
      intro d hd
      exact ih hr hd.2.1 (hp d.name hd.extends)
    · exact ih hr hc hm

/-- No circle is found only where going from a class to its parents comes to an end, and one that is
found is shown. -/
theorem checkCycles_cases (t : ClassTable) (text : List Char) :
    t.checkCycles text = .ok () ∧ WellFounded t.IsParent ∨
      ∃ e, t.checkCycles text = .error e ∧ t.ReportsCircle text e := by
  have hd : t.Decides text t.names [] _ := (decides_visit text).2 [] [] t.names nodup_nil fun p _ _ => .singleton p
  unfold checkCycles
  revert hd
  cases t.visitAll text [] [] t.names with
  | error e => exact fun hd => .inr ⟨e, rfl, hd⟩
  | ok order =>
    intro hf
    refine .inl ⟨rfl, ⟨fun c => ?_⟩⟩
    by_cases hc : c ∈ t.classes
    · refine acc_of_isFinished (hf.isFinished trivial) hc ?_
      exact hf.mem c.name (mem_map_of_mem hc) (contains_of_mem hc)
    · constructor
      intro d hd
      exact absurd hd.1 hc

theorem wellFounded_of_checkCycles (h : t.checkCycles text = .ok ()) : WellFounded t.IsParent := by
  obtain ⟨-, hw⟩ | ⟨e, he, -⟩ := t.checkCycles_cases text
  · exact hw
  · cases h.symm.trans he

theorem wellFounded_iff : WellFounded t.IsParent ↔ ∀ name, ¬Relation.TransGen t.Extends name name := by
  constructor
  · intro hw name h
    obtain ⟨c, d, hc, hd, hp⟩ := exists_isParent h
    cases hc.symm.trans hd
    exact hw.transGen.irrefl.irrefl c hp
  · intro h
    obtain ⟨-, hw⟩ | ⟨e, -, c, -, names, -, hn, -⟩ := t.checkCycles_cases []
    · exact hw
    · obtain ⟨name, ht⟩ := hn.exists_transGen
      exact absurd ht (h name)

/-- **Circles of parents.** The search passes a table exactly if no class leads through parents back
to itself. Else it shows a circle of parents, each name that of a parent of the class before it, and
at the end the first name again. -/
theorem checkCycles_finds_circles (t : ClassTable) (text : List Char) :
    (t.checkCycles text = .ok () ↔ ∀ name, ¬Relation.TransGen t.Extends name name) ∧
      ∀ e, t.checkCycles text = .error e → ∃ c ∈ t.classes, ∃ names,
        e = .atOffset text c.offset (.inheritanceCycle names) ∧ t.IsCircle names ∧ names.head? = some c.name := by
  rw [← wellFounded_iff]
  obtain ⟨hok, hw⟩ | ⟨e, he, hshown⟩ := t.checkCycles_cases text
  · refine ⟨iff_of_true hok hw, fun e he => ?_⟩
    cases hok.symm.trans he
  · refine ⟨iff_of_false (by rw [he]; rintro ⟨⟩) fun hw => ?_, fun e' he' => ?_⟩
    · obtain ⟨c, -, names, -, hcircle, -⟩ := hshown
      obtain ⟨name, ht⟩ := hcircle.exists_transGen
      exact wellFounded_iff.1 hw name ht
    · cases he.symm.trans he'
      exact hshown

/-! ### What the checks leave -/

/-- Every name in the list that is no tag is the name of a class. -/
def Knows (t : ClassTable) (names : List String) : Prop :=
  ∀ name ∈ names, isTag name = false → t.contains name = true

/-- What the checks leave of a table: no class is named like a tag, parents are known, and there are
no circles. -/
structure IsSound (t : ClassTable) : Prop where
  noTags : t.NoTags
  knows : ∀ c ∈ t.classes, t.Knows c.parents
  wellFounded : WellFounded t.IsParent

theorem knows_of_find?_eq_none (h : (names.find? fun name => !isTag name && !t.contains name) = none) : t.Knows names := by
  intro name hn ht
  have hk := find?_eq_none.1 h name hn
  simpa [ht] using hk

theorem knows_of_checkClass (h : t.checkClass text c = .ok ()) : t.Knows c.parents ∧ t.checkNodes text c.children = .ok () := by
  unfold checkClass at h
  dsimp only at h
  split at h
  · cases h
  · split at h
    · cases h
    · split at h
      · cases h
      · next hf =>
        obtain ⟨⟨⟩, -, hn⟩ := bind_eq_ok.1 h
        exact ⟨knows_of_find?_eq_none hf, hn⟩

/-- What the check of an instance leaves: its entries are known, its name is not reserved, the names
inside do not clash. -/
structure Passes (t : ClassTable) (node : Node) : Prop where
  knows : t.Knows node.label.entries
  notReserved : ∀ name ∈ node.label.name?, isReserved name = false
  names : HasCheckedNames node

theorem passes_of_checkInstance {own : Instance} (h : t.checkInstance text own children = .ok ()) :
    t.Passes (.node own children) := by
  unfold checkInstance at h
  split at h
  · cases h
  · next hf =>
    split at h
    · cases h
    · next hn =>
      refine ⟨knows_of_find?_eq_none hf, fun name ha => ?_, h⟩
      have ho : own.name? = some name := ha
      simpa [ho] using hn

theorem passes_of_checkNodes (h : t.checkNodes text nodes = .ok ()) (a : Address) (k : Nat) :
    ∀ s ∈ sitesAll a k nodes, t.Passes s.2 := by
  induction nodes using forest_induction generalizing a k with
  | nil => nofun
  | cons own children rest ihc ihr =>
    obtain ⟨⟨⟩, hf, hr⟩ := bind_eq_ok.1 h
    obtain ⟨⟨⟩, ho, hc⟩ := bind_eq_ok.1 hf
    rw [sitesAll, sites, cons_append, forall_mem_cons, forall_mem_append]
    exact ⟨passes_of_checkInstance ho, ihc hc _ _, ihr hr _ _⟩

theorem checkNodes_of_checkRoots (h : t.checkRoots text handles nodes = .ok ()) : t.checkNodes text nodes = .ok () := by
  induction nodes generalizing handles with
  | nil => rfl
  | cons node nodes ih =>
    rw [checkRoots] at h
    split at h
    · split at h
      · cases h
      · obtain ⟨⟨⟩, hn, ho⟩ := bind_eq_ok.1 h
        exact bind_eq_ok.2 ⟨(), hn, ih ho⟩
    · obtain ⟨⟨⟩, hn, ho⟩ := bind_eq_ok.1 h
      exact bind_eq_ok.2 ⟨(), hn, ih ho⟩

end ClassTable

namespace PageSource

variable {text : List Char} {src : PageSource}

theorem exists_check (h : readChecked text = .ok src) : (∀ c ∈ src.table.classes, src.table.checkClass text c = .ok ()) ∧
      src.table.checkCycles text = .ok () ∧ src.table.checkRoots text [] src.page.nodes = .ok () := by
  obtain ⟨source', -, h⟩ := bind_eq_ok.1 h
  obtain ⟨⟨⟩, hc, h⟩ := bind_eq_ok.1 h
  cases h
  obtain ⟨⟨⟩, hl, hc⟩ := bind_eq_ok.1 hc
  obtain ⟨⟨⟩, hy, hr⟩ := bind_eq_ok.1 hc
  exact ⟨forall_of_forM hl, hy, hr⟩

/-- The table of a source that was read and checked is sound. -/
theorem isSound (h : readChecked text = .ok src) : src.table.IsSound := by
  obtain ⟨hl, hy, -⟩ := exists_check h
  refine ⟨noTags h, fun c hc => ?_, ClassTable.wellFounded_of_checkCycles hy⟩
  exact (ClassTable.knows_of_checkClass (hl c hc)).1

/-- All instances pass the check, inside classes and on the page. -/
theorem passes (h : readChecked text = .ok src) : (∀ c ∈ src.table.classes, ∀ s ∈ sitesAll [] 0 c.children, src.table.Passes s.2) ∧
      ∀ s ∈ sitesAll [] 0 src.page.nodes, src.table.Passes s.2 := by
  obtain ⟨hl, -, hr⟩ := exists_check h
  refine ⟨fun c hc => ?_, ClassTable.passes_of_checkNodes (ClassTable.checkNodes_of_checkRoots hr) [] 0⟩
  exact ClassTable.passes_of_checkNodes (ClassTable.knows_of_checkClass (hl c hc)).2 [] 0

end PageSource

end Pagewright
