import Pagewright.Proofs.Bodies
import Pagewright.Proofs.Families

/-!
# Plans as read from a text

A class and the instances inside it were read from the whole text, an instance of the page from the
text without its classes (`IsSourceOf`). Either way the names that a unit writes as they are can be
words, and the bodies and values that it writes were cut out of the text
(`PageSource.IsFamily.exists_readFrom`). -/

namespace Pagewright

open Tree

variable {s : Source}

/-- The source is that of the text, or that of the text without its classes. -/
def IsSourceOf (text : List Char) (s : Source) : Prop :=
  Source.ofText text = .ok s ∨ ∃ pageText, classlessText text = .ok pageText ∧ Source.ofText pageText = .ok s

theorem IsSourceOf.isScan {text : List Char} (h : IsSourceOf text s) : s.IsScan := by
  rcases h with h | ⟨pageText, -, h⟩ <;> exact Source.isScan_ofText h

theorem IsWordText.newline_not_mem {name : String} (h : IsWordText name) : '\n' ∉ name.toList := by
  intro hm
  exact absurd (h _ hm) (by decide)

/-- The plan has what reading a class or an instance from the source can give. -/
structure UnitPlan.ReadFrom (s : Source) (plan : UnitPlan) : Prop where
  className : ∀ name ∈ plan.anchor.className?, IsNameText name
  entries : ∀ entry ∈ plan.entries, IsWordText entry
  style : plan.style.HasKeys
  attributes : plan.attributes.HasKeys
  members : plan.members.CutFrom s
  assignments : plan.assignments.AssignsFrom s

theorem Instance.ReadFrom.plan {own : Instance} (h : own.ReadFrom s) (childNames : List String)
    {anchor : Anchor} (ha : anchor.className? = none) : UnitPlan.ReadFrom s (.ofInstance own childNames anchor) where
  className := by
    intro name hn
    rw [UnitPlan.ofInstance, ha] at hn
    cases hn
  entries := h.entries
  style := h.style
  attributes := h.attributes
  members := h.members
  assignments := h.assignments

theorem ClassDef.ReadFrom.plan {c : ClassDef} (h : c.ReadFrom s) : UnitPlan.ReadFrom s (.ofClass c) where
  className := by
    rintro name ⟨⟩
    exact h.name
  entries := h.parents
  style := h.style
  attributes := h.attributes
  members := h.members
  assignments := .empty s

theorem label_mem_labelsAll_of_mem_sitesAll {a : Address} {k : Nat} {nodes : List Node}
    {site : Address × Node} (h : site ∈ sitesAll a k nodes) : site.2.label ∈ labelsAll nodes := by
  rw [← map_label_sitesAll a k nodes]
  exact List.mem_map_of_mem h

namespace PageSource

variable {text : List Char} {src : PageSource}

/-- What was read from the two texts of a source. -/
theorem exists_sources (h : readChecked text = .ok src) :
    ∃ s page, IsSourceOf text s ∧ IsSourceOf text page ∧ (∀ c ∈ src.table.classes, c.ReadFrom s) ∧
      ∀ own ∈ labelsAll src.page.nodes, own.ReadFrom page := by
  obtain ⟨-, s, blocks, page, hs, -, hc, hp, hl, hn⟩ := exists_of_read (read_of_readChecked h)
  exact ⟨s, page, .inl hs, .inr ⟨_, hc, hp⟩, hl, hn⟩

/-- The plan of every unit is as read. -/
theorem IsFamily.exists_readFrom (hr : readChecked text = .ok src) {plan : UnitPlan}
    {plans : List UnitPlan} (h : src.IsFamily plan plans) : ∃ s, IsSourceOf text s ∧ plan.ReadFrom s := by
  obtain ⟨s, page, hs, hp, hcl, hn⟩ := exists_sources hr
  cases h with
  | ofClass hc => exact ⟨s, hs, (hcl _ hc).plan⟩
  | created hc hi =>
    refine ⟨s, hs, Instance.ReadFrom.plan ?_ _ rfl⟩
    obtain ⟨node, ho, hl⟩ := mem_labelsAll.1 (label_mem_labelsAll_of_mem_sitesAll hi)
    exact (hcl _ hc).children node ho _ hl
  | placed hi =>
    refine ⟨page, hp, ?_⟩
    rw [planOf_eq]
    exact (hn _ (label_mem_labelsAll_of_mem_sitesAll (mem_sitesAll_of_mem_bearing hi))).plan _ rfl

end PageSource

end Pagewright
