import Pagewright.Proofs.Ancestors

/-!
# Lineages

The lineage of some entries is each of them with its ancestors (`ClassTable.mem_lineage`), which is
all that is reached from them through parents (`ClassTable.mem_lineage_iff`), no class twice
(`ClassTable.nodup_lineage`). -/

namespace Pagewright

open List Relation

namespace ClassTable

/-! ### Classes reached -/

/-- The classes reached from some entries: those among them, and those among the parents of a class
that is reached. -/
inductive Reaches (t : ClassTable) (entries : List String) : ClassDef → Prop
  | entry {c : ClassDef} (hc : c ∈ t.classes) (h : c.name ∈ entries.filter (!isTag ·)) :
      Reaches t entries c
  | parent {c d : ClassDef} (hc : Reaches t entries c) (hd : d ∈ t.classes)
      (h : d.name ∈ c.parents.filter (!isTag ·)) : Reaches t entries d

/-- A name that, if it is the name of a class, is the name of one that is reached. -/
def Leads (t : ClassTable) (entries : List String) (name : String) : Prop :=
  ∀ c, t.get? name = some c → t.Reaches entries c

variable {t : ClassTable} {entries es ns : List String} {name p : String} {c d : ClassDef}

theorem eq_of_name_eq (hc : c ∈ t.classes) (hd : d ∈ t.classes) (h : c.name = d.name) : c = d := by
  have hg := get?_of_mem hc
  rw [h, get?_of_mem hd] at hg
  exact (Option.some.inj hg).symm

theorem Reaches.mem (h : t.Reaches entries c) : c ∈ t.classes := by
  cases h with
  | entry hc => exact hc
  | parent _ hd => exact hd

theorem name_mem_filter (ht : t.NoTags) (hn : name ∈ ns) (hg : t.get? name = some c) :
    c ∈ t.classes ∧ c.name ∈ ns.filter (!isTag ·) := by
  have hc := mem_of_get? hg
  refine ⟨hc, mem_filter.2 ⟨name_of_get? hg ▸ hn, ?_⟩⟩
  rw [ht c hc]
  rfl

theorem leads_of_mem (ht : t.NoTags) : ∀ name ∈ entries, t.Leads entries name := by
  intro name hn c hg
  obtain ⟨hc, hm⟩ := name_mem_filter ht hn hg
  exact .entry hc hm

theorem Reaches.leads (ht : t.NoTags) (h : t.Reaches entries c) : ∀ name ∈ c.parents, t.Leads entries name := by
  intro name hn d hg
  obtain ⟨hd, hm⟩ := name_mem_filter ht hn hg
  exact .parent h hd hm

theorem reaches_iff (ht : t.NoTags) : t.Reaches es c ↔ ∃ e ∈ es.filter (!isTag ·), c ∈ t.withAncestors e := by
  simp only [mem_withAncestors_iff]
  constructor
  · intro h
    induction h with
    | entry hc he => exact ⟨_, he, hc, .refl⟩
    | parent hc hd hp ih =>
      obtain ⟨e, he, -, hr⟩ := ih
      exact ⟨e, he, hd, hr.tail (IsParent.extends ⟨hc.mem, hd, mem_of_mem_filter hp⟩)⟩
  · rintro ⟨e, he, hc, hr⟩
    suffices hl : ∀ p, ReflTransGen t.Extends e p → t.Leads es p from hl c.name hr c (get?_of_mem hc)
    intro p hp
    induction hp with
    | refl => exact leads_of_mem ht e (mem_of_mem_filter he)
    | tail _ hs ih =>
      obtain ⟨d, hd, hp, -⟩ := hs
      exact (ih d hd).leads ht _ hp

/-! ### Lineages -/

theorem nodup_lineage (t : ClassTable) (es : List String) : ((t.lineage es).map ClassDef.name).Nodup :=
  (foldl_dedup_spec ClassDef.name _ _).2.2 nodup_nil

theorem mem_lineage : c ∈ t.lineage es ↔ ∃ e ∈ es.filter (!isTag ·), c ∈ t.withAncestors e := by
  obtain ⟨hm, he, -⟩ := foldl_dedup_spec ClassDef.name ((es.filter (!isTag ·)).flatMap t.withAncestors) []
  have hl {c : ClassDef} (h : c ∈ t.lineage es) : ∃ e ∈ es.filter (!isTag ·), c ∈ t.withAncestors e :=
    mem_flatMap.1 ((hm c h).resolve_left not_mem_nil)
  refine ⟨hl, fun h => ?_⟩
  obtain ⟨d, hd, hn⟩ := he c (.inr (mem_flatMap.2 h))
  obtain ⟨e, -, hc⟩ := h
  obtain ⟨e', -, hd'⟩ := hl hd
  rw [← eq_of_name_eq (mem_withAncestors_iff.1 hd').1 (mem_withAncestors_iff.1 hc).1 hn]
  exact hd

/-- **Lineages.** The lineage of some entries is all that is reached from them. -/
theorem mem_lineage_iff (ht : t.NoTags) : c ∈ t.lineage es ↔ t.Reaches es c := mem_lineage.trans (reaches_iff ht).symm

end ClassTable

end Pagewright
