import Mathlib.Algebra.BigOperators.Group.Finset.Basic
import Mathlib.Algebra.Ring.Nat
import Pagewright.Proofs.Lineage

/-!
# Parents first

Following some entries, and from each class its parents before the class itself, visits classes in
an order (`ClassTable.Visits`). In a sound table the visits come to an end
(`ClassTable.IsSound.exists_visits`) and lead to the lineage and nowhere else
(`ClassTable.Visits.mem_iff`). A class is visited once for each time it is listed by the entries or
by a class that is visited (`ClassTable.Visits.perm`), so that numbers of visits add up along the
parents (`ClassTable.Visits.count_eq`), and none is visited twice exactly if none is listed twice
(`ClassTable.Visits.nodup_iff`). -/

namespace Pagewright

open List

variable {c d : ClassDef}

namespace ClassTable

/-- The visits from some names, in order: nothing for a tag, and for a class first its parents. -/
inductive Visits (t : ClassTable) : List String → List ClassDef → Prop
  | nil : Visits t [] []
  | tag {name : String} {names : List String} {cs : List ClassDef} (htag : isTag name = true)
      (h : Visits t names cs) : Visits t (name :: names) cs
  | visit {c : ClassDef} {names : List String} {inner after : List ClassDef} (hc : c ∈ t.classes)
      (hinner : Visits t c.parents inner) (hafter : Visits t names after) :
      Visits t (c.name :: names) (inner ++ c :: after)

variable {t : ClassTable} {names es es' : List String} {cs : List ClassDef}

/-! ### The visits come to an end -/

theorem exists_visits_of_forall (hk : t.Knows names) (h : ∀ c ∈ t.classes, c.name ∈ names → ∃ inner, t.Visits c.parents inner) :
    ∃ cs, t.Visits names cs := by
  induction names with
  | nil => exact ⟨[], .nil⟩
  | cons name names ih =>
    have hr : t.Knows names := fun x hx => hk x (mem_cons_of_mem _ hx)
    obtain ⟨post, ha⟩ := ih hr fun c hc hn => h c hc (mem_cons_of_mem _ hn)
    by_cases ht : isTag name
    · exact ⟨post, .tag ht ha⟩
    · have ho := hk name mem_cons_self (Bool.not_eq_true _ ▸ ht)
      obtain ⟨c, hc, rfl⟩ := exists_of_contains ho
      obtain ⟨inner, hi⟩ := h c hc mem_cons_self
      exact ⟨inner ++ c :: post, .visit hc hi ha⟩

theorem IsSound.exists_visits (hs : t.IsSound) (hk : t.Knows names) : ∃ cs, t.Visits names cs := by
  have hl : ∀ c : ClassDef, c ∈ t.classes → ∃ inner, t.Visits c.parents inner := by
    intro c
    induction c using hs.wellFounded.induction with
    | h c ih =>
      intro hc
      refine exists_visits_of_forall (hs.knows c hc) fun d hd hn => ?_
      exact ih d ⟨hc, hd, hn⟩ hd
  exact exists_visits_of_forall hk fun c hc _ => hl c hc

/-! ### The classes visited -/

theorem Visits.mem_classes (h : t.Visits names cs) : ∀ c ∈ cs, c ∈ t.classes := by
  induction h with
  | nil => nofun
  | tag _ _ ih => exact ih
  | visit hc _ _ ihinner ihafter =>
    rw [forall_mem_append, forall_mem_cons]
    exact ⟨ihinner, hc, ihafter⟩

theorem Reaches.mono (h : t.Reaches es c) (hs : ∀ d, d ∈ t.classes → d.name ∈ es.filter (!isTag ·) → t.Reaches es' d) :
    t.Reaches es' c := by
  induction h with
  | entry hc he => exact hs _ hc he
  | parent _ hd hp ih => exact .parent ih hd hp

section

variable (ht : t.NoTags) (h : t.Visits names cs)
include ht h

theorem Visits.reaches : ∀ c ∈ cs, t.Reaches names c := by
  have ho (name : String) (names : List String) {c : ClassDef} (hr : t.Reaches names c) :
      t.Reaches (name :: names) c := by
    refine hr.mono fun d hd hm => .entry hd ?_
    rw [mem_filter] at hm ⊢
    exact ⟨mem_cons_of_mem _ hm.1, hm.2⟩
  induction h with
  | nil => nofun
  | tag _ _ ih => exact fun c hc => ho _ _ (ih c hc)
  | @visit c names inner post hc _ _ ihinner ihafter =>
    have hs : t.Reaches (c.name :: names) c := .entry hc (mem_filter.2 ⟨mem_cons_self, by simp [ht c hc]⟩)
    rw [forall_mem_append, forall_mem_cons]
    refine ⟨fun d hd => ?_, hs, fun d hd => ho _ _ (ihafter d hd)⟩
    exact (ihinner d hd).mono fun e he hm => .parent hs he hm

theorem Visits.mem_of_mem_names (hc : c ∈ t.classes) (hn : c.name ∈ names) : c ∈ cs := by
  induction h with
  | nil => cases hn
  | tag ha _ ih =>
    rcases mem_cons.1 hn with rfl | hn
    · rw [ht c hc] at ha
      cases ha
    · exact ih hn
  | visit hd _ _ _ ihafter =>
    rw [mem_append, mem_cons]
    rcases mem_cons.1 hn with heq | hn
    · exact .inr (.inl (eq_of_name_eq hc hd heq))
    · exact .inr (.inr (ihafter hn))

theorem Visits.mem_of_mem_parents (hc : c ∈ cs) (hd : d ∈ t.classes) (hp : d.name ∈ c.parents) :
    d ∈ cs := by
  induction h with
  | nil => cases hc
  | tag _ _ ih => exact ih hc
  | visit _ hi _ ihinner ihafter =>
    rw [mem_append, mem_cons] at hc ⊢
    rcases hc with hc | rfl | hc
    · exact .inl (ihinner hc)
    · exact .inl (hi.mem_of_mem_names ht hd hp)
    · exact .inr (.inr (ihafter hc))

/-- Exactly the lineage is visited. -/
theorem Visits.mem_iff : c ∈ cs ↔ c ∈ t.lineage names := by
  rw [mem_lineage_iff ht]
  constructor
  · exact h.reaches ht c
  · intro hr
    induction hr with
    | entry hc he => exact h.mem_of_mem_names ht hc (mem_of_mem_filter he)
    | parent _ hd hp ih => exact h.mem_of_mem_parents ht ih hd (mem_of_mem_filter hp)

/-! ### The number of visits -/

theorem Visits.perm :
    (cs.map ClassDef.name).Perm ((names ++ cs.flatMap ClassDef.parents).filter (!isTag ·)) := by
  induction h with
  | nil => exact .refl _
  | tag hta _ ih =>
    rw [cons_append, filter_cons_of_neg (by simp [hta])]
    exact ih
  | @visit c names inner post hc _ _ ihinner ihafter =>
    rw [cons_append, filter_cons_of_pos (by simp [ht c hc])]
    simp only [map_append, map_cons, flatMap_append, flatMap_cons, filter_append] at ihinner ihafter ⊢
    rw [perm_iff_count] at ihinner ihafter ⊢
    intro x
    have hi := ihinner x
    have ha := ihafter x
    simp only [count_append, count_cons] at hi ha ⊢
    omega

theorem Visits.count_perm (hc : c ∈ t.classes) :
    (cs.map ClassDef.name).count c.name = names.count c.name + (cs.flatMap ClassDef.parents).count c.name := by
  rw [(h.perm ht).count_eq, count_filter (by simp [ht c hc]), count_append]

theorem Visits.count_eq (hc : c ∈ t.classes) :
    (cs.map ClassDef.name).count c.name = names.count c.name +
      ((t.lineage names).map fun d => (cs.map ClassDef.name).count d.name * d.parents.count c.name).sum := by
  classical
  have hn : (t.lineage names).Nodup := (t.nodup_lineage names).of_map _
  have hs : cs.toFinset = (t.lineage names).toFinset := by
    ext d
    rw [mem_toFinset, mem_toFinset, h.mem_iff ht]
  have ho : ∀ d ∈ (t.lineage names).toFinset, cs.count d = (cs.map ClassDef.name).count d.name := by
    intro d hd
    have hm := (h.mem_iff ht).2 (mem_toFinset.1 hd)
    rw [count_eq_countP, count_eq_countP, countP_map]
    refine countP_congr fun e he => ?_
    simp only [Function.comp, beq_iff_eq]
    exact ⟨congrArg _, eq_of_name_eq (h.mem_classes e he) (h.mem_classes d hm)⟩
  rw [h.count_perm ht hc, count_flatMap, Finset.sum_list_map_count, hs, ← sum_toFinset _ hn]
  refine congrArg _ (Finset.sum_congr rfl fun d hd => ?_)
  rw [ho d hd]
  rfl

end

/-! ### Visits that happen once -/

/-- No class is listed twice, by the names or by the classes of their lineage. -/
def ListsOnce (t : ClassTable) (names : List String) : Prop :=
  ((names ++ (t.lineage names).flatMap ClassDef.parents).filter (!isTag ·)).Nodup

instance (t : ClassTable) (names : List String) : Decidable (t.ListsOnce names) :=
  inferInstanceAs (Decidable (List.Nodup _))

theorem count_flatMap_parents {name : String} (cs : List ClassDef)
    (h : ∀ c ∈ cs, c.parents.count name = if c.name = d.name then 1 else 0) :
    (cs.flatMap ClassDef.parents).count name = (cs.map ClassDef.name).count d.name := by
  induction cs with
  | nil => rfl
  | cons c cs ih =>
    obtain ⟨hc, hs⟩ := forall_mem_cons.1 h
    rw [flatMap_cons, map_cons, count_append, count_cons, ih hs]
    simp only [beq_iff_eq]
    omega

theorem Visits.count_eq_one (ht : t.NoTags) (h : t.Visits names cs) (ho : t.ListsOnce names)
    (hc : t.Reaches names c) : (cs.map ClassDef.name).count c.name = 1 := by
  have hle : ∀ d ∈ t.classes, names.count d.name + ((t.lineage names).flatMap ClassDef.parents).count d.name ≤ 1 := by
    intro d hd
    have hco := nodup_iff_count_le_one.1 ho d.name
    rwa [count_filter (by simp [ht d hd]), count_append] at hco
  induction hc with
  | @entry c hc hen =>
    have hl := one_le_count_iff.2 (mem_of_mem_filter hen)
    have hn : ((t.lineage names).flatMap ClassDef.parents).count c.name = 0 := by
      have := hle c hc
      omega
    have hp : (cs.flatMap ClassDef.parents).count c.name = 0 := by
      rw [count_eq_zero] at hn ⊢
      intro hm
      obtain ⟨d, hd, ha⟩ := mem_flatMap.1 hm
      exact hn (mem_flatMap.2 ⟨d, (h.mem_iff ht).1 hd, ha⟩)
    have := hle c hc
    rw [h.count_perm ht hc]
    omega
  | @parent d c hd hc ha ih =>
    obtain ⟨pre, post, hs⟩ := append_of_mem ((mem_lineage_iff ht).2 hd)
    have hl := one_le_count_iff.2 (mem_of_mem_filter ha)
    have hle := hle c hc
    rw [hs, flatMap_append, flatMap_cons, count_append, count_append] at hle
    -- No other class of the lineage lists it.
    have hot : ∀ e ∈ cs, e.parents.count c.name = if e.name = d.name then 1 else 0 := by
      intro e he
      have hm := (h.mem_iff ht).1 he
      rw [hs, mem_append, mem_cons] at hm
      by_cases hna : e.name = d.name
      · rw [if_pos hna, eq_of_name_eq (h.mem_classes e he) hd.mem hna]
        omega
      · rw [if_neg hna, count_eq_zero]
        intro hi
        rcases hm with hm | rfl | hm
        · have := one_le_count_iff.2 (mem_flatMap.2 ⟨e, hm, hi⟩)
          omega
        · exact hna rfl
        · have := one_le_count_iff.2 (mem_flatMap.2 ⟨e, hm, hi⟩)
          omega
    rw [h.count_perm ht hc, count_flatMap_parents cs hot]
    omega

/-- **Once.** No class is visited twice if and only if none is listed twice. -/
theorem Visits.nodup_iff (ht : t.NoTags) (h : t.Visits names cs) : (cs.map ClassDef.name).Nodup ↔ t.ListsOnce names := by
  constructor
  · intro hn
    have hp : cs.Perm (t.lineage names) := (perm_ext_iff_of_nodup (hn.of_map _) ((t.nodup_lineage names).of_map _)).2
        fun c => h.mem_iff ht
    have hl := (h.perm ht).nodup_iff.1 hn
    exact (((hp.flatMap_right _).append_left names).filter _).nodup_iff.1 hl
  · intro ho
    rw [nodup_iff_count_le_one]
    intro name
    by_cases hm : name ∈ cs.map ClassDef.name
    · obtain ⟨c, hc, rfl⟩ := mem_map.1 hm
      exact (h.count_eq_one ht ho (h.reaches ht c hc)).le
    · rw [count_eq_zero.2 hm]
      exact Nat.zero_le _

end ClassTable

end Pagewright
