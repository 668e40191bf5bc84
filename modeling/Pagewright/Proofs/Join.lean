import Pagewright.Proofs.Checked
import Pagewright.Proofs.Units

/-!
# Markup and script of a page

The markup and the script are written from the same page by two passes that know each other only by
the numbers. This module puts the two together for whole pages.
-/

namespace Pagewright

open List Address Pagewright.Tree
open Prod (fst snd)

variable {s : Address × PlacedNode}

/-! ### Ids of elements -/

theorem idText_injective : Function.Injective idText := by
  intro i j h
  have hd : Nat.toDigits 10 i = Nat.toDigits 10 j := by
    have hl := congrArg String.toList h
    simpa [idText] using hl
  have hr := congrArg (Nat.ofDigitChars 10 · 0) hd
  simpa only [Nat.ofDigitChars_ten_toDigits] using hr

/-- The attributes `id` of an element. -/
def ElementHead.ids (head : ElementHead) : List String :=
  (head.attributes.filter (·.1 = "id")).map snd

theorem ClassTable.ids_elementHead (t : ClassTable) (own : Placed) : (t.elementHead own).ids = own.id?.toList.map idText := by
  have hc : (classAttribute own.entries).filter (·.1 = "id") = [] := by
    rw [classAttribute]
    split <;> simp
  have hs : (styleAttribute own.style).filter (·.1 = "id") = [] := by
    rw [styleAttribute]
    split <;> simp
  have ho : (own.attributes.entries.filter (·.1 != "id")).filter (·.1 = "id") = [] := by
    simp
  simp only [ElementHead.ids, elementHead, Placed.attributeList, filter_append, hc, hs, ho]
  cases own.id? <;> simp

/-! ### Plans of units and of those they make -/

/-- The unit of a class with those it makes, and behind it the units of the instances inside. -/
def classFamilies (c : ClassDef) (nodes : List PlacedNode) : List (UnitPlan × List UnitPlan) :=
  (.ofClass c, topLabels (planOf .byCreation) (sitesAll [] 0 nodes)) ::
    nearestFamilies (planOf .byCreation) (sitesAll [] 0 nodes)

/-- The plans of the units of the instances inside a class. -/
def bodyPlans (nodes : List PlacedNode) : List UnitPlan :=
  (sitesAll [] 0 nodes).map fun s => planOf .byCreation s.2

/-- The instances of a page that have a unit. -/
def bearingSites (page : List PlacedNode) : List (Address × PlacedNode) :=
  (sitesAll [] 0 page).filter (bearsUnit ·.2)

/-- The plans of all units, each with those of the units it makes: of the classes and the instances
inside, then of the instances on the page. -/
def unitFamilies (classes : List ClassDef) (bodies : List (List PlacedNode)) (page : List PlacedNode) :
    List (UnitPlan × List UnitPlan) :=
  (List.zipWith classFamilies classes bodies).flatten ++
    nearestFamilies (planOf .byMarkup) (bearingSites page)

theorem familiesAll_classPlan (cs : List ClassDef) (bodies : List (List PlacedNode)) :
    familiesAll (zipWith classPlan cs bodies) = (zipWith classFamilies cs bodies).flatten := by
  induction cs generalizing bodies with
  | nil => rfl
  | cons c cs ih =>
    cases bodies with
    | nil => rfl
    | cons nodes bodies =>
      obtain ⟨ht, hf⟩ := gatherAll_sites (fun _ => true) (planOf .byCreation) [] 0 nodes
      rw [filter_eq_self.2 (fun _ _ => rfl)] at ht hf
      rw [zipWith_cons_cons, familiesAll, ih, classPlan, families, ht, hf]
      rfl

theorem map_fst_classFamilies (c : ClassDef) (nodes : List PlacedNode) :
    (classFamilies c nodes).map fst = .ofClass c :: bodyPlans nodes := by
  rw [classFamilies, map_cons, nearestFamilies, map_map]
  rfl

theorem flatMap_snd_classFamilies (c : ClassDef) (nodes : List PlacedNode) :
    ((classFamilies c nodes).flatMap snd).Perm (bodyPlans nodes) := by
  have hp := topLabels_append_perm (fun _ => true) (planOf .byCreation) [] 0 nodes
  rw [filter_eq_self.2 (fun _ _ => rfl)] at hp
  exact hp

/-- The units of classes and of the instances inside them: the latter are all that is no class, each
is made once, and none is bound to the markup. Each class has one unit. -/
theorem classFamilies_spec (cs : List ClassDef) (bodies : List (List PlacedNode))
    (h : bodies.length = cs.length) : let fs := (zipWith classFamilies cs bodies).flatten
    (fs.map fst).filter (·.anchor.className?.isNone) = bodies.flatMap bodyPlans ∧
      (fs.flatMap snd).Perm (bodies.flatMap bodyPlans) ∧
      (fs.map fst).filterMap (·.anchor.markupId?) = [] ∧
      (fs.map fst).filterMap (·.anchor.className?) = cs.map ClassDef.name := by
  induction cs generalizing bodies with
  | nil =>
    rw [length_eq_zero_iff.1 h]
    exact ⟨rfl, .refl _, rfl, rfl⟩
  | cons c cs ih =>
    cases bodies with
    | nil => cases h
    | cons nodes bodies =>
      obtain ⟨hf, hp, hn, ha⟩ := ih bodies (Nat.succ.inj h)
      have hc : (UnitPlan.ofClass c).anchor.className?.isNone = false := rfl
      have hi {plan : UnitPlan} (hm : plan ∈ bodyPlans nodes) : plan.anchor.className? = none ∧ plan.anchor.markupId? = none := by
        obtain ⟨s, -, rfl⟩ := mem_map.1 hm
        exact ⟨rfl, rfl⟩
      simp only [zipWith_cons_cons, flatten_cons, map_append, filter_append, flatMap_append, filterMap_append, flatMap_cons,
        map_fst_classFamilies]
      refine ⟨?_, (flatMap_snd_classFamilies c nodes).append hp, ?_, ?_⟩
      · rw [filter_cons_of_neg (by simp [hc]), filter_eq_self.2 (fun plan hm => by simp [(hi hm).1]), hf]
      · rw [filterMap_cons, filterMap_eq_nil_iff.2 (fun plan hm => (hi hm).2), hn]
        rfl
      · rw [filterMap_cons, filterMap_eq_nil_iff.2 (fun plan hm => (hi hm).1), ha]
        rfl

/-! ### The numbers of a source -/

theorem settleClasses_spec (issued : Nat) (cs : List ClassDef) : issued ≤ (settleClasses issued cs).2 ∧
      ((settleClasses issued cs).1.flatMap labelsAll).filterMap Placed.id? = given issued (settleClasses issued cs).2 ∧
      (∀ own ∈ (settleClasses issued cs).1.flatMap labelsAll, own.id?.isSome) ∧
      (settleClasses issued cs).1.map (mapAll Placed.toInstance) = cs.map ClassDef.children := by
  induction cs generalizing issued with
  | nil => simp [settleClasses]
  | cons c cs ih =>
    obtain ⟨hle, hi, hs⟩ := settleNodes_unplaced always issued c.children
    obtain ⟨hl', hi', hs', hb⟩ := ih (settleNodes always issued (mapAll Placed.unplaced c.children)).2
    simp only [settleClasses, flatMap_cons, map_cons]
    refine ⟨hle.trans hl', ?_, ?_, ?_⟩
    · rw [filterMap_append, hi, hi', given_append hle hl']
    · intro own ho
      rcases mem_append.1 ho with ho | ho
      · exact hs own ho
      · exact hs' own ho
    · rw [mapAll_toInstance_settleNodes, mapAll_toInstance_unplaced, hb]

namespace PageSource

variable (source : PageSource)

/-- The bodies of the classes with all numbers, and how many are given out then. -/
def settledBodies : List (List PlacedNode) × Nat := settleClasses source.placed.2 source.table.classes

theorem settledBodies_spec : source.placed.2 ≤ source.settledBodies.2 ∧
    (source.settledBodies.1.flatMap labelsAll).filterMap Placed.id? = given source.placed.2 source.settledBodies.2 ∧
    (∀ own ∈ source.settledBodies.1.flatMap labelsAll, own.id?.isSome) ∧
    source.settledBodies.1.map (mapAll Placed.toInstance) = source.table.classes.map ClassDef.children :=
  settleClasses_spec source.placed.2 source.table.classes

/-- The page body with all numbers, and how many are given out then. -/
def settledPage : List PlacedNode × Nat :=
  settleNodes Instance.needsUnit source.settledBodies.2 source.placed.1

/-- The instances of the page, with all numbers. -/
def pageSites : List (Address × PlacedNode) := sitesAll [] 0 source.settledPage.1

theorem isSettled_pageSites : IsSettled source.table Instance.needsUnit 0 source.placed.2
    source.settledBodies.2 source.settledPage.2 source.pageSites :=
  isSettled_numberNodes source.table Instance.needsUnit 0 source.settledBodies.2 [] 0 source.page.nodes

theorem mapAll_toInstance_settledPage : mapAll Placed.toInstance source.settledPage.1 = source.page.nodes := by
  rw [settledPage, mapAll_toInstance_settleNodes, placed, mapAll_toInstance_numberNodes]

theorem labelsAll_elements : labelsAll source.elements =
    (source.table.shown source.pageSites).map fun s => source.table.elementHead s.2.label := by
  have hs : source.table.elements source.settledPage.1 = source.elements :=
    elements_settleNodes source.table Instance.needsUnit 0 source.settledBodies.2 source.page.nodes
  rw [← hs, ClassTable.labelsAll_elements [] 0]
  rfl

theorem ids_elements : (labelsAll source.elements).map ElementHead.ids = (given 0 source.placed.2).map fun id => [idText id] := by
  have hi : ((source.table.shown source.pageSites).map (·.2.label.id?)).map
      (fun id? => id?.toList.map idText) = (given 0 source.placed.2).map fun id => [idText id] := by
    rw [source.isSettled_pageSites.shown_ids, map_map]
    rfl
  rw [source.labelsAll_elements, map_map, ← hi, map_map]
  exact map_congr_left fun s _ => source.table.ids_elementHead s.2.label

theorem countP_elements (id : Nat) : (labelsAll source.elements).countP (idText id ∈ ·.ids) =
    if 0 < id ∧ id ≤ source.placed.2 then 1 else 0 := by
  have hc : (labelsAll source.elements).countP (idText id ∈ ·.ids) =
      ((labelsAll source.elements).map ElementHead.ids).countP (idText id ∈ ·) := by
    rw [countP_map]
    rfl
  have hs : ∀ k ∈ given 0 source.placed.2, ((fun ids => decide (idText id ∈ ids)) ∘ fun k => [idText k]) k ↔ (k == id) := by
    intro k _
    simp only [Function.comp, mem_singleton, decide_eq_true_eq, beq_iff_eq]
    exact ⟨fun h => (idText_injective h).symm, fun h => by rw [h]⟩
  rw [hc, source.ids_elements, countP_map, countP_congr hs, ← count_eq_countP, (nodup_given 0 source.placed.2).count]
  simp only [mem_given]

/-! ### The units of a source -/

/-- The plans of the units of the source. -/
def families : List (UnitPlan × List UnitPlan) :=
  unitFamilies source.table.classes source.settledBodies.1 source.settledPage.1

/-- The instances of the page that have a unit. -/
def bearing : List (Address × PlacedNode) := bearingSites source.settledPage.1

theorem families_eq : source.families = (zipWith classFamilies source.table.classes source.settledBodies.1).flatten ++
      nearestFamilies (planOf .byMarkup) source.bearing := rfl

/-- The plans of the units of instances. -/
def nodePlans : List UnitPlan :=
  source.settledBodies.1.flatMap bodyPlans ++ source.bearing.map fun s => planOf .byMarkup s.2

theorem plan_eq : ScriptPlan.make source.placed.2 source.table.classes source.placed.1 =
    ⟨List.zipWith classPlan source.table.classes source.settledBodies.1,
      gatherAll bearsUnit (planOf .byMarkup) source.settledPage.1, source.settledPage.2⟩ := by
  simp only [ScriptPlan.make, planClasses_eq, planAllPlaced_eq]
  rfl

variable {source} {script : Script}

theorem units_of_called (h : source.script = .ok script) :
    ∃ called, source.table.calledMethods source.text source.placed.1 = .ok called ∧
      Forall₂ (UnitContext.IsUnit ⟨source.table, source.text, called⟩) source.families script.units ∧
      script.roots = (topLabels (planOf .byMarkup) source.bearing).map UnitPlan.handle := by
  unfold PageSource.script Script.make at h
  simp only [bind_eq_ok] at h
  obtain ⟨called, hc, classUnits, hl, pageUnits, hp, h⟩ := h
  cases h
  obtain ⟨ht, hf⟩ := gatherAll_sites bearsUnit (planOf .byMarkup) [] 0 source.settledPage.1
  rw [plan_eq] at hl hp ⊢
  have hu := rel_append (UnitContext.forall₂_units _ hl) (UnitContext.forall₂_units _ hp)
  rw [familiesAll_classPlan, hf] at hu
  have hr := congrArg (List.map UnitPlan.handle) ht
  rw [map_map] at hr
  exact ⟨called, hc, hu, hr⟩

theorem units_of_script (h : source.script = .ok script) :
    ∃ called, Forall₂ (UnitContext.IsUnit ⟨source.table, source.text, called⟩) source.families script.units ∧
      script.roots = (topLabels (planOf .byMarkup) source.bearing).map UnitPlan.handle :=
  (units_of_called h).imp fun _ hu => hu.2

theorem length_settledBodies : source.settledBodies.1.length = source.table.classes.length := by
  simpa using congrArg length source.settledBodies_spec.2.2.2

theorem made_perm_nodePlans : (topLabels (planOf .byMarkup) source.bearing ++ source.families.flatMap snd).Perm source.nodePlans := by
  obtain ⟨-, hb, -⟩ := classFamilies_spec source.table.classes source.settledBodies.1 length_settledBodies
  have hp : (topLabels (planOf .byMarkup) source.bearing ++ (nearestFamilies (planOf .byMarkup) source.bearing).flatMap snd).Perm
        (source.bearing.map fun s => planOf .byMarkup s.2) :=
    topLabels_append_perm bearsUnit (planOf .byMarkup) [] 0 source.settledPage.1
  rw [families_eq, flatMap_append]
  exact (perm_append_comm_assoc _ _ _).trans (hb.append hp)

theorem filter_families : (source.families.map fst).filter (·.anchor.className?.isNone) = source.nodePlans := by
  obtain ⟨hb, -, -⟩ := classFamilies_spec source.table.classes source.settledBodies.1 length_settledBodies
  have hp : ((nearestFamilies (planOf .byMarkup) source.bearing).map fst).filter
      (·.anchor.className?.isNone) = source.bearing.map fun s => planOf .byMarkup s.2 := by
    rw [nearestFamilies, map_map]
    refine filter_eq_self.2 fun plan hl => ?_
    obtain ⟨s, -, rfl⟩ := mem_map.1 hl
    rfl
  rw [families_eq, map_append, filter_append, hb, hp, nodePlans]

theorem filterMap_markupId_families : (source.families.map fst).filterMap (·.anchor.markupId?) =
      source.bearing.map fun s => s.2.label.id?.getD 0 := by
  obtain ⟨-, -, hb, -⟩ := classFamilies_spec source.table.classes source.settledBodies.1 length_settledBodies
  rw [families_eq, map_append, filterMap_append, hb, nearestFamilies, map_map, filterMap_map]
  exact congrFun filterMap_eq_map' _

/-! ### Numbers of units -/

theorem mem_pageSites_iff : s ∈ source.pageSites ↔ s ∈ source.table.shown source.pageSites ∨
    s ∈ source.table.hidden source.pageSites := by
  simp only [ClassTable.shown, ClassTable.hidden, mem_filter, decide_eq_true_eq]
  tauto

theorem exists_id_of_mem_shown (h : s ∈ source.table.shown source.pageSites) :
    ∃ id ∈ given 0 source.placed.2, s.2.label.id? = some id := by
  have hm := mem_map_of_mem (f := fun s : Address × PlacedNode => s.2.label.id?) h
  rw [source.isSettled_pageSites.shown_ids] at hm
  obtain ⟨id, hid, heq⟩ := mem_map.1 hm
  exact ⟨id, hid, heq.symm⟩

theorem exists_id_of_mem_hidden (h : s ∈ source.table.hidden source.pageSites) (hb : bearsUnit s.2) :
    ∃ id ∈ given source.settledBodies.2 source.settledPage.2, s.2.label.id? = some id := by
  have hs := source.isSettled_pageSites.hidden_isSome s h
  rw [show s.2.label.toInstance.needsUnit from hb] at hs
  obtain ⟨id, hid⟩ := Option.isSome_iff_exists.1 hs
  refine ⟨id, ?_, hid⟩
  rw [← source.isSettled_pageSites.hidden_ids]
  exact mem_filterMap.2 ⟨s, h, hid⟩

theorem isSome_of_mem_bearing (h : s ∈ source.bearing) : s.2.label.id?.isSome := by
  obtain ⟨hs, hb⟩ := mem_filter.1 h
  rcases mem_pageSites_iff.1 hs with hs | hs
  · obtain ⟨id, -, hid⟩ := exists_id_of_mem_shown hs
    rw [hid]
    rfl
  · obtain ⟨id, -, hid⟩ := exists_id_of_mem_hidden hs hb
    rw [hid]
    rfl

theorem ids_perm : ((source.settledBodies.1.flatMap labelsAll ++
    labelsAll source.settledPage.1).filterMap Placed.id?).Perm (given 0 source.settledPage.2) := by
  obtain ⟨hle, hi, -, -⟩ := source.settledBodies_spec
  have hs := source.isSettled_pageSites
  have hh : (source.table.shown source.pageSites).filterMap (·.2.label.id?) = given 0 source.placed.2 := by
    have hm := congrArg (filterMap id) hs.shown_ids
    rw [filterMap_map, filterMap_map] at hm
    exact hm.trans filterMap_some
  have hsp : (source.pageSites.filterMap (·.2.label.id?)).Perm
      (given 0 source.placed.2 ++ given source.settledBodies.2 source.settledPage.2) := by
    rw [← hh, ← hs.hidden_ids, ← filterMap_append]
    have hp := filter_append_perm (fun s => decide (source.table.IsShown source.pageSites s)) source.pageSites
    simp only [← decide_not] at hp
    exact hp.symm.filterMap _
  rw [filterMap_append, hi, ← map_label_sitesAll [] 0 source.settledPage.1, filterMap_map,
    ← given_append (Nat.zero_le _) hs.hidden_le, ← given_append (Nat.zero_le _) hle]
  refine (List.Perm.append_left _ hsp).trans ?_
  rw [← append_assoc]
  exact perm_append_comm.append_right _

theorem map_function_nodePlans : source.nodePlans.map (·.anchor.function) =
    ((source.settledBodies.1.flatMap labelsAll ++ source.bearing.map (·.2.label)).filterMap
      Placed.id?).map fun id => (Anchor.byMarkup id).function := by
  have hn : ∀ l : List Placed, (∀ own ∈ l, own.id?.isSome) → l.map (fun own => (Anchor.byMarkup (own.id?.getD 0)).function) =
        (l.filterMap Placed.id?).map fun id => (Anchor.byMarkup id).function := by
    intro l hso
    rw [map_filterMap, ← filterMap_eq_map']
    refine filterMap_congr fun own ho => ?_
    obtain ⟨id, hid⟩ := Option.isSome_iff_exists.1 (hso own ho)
    rw [hid]
    rfl
  have hb : ∀ nodes : List PlacedNode, (bodyPlans nodes).map (·.anchor.function) =
      (labelsAll nodes).map fun own => (Anchor.byMarkup (own.id?.getD 0)).function := by
    intro nodes
    rw [bodyPlans, ← map_label_sitesAll [] 0, map_map, map_map]
    rfl
  have hso : ∀ own ∈ source.settledBodies.1.flatMap labelsAll ++ source.bearing.map (·.2.label), own.id?.isSome := by
    intro own ho
    rcases mem_append.1 ho with ho | ho
    · exact source.settledBodies_spec.2.2.1 own ho
    · obtain ⟨s, hs, rfl⟩ := mem_map.1 ho
      exact isSome_of_mem_bearing hs
  rw [← hn _ hso, nodePlans, map_append, map_append, map_flatMap, map_flatMap, map_map, map_map]
  congr 1
  exact flatMap_congr fun nodes _ => hb nodes

theorem nodup_function_nodePlans : (source.nodePlans.map (·.anchor.function)).Nodup := by
  have hs : (source.settledBodies.1.flatMap labelsAll ++ source.bearing.map (·.2.label)).Sublist
      (source.settledBodies.1.flatMap labelsAll ++ labelsAll source.settledPage.1) := by
    rw [← map_label_sitesAll [] 0 source.settledPage.1]
    exact (List.Sublist.refl _).append (filter_sublist.map _)
  have hn := (ids_perm.nodup_iff.2 (nodup_given 0 source.settledPage.2)).sublist (hs.filterMap Placed.id?)
  rw [map_function_nodePlans]
  refine hn.map fun i j h => idText_injective ?_
  simpa [Anchor.function] using h

/-! ### Ids that are looked up -/

theorem label_map_toInstance (node : PlacedNode) : (node.map Placed.toInstance).label = node.label.toInstance := by
  cases node
  rfl

/-- No instance that needs a unit stands below an element without content. -/
def UnitsShown (source : PageSource) : Prop :=
  ∀ s ∈ sitesAll [] 0 source.page.nodes, s.2.label.needsUnit = true →
    ∀ r ∈ sitesAll [] 0 source.page.nodes,
      isVoid (source.table.resolveTag r.2.label.entries) = true → ¬ Above r.1 s.1

instance (source : PageSource) : Decidable source.UnitsShown :=
  inferInstanceAs (Decidable (∀ s ∈ sitesAll [] 0 source.page.nodes, s.2.label.needsUnit = true →
    ∀ r ∈ sitesAll [] 0 source.page.nodes,
      isVoid (source.table.resolveTag r.2.label.entries) = true → ¬ Above r.1 s.1))

theorem unitsShown_iff : source.UnitsShown ↔ ∀ s ∈ source.bearing, source.table.IsShown source.pageSites s := by
  have hi : sitesAll [] 0 source.page.nodes = source.pageSites.map fun s => (s.1, s.2.map Placed.toInstance) := by
    rw [← source.mapAll_toInstance_settledPage, sitesAll_mapAll]
    rfl
  simp only [UnitsShown, hi, forall_mem_map, label_map_toInstance]
  constructor
  · intro h s hs r hr
    obtain ⟨hm, hb⟩ := mem_filter.1 hs
    obtain ⟨hr, hv⟩ := mem_filter.1 hr
    exact h s hm hb r hr hv
  · intro h s hm hb r hr hv
    exact h s (mem_filter.2 ⟨hm, hb⟩) r (mem_filter.2 ⟨hr, hv⟩)

theorem countP_elements_of_mem_bearing (h : s ∈ source.bearing) :
    (labelsAll source.elements).countP (idText (s.2.label.id?.getD 0) ∈ ·.ids) = 1 ↔ source.table.IsShown source.pageSites s := by
  obtain ⟨hm, hb⟩ := mem_filter.1 h
  rw [source.countP_elements]
  by_cases hs : source.table.IsShown source.pageSites s
  · obtain ⟨id, hid, heq⟩ := exists_id_of_mem_shown (mem_filter.2 ⟨hm, decide_eq_true hs⟩)
    rw [heq, Option.getD_some, if_pos (mem_given.1 hid)]
    exact iff_of_true rfl hs
  · obtain ⟨id, hid, heq⟩ := exists_id_of_mem_hidden (mem_filter.2 ⟨hm, decide_eq_true hs⟩) hb
    have hl := (mem_given.1 hid).1
    have hle := source.settledBodies_spec.1
    rw [heq, Option.getD_some, if_neg (by omega)]
    exact iff_of_false Nat.zero_ne_one hs

theorem lookups_of_script (h : source.script = .ok script) : script.units.filterMap (·.anchor.markupId?) =
      source.bearing.map fun s => s.2.label.id?.getD 0 := by
  obtain ⟨called, hu, -⟩ := units_of_script h
  have ha := congrArg (filterMap Anchor.markupId?) (UnitContext.map_anchor hu)
  rw [filterMap_map, filterMap_map] at ha
  exact ha.trans filterMap_markupId_families

theorem lookups_found_iff (h : source.script = .ok script) : (∀ id ∈ script.units.filterMap (·.anchor.markupId?),
        (labelsAll source.elements).countP (idText id ∈ ·.ids) = 1) ↔ source.UnitsShown := by
  rw [lookups_of_script h, forall_mem_map, unitsShown_iff]
  exact forall₂_congr fun s hs => countP_elements_of_mem_bearing hs

/-! ### Ids and units -/

/-- The numbers of a source with the class bodies `bodies` and the page body `page`: the first `m`
are given out by the markup and `n` more by the script. -/
structure IsNumbered (source : PageSource) (bodies : List (List PlacedNode)) (page : List PlacedNode)
    (m n : Nat) : Prop where
  bodies_eq : bodies.map (mapAll Placed.toInstance) = source.table.classes.map ClassDef.children
  page_eq : mapAll Placed.toInstance page = source.page.nodes
  /-- An instance has an element unless an element without content stands above it. -/
  elements_eq : labelsAll source.elements =
    (source.table.shown (sitesAll [] 0 page)).map fun s => source.table.elementHead s.2.label
  shown_ids : (source.table.shown (sitesAll [] 0 page)).map (·.2.label.id?) = (List.range' 1 m).map some
  /-- An element has the one id of its instance. -/
  element_ids : (labelsAll source.elements).map ElementHead.ids =
    (List.range' 1 m).map fun id => [idText id]
  body_ids : ∀ own ∈ bodies.flatMap labelsAll, own.id?.isSome = true
  hidden_ids : ∀ s ∈ source.table.hidden (sitesAll [] 0 page),
    s.2.label.id?.isSome = s.2.label.needsUnit
  /-- What the markup did not number gets the numbers behind, the classes first. -/
  later_ids : (bodies.flatMap labelsAll).filterMap Placed.id? ++
    (source.table.hidden (sitesAll [] 0 page)).filterMap (·.2.label.id?) = List.range' (m + 1) n
  /-- Every number belongs to one instance. -/
  ids_perm : ((bodies.flatMap labelsAll ++ labelsAll page).filterMap Placed.id?).Perm
    (List.range' 1 (m + n))

/-- The units of a source whose instances have their numbers. -/
structure HasUnits (source : PageSource) (script : Script) (bodies : List (List PlacedNode))
    (page : List PlacedNode) : Prop where
  /-- One unit for each class, each instance inside a class and each instance of the page that needs one; each makes those that it is
  the nearest above of. -/
  units : ∃ called, Forall₂ (UnitContext.IsUnit ⟨source.table, source.text, called⟩)
    (unitFamilies source.table.classes bodies page) script.units
  roots_eq : script.roots = (topLabels (planOf .byMarkup) (bearingSites page)).map UnitPlan.handle
  /-- No class has the name of the unit of an instance exactly if all functions have different names. -/
  all_functions_nodup_iff : (script.units.map (·.anchor.function)).Nodup ↔
    ∀ u ∈ script.units, u.anchor.className? = none → u.anchor.function ∉ source.table.names
  functions_nodup : ((script.units.filter (·.anchor.className?.isNone)).map (·.anchor.function)).Nodup
  made_once : ((script.roots ++ script.units.flatMap ScriptUnit.children).map (·.anchor.function)).Perm
    ((script.units.filter (·.anchor.className?.isNone)).map (·.anchor.function))

theorem isNumbered (source : PageSource) : source.IsNumbered source.settledBodies.1 source.settledPage.1
    source.placed.2 (source.settledPage.2 - source.placed.2) := by
  obtain ⟨hle, hi, hs, hb⟩ := source.settledBodies_spec
  have he := source.isSettled_pageSites
  have hl' := hle.trans he.hidden_le
  refine ⟨hb, source.mapAll_toInstance_settledPage, source.labelsAll_elements, he.shown_ids,
    source.ids_elements, hs, he.hidden_isSome, ?_, ?_⟩
  · rw [hi]
    exact (congrArg _ he.hidden_ids).trans (given_append hle he.hidden_le)
  · rw [Nat.add_sub_cancel' hl']
    exact ids_perm

theorem functions_of_script (h : source.script = .ok script) :
    (script.units.filter (·.anchor.className?.isNone)).map (·.anchor.function) =
      source.nodePlans.map (·.anchor.function) := by
  obtain ⟨called, hu, -⟩ := units_of_script h
  have ha := congrArg (fun anchors => (anchors.filter (·.className?.isNone)).map Anchor.function)
    (UnitContext.map_anchor hu)
  rw [← filter_families]
  simpa [filter_map, Function.comp_def] using ha

theorem filterMap_className_units (h : source.script = .ok script) :
    script.units.filterMap (·.anchor.className?) = source.table.names := by
  obtain ⟨called, hu, -⟩ := units_of_script h
  obtain ⟨-, -, -, hc⟩ := classFamilies_spec source.table.classes source.settledBodies.1 length_settledBodies
  have hp : ((nearestFamilies (planOf .byMarkup) source.bearing).map fst).filterMap
      (·.anchor.className?) = [] := by
    rw [nearestFamilies, map_map, filterMap_map]
    exact filterMap_eq_nil_iff.2 fun s _ => rfl
  have ha := congrArg (filterMap Anchor.className?) (UnitContext.map_anchor hu)
  rw [filterMap_map, filterMap_map, families_eq, map_append, filterMap_append] at ha
  refine ha.trans ?_
  simp only [Function.comp_def] at hp hc ⊢
  rw [hp, append_nil, hc]
  rfl

theorem filterMap_className_eq (units : List ScriptUnit) : units.filterMap (·.anchor.className?) =
    (units.filter fun u => !u.anchor.className?.isNone).map (·.anchor.function) := by
  induction units with
  | nil => rfl
  | cons u units ih =>
    rw [filterMap_cons, filter_cons, ih]
    cases ha : u.anchor with
    | byClass name => simp [ha, Anchor.className?, Anchor.function]
    | byMarkup | byCreation => rfl

/-- The functions of a script are those of the instances and those of the classes, which have the
names of the classes. -/
theorem functions_perm (h : source.script = .ok script) : ((script.units.filter (·.anchor.className?.isNone)).map
    (·.anchor.function) ++ source.table.names).Perm (script.units.map (·.anchor.function)) := by
  rw [← filterMap_className_units h, filterMap_className_eq, ← map_append]
  exact (filter_append_perm _ script.units).map _

theorem hasUnits (h : source.script = .ok script) :
    source.HasUnits script source.settledBodies.1 source.settledPage.1 := by
  obtain ⟨called, hu, hr⟩ := units_of_script h
  have hn : ((script.units.filter (·.anchor.className?.isNone)).map (·.anchor.function)).Nodup := by
    rw [functions_of_script h]
    exact nodup_function_nodePlans
  refine ⟨⟨called, hu⟩, hr, ?_, hn, ?_⟩
  · have hc : source.table.names.Nodup := source.table.nodup
    rw [← (functions_perm h).nodup_iff, nodup_append', and_iff_right hn, and_iff_right hc,
      disjoint_left]
    simp only [forall_mem_map, mem_filter, Option.isNone_iff_eq_none, and_imp]
  · rw [functions_of_script h, hr, UnitContext.flatMap_children hu, ← map_append, map_map]
    exact made_perm_nodePlans.map _

end PageSource

/-! ### Compiled pages -/

/-- A page with named instances, one of them inside an element without content. -/
def namedInsideInput : List Char := "div as a\x7binput\x7bp as b\x7b\x7d\x7di as c\x7b\x7d\x7d".toList

theorem compilesWith_namedInsideInput : CompilesWith namedInsideInput fun source script =>
    ¬ source.UnitsShown ∧ (labelsAll source.elements).length = 3 ∧ script.units.length = 3 := by
  decide +kernel

/-- **Join of markup and script.** In a compiled page every id that the script looks up is on
exactly one element of the markup if and only if no instance that needs a unit stands below an
element without content. -/
theorem compileText_lookups_found_iff {text : List Char} {links : HeadLinks} {out : PageOutput}
    (h : compileText text links = .ok out) :
    ∃ source script, PageSource.readChecked text = .ok source ∧ source.script = .ok script ∧
      out.markup = source.markup links ∧ out.behavior = script.render ∧
      ((∀ id ∈ script.units.filterMap (·.anchor.markupId?),
          (labelsAll source.elements).countP (idText id ∈ ·.ids) = 1) ↔ source.UnitsShown) := by
  obtain ⟨source, script, hread, hscript, rfl⟩ := compileText_eq_ok_iff.1 h
  exact ⟨source, script, hread, hscript, rfl, rfl, PageSource.lookups_found_iff hscript⟩

/-- Inside an element without content the script looks up an id that no element has. -/
theorem compileText_lookups_inside_input : ∃ out source script,
    compileText namedInsideInput ⟨"page.js", "page.css"⟩ = .ok out ∧
      PageSource.readChecked namedInsideInput = .ok source ∧ source.script = .ok script ∧
      out.markup = source.markup ⟨"page.js", "page.css"⟩ ∧ out.behavior = script.render ∧
      ∃ id ∈ script.units.filterMap (·.anchor.markupId?),
        (labelsAll source.elements).countP (idText id ∈ ·.ids) ≠ 1 := by
  obtain ⟨source, script, out, hread, hscript, hout, ⟨hshown, -, -⟩, hmarkup, hbehavior, hiff⟩ :=
    compilesWith_namedInsideInput.exists_and ⟨"page.js", "page.css"⟩ fun _ => compileText_lookups_found_iff
  refine ⟨out, source, script, hout, hread, hscript, hmarkup, hbehavior, ?_⟩
  simpa only [not_forall, exists_prop] using mt hiff.1 hshown

/-- **Ids and units.** In a compiled page the elements carry the numbers from one on in the order of
the source and all other numbers are new; every instance that needs a unit and every instance inside
a class has one unit, no other has, and each of these is made once, by the nearest unit above it or,
with none above, by its class or at the beginning of the page. These have functions with different
names; a class may have the name of one of them, and only then do two functions of the script have
one name. -/
theorem compileText_ids_and_units {text : List Char} {links : HeadLinks} {out : PageOutput}
    (h : compileText text links = .ok out) :
    ∃ source script, PageSource.readChecked text = .ok source ∧ source.script = .ok script ∧
      out.markup = source.markup links ∧ out.behavior = script.render ∧
      ∃ bodies page m n, source.IsNumbered bodies page m n ∧ source.HasUnits script bodies page := by
  obtain ⟨source, script, hread, hscript, rfl⟩ := compileText_eq_ok_iff.1 h
  exact ⟨source, script, hread, hscript, rfl, rfl, _, _, _, _, source.isNumbered,
    PageSource.hasUnits hscript⟩

/-- Three elements, and three units of which one is below the second element. -/
theorem compileText_units_inside_input : ∃ out source script,
    compileText namedInsideInput ⟨"page.js", "page.css"⟩ = .ok out ∧
      PageSource.readChecked namedInsideInput = .ok source ∧ source.script = .ok script ∧
      out.markup = source.markup ⟨"page.js", "page.css"⟩ ∧ out.behavior = script.render ∧
      (labelsAll source.elements).length = 3 ∧ script.units.length = 3 ∧
      ∃ bodies page m n, source.IsNumbered bodies page m n ∧ source.HasUnits script bodies page := by
  obtain ⟨source, script, out, hread, hscript, hout, ⟨-, helements, hunits⟩, hmarkup, hbehavior, hjoined⟩ :=
    compilesWith_namedInsideInput.exists_and ⟨"page.js", "page.css"⟩ fun _ => compileText_ids_and_units
  exact ⟨out, source, script, hout, hread, hscript, hmarkup, hbehavior, helements, hunits, hjoined⟩

/-- A page with a class that has the name of the unit of an instance. -/
def classNamedLikeUnit : List Char := "class __unit_t1 extends div \x7b \x7d  p as x \x7b \x7d".toList

/-- The names of these units are not reserved: a class can have one, and then the script declares
the function twice. -/
theorem compileText_functions_collide : ∃ source script out,
    PageSource.readChecked classNamedLikeUnit = .ok source ∧ source.script = .ok script ∧
      compileText classNamedLikeUnit ⟨"page.js", "page.css"⟩ = .ok out ∧ out.behavior = script.render ∧
      script.units.map (·.anchor.function) = ["__unit_t1", "__unit_t1"] := by
  have heval : CompilesWith classNamedLikeUnit fun _ script =>
      script.units.map (·.anchor.function) = ["__unit_t1", "__unit_t1"] := by
    decide +kernel
  obtain ⟨source, script, hread, hscript, hout, hfunctions⟩ := heval.exists_output ⟨"page.js", "page.css"⟩
  exact ⟨source, script, _, hread, hscript, hout, rfl, hfunctions⟩

end Pagewright
