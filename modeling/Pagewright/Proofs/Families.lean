import Pagewright.Proofs.Runs

/-!
# Instances and the units they make

A unit belongs to a class, to an instance inside a class or to an instance of the page, and makes
the units of instances inside (`PageSource.IsFamily`). In a class these are all directly inside. On
the page an instance without a unit gives way to those inside it, so that names come up from any
depth (`handleNames`). All instances were checked, but each for itself. -/

namespace Pagewright

open List Pagewright.Tree
open UnitPlan (name?)

variable {nodes : List Node} {name part middle text : String} {family : UnitPlan × List UnitPlan} {plan : UnitPlan}
  {plans : List UnitPlan} {id k : Nat}

/-! ### Names at the top -/

namespace ClassTable

variable {t : ClassTable} {text : List Char}

theorem nodup_of_checkRoots {handles : List String} (h : t.checkRoots text handles nodes = .ok ()) :
    (instanceNames nodes).Nodup ∧ ∀ name ∈ instanceNames nodes, name ∉ handles := by
  induction nodes generalizing handles with
  | nil => exact ⟨nodup_nil, nofun⟩
  | cons node nodes ih =>
    rw [checkRoots] at h
    rw [instanceNames, filterMap_cons]
    split at h
    · next name hn =>
      split at h
      · cases h
      · next hne =>
        obtain ⟨⟨⟩, -, hno⟩ := bind_eq_ok.1 h
        obtain ⟨hd, hf⟩ := ih hno
        simp only [hn, nodup_cons, forall_mem_cons]
        refine ⟨⟨fun hm => hf name hm mem_cons_self, hd⟩, by simpa using hne, ?_⟩
        intro other ho hm
        exact hf other ho (mem_cons_of_mem name hm)
    · next hn =>
      obtain ⟨⟨⟩, -, hno⟩ := bind_eq_ok.1 h
      simp only [hn]
      exact ih hno

end ClassTable

/-! ### Names that a unit meets -/

mutual
/-- The names of the nearest instances with a unit: the instance itself if it has one, else those
inside it. -/
def handleNames : Node → List String
  | .node own children => if own.needsUnit then own.name?.toList else handleNamesAll children
/-- The names of the nearest instances with a unit, in order. -/
def handleNamesAll : List Node → List String
  | [] => []
  | first :: rest => handleNames first ++ handleNamesAll rest
end

/-- The names that come up from inside the instances without a unit. -/
def raisedNames (nodes : List Node) : List String :=
  nodes.flatMap fun node => if node.label.needsUnit then [] else handleNamesAll node.children

theorem needsUnit_of_name {own : Instance} (h : own.name? = some name) : own.needsUnit := by
  simp [Instance.needsUnit, h]

theorem handleNamesAll_perm (nodes : List Node) : (handleNamesAll nodes).Perm (instanceNames nodes ++ raisedNames nodes) := by
  induction nodes with
  | nil => exact .refl _
  | cons node nodes ih =>
    obtain ⟨own, children⟩ := node
    have hi : instanceNames (.node own children :: nodes) = own.name?.toList ++ instanceNames nodes := by
      cases hn : own.name? <;> simp [label, hn, instanceNames]
    rw [handleNamesAll, handleNames, hi, raisedNames, flatMap_cons]
    by_cases hne : own.needsUnit
    · simp only [label, hne, if_true, nil_append, append_assoc]
      exact ih.append_left _
    · have hn : own.name? = none := by
        cases hn : own.name? with
        | none => rfl
        | some name => exact absurd (needsUnit_of_name hn) hne
      simp only [label, Tree.children, hne, hn, Bool.false_eq_true, if_false, Option.toList_none, nil_append]
      refine (ih.append_left _).trans ?_
      exact perm_append_comm_assoc _ _ _

/-- The names met are those of instances. -/
theorem exists_label_of_mem_handleNamesAll (h : name ∈ handleNamesAll nodes) :
    ∃ own ∈ labelsAll nodes, own.name? = some name := by
  induction nodes using forest_induction with
  | nil => cases h
  | cons own children rest ihc ihr =>
    simp only [mem_labelsAll_cons]
    rw [handleNamesAll, handleNames] at h
    rcases mem_append.1 h with h | h
    · split_ifs at h
      · exact ⟨own, .inl rfl, Option.mem_toList.1 h⟩
      · obtain ⟨inner, hi, hn⟩ := ihc h
        exact ⟨inner, .inr (.inl hi), hn⟩
    · obtain ⟨other, ho, hn⟩ := ihr h
      exact ⟨other, .inr (.inr ho), hn⟩

theorem exists_label_of_mem_instanceNames (h : name ∈ instanceNames nodes) : ∃ own ∈ labelsAll nodes, own.name? = some name :=
  exists_label_of_mem_handleNamesAll ((handleNamesAll_perm nodes).mem_iff.2 (mem_append_left _ h))

theorem Tree.labels_subset_of_mem_sitesAll {α : Type} {a : Address} {ts : List (Tree α)}
    {s : Address × Tree α} (h : s ∈ sitesAll a k ts) : s.2.labels ⊆ labelsAll ts := by
  induction ts using forest_induction generalizing a k with
  | nil => cases h
  | cons own children rest ihc ihr =>
    rw [sitesAll, sites, cons_append, mem_cons, mem_append] at h
    rcases h with rfl | h | h
    · exact subset_append_left _ _
    · exact fun x hx => mem_append_left _ (mem_cons_of_mem _ (ihc h hx))
    · exact fun x hx => mem_append_right _ (ihr h hx)

/-! ### Families -/

namespace Tree

variable {α β : Type}

theorem exists_of_mem_familiesAll_gatherAll (keep : Tree α → Bool) (f : Tree α → β) (a : Address) (k : Nat)
    (ts : List (Tree α)) {family : β × List β} (h : family ∈ familiesAll (gatherAll keep f ts)) :
    ∃ s ∈ sitesAll a k ts, keep s.2 ∧ family.1 = f s.2 ∧ family.2 = (gatherAll keep f s.2.children).map label := by
  induction ts using forest_induction generalizing a k with
  | nil => cases h
  | cons own children rest ihc ihr =>
    have hi (h : family ∈ familiesAll (gatherAll keep f children)) :
        ∃ s ∈ sitesAll a k (node own children :: rest), keep s.2 ∧ family.1 = f s.2 ∧
          family.2 = (gatherAll keep f s.2.children).map label := by
      obtain ⟨s, hs, hf⟩ := ihc (a ++ [k]) 0 h
      exact ⟨s, mem_append_left _ (mem_cons_of_mem _ hs), hf⟩
    rw [gatherAll, familiesAll_append] at h
    rcases mem_append.1 h with h | h
    · rw [gather] at h
      split at h
      · next hk =>
        simp only [familiesAll, families, append_nil, mem_cons] at h
        rcases h with rfl | h
        · exact ⟨(a ++ [k], node own children), mem_append_left _ mem_cons_self, hk, rfl, rfl⟩
        · exact hi h
      · exact hi h
    · obtain ⟨s, hs, hf⟩ := ihr a (k + 1) h
      exact ⟨s, mem_append_right _ hs, hf⟩

end Tree

theorem names_gatherAll (anchor : Nat → Anchor) (nodes : List PlacedNode) :
    ((gatherAll bearsUnit (planOf anchor) nodes).map label).filterMap name? =
      handleNamesAll (mapAll Placed.toInstance nodes) := by
  induction nodes using forest_induction with
  | nil => rfl
  | cons own children rest ihc ihr =>
    rw [gatherAll, gather, map_append, filterMap_append, mapAll, Tree.map, handleNamesAll, handleNames]
    congr 1
    by_cases hn : own.needsUnit
    · have hb : bearsUnit (.node own children) := hn
      rw [if_pos hb, if_pos hn]
      cases ha : own.name? <;> simp [planOf_node, UnitPlan.ofInstance, ha]
    · have hb : ¬ bearsUnit (.node own children) := hn
      rw [if_neg hb, if_neg hn]
      exact ihc

theorem names_gatherAll_always (anchor : Nat → Anchor) (nodes : List PlacedNode) :
    ((gatherAll (fun _ => true) (planOf anchor) nodes).map label).filterMap name? =
      instanceNames (mapAll Placed.toInstance nodes) := by
  have ha : (gatherAll (fun _ => true) (planOf anchor) nodes).map label = nodes.map (planOf anchor) := by
    induction nodes with
    | nil => rfl
    | cons node nodes ih =>
      obtain ⟨own, children⟩ := node
      rw [gatherAll, map_append, ih]
      rfl
  rw [ha, instanceNames_mapAll, filterMap_map]
  rfl

/-- The unit of a plan belongs to a class, an instance inside a class or an instance of the page,
and meets the names of those it makes. -/
inductive PageSource.IsFamily (source : PageSource) : UnitPlan → List UnitPlan → Prop
  | ofClass {c : ClassDef} {plans : List UnitPlan} (hc : c ∈ source.table.classes)
      (hnames : plans.filterMap name? = instanceNames c.children) :
      IsFamily source (.ofClass c) plans
  | created {c : ClassDef} {s : Address × Node} {id : Nat} {plans : List UnitPlan}
      (hc : c ∈ source.table.classes) (hs : s ∈ sitesAll [] 0 c.children)
      (hnames : plans.filterMap name? = instanceNames s.2.children) :
      IsFamily source (.ofInstance s.2.label (instanceNames s.2.children) (.byCreation id)) plans
  | placed {s : Address × PlacedNode} {plans : List UnitPlan} (hs : s ∈ source.bearing)
      (hnames : plans.filterMap name? = handleNamesAll (s.2.map Placed.toInstance).children) :
      IsFamily source (planOf .byMarkup s.2) plans

namespace PageSource

variable {source : PageSource} {script : Script}

theorem isFamily_of_mem_classFamilies {c : ClassDef} {nodes : List PlacedNode}
    (hc : c ∈ source.table.classes) (hn : mapAll Placed.toInstance nodes = c.children) (h : family ∈ classFamilies c nodes) :
    source.IsFamily family.1 family.2 := by
  have hp : classFamilies c nodes = (classPlan c nodes).families := by
    have ho := familiesAll_classPlan [c] [nodes]
    simpa [familiesAll] using ho.symm
  rw [hp] at h
  rcases mem_cons.1 h with rfl | h
  · refine .ofClass hc ?_
    rw [names_gatherAll_always, hn]
  · obtain ⟨⟨a, node⟩, hs, -, hp, hl⟩ := exists_of_mem_familiesAll_gatherAll _ _ [] 0 nodes h
    have hi : (a, node.map Placed.toInstance) ∈ sitesAll [] 0 c.children := by
      rw [← hn, sitesAll_mapAll]
      exact mem_map_of_mem hs
    rw [hp, hl, planOf_eq]
    refine .created hc hi ?_
    rw [names_gatherAll_always, children_map_toInstance]

theorem isFamily_of_mem_families (h : family ∈ source.families) : source.IsFamily family.1 family.2 := by
  rw [families_eq] at h
  rcases mem_append.1 h with h | h
  · rw [← map_uncurry_zip_eq_zipWith] at h
    obtain ⟨fs, hf, h⟩ := mem_flatten.1 h
    obtain ⟨⟨c, nodes⟩, hp, rfl⟩ := mem_map.1 hf
    exact isFamily_of_mem_classFamilies (of_mem_zip hp).1 (mapAll_toInstance_of_mem_zip hp) h
  · rw [bearing, bearingSites, ← (gatherAll_sites bearsUnit (planOf .byMarkup) [] 0 source.settledPage.1).2] at h
    obtain ⟨s, hs, hb, hl, ha⟩ := exists_of_mem_familiesAll_gatherAll _ _ [] 0 _ h
    rw [hl, ha]
    refine .placed (mem_filter.2 ⟨hs, hb⟩) ?_
    rw [names_gatherAll, children_map_toInstance]

theorem IsFamily.exists_placed (h : source.IsFamily plan plans) (hid : plan.anchor = .byMarkup id) :
    ∃ s ∈ source.bearing, s.2.label.id? = some id ∧ plan = planOf .byMarkup s.2 ∧
      plans.filterMap name? = handleNamesAll (s.2.map Placed.toInstance).children := by
  cases h with
  | ofClass => cases hid
  | created => cases hid
  | @placed s _ hs hn =>
    obtain ⟨i, hi⟩ := Option.isSome_iff_exists.1 (isSome_of_mem_bearing hs)
    have ha : s.2.label.id?.getD 0 = id := Anchor.byMarkup.inj hid
    rw [hi] at ha
    exact ⟨s, hs, ha ▸ hi, rfl, hn⟩

/-- The units of a script are built in one context, each from its own plan and those of the units it
makes. -/
theorem exists_family (h : source.script = .ok script) : ∃ called, ∀ u ∈ script.units, ∃ plan plans, source.IsFamily plan plans ∧
      UnitContext.IsUnit ⟨source.table, source.text, called⟩ (plan, plans) u := by
  obtain ⟨called, hn, -⟩ := units_of_script h
  refine ⟨called, fun u hu => ?_⟩
  obtain ⟨⟨plan, plans⟩, hm, hi⟩ := exists_of_mem_left hn.flip hu
  exact ⟨plan, plans, isFamily_of_mem_families hm, hi⟩

theorem names_topLabels : (topLabels (planOf .byMarkup) source.bearing).filterMap name? = handleNamesAll source.page.nodes := by
  rw [bearing, bearingSites, ← (gatherAll_sites bearsUnit (planOf .byMarkup) [] 0 source.settledPage.1).1,
    names_gatherAll, source.mapAll_toInstance_settledPage]

theorem IsFamily.exists_label (h : source.IsFamily plan plans) (hn : name ∈ plans.filterMap name?) :
    ∃ own, own.name? = some name ∧ ((∃ c ∈ source.table.classes, own ∈ labelsAll c.children) ∨ own ∈ labelsAll source.page.nodes) := by
  have hi {node : Node} {own : Instance} (ho : own ∈ labelsAll node.children) : own ∈ node.labels := by
    cases node
    exact mem_cons_of_mem _ ho
  cases h with
  | @ofClass c _ hc ha =>
    obtain ⟨own, ho, heq⟩ := exists_label_of_mem_instanceNames (ha ▸ hn)
    exact ⟨own, heq, .inl ⟨c, hc, ho⟩⟩
  | @created c s _ _ hc hs ha =>
    obtain ⟨own, ho, heq⟩ := exists_label_of_mem_instanceNames (ha ▸ hn)
    exact ⟨own, heq, .inl ⟨c, hc, labels_subset_of_mem_sitesAll hs (hi ho)⟩⟩
  | @placed s _ hs ha =>
    obtain ⟨own, ho, heq⟩ := exists_label_of_mem_handleNamesAll (ha ▸ hn)
    exact ⟨own, heq, .inr (labels_subset_of_mem_sitesAll (mem_sitesAll_of_mem_bearing hs) (hi ho))⟩

theorem IsFamily.exists_checkNames {text : List Char} (hr : readChecked text = .ok source) (h : source.IsFamily plan plans) :
    ∃ scope children, checkNames scope plan.members plan.style children = .ok () := by
  obtain ⟨hi, hp⟩ := passes hr
  cases h with
  | @ofClass c _ hc _ => exact ⟨c.name, c.children, (checked_classes hr c hc).names⟩
  | @created c s _ _ hc hs _ => exact ⟨s.2.label.scope, s.2.children, (hi c hc s hs).names⟩
  | @placed s _ hs _ =>
    have hh := (hp _ (mem_sitesAll_of_mem_bearing hs)).names
    rw [planOf_eq]
    exact ⟨(s.2.map Placed.toInstance).label.scope, (s.2.map Placed.toInstance).children, hh⟩

end PageSource

theorem BodyContext.map_name_of_isFunction {ctx : BodyContext} {ms : List Method} {fs : List ScriptFunction}
    (h : Forall₂ ctx.IsFunction ms fs) : fs.map ScriptFunction.name = ms.map Method.name := by
  refine map_eq_of_forall₂ (fun m f hf => ?_) h
  obtain ⟨body, -, rfl⟩ := hf
  rfl

/-! ### Parts of the text of a unit -/

theorem IsPart.trans (h : IsPart part middle) (h' : IsPart middle text) : IsPart part text := by
  obtain ⟨pre, post, rfl⟩ := h'
  exact h.within pre post

theorem isPart_join_map {α : Type} {f : α → String} {xs : List α} {x : α} (hx : x ∈ xs)
    (h : IsPart part (f x)) : IsPart part (String.join (xs.map f)) :=
  h.trans (isPart_join_of_mem (mem_map_of_mem hx))

/-- What a line begins with stands in it. -/
theorem isPart_line (level : Nat) (front rest : String) : IsPart front (line level (front ++ rest)) :=
  ⟨indent level, rest ++ "\n", by simp only [line, String.append_assoc]⟩

/-- Where a unit keeps an instance that it makes. -/
def ChildHandle.place (child : ChildHandle) : String :=
  match child.name? with
  | some name => capsuleText ++ "." ++ name
  | none => "const " ++ child.localName

namespace ScriptUnit

variable {u : ScriptUnit}

theorem isPart_render_of_tail (h : IsPart part u.tail) : IsPart part u.render := by
  have hp := h.within (u.head ++ u.chainText ++ u.creationText ++ u.aliasText ++ u.memberText ++ u.publishedText) ""
  rw [render_eq]
  simpa only [String.append_empty] using hp

/-- What stands in a part of a unit that declares or keeps something stands in the unit. -/
theorem isPart_render (h : IsPart part u.head ∨ IsPart part u.aliasText ∨
    IsPart part u.memberText ∨ IsPart part u.childText) : IsPart part u.render := by
  rcases h with h | h | h | h
  · have hp := h.within "" (u.chainText ++ u.creationText ++ u.aliasText ++ u.memberText ++ u.publishedText ++ u.tail)
    rw [render_eq]
    simpa only [String.empty_append, String.append_assoc] using hp
  · have hp := h.within (u.head ++ u.chainText ++ u.creationText) (u.memberText ++ u.publishedText ++ u.tail)
    rw [render_eq]
    simpa only [String.append_assoc] using hp
  · have hp := h.within (u.head ++ u.chainText ++ u.creationText ++ u.aliasText) (u.publishedText ++ u.tail)
    rw [render_eq]
    simpa only [String.append_assoc] using hp
  · have hp := h.within (u.surfaceText ++ u.accessorText ++ u.handlerText ++
      line 1 (selfName ++ "." ++ childrenName ++ " = " ++ childApiName ++ "(" ++ selfName ++ ");"))
      (u.defaultText ++ u.ownStyleText ++ u.lastWorkText ++ "\x7d\n")
    refine isPart_render_of_tail ?_
    simpa only [tail, String.append_assoc] using hp

theorem isPart_childText {child : ChildHandle} (h : child ∈ u.children) : IsPart (child.place ++ " = new ") u.childText := by
  have hl := isPart_line 1 (child.place ++ " = new ") (child.anchor.function ++ "();")
  refine isPart_join_map h ?_
  unfold ChildHandle.place at hl ⊢
  cases hn : child.name?
  all_goals
    simp only [hn] at hl ⊢
    have hp := fun rest => hl.within "" rest
    simp only [String.empty_append, String.append_assoc] at hp ⊢
    exact hp _

end ScriptUnit

end Pagewright
