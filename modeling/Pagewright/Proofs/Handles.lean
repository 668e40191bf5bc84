import Pagewright.Proofs.Families

/-!
# Handles

Instances that have a name are kept under it: those that the page begins with on the window, the
others in the capsule of the unit that makes them, next to its protected members. The checks compare
the names directly inside an instance, and those at the top of the page. On the page, names that
come up from inside instances without a unit (`raisedNames`) were never compared with those they
meet. So handles differ exactly if these names do (`readChecked_handles_differ_iff`), and there are
pages on which they do not (`readChecked_handles_collide`). -/

namespace Pagewright

open List Pagewright.Tree

variable {children nodes : List Node} {scope x : String} {u : ScriptUnit}

/-- The names under which the script keeps instances on the window. -/
def Script.windowNames (s : Script) : List String := s.roots.filterMap ChildHandle.name?

/-- The names under which a unit keeps the instances it makes in its capsule. -/
def ScriptUnit.capsuleNames (u : ScriptUnit) : List String := u.children.filterMap ChildHandle.name?

/-- The names of the protected members that a unit declares in its capsule. -/
def ScriptUnit.protectedNames (u : ScriptUnit) : List String :=
  u.protectedVariables.map Prod.fst ++ u.protectedMethods.map ScriptFunction.name

/-- The names that come up to some instances differ, from each other, from those of the instances
and from those taken. -/
def RaisedApart (nodes : List Node) (taken : List String) : Prop :=
  (raisedNames nodes).Nodup ∧ ∀ x ∈ raisedNames nodes, x ∉ taken ∧ x ∉ instanceNames nodes

instance (nodes : List Node) (taken : List String) : Decidable (RaisedApart nodes taken) :=
  inferInstanceAs (Decidable (_ ∧ ∀ x ∈ raisedNames nodes, _))

theorem nodup_handleNamesAll_iff {taken : List String} (h : (taken ++ instanceNames nodes).Nodup) :
    (handleNamesAll nodes ++ taken).Nodup ↔ RaisedApart nodes taken := by
  have hp : (handleNamesAll nodes ++ taken).Perm (raisedNames nodes ++ (taken ++ instanceNames nodes)) := by
    refine (((handleNamesAll_perm nodes).trans perm_append_comm).append_right taken).trans ?_
    rw [append_assoc]
    exact perm_append_comm.append_left _
  rw [hp.nodup_iff, nodup_append]
  constructor
  · rintro ⟨hr, -, hd⟩
    refine ⟨hr, fun x hx => ⟨fun hm => ?_, fun hm => ?_⟩⟩
    · exact hd x hx x (mem_append_left _ hm) rfl
    · exact hd x hx x (mem_append_right _ hm) rfl
  · rintro ⟨hr, hd⟩
    refine ⟨hr, h, ?_⟩
    rintro x hx _ hm rfl
    exact (mem_append.1 hm).elim (hd x hx).1 (hd x hx).2

theorem nodup_protected_of_checkNames {members : Members} {style : PropertyMap}
    (h : checkNames scope members style children = .ok ()) :
    (members.protectedTier.names ++ instanceNames children).Nodup := by
  refine (nodup_of_checkNames h).sublist (List.Sublist.append ?_ (List.Sublist.refl _))
  simp only [append_assoc]
  exact (sublist_append_left _ _).trans (sublist_append_right _ _)

namespace UnitContext

variable {ctx : UnitContext} {family : UnitPlan × List UnitPlan} {u : ScriptUnit}

theorem IsUnit.capsuleNames_eq (h : ctx.IsUnit family u) : u.capsuleNames = family.2.filterMap UnitPlan.name? := by
  rw [ScriptUnit.capsuleNames, h.children_eq, filterMap_map]
  rfl

theorem IsUnit.protectedNames_eq (h : ctx.IsUnit family u) : u.protectedNames = family.1.members.protectedTier.names := by
  obtain ⟨p, hb⟩ := h.builds
  rw [ScriptUnit.protectedNames, BodyContext.map_fst_of_isValue h.keeps.protectedVariables,
    hb.protectedMethods_eq, BodyContext.map_name_of_isFunction hb.prepares.protectedMethods,
    Tier.names]

end UnitContext

/-! ### What is kept -/

theorem Script.isPart_bootstrap {s : Script} (h : x ∈ s.windowNames) : IsPart ("window." ++ x ++ " = new ") s.bootstrap := by
  obtain ⟨root, hr, hn⟩ := mem_filterMap.1 h
  have hl := isPart_line 1 ("window." ++ x ++ " = new ") (root.anchor.function ++ "();")
  refine ((((isPart_join_map hr ?_).within _ _).append_right _).append_right _).append_right _
  simpa only [hn, String.append_assoc] using hl

theorem ScriptUnit.isPart_capsule (u : ScriptUnit) (h : x ∈ u.capsuleNames) :
    IsPart (capsuleText ++ "." ++ x ++ " = new ") u.render := by
  obtain ⟨child, hc, hn⟩ := mem_filterMap.1 h
  have hp : child.place = capsuleText ++ "." ++ x := by rw [ChildHandle.place, hn]
  exact isPart_render (.inr (.inr (.inr (hp ▸ isPart_childText hc))))

/-- A unit of the page keeps in its capsule what an instance of the source meets; names there differ
exactly if those that come up to the instance do. -/
structure ScriptUnit.KeepsMet (u : ScriptUnit) (node : Node) : Prop where
  capsuleNames_eq : u.capsuleNames = handleNamesAll node.children
  protectedNames_eq : u.protectedNames = node.label.members.protectedTier.names
  nodup_iff : (u.capsuleNames ++ u.protectedNames).Nodup ↔
    RaisedApart node.children node.label.members.protectedTier.names

/-- What a unit keeps in its capsule: in a class different names only, on the page what the instance
with its number meets. -/
def ScriptUnit.KeepsHandles (u : ScriptUnit) (source : PageSource) : Prop :=
  match u.anchor with
  | .byClass _ | .byCreation _ => (u.capsuleNames ++ u.protectedNames).Nodup
  | .byMarkup id => ∃ s ∈ source.bearing, s.2.label.id? = some id ∧ u.KeepsMet (s.2.map Placed.toInstance)

theorem ScriptUnit.keepsMet {node : Node} (hc : HasCheckedNames node) (ha : u.capsuleNames = handleNamesAll node.children)
    (hp : u.protectedNames = node.label.members.protectedTier.names) : u.KeepsMet node := by
  refine ⟨ha, hp, ?_⟩
  rw [ha, hp]
  exact nodup_handleNamesAll_iff (nodup_protected_of_checkNames hc)

theorem PageSource.keepsHandles {text : List Char} {source : PageSource} {ctx : UnitContext}
    {plan : UnitPlan} {plans : List UnitPlan} (he : readChecked text = .ok source)
    (hf : source.IsFamily plan plans) (hu : ctx.IsUnit (plan, plans) u) : u.KeepsHandles source := by
  have hca : u.capsuleNames = plans.filterMap UnitPlan.name? := hu.capsuleNames_eq
  have hp : u.protectedNames = plan.members.protectedTier.names := hu.protectedNames_eq
  have ha : u.anchor = plan.anchor := hu.anchor_eq
  obtain ⟨hi, hpa⟩ := passes he
  unfold ScriptUnit.KeepsHandles
  rw [ha]
  cases hf with
  | @ofClass c _ hc hn =>
    have ho := nodup_protected_of_checkNames (checked_classes he c hc).names
    rw [hca, hp, hn]
    exact perm_append_comm.nodup_iff.1 ho
  | @created c s id _ hc hs hn =>
    have ho := nodup_protected_of_checkNames (hi c hc s hs).names
    rw [hca, hp, hn]
    exact perm_append_comm.nodup_iff.1 ho
  | @placed s _ hs hn =>
    obtain ⟨r, hr, hid, hl, hm⟩ := (IsFamily.placed hs hn).exists_placed rfl
    rw [hl, planOf_eq] at hp
    have hh := (hpa _ (mem_sitesAll_of_mem_bearing hr)).names
    exact ⟨r, hr, hid, ScriptUnit.keepsMet hh (hca.trans hm) hp⟩

/-- **Handles.** In a source that passed the checks the instances that the page begins with are put
under their names on the window, which differ exactly if those that come up to the top of the page
differ from each other and from those at the top. A unit puts the instances it makes under their
names into its capsule. In a class these names and those of the protected members differ; on the
page they do exactly if those that come up to the instance of the unit differ. -/
theorem readChecked_handles_differ_iff {text : List Char} {source : PageSource} {script : Script}
    (hread : PageSource.readChecked text = .ok source) (hscript : source.script = .ok script) :
    script.windowNames = handleNamesAll source.page.nodes ∧
      (∀ x ∈ script.windowNames, IsPart ("window." ++ x ++ " = new ") script.bootstrap) ∧
      (script.windowNames.Nodup ↔ RaisedApart source.page.nodes []) ∧
      ∀ u ∈ script.units, (∀ x ∈ u.capsuleNames, IsPart (capsuleText ++ "." ++ x ++ " = new ") u.render) ∧
        u.KeepsHandles source := by
  obtain ⟨-, -, hroots⟩ := PageSource.units_of_script hscript
  have hwindow : script.windowNames = handleNamesAll source.page.nodes := by
    rw [Script.windowNames, hroots, filterMap_map, ← PageSource.names_topLabels]
    rfl
  refine ⟨hwindow, fun x => Script.isPart_bootstrap, ?_, fun u hu => ⟨fun x => u.isPart_capsule, ?_⟩⟩
  · obtain ⟨-, -, hcheck⟩ := PageSource.exists_check hread
    have hiff := @nodup_handleNamesAll_iff _ [] (ClassTable.nodup_of_checkRoots hcheck).1
    rwa [hwindow, ← append_nil (handleNamesAll source.page.nodes)]
  · obtain ⟨called, hfamilies⟩ := PageSource.exists_family hscript
    obtain ⟨plan, plans, hfamily, hunit⟩ := hfamilies u hu
    exact PageSource.keepsHandles hread hfamily hunit

/-- A page on which a name comes up from two levels below. -/
def raisedThroughTwo : List Char :=
  "div as a\x7bp\x7bp\x7bi as b\x7b\x7d\x7d\x7di as c\x7b\x7dprotected\x7bvar d;\x7d\x7d".toList

/-- The name meets another one and a protected member, and all differ. -/
theorem readChecked_handles_differ_raisedThroughTwo :
    ∃ source script u, PageSource.readChecked raisedThroughTwo = .ok source ∧ source.script = .ok script ∧
      script.windowNames.Nodup ∧ u ∈ script.units ∧ u.anchor = .byMarkup 1 ∧ u.capsuleNames = ["b", "c"] ∧
      u.protectedNames = ["d"] ∧ (u.capsuleNames ++ u.protectedNames).Nodup := by
  have heval : CompilesWith raisedThroughTwo fun source script => RaisedApart source.page.nodes [] ∧
        (∀ s ∈ source.bearing, RaisedApart (s.2.map Placed.toInstance).children
          (s.2.map Placed.toInstance).label.members.protectedTier.names) ∧
        ∃ u ∈ script.units, u.anchor = .byMarkup 1 ∧ u.capsuleNames = ["b", "c"] ∧
          u.protectedNames = ["d"] := by
    decide +kernel
  obtain ⟨source, hread, script, hscript, hroots, hraised, u, hu, hanchor, hcapsule, hprotected⟩ := heval
  obtain ⟨-, -, hwindow, hunits⟩ := readChecked_handles_differ_iff hread hscript
  have hkeeps := (hunits u hu).2
  rw [ScriptUnit.KeepsHandles, hanchor] at hkeeps
  obtain ⟨s, hs, -, hmet⟩ := hkeeps
  exact ⟨source, script, u, hread, hscript, hwindow.2 hroots, hu, hanchor, hcapsule, hprotected,
    hmet.nodup_iff.2 (hraised s hs)⟩

/-- A page on which a name comes up to the top, where another instance has it. -/
def sameNameBelow : List Char := "div\x7bp as a\x7b\x7d\x7dp as a\x7b\x7d".toList

/-- A page on which two names come up to an instance, one that a child has and one of a protected
member. -/
def sameNamesInside : List Char :=
  "div as r\x7bp\x7bi as a\x7b\x7di as b\x7b\x7d\x7di as a\x7b\x7dprotected\x7bvar b;\x7d\x7d".toList

/-- Both pages pass the checks. The script keeps two instances on the window under one name, or in
one capsule under one name and that of a protected member. -/
theorem readChecked_handles_collide :
    (∃ source script, PageSource.readChecked sameNameBelow = .ok source ∧ source.script = .ok script ∧
      script.windowNames = ["a", "a"]) ∧
    ∃ source script u, PageSource.readChecked sameNamesInside = .ok source ∧ source.script = .ok script ∧
      u ∈ script.units ∧ u.capsuleNames = ["a", "b", "a"] ∧ u.protectedNames = ["b"] := by
  have hwindow : CompilesWith sameNameBelow fun _ script => script.windowNames = ["a", "a"] := by
    decide +kernel
  obtain ⟨source, hread, script, hscript, hnames⟩ := hwindow
  exact ⟨⟨source, script, hread, hscript, hnames⟩, CompilesWith.exists_unit (by decide +kernel)⟩

end Pagewright
