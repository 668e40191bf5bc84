import Pagewright.Proofs.LocalNames
import Pagewright.Proofs.PlanTexts
import Pagewright.Proofs.Segments

/-!
# Properties that a unit installs

A unit keeps its element, capsule, children, last work and operations under names of its own, the
slots (`isSlot`), which are all reserved. Names of the source come onto the instance and into its
capsule in many ways (`ScriptUnit.installed_eq`). Those of members, accessors and instances are
compared with the reserved ones, but the properties for attributes and style, and those that are
assigned to, may have any name. So the slots that a unit overwrites are exactly those among these
(`compileText_slots_installed_iff`), and there may be some (`compileText_slots_overwritten`). -/

namespace Pagewright

open List Tree

variable {text : List Char} {src : PageSource} {assigned es : List (String × String)} {holder name scope : String}

/-! ### Names of instances -/

theorem PageSource.IsFamily.not_isReserved (hr : readChecked text = .ok src) {plan : UnitPlan} {plans : List UnitPlan}
    (h : src.IsFamily plan plans) : ∀ name ∈ plans.filterMap UnitPlan.name?, isReserved name = false := by
  obtain ⟨hi, hp⟩ := passes hr
  intro name hn
  obtain ⟨own, heq, ⟨c, hc, ho⟩ | ho⟩ := h.exists_label hn
  · rw [← map_label_sitesAll [] 0] at ho
    obtain ⟨s, hs, rfl⟩ := mem_map.1 ho
    exact (hi c hc s hs).notReserved name heq
  · rw [← map_label_sitesAll [] 0] at ho
    obtain ⟨s, hs, rfl⟩ := mem_map.1 ho
    exact (hp s hs).notReserved name heq

theorem BodyContext.map_fst_assignments {ctx : BodyContext} (h : ctx.assignments es = .ok assigned) :
    assigned.map Prod.fst = es.map Prod.fst := map_eq_of_forall₂ (fun _ _ h => h.1) (forall₂_assignments h)

/-! ### Properties that a unit installs -/

/-- The names under which a unit keeps what it needs itself. -/
def isSlot (name : String) : Bool :=
  [elementName, capsuleName, childListName, postBindName, childrenName].contains name

theorem isReserved_of_isSlot (h : isSlot name) : isReserved name := by
  rw [isSlot, contains_iff_mem] at h
  simp only [mem_cons, not_mem_nil, or_false] at h
  rcases h with rfl | rfl | rfl | rfl | rfl <;> decide

/-- The object and the name of the property that a segment installs. -/
def Segment.installed? : Segment → Option (String × String)
  | property holder name => some (holder, name)
  | defined name => some (selfName, name)
  | _ => none

attribute [simp] Segment.installed?

/-- The properties that a unit installs under names that the source has a part in, each with its
object. -/
def ScriptUnit.installed (u : ScriptUnit) : List (String × String) := u.segments.filterMap Segment.installed?

namespace Segment

variable {getter? setter? : Option (List Segment)} {read write : List Segment}

/-- The properties that some segments install. -/
def installs (segments : List Segment) : List (String × String) := segments.filterMap installed?

@[simp] theorem installs_nil : installs [] = [] := rfl

@[simp] theorem installs_append (segs segments' : List Segment) :
    installs (segs ++ segments') = installs segs ++ installs segments' := filterMap_append ..

@[simp] theorem installs_cons (seg : Segment) (segments : List Segment) :
    installs (seg :: segments) = seg.installed?.toList ++ installs segments := by
  cases seg <;> rfl

theorem installs_flatMap {α : Type} (f : α → List Segment) (xs : List α) :
    installs (xs.flatMap f) = xs.flatMap fun x => installs (f x) := filterMap_flatMap ..

@[simp] theorem installs_line (level : Nat) (segments : List Segment) :
    installs (line level segments) = installs segments := by simp [line]

@[simp] theorem installs_block (level : Nat) (head lines : List Segment) :
    installs (block level head lines) = installs head ++ installs lines := by simp [block]

@[simp] theorem installs_params : ∀ ps : List String, installs (params ps) = []
  | [] => rfl
  | [p] => rfl
  | p :: q :: rest => by simp [params, installs_params (q :: rest)]

@[simp] theorem installs_function (level : Nat) (ps : List String) (body : String) : installs (function level ps body) = [] := by
  unfold function
  split <;> simp

@[simp] theorem installs_declaration (level : Nat) (f : ScriptFunction) : installs (declaration level f) = [] := by
  unfold declaration
  split <;> simp

theorem installs_joinLines : ∀ items : List (List Segment), installs (joinLines items) = items.flatMap installs
  | [] => rfl
  | [item] => by simp [joinLines]
  | item :: next :: rest => by simp [joinLines, installs_joinLines (next :: rest)]

theorem installs_defineProperty (level : Nat) (key : Segment) (hg : ∀ function ∈ getter?, installs function = [])
    (hs : ∀ function ∈ setter?, installs function = []) : installs (defineProperty level key getter? setter?) = installs [key] := by
  have hp (label : String) {function? : Option (List Segment)}
      (h : ∀ function ∈ function?, installs function = []) : installs (propertyPart level label function?) = [] := by
    cases function? with
    | none => rfl
    | some function => simp [propertyPart, h function rfl]
  cases key <;> simp [defineProperty, hp "get" hg, hp "set" hs]

theorem installs_elementProperty (key : Segment) (hr : installs read = [])
    (hw : installs write = []) : installs (elementProperty key read write) = installs [key] :=
  installs_defineProperty 2 key (by simp [hr]) (by simp [hw])

end Segment

namespace ScriptUnit

open Segment

variable (u : ScriptUnit)

theorem installs_surfaceSegments : installs u.surfaceSegments =
    u.attributes.keys.map (fun key => (selfName, accessorName key)) ++ u.styleNames.map (selfName, ·) := by
  have hc : installs ((u.anchor.className?.map fun name =>
      Segment.line 2 [.code (elementText ++ ".classList.add("), .quoted name, .code ");"]).getD []) = [] := by
    cases u.anchor.className? <;> simp
  have ha (key v : String) : installs (u.attributeSegments key v) = [(selfName, accessorName key)] := by
    unfold attributeSegments
    rw [installs_append, installs_elementProperty _ (by simp) (by simp)]
    split <;> simp
  have hf (name read write : String) :
      installs (Segment.elementProperty (.quoted name) [.code read] [.code write]) = [] :=
    installs_elementProperty _ (by simp) (by simp)
  have hs (name : String) : installs (Segment.elementProperty (.defined name)
      [.code (elementText ++ ".style." ++ name)] [.code (elementText ++ ".style." ++ name ++ " = value")]) =
      [(selfName, name)] := installs_elementProperty _ (by simp) (by simp)
  unfold surfaceSegments
  split <;>
    simp [hc, ha, hf, hs, installs_flatMap, PropertyMap.keys, ← map_eq_flatMap]

theorem installs_workItems (layout : String → String) :
    (u.workItems layout).flatMap installs = u.assignments.map fun e => (selfName, e.1) := by
  have hb : (u.workBody?.toList.map fun body => [.spliced (layout body)]).flatMap installs = [] := by
    cases u.workBody? <;> simp
  rw [workItems, flatMap_append, hb, flatMap_map, append_nil, map_eq_flatMap]
  exact flatMap_congr fun e _ => by simp

theorem installs_lastWorkSegments : installs u.lastWorkSegments = u.assignments.map fun e => (selfName, e.1) := by
  unfold lastWorkSegments
  split
  · split
    · next he =>
      rw [← u.installs_workItems id, isEmpty_iff.1 he]
      rfl
    · simp [installs_joinLines, installs_workItems]
  · rw [← u.installs_workItems fun text => String.ofList (reindent text.toList), installs_flatMap]
    simp

theorem installs_opening : installs u.openingSegments = [] := by
  unfold openingSegments
  cases u.anchor.markupId? <;> simp

theorem installs_chain : installs u.chainSegments = [] := by
  rw [chainSegments, installs_flatMap, flatMap_eq_nil_iff]
  rintro ⟨parent, args⟩ -
  dsimp only
  split <;> simp

theorem installs_members : installs u.memberSegments = u.protectedVariables.map (fun e => (capsuleText, e.1)) ++
      u.protectedMethods.map (fun f => (capsuleText, f.name)) ++ u.publicVariables.map (fun e => (selfName, e.1)) ++
      u.publicMethods.map (fun f => (selfName, f.name)) := by
  have hp : ∀ e : String × Option String, installs (Segment.line 1 (.code ("let " ++ e.1) ::
      ((e.2.map fun v => [.code " = ", .spliced v]).getD [] ++ [.code ";"]))) = [] := by
    rintro ⟨name, value?⟩
    cases value? <;> simp
  have hm : installs (u.privateMethods.flatMap (declaration 1)) = [] := by simp [installs_flatMap]
  simp [memberSegments, hp, hm, variableSegments, methodSegments, installs_flatMap, ← map_eq_flatMap]

theorem installs_accessors : installs u.accessorSegments = u.accessors.map fun a => (selfName, a.name) := by
  rw [accessorSegments, installs_flatMap, map_eq_flatMap]
  refine flatMap_congr fun a _ => ?_
  rw [installs_defineProperty]
  · rfl
  · cases a.getter? <;> simp
  · cases a.setter? <;> simp

theorem installs_handlers : installs u.handlerSegments = [] := by
  unfold handlerSegments
  split <;> simp [installs_flatMap]

theorem installs_children : installs u.childSegments = (u.children.filterMap ChildHandle.name?).map (capsuleText, ·) := by
  rw [childSegments, installs_flatMap]
  induction u.children with
  | nil => rfl
  | cons child children ih =>
    rw [flatMap_cons, ih, filterMap_cons]
    cases child.name? <;> cases u.anchor.markupId? <;> simp

theorem installs_defaults : installs u.defaultSegments = u.defaults.map fun e => (selfName, e.1) := by
  rw [defaultSegments, installs_flatMap, map_eq_flatMap]
  refine flatMap_congr fun e _ => ?_
  dsimp only
  split <;> simp

theorem installed_eq : u.installed = (u.protectedVariables.map Prod.fst).map (capsuleText, ·) ++
      (u.protectedMethods.map ScriptFunction.name).map (capsuleText, ·) ++ (u.publicVariables.map Prod.fst).map (selfName, ·) ++
      (u.publicMethods.map ScriptFunction.name).map (selfName, ·) ++
      (u.published.map fun e => aliasName (u.anchor.className?.getD "") e.1).map (capsuleText, ·) ++
      (u.attributes.keys.map accessorName).map (selfName, ·) ++ u.styleNames.map (selfName, ·) ++
      (u.accessors.map Accessor.name).map (selfName, ·) ++ (u.children.filterMap ChildHandle.name?).map (capsuleText, ·) ++
      (u.defaults.map Prod.fst).map (selfName, ·) ++ (u.assignments.map Prod.fst).map (selfName, ·) := by
  have hp : installs u.publishedSegments = u.published.map fun e => (capsuleText, aliasName (u.anchor.className?.getD "") e.1) := by
    simp [publishedSegments, installs_flatMap, ← map_eq_flatMap]
  have hn : installs u.creationSegments = [] ∧ installs u.aliasSegments = [] ∧
      installs u.ownStyleSegments = [] ∧ installs u.headSegments = [] ∧ installs childrenSegments = [] := by
    simp [creationSegments, aliasSegments, ownStyleSegments, headSegments, childrenSegments, installs_flatMap]
  rw [installed, ← installs, segments]
  simp [hp, hn, installs_opening, installs_chain, installs_members, installs_accessors,
    installs_handlers, installs_children, installs_defaults, installs_surfaceSegments, installs_lastWorkSegments,
    Function.comp_def]

end ScriptUnit

/-! ### Names that are checked and names that are not -/

/-- The names of the members that others can see, none of which may be reserved. -/
def Members.shownNames (members : Members) : List String :=
  members.protectedTier.names ++ members.publicTier.names ++ members.accessorNames

theorem not_isReserved_of_checkNames {members : Members} {style : PropertyMap}
    {children : List Node} (h : checkNames scope members style children = .ok ()) :
    ∀ name ∈ members.shownNames, isReserved name = false := by
  obtain ⟨⟨⟩, hc, -⟩ := bind_eq_ok.1 h
  intro name hn
  refine (claimNames_spec hc).2.2 (name, false) ?_ rfl
  simp only [Members.shownNames, mem_append] at hn
  simp only [claimedNames, mem_append, mem_map, Prod.mk.injEq, and_true, exists_eq_right]
  tauto

/-- The names of properties that are compared with no reserved name: for attributes and style, and
those assigned to. -/
def UnitPlan.uncheckedNames (plan : UnitPlan) : List String :=
  (plan.attributes.keys ++ plan.style.keys).map accessorName ++ plan.assignments.keys

theorem isSlot_aliasName (owner method : String) : isSlot (aliasName owner method) = false := by
  obtain ⟨rest, ht, hm⟩ := underscore_mem_aliasName owner method
  rw [Bool.eq_false_iff]
  intro hs
  rw [isSlot, contains_iff_mem] at hs
  simp only [mem_cons, not_mem_nil, or_false] at hs
  rcases hs with hs | hs | hs | hs | hs <;> rw [hs] at ht <;> cases ht <;>
    exact absurd hm (by decide)

theorem filter_isSlot_eq_nil {ns : List String}
    (h : ∀ name ∈ ns, isReserved name = false) : (ns.map (holder, ·)).filter (isSlot ·.2) = [] := by
  rw [filter_eq_nil_iff, forall_mem_map]
  intro name hn hs
  exact absurd (isReserved_of_isSlot hs) (by simp [h name hn])

namespace UnitContext.IsUnit

variable {ctx : UnitContext} {plan : UnitPlan} {plans : List UnitPlan} {u : ScriptUnit}

theorem mem_shownNames (h : ctx.IsUnit (plan, plans) u) :
    (∀ name ∈ u.protectedVariables.map Prod.fst, name ∈ plan.members.shownNames) ∧
      (∀ name ∈ u.protectedMethods.map ScriptFunction.name, name ∈ plan.members.shownNames) ∧
      (∀ name ∈ u.publicVariables.map Prod.fst, name ∈ plan.members.shownNames) ∧
      (∀ name ∈ u.publicMethods.map ScriptFunction.name, name ∈ plan.members.shownNames) ∧
      (∀ name ∈ u.accessors.map Accessor.name, name ∈ plan.members.shownNames) ∧
      ∀ name ∈ u.defaults.map Prod.fst, name ∈ plan.members.shownNames := by
  obtain ⟨p, hb⟩ := h.builds
  have hp := hb.prepares
  -- A variable that is left out of some others is still one of them.
  have hu (keep : Variable → Bool) : ∀ name ∈ (plan.members.publicTier.vars.filter keep).map Variable.name,
        name ∈ plan.members.publicTier.names := by
    intro name hn
    exact mem_append_left _ ((filter_sublist.map _).subset hn)
  have hs : plan.members.protectedTier.names ⊆ plan.members.shownNames ∧ plan.members.publicTier.names ⊆ plan.members.shownNames ∧
      plan.members.accessorNames ⊆ plan.members.shownNames := by
    refine ⟨?_, ?_, subset_append_right _ _⟩ <;> intro name hn <;> simp [Members.shownNames, hn]
  obtain ⟨hr, hpb, ha⟩ := hs
  refine ⟨?_, ?_, ?_, ?_, ?_, ?_⟩ <;> intro name hn
  · rw [BodyContext.map_fst_of_isValue h.keeps.protectedVariables] at hn
    exact hr (mem_append_left _ hn)
  · rw [hb.protectedMethods_eq, BodyContext.map_name_of_isFunction hp.protectedMethods] at hn
    exact hr (mem_append_right _ hn)
  · rw [BodyContext.map_fst_of_isValue h.shows.publicVariables] at hn
    exact hpb (hu _ name hn)
  · rw [hb.publicMethods_eq, BodyContext.map_name_of_isFunction hp.publicMethods] at hn
    exact hpb (mem_append_right _ hn)
  · apply ha
    rw [mem_accessorNames, map_append, ← BodyContext.map_name_of_isFunction hp.getters, ← BodyContext.map_name_of_isFunction hp.setters]
    rw [hb.accessors_eq, accessorsOf] at hn
    simpa using hn
  · rw [BodyContext.map_fst_of_isValue (BodyContext.forall₂_values h.keeps.defaults)] at hn
    exact hpb (hu _ name hn)

theorem filter_isSlot_assignments (h : ctx.IsUnit (plan, plans) u) :
    (u.assignments.map Prod.fst).filter isSlot = plan.assignments.keys.filter isSlot := by
  rw [BodyContext.map_fst_assignments h.keeps.assigned, PropertyMap.keys]
  generalize plan.assignments.entries = es
  induction es with
  | nil => rfl
  | cons e es ih =>
    rw [filter_cons]
    split
    · rw [map_cons, map_cons, filter_cons, filter_cons, ih]
    · next hs =>
      have ht : e.1 = "text" := by
        simp only [isStaticText, Bool.or_eq_true, Bool.not_eq_true', not_or, Bool.not_eq_false, Bool.and_eq_true, decide_eq_true_eq] at hs
        exact hs.2.1
      rw [map_cons, filter_cons, ht, if_neg (by decide), ih]

/-- **The slots that a unit installs** are those among the names that are not checked. -/
theorem filter_installed (h : ctx.IsUnit (plan, plans) u)
    (hr : PageSource.readChecked text = .ok src) (hf : src.IsFamily plan plans) :
    u.installed.filter (isSlot ·.2) = (plan.uncheckedNames.filter isSlot).map (selfName, ·) := by
  obtain ⟨scope, children, hc⟩ := hf.exists_checkNames hr
  obtain ⟨hp, hpr, hpu, hb, ha, hd⟩ := h.mem_shownNames
  have hs {holder : String} {ns : List String} (hn : ∀ name ∈ ns, name ∈ plan.members.shownNames) :
      (ns.map (holder, ·)).filter (isSlot ·.2) = [] :=
    filter_isSlot_eq_nil fun name hna => not_isReserved_of_checkNames hc name (hn name hna)
  have hu (ns : List String) :
      (ns.map (selfName, ·)).filter (isSlot ·.2) = (ns.filter isSlot).map (selfName, ·) := by
    rw [filter_map]
    rfl
  have hl (owner : String) :
      ((u.published.map fun e => aliasName owner e.1).map (capsuleText, ·)).filter (isSlot ·.2) = [] := by
    simp [filter_eq_nil_iff, isSlot_aliasName]
  have hh : u.children.filterMap ChildHandle.name? = plans.filterMap UnitPlan.name? := by
    rw [h.children_eq, filterMap_map]
    rfl
  have hm : ((plans.filterMap UnitPlan.name?).map (capsuleText, ·)).filter (isSlot ·.2) = [] := filter_isSlot_eq_nil (hf.not_isReserved hr)
  rw [u.installed_eq, hh]
  simp only [filter_append, hs hp, hs hpr, hs hpu, hs hb, hs ha, hs hd, hl, hm, hu,
    h.filter_isSlot_assignments, h.shows.attributes_eq, h.shows.styleNames_eq, nil_append,
    UnitPlan.uncheckedNames, map_append, append_assoc]

/-- A unit assigns to names. -/
theorem isNameText_of_mem_assignments (h : ctx.IsUnit (plan, plans) u) {s : Source}
    (hr : plan.ReadFrom s) : ∀ e ∈ u.assignments, IsNameText e.1 := by
  intro e he
  have hk := mem_map_of_mem (f := Prod.fst) he
  rw [BodyContext.map_fst_assignments h.keeps.assigned] at hk
  obtain ⟨raw, ha, heq⟩ := mem_map.1 hk
  rw [← heq]
  exact (hr.assignments raw (mem_of_mem_filter ha)).1

end UnitContext.IsUnit

/-- **Slots.** The text of every unit of a compiled page is that of its segments, and of the
properties that these install, those under the name of a slot are exactly the ones for an attribute,
a style or an assignment with that name. All other names are checked or cannot be that of a slot. -/
theorem compileText_slots_installed_iff {text : List Char} {links : HeadLinks} {out : PageOutput}
    (h : compileText text links = .ok out) :
    ∃ source script called, PageSource.readChecked text = .ok source ∧ source.script = .ok script ∧
      out.behavior = script.render ∧
      ∀ u ∈ script.units, ∃ plan plans, source.IsFamily plan plans ∧
        UnitContext.IsUnit ⟨source.table, source.text, called⟩ (plan, plans) u ∧
        Segment.textOf u.segments = u.render.toList ∧
        u.installed.filter (isSlot ·.2) = (plan.uncheckedNames.filter isSlot).map (selfName, ·) ∧
        ((∀ property ∈ u.installed, isSlot property.2 = false) ↔
          ∀ name ∈ plan.uncheckedNames, isSlot name = false) := by
  obtain ⟨source, script, hread, hscript, rfl⟩ := compileText_eq_ok_iff.1 h
  obtain ⟨called, hfamilies⟩ := PageSource.exists_family hscript
  refine ⟨source, script, called, hread, hscript, rfl, fun u hu => ?_⟩
  obtain ⟨plan, plans, hfamily, hunit⟩ := hfamilies u hu
  have hslots := hunit.filter_installed hread hfamily
  obtain ⟨s, -, hplan⟩ := hfamily.exists_readFrom hread
  refine ⟨plan, plans, hfamily, hunit, u.textOf_segments fun entry hentry => ?_, hslots, ?_⟩
  · exact (hunit.isNameText_of_mem_assignments hplan entry hentry).isWordText.newline_not_mem
  · have hnil : u.installed.filter (isSlot ·.2) = [] ↔ plan.uncheckedNames.filter isSlot = [] := by
      rw [hslots, map_eq_nil_iff]
    simpa [filter_eq_nil_iff] using hnil

/-- A class with names from all parts that install something. -/
def installedFromAllParts : List Char :=
  ("class C extends div\x7battributes\x7btitle:1;\x7dstyle\x7bmargin-top:0;\x7dp as kid\x7bcolor=1;\x7d" ++
    "protected\x7bvar v=1;m()\x7b\x7d\x7dpublic\x7bvar w=1;var text='t';n()\x7b\x7dget g()\x7b\x7d\x7d\x7d").toList

/-- None of them is that of a slot. -/
theorem compileText_slots_installed_allParts :
    ∃ out source script u plan plans, compileText installedFromAllParts ⟨"page.js", "page.css"⟩ = .ok out ∧
      PageSource.readChecked installedFromAllParts = .ok source ∧ source.script = .ok script ∧
      out.behavior = script.render ∧ u ∈ script.units ∧ u.anchor = .byClass "C" ∧
      source.IsFamily plan plans ∧ Segment.textOf u.segments = u.render.toList ∧
      u.installed = [(capsuleText, "v"), (capsuleText, "m"), (selfName, "w"), (selfName, "n"), (selfName, "title"),
        (selfName, "marginTop"), (selfName, "g"), (capsuleText, "kid"), (selfName, "text")] ∧
      (∀ property ∈ u.installed, isSlot property.2 = false) ∧ ∀ name ∈ plan.uncheckedNames, isSlot name = false := by
  have heval : CompilesWith installedFromAllParts fun _ script => ∃ u ∈ script.units, u.anchor = .byClass "C" ∧
        u.installed = [(capsuleText, "v"), (capsuleText, "m"), (selfName, "w"), (selfName, "n"), (selfName, "title"),
          (selfName, "marginTop"), (selfName, "g"), (capsuleText, "kid"), (selfName, "text")] := by
    decide +kernel
  obtain ⟨source, script, hread, hscript, hout, u, hu, hanchor, hinstalled⟩ := heval.exists_output ⟨"page.js", "page.css"⟩
  obtain ⟨source', script', called, hread', hscript', hbehavior, hunits⟩ := compileText_slots_installed_iff hout
  cases hread.symm.trans hread'
  cases hscript.symm.trans hscript'
  obtain ⟨plan, plans, hfamily, -, htext, -, hiff⟩ := hunits u hu
  have hnone : ∀ property ∈ u.installed, isSlot property.2 = false := by
    rw [hinstalled]
    decide
  exact ⟨_, source, script, u, plan, plans, hout, hread, hscript, hbehavior, hu, hanchor, hfamily, htext, hinstalled,
    hnone, hiff.1 hnone⟩

/-- An instance with an assignment to the children that it has. -/
def childrenAssigned : List Char := "div as r\x7bchildren=1;\x7d".toList

/-- A class with an attribute and a style that are kept under the names of slots. -/
def slotsForAttributeAndStyle : List Char :=
  "class C extends div\x7battributes\x7bchildren:1;\x7dstyle\x7b__post-bind:1;\x7d\x7d".toList

/-- Both are compiled, and their units overwrite slots. -/
theorem compileText_slots_overwritten :
    (∃ source script u, PageSource.readChecked childrenAssigned = .ok source ∧ source.script = .ok script ∧
      u ∈ script.units ∧ u.installed = [(selfName, "children")] ∧ u.lastWork = "__self.children = 1;\n") ∧
    ∃ source script u, PageSource.readChecked slotsForAttributeAndStyle = .ok source ∧ source.script = .ok script ∧
      u ∈ script.units ∧ u.installed = [(selfName, "children"), (selfName, "__postBind")] := by
  exact ⟨CompilesWith.exists_unit (by decide +kernel), CompilesWith.exists_unit (by decide +kernel)⟩

end Pagewright
