import Pagewright.Proofs.Runs

/-!
# The tag of an element that is created

An instance inside a class gets its element when its unit runs: the first unit that has a tag, and
finds no element bound, creates it (`createdTag?`). The units of classes run first. So the tag is
the first one in the order in which the classes are visited, and the tag that the markup would give
only if there is none (`compileText_created_tag`). The two differ already where an instance names a
class with a tag before a tag of its own (`compileText_created_tag_differs`). -/

namespace Pagewright

open List Pagewright.Tree

variable {plan : UnitPlan} {u : ScriptUnit} {cs cs' : List ClassDef} {run : List ScriptUnit}

/-! ### Creating an element -/

/-- The lines that create an element of a tag where there is none. -/
def creationGuard (tag : String) : String :=
  block 1 ("if (!" ++ elementText ++ ")")
    (line 2 (elementText ++ " = document.createElement(" ++ scriptString tag ++ ");"))

/-- The tag of the element that is bound when a unit has run, given that of the element bound
before. -/
def ScriptUnit.bound (u : ScriptUnit) (before? : Option String) : Option String :=
  u.created.foldl (fun before? tag => before?.or (some tag)) before?

/-- The tag of the element that is bound when some units have run, none being bound before. -/
def createdTag? (us : List ScriptUnit) : Option String :=
  us.foldl (fun before? u => u.bound before?) none

theorem ScriptUnit.exists_render (u : ScriptUnit) : ∃ rest, u.render =
    u.head ++ String.join (u.chain.map callLine) ++ String.join (u.created.map creationGuard) ++ rest :=
  ⟨_, u.render_eq.trans (by simp only [String.append_assoc]; rfl)⟩

theorem createdTag?_eq (us : List ScriptUnit) : createdTag? us = (us.flatMap ScriptUnit.created).head? := by
  have hb (tags : List String) (before? : Option String) :
      tags.foldl (fun before? tag => before?.or (some tag)) before? = before?.or tags.head? := by
    induction tags generalizing before? with
    | nil => rw [foldl_nil, head?_nil, Option.or_none]
    | cons tag tags ih => rw [foldl_cons, ih, Option.or_assoc, head?_cons, Option.some_or]
  exact (foldl_flatMap.symm.trans (hb _ none)).trans Option.none_or

theorem UnitContext.Executes.createdTag?_eq {ctx : UnitContext} {s : Script} (h : ctx.Executes s plan u cs run) :
    createdTag? (run ++ [u]) = ((cs.flatMap ClassDef.parents).find? isTag).or (ctx.createdTags plan).head? := by
  obtain ⟨p, hb⟩ := h.builds
  have hc : run.flatMap ScriptUnit.created = (cs.flatMap ClassDef.parents).filter isTag := by
    have hf := h.classes
    clear h
    induction hf with
    | nil => rfl
    | cons hu _ ih =>
      obtain ⟨q, hl⟩ := hu
      rw [flatMap_cons, flatMap_cons, filter_append, ih, hl.created_eq]
      rfl
  rw [Pagewright.createdTag?_eq, flatMap_append, hc, flatMap_singleton, hb.created_eq, head?_append, head?_filter]

theorem ClassTable.Visits.unique {t : ClassTable} (ht : t.NoTags) {ns : List String}
    (h : t.Visits ns cs) (h' : t.Visits ns cs') : cs = cs' := by
  induction h generalizing cs' with
  | nil =>
    cases h'
    rfl
  | tag ha _ ih =>
    cases h' with
    | tag _ h' => exact ih h'
    | visit hc _ _ =>
      rw [ht _ hc] at ha
      cases ha
  | @visit c ns inner post hc _ _ ihinner ihafter =>
    generalize hn : c.name = name at h'
    cases h' with
    | tag ha _ =>
      rw [← hn, ht c hc] at ha
      cases ha
    | visit hc' hi' ha' =>
      cases eq_of_name_eq hc hc' hn
      rw [ihinner hi', ihafter ha']

/-- The element that the unit of an instance inside a class creates, the classes being visited and
the units executed in order. -/
structure Script.CreatesElement (s : Script) (t : ClassTable) (plan : UnitPlan) (u : ScriptUnit)
    (cs : List ClassDef) (run : List ScriptUnit) : Prop where
  anchor_eq : u.anchor = plan.anchor
  visits_iff : ∀ cs', t.Visits plan.entries cs' ↔ cs' = cs
  runs_iff : ∀ run', s.Runs u.chain run' ↔ run' = run
  anchors_eq : run.map ScriptUnit.anchor = (cs.map ClassDef.name).map .byClass
  /-- The unit itself would create an element of the tag that the markup gives. -/
  created_eq : u.created = [t.resolveTag plan.entries]
  hasValue_eq : u.hasValue = hasValue (t.resolveTag plan.entries)
  markup_eq : ∀ own : Placed, own.entries = plan.entries → (t.elementHead own).tag = t.resolveTag plan.entries
  /-- The first tag of the classes comes before it. -/
  tag_eq : createdTag? (run ++ [u]) =
    some (((cs.flatMap ClassDef.parents).find? isTag).getD (t.resolveTag plan.entries))
  agrees : (∀ c ∈ t.lineage plan.entries, ∀ tag, c.parents.find? isTag = some tag →
    tag = t.resolveTag plan.entries) → createdTag? (run ++ [u]) = some (t.resolveTag plan.entries)

theorem UnitContext.Executes.createsElement {src : PageSource} {script : Script} {called : List (String × String)}
    (ht : src.table.NoTags) (hs : src.script = .ok script) (hr : plan.anchor.isCreation)
    (h : UnitContext.Executes ⟨src.table, src.text, called⟩ script plan u cs run) : script.CreatesElement src.table plan u cs run := by
  obtain ⟨p, hb⟩ := h.builds
  obtain ⟨id, ha⟩ : ∃ id, plan.anchor = .byCreation id := by
    cases ha : plan.anchor with
    | byCreation id => exact ⟨id, rfl⟩
    | byClass _ | byMarkup _ =>
      rw [ha] at hr
      cases hr
  have hta : tag ⟨src.table, src.text, called⟩ plan = src.table.resolveTag plan.entries := by
    rw [tag, ha]
    rfl
  have hce : createdTags ⟨src.table, src.text, called⟩ plan = [src.table.resolveTag plan.entries] := by
    rw [createdTags, ha, hta]
  have htag_eq : createdTag? (run ++ [u]) =
      some (((cs.flatMap ClassDef.parents).find? isTag).getD (src.table.resolveTag plan.entries)) := by
    rw [h.createdTag?_eq, hce, head?_cons, Option.or_some]
  refine ⟨hb.anchor_eq, fun cs' => ⟨fun hv => hv.unique ht h.visits, ?_⟩,
    PageSource.runs_iff hs h.runs, h.map_anchor, hb.created_eq.trans hce,
    hb.hasValue_eq.trans (congrArg hasValue hta), ?_, htag_eq, fun hl => ?_⟩
  · rintro rfl
    exact h.visits
  · intro own he
    exact congrArg src.table.resolveTag he
  · -- The first tag is the first one among the parents of some class of the lineage.
    rw [htag_eq]
    cases hf : (cs.flatMap ClassDef.parents).find? isTag with
    | none => rfl
    | some tag =>
      rw [find?_flatMap] at hf
      obtain ⟨c, hc, hi⟩ := exists_of_findSome?_eq_some hf
      rw [Option.getD_some, hl c ((h.visits.mem_iff ht).1 hc) tag hi]

/-- **The tag of an element.** In a compiled page the unit of an instance inside a class creates an
element of the first tag among the parents of the classes that run before, each class behind its own
parents; and of the tag that the markup gives such an instance where they have none. The two agree
if no class of the lineage has another tag first among its parents. -/
theorem compileText_created_tag {text : List Char} {links : HeadLinks} {out : PageOutput}
    (h : compileText text links = .ok out) :
    ∃ source script, PageSource.readChecked text = .ok source ∧ source.script = .ok script ∧
      out.behavior = script.render ∧
      (∀ c ∈ source.table.classes, ∀ own ∈ labelsAll c.children,
        ∃ plan ∈ source.families.map Prod.fst, plan.IsOf own ∧ plan.anchor.isCreation = true) ∧
      (∀ u ∈ script.units, ∃ rest, u.render = u.head ++ String.join (u.chain.map callLine) ++
        String.join (u.created.map creationGuard) ++ rest) ∧
      Forall₂ (fun plan u => plan.anchor.isCreation = true →
          ∃ cs run, script.CreatesElement source.table plan u cs run)
        (source.families.map Prod.fst) script.units := by
  obtain ⟨source, script, hread, hscript, rfl⟩ := compileText_eq_ok_iff.1 h
  refine ⟨source, script, hread, hscript, rfl, fun c hc own hown => ?_, fun u _ => u.exists_render, ?_⟩
  · obtain ⟨names, id, hplan⟩ := PageSource.exists_plan_of_mem_children hc hown
    exact ⟨_, hplan, ⟨rfl, rfl, rfl⟩, rfl⟩
  · obtain ⟨called, hexecutes⟩ := PageSource.forall₂_executes hread hscript
    refine hexecutes.imp fun plan u hunit hcreation => ?_
    obtain ⟨-, cs, run, hrun⟩ := hunit
    exact ⟨cs, run, hrun.createsElement (PageSource.noTags hread) hscript hcreation⟩

/-- A class with an instance of another class, which has its tag from its parent. -/
def tagOfParent : List Char :=
  ("class A extends B\x7b\x7dclass B extends input\x7b\x7d" ++
    "class C extends div\x7bA\x7b\x7d\x7d").toList

/-- The parent's tag is created, as the markup would have it. -/
theorem compileText_created_tag_ofParent :
    ∃ out source script plan u run, compileText tagOfParent ⟨"page.js", "page.css"⟩ = .ok out ∧
      PageSource.readChecked tagOfParent = .ok source ∧ source.script = .ok script ∧
      out.behavior = script.render ∧ (plan, u) ∈ (source.families.map Prod.fst).zip script.units ∧
      u.anchor = .byCreation 1 ∧ plan.entries = ["A"] ∧ source.table.resolveTag ["A"] = "input" ∧
      u.hasValue = true ∧ script.Runs u.chain run ∧ createdTag? (run ++ [u]) = some "input" := by
  have heval : CompilesWith tagOfParent fun source script => source.table.resolveTag ["A"] = "input" ∧
      (∀ c ∈ source.table.lineage ["A"], c.parents.find? isTag ∈ [none, some "input"]) ∧
      ∃ pair ∈ (source.families.map Prod.fst).zip script.units,
        pair.1.anchor = .byCreation 1 ∧ pair.1.entries = ["A"] := by
    decide +kernel
  obtain ⟨source, script, out, hread, hscript, hout, ⟨htag, hlineage, ⟨plan, u⟩, hpair, hanchor, hentries⟩, hbehavior, -, -,
    hcreates⟩ := heval.exists_and ⟨"page.js", "page.css"⟩ fun _ => compileText_created_tag
  have hcreation : plan.anchor.isCreation = true := by
    rw [hanchor]
    rfl
  obtain ⟨cs, run, hcreates⟩ := (forall₂_iff_zip.1 hcreates).2 hpair hcreation
  have hvalue := hcreates.hasValue_eq
  have hagrees := hcreates.agrees
  rw [hentries, htag] at hvalue hagrees
  refine ⟨out, source, script, plan, u, run, hout, hread, hscript, hbehavior, hpair,
    hcreates.anchor_eq.trans hanchor, hentries, htag, hvalue.trans (by decide +kernel),
    (hcreates.runs_iff run).2 rfl, hagrees fun c hc tag hfirst => ?_⟩
  have hmem := hlineage c hc
  rw [hfirst] at hmem
  simpa using hmem

/-- A class with an instance that has a tag of its own behind a class with another. -/
def tagBehindClass : List Char :=
  "class A extends div\x7b\x7dclass B extends div\x7bA, input\x7b\x7d\x7d".toList

/-- The tag of the class is created, although the instance is given a value like its own tag. -/
theorem compileText_created_tag_differs :
    ∃ out source script u run, compileText tagBehindClass ⟨"page.js", "page.css"⟩ = .ok out ∧
      PageSource.readChecked tagBehindClass = .ok source ∧ source.script = .ok script ∧
      out.behavior = script.render ∧ u ∈ script.units ∧ u.anchor = .byCreation 1 ∧
      source.table.resolveTag ["A", "input"] = "input" ∧ u.hasValue = true ∧
      script.Runs u.chain run ∧ createdTag? (run ++ [u]) = some "div" := by
  have heval : CompilesWith tagBehindClass fun source script => source.table.resolveTag ["A", "input"] = "input" ∧
      (∃ u ∈ script.units, u.anchor = .byClass "A" ∧ u.chain = [] ∧ u.created = ["div"]) ∧
      ∃ u ∈ script.units, u.anchor = .byCreation 1 ∧ u.chain = [("A", "")] ∧ u.hasValue = true := by
    decide +kernel
  obtain ⟨source, script, hread, hscript, hout, htag, ⟨a, ha, hanchorA, hchainA, hcreated⟩, u, hu, hanchor, hchain, hvalue⟩ :=
    heval.exists_output ⟨"page.js", "page.css"⟩
  have hrunA : script.Runs a.chain [] := by
    rw [hchainA]
    exact .nil
  have hrun : script.Runs u.chain [a] := by
    rw [hchain]
    exact .call ha hanchorA hrunA .nil
  refine ⟨_, source, script, u, [a], hout, hread, hscript, rfl, hu, hanchor, htag, hvalue, hrun, ?_⟩
  rw [createdTag?_eq, singleton_append, flatMap_cons, hcreated]
  rfl

end Pagewright
