import Pagewright.Proofs.Cascade
import Pagewright.Proofs.ElementTag

/-!
# The style of an element

Of the rules for a class and its ancestors in the stylesheet, the last one that declares a property
decides. The rules stand in the order of the classes, and a rule has all that its class inherits. So
an ancestor that is declared behind the class takes its properties back from it, and only such an
ancestor does. The functions of the classes put an element into these classes, each of them only if
the element is bound by then. -/

namespace Pagewright

open List

variable {c d : ClassDef} {before after : List ClassDef}

theorem findSome?_filterMap {α β γ : Type} (f : α → Option β) (g : β → Option γ) (l : List α) :
    (l.filterMap f).findSome? g = l.findSome? fun x => (f x).bind g := by
  induction l with
  | nil => rfl
  | cons x l ih =>
    rw [filterMap_cons, findSome?_cons]
    cases f x with
    | none => exact ih
    | some y => rw [findSome?_cons, ih, Option.bind_some]

/-! ### Rules -/

/-- The value that a rule gives a property of an element in some classes. -/
def Rule.value? (names : List String) (key : String) : Rule → Option String
  | classRule name declarations => if name ∈ names then declarations.lookup key else none
  | stateRule _ _ _ => none

/-- The value of a property of an element in some classes: the last rule that declares it
decides. -/
def effectiveValue? (rules : List Rule) (names : List String) (key : String) : Option String :=
  rules.reverse.findSome? (Rule.value? names key)

namespace ClassTable

variable {t : ClassTable}

/-- The value that a property has in the style resolved for a class. -/
def resolvedValue? (t : ClassTable) (key name : String) : Option String :=
  (t.resolveStyles.lookup name).bind (·.get? key)

theorem value?_rule (ns : List String) (key name : String) (style? : Option PropertyMap) :
    ((match style?.filter fun style : PropertyMap => !style.isEmpty with
      | some style => some (Rule.classRule name style.entries)
      | none => none).bind (Rule.value? ns key)) = if name ∈ ns then style?.bind (·.get? key) else none := by
  cases style? with
  | none => exact (ite_self none).symm
  | some style =>
    rw [Option.filter_some]
    by_cases he : style.entries = []
    · have hn : style.get? key = none := by
        rw [PropertyMap.get?, he]
        rfl
      rw [if_neg (by simp [PropertyMap.isEmpty, he]), Option.bind_some, hn, ite_self]
      rfl
    · rw [if_pos (by simp [PropertyMap.isEmpty, he])]
      rfl

theorem effectiveValue?_rules (t : ClassTable) (ns : List String) (key : String) :
    effectiveValue? (t.rules t.resolveStyles) ns key =
      t.classes.reverse.findSome? fun c => if c.name ∈ ns then t.resolvedValue? key c.name else none := by
  have hs : (t.classes.flatMap fun c => c.states.map fun state =>
      Rule.stateRule c.name state.1 state.2).reverse.findSome? (Rule.value? ns key) = none := by
    rw [findSome?_eq_none_iff]
    intro rule hr
    obtain ⟨c, -, hr⟩ := mem_flatMap.1 (mem_reverse.1 hr)
    obtain ⟨state, -, rfl⟩ := mem_map.1 hr
    rfl
  rw [effectiveValue?, rules, reverse_append, findSome?_append]
  refine (congrArg (Option.or · _) hs).trans ?_
  rw [← filterMap_reverse, findSome?_filterMap]
  refine congrFun (congrArg findSome? (funext fun c : ClassDef => ?_)) _
  exact value?_rule ns key c.name (t.resolveStyles.lookup c.name)

/-! ### A class and its ancestors -/

theorem mem_lineage_singleton (ht : t.NoTags) (hc : c ∈ t.classes) : d ∈ t.lineage [c.name] ↔ d ∈ t.withAncestors c.name := by
  simp [mem_lineage, ht c hc]

theorem reflTransGen_of_mem_withAncestors (hc : c ∈ t.classes)
    (hd : d ∈ t.withAncestors c.name) : Relation.ReflTransGen t.IsParent d c := by
  obtain ⟨hd, hr⟩ := mem_withAncestors_iff.1 hd
  rcases Relation.reflTransGen_iff_eq_or_transGen.1 hr with hn | hr
  · rw [eq_of_name_eq hd hc hn]
  · obtain ⟨c', d', hc', hd', hp⟩ := exists_isParent hr
    cases hc'.symm.trans (get?_of_mem hc)
    cases hd'.symm.trans (get?_of_mem hd)
    exact hp.to_reflTransGen

theorem effectiveValue?_withAncestors (hs : t.IsSound) (hcl : t.classes = before ++ c :: after) (key : String) :
    effectiveValue? (t.rules t.resolveStyles) ((t.withAncestors c.name).map ClassDef.name) key =
      (after.reverse.findSome? fun d => if d.name ∈ (t.withAncestors c.name).map ClassDef.name then
        t.resolvedValue? key d.name else none).or (t.resolvedValue? key c.name) := by
  obtain ⟨styles, ha⟩ := exists_isCascade hs.wellFounded
  have hv : ∀ d ∈ t.classes, t.resolvedValue? key d.name = (styles d.name).get? key := by
    intro d hd
    rw [resolvedValue?, lookup_resolveStyles hs.wellFounded ha hd]
    rfl
  have hc : c ∈ t.classes := by simp [hcl]
  have hse : c.name ∈ (t.withAncestors c.name).map ClassDef.name := by
    rw [withAncestors, get?_of_mem hc]
    exact mem_cons_self
  rw [effectiveValue?_rules, hcl, reverse_append, reverse_cons, append_assoc,
    findSome?_append, singleton_append, findSome?_cons, if_pos hse]
  refine congrArg _ ?_
  cases ho : t.resolvedValue? key c.name with
  | some v => rfl
  | none =>
    -- What the class does not have no ancestor has.
    refine findSome?_eq_none_iff.2 fun d hd => ?_
    have hd : d ∈ t.classes := by
      rw [hcl]
      exact mem_append_left _ (mem_reverse.1 hd)
    by_cases hm : d.name ∈ (t.withAncestors c.name).map ClassDef.name
    · obtain ⟨e, he, hn⟩ := mem_map.1 hm
      have hl := reflTransGen_of_mem_withAncestors hc he
      rw [if_pos hm]
      by_contra hne
      have hso : ((styles e.name).get? key).isSome := by
        rw [hn, ← hv d hd]
        exact Option.isSome_iff_ne_none.2 hne
      have hno := ha.isSome_get? hl hso
      rw [← hv c hc, ho] at hno
      cases hno
    · rw [if_neg hm]

end ClassTable

/-! ### The classes of an element -/

/-- The lines that put the element into a class, if one is bound. -/
def classListLines (name : String) : String :=
  line 1 ("if (" ++ elementText ++ ") \x7b") ++
    line 2 (elementText ++ ".classList.add(" ++ scriptString name ++ ");")

/-- The classes that the element is put into when some units run, `bound` telling whether one is
bound before: a unit creates it if it has a tag for it, and then adds its class if one is bound. -/
def listedClasses (bound : Bool) : List ScriptUnit → List String
  | [] => []
  | u :: us =>
    let bound := bound || !u.created.isEmpty
    (if bound then u.anchor.className?.toList else []) ++ listedClasses bound us

/-- In the function of a class the calls of the parents come first, then the tags of which an
element is created, and then the lines that put it into the class. -/
theorem ScriptUnit.exists_classListLines {u : ScriptUnit} {name : String} (h : u.anchor = .byClass name) :
    ∃ members rest, u.render = u.head ++ String.join (u.chain.map callLine) ++
      String.join (u.created.map creationGuard) ++ members ++ classListLines name ++ rest := by
  obtain ⟨rest, hs⟩ : ∃ rest, u.surfaceText = classListLines name ++ rest := by
    rw [surfaceText, h, block]
    exact ⟨_, by simp only [classListLines, String.append_assoc]; rfl⟩
  refine ⟨u.aliasText ++ u.memberText ++ u.publishedText, ?_⟩
  rw [render_eq, tail, hs]
  exact ⟨_, by simp only [String.append_assoc]; rfl⟩

namespace UnitContext

variable {ctx : UnitContext} {cs : List ClassDef} {us : List ScriptUnit}

theorem listedClasses_bound (h : Forall₂ (fun c v => ∃ p, ctx.Builds (.ofClass c) p v) cs us) :
    listedClasses true us = cs.map ClassDef.name := by
  induction h with
  | nil => rfl
  | cons hv _ ih =>
    obtain ⟨p, hb⟩ := hv
    rw [listedClasses, Bool.true_or, ih, hb.anchor_eq]
    rfl

/-- With no element bound before, the classes are listed from the first one on that has a tag. -/
theorem listedClasses_unbound (h : Forall₂ (fun c v => ∃ p, ctx.Builds (.ofClass c) p v) cs us) :
    listedClasses false us = (cs.dropWhile fun c => !c.parents.any isTag).map ClassDef.name := by
  induction h with
  | nil => rfl
  | @cons c v cs us hv hs ih =>
    obtain ⟨p, hb⟩ := hv
    have hc : (!v.created.isEmpty) = c.parents.any isTag := by
      rw [hb.created_eq, Bool.eq_iff_iff]
      simp [createdTags, UnitPlan.ofClass]
    rw [listedClasses, Bool.false_or, hc, dropWhile_cons, hb.anchor_eq]
    cases c.parents.any isTag with
    | true =>
      rw [listedClasses_bound hs]
      rfl
    | false => exact ih

end UnitContext

/-- The classes and the rules that decide how an element of a class looks. -/
structure Script.HasEffectiveStyle (s : Script) (t : ClassTable) (c : ClassDef) (after : List ClassDef) :
    Prop where
  /-- The functions of the class and of its ancestors are executed, in the order of the visits, and each has the lines that put
  the element into its class. So it is put into all of them if one is bound before, and else into those from the first one on
  that has a tag among its parents. -/
  classes : ∃ u ∈ s.units, u.anchor = .byClass c.name ∧ ∃ run cs, (∀ run', s.Runs u.chain run' ↔ run' = run) ∧
    t.Visits [c.name] cs ∧ (∀ d, d ∈ cs ↔ d ∈ t.withAncestors c.name) ∧
    (∀ v ∈ run ++ [u], ∃ name, v.anchor = .byClass name ∧
      ∃ members rest, v.render = v.head ++ String.join (v.chain.map callLine) ++
        String.join (v.created.map creationGuard) ++ members ++ classListLines name ++ rest) ∧
    listedClasses true (run ++ [u]) = cs.map ClassDef.name ∧
    listedClasses false (run ++ [u]) = (cs.dropWhile fun d => !d.parents.any isTag).map ClassDef.name
  /-- Every property is resolved to a value or to none. -/
  resolved : (t.resolveStyles.lookup c.name).isSome = true
  /-- An ancestor that is declared behind the class and has the property decides, the last one of them. -/
  value_eq : ∀ key, effectiveValue? (t.rules t.resolveStyles) ((t.withAncestors c.name).map ClassDef.name) key =
    (after.reverse.findSome? fun d => if d.name ∈ (t.withAncestors c.name).map ClassDef.name then
      t.resolvedValue? key d.name else none).or (t.resolvedValue? key c.name)
  /-- Where there is none, the property has the value that is resolved for the class. -/
  agrees : ∀ key, (∀ d ∈ after, d.name ∈ (t.withAncestors c.name).map ClassDef.name →
    t.resolvedValue? key d.name = none) →
    effectiveValue? (t.rules t.resolveStyles) ((t.withAncestors c.name).map ClassDef.name) key =
      t.resolvedValue? key c.name

theorem PageSource.hasEffectiveStyle {text : List Char} {src : PageSource} {script : Script}
    (hr : readChecked text = .ok src) (hs : src.script = .ok script) (hl : src.table.classes = before ++ c :: after) :
    script.HasEffectiveStyle src.table c after := by
  have ho := isSound hr
  have ht := ho.noTags
  have hc : c ∈ src.table.classes := by simp [hl]
  obtain ⟨called, he⟩ := forall₂_executes hr hs
  obtain ⟨u, hu, -, cs, run, hru⟩ := exists_of_mem_left he (src.mem_families.1 c hc)
  obtain ⟨p, hb⟩ := hru.builds
  have ha : u.anchor = .byClass c.name := hb.anchor_eq
  have hi : src.table.Visits [c.name] (cs ++ [c]) := .visit hc hru.visits .nil
  have hf := rel_append hru.classes (.cons ⟨p, hb⟩ .nil)
  have hva := ClassTable.effectiveValue?_withAncestors ho hl
  refine ⟨⟨u, hu, ha, run, cs ++ [c], runs_iff hs hru.runs, hi, fun d => ?_, fun v hv => ?_, ?_, ?_⟩, ?_, hva, ?_⟩
  · rw [hi.mem_iff ht, ClassTable.mem_lineage_singleton ht hc]
  · obtain ⟨d, -, q, hv⟩ := exists_of_mem_left hf.flip hv
    exact ⟨d.name, hv.anchor_eq, ScriptUnit.exists_classListLines hv.anchor_eq⟩
  · exact UnitContext.listedClasses_bound hf
  · exact UnitContext.listedClasses_unbound hf
  · obtain ⟨styles, hca⟩ := ClassTable.exists_isCascade ho.wellFounded
    rw [ClassTable.lookup_resolveStyles ho.wellFounded hca hc]
    rfl
  · intro key hno
    have hf : (after.reverse.findSome? fun d =>
        if d.name ∈ (src.table.withAncestors c.name).map ClassDef.name then
          src.table.resolvedValue? key d.name else none) = none := by
      refine findSome?_eq_none_iff.2 fun d hd => ?_
      split
      · next hd' => exact hno d (mem_reverse.1 hd) hd'
      · rfl
    rw [hva, hf, Option.none_or]

/-- **Effective styles.** In a compiled page, of the rules for a class and its ancestors the last
one that declares a property is that of the last ancestor declared behind the class that has it, and
else that of the class itself, which gives it the value resolved for the class. -/
theorem compileText_effective_style {text : List Char} {links : HeadLinks} {out : PageOutput}
    (h : compileText text links = .ok out) :
    ∃ source script, PageSource.readChecked text = .ok source ∧ source.script = .ok script ∧
      out.behavior = script.render ∧
      out.stylesheet = String.join ((source.table.rules source.table.resolveStyles).map Rule.render) ∧
      ∀ before c after, source.table.classes = before ++ c :: after →
        script.HasEffectiveStyle source.table c after := by
  obtain ⟨source, script, hread, hscript, rfl⟩ := compileText_eq_ok_iff.1 h
  refine ⟨source, script, hread, hscript, rfl, rfl, ?_⟩
  intro before c after hclasses
  exact PageSource.hasEffectiveStyle hread hscript hclasses

/-- A class that overrides a property of its parent, which is declared before it. -/
def parentFirst : List Char :=
  ("class P extends div\x7bstyle\x7bcolor: blue; margin: 0;\x7d\x7d" ++
    "class C extends P\x7bstyle\x7bcolor: red;\x7d\x7d").toList

/-- The overriding value is effective, and so is the value inherited. -/
theorem compileText_effective_style_parentFirst :
    ∃ out source script, compileText parentFirst ⟨"page.js", "page.css"⟩ = .ok out ∧
      PageSource.readChecked parentFirst = .ok source ∧ source.script = .ok script ∧
      out.behavior = script.render ∧
      out.stylesheet = String.join ((source.table.rules source.table.resolveStyles).map Rule.render) ∧
      (∃ p c, source.table.classes = [p, c] ∧ script.HasEffectiveStyle source.table c []) ∧
      effectiveValue? (source.table.rules source.table.resolveStyles)
        ((source.table.withAncestors "C").map ClassDef.name) "color" = some "red" ∧
      effectiveValue? (source.table.rules source.table.resolveStyles)
        ((source.table.withAncestors "C").map ClassDef.name) "margin" = some "0" := by
  have heval : CompilesWith parentFirst fun source _ => source.table.names = ["P", "C"] ∧
        source.table.resolvedValue? "color" "C" = some "red" ∧
        source.table.resolvedValue? "margin" "C" = some "0" := by
    decide +kernel
  obtain ⟨source, script, out, hread, hscript, hout, ⟨hnames, hcolor, hmargin⟩, hbehavior, hsheet, hstyles⟩ :=
    heval.exists_and ⟨"page.js", "page.css"⟩ fun _ => compileText_effective_style
  obtain ⟨p, rest, hclasses, hp, hrest⟩ := map_eq_cons_iff.1 hnames
  obtain ⟨c, rest, rfl, hc, hrest⟩ := map_eq_cons_iff.1 hrest
  rw [map_eq_nil_iff.1 hrest] at hclasses
  have hstyle := hstyles [p] c [] hclasses
  refine ⟨out, source, script, hout, hread, hscript, hbehavior, hsheet, ⟨p, c, hclasses, hstyle⟩, ?_, ?_⟩
  · rw [← hcolor, ← hc]
    exact hstyle.agrees "color" nofun
  · rw [← hmargin, ← hc]
    exact hstyle.agrees "margin" nofun

/-- A class that overrides a property of its parent, which is declared behind it. -/
def parentLast : List Char :=
  ("class C extends P\x7bstyle\x7bcolor: red;\x7d\x7d" ++
    "class P extends div\x7bstyle\x7bcolor: blue;\x7d\x7d").toList

/-- The value of the parent is effective, not the value that is resolved for the class. -/
theorem compileText_effective_style_differs :
    ∃ out source, compileText parentLast ⟨"page.js", "page.css"⟩ = .ok out ∧
      PageSource.readChecked parentLast = .ok source ∧
      out.stylesheet = String.join ((source.table.rules source.table.resolveStyles).map Rule.render) ∧
      source.table.resolvedValue? "color" "C" = some "red" ∧
      effectiveValue? (source.table.rules source.table.resolveStyles)
        ((source.table.withAncestors "C").map ClassDef.name) "color" = some "blue" := by
  have heval : CompilesWith parentLast fun source _ => source.table.resolvedValue? "color" "C" = some "red" ∧
        effectiveValue? (source.table.rules source.table.resolveStyles)
          ((source.table.withAncestors "C").map ClassDef.name) "color" = some "blue" := by
    decide +kernel
  obtain ⟨source, script, hread, -, hout, hfacts⟩ := heval.exists_output ⟨"page.js", "page.css"⟩
  exact ⟨_, source, hout, hread, rfl, hfacts⟩

end Pagewright
