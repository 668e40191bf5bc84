import Pagewright.Proofs.Handles
import Pagewright.Proofs.Inheritance

/-!
# Names of children in bodies

A unit of the page keeps the nearest instances with a unit in its capsule, but its bodies are
written with the names of the instances directly inside (`ClassTable.get?_ambient_ofInstance`). Such
an instance is found in the capsule unless something is assigned under its name. A name that comes
up from farther below is written as if no instance had it (`compileText_children_reached`,
`compileText_children_missed`). -/

namespace Pagewright

open Pagewright.Tree

variable {node : Node}

/-! ### Ambient names of an instance -/

/-- An instance as a class of its own, with some instances inside. -/
def Instance.asClass (own : Instance) (children : List Node) : ClassDef where
  name := own.scope
  style := own.style
  attributes := own.attributes
  members := own.members
  children

/-- How a name is reached that some entries inherit or every instance has. -/
def ClassTable.inherited? (t : ClassTable) (entries : List String) (x : String) : Option Access :=
  ((t.lineage entries).reverse.findSome? (·.exposed? x)).or (if x ∈ fixedNames then some .direct else none)

/-- How a name is reached in an instance, whatever instances are inside it. -/
def ClassTable.declared? (t : ClassTable) (own : Instance) (x : String) : Option Access :=
  if x ∈ own.members.privateTier.names then none
  else if x ∈ own.assignments.keys then some .direct
  else ((own.asClass []).exposed? x).or (t.inherited? own.entries x)

theorem ClassTable.get?_ambient_ofInstance (t : ClassTable) (own : Instance) (children : List Node)
    (anchor : Anchor) (x : String) :
    (t.ambient (.ofInstance own (instanceNames children) anchor)).get? x = if x ∈ own.members.privateTier.names then none
      else if x ∈ own.assignments.keys then some .direct else ((own.asClass children).exposed? x).or (t.inherited? own.entries x) := by
  have he := fun a : Ambient => a.get?_expose (own.asClass children) x
  simp only [Instance.asClass] at he
  simp only [ambient, UnitPlan.ofInstance, Ambient.get?_hideAll, Ambient.get?_putAll, he, Ambient.get?_foldl_expose, inherited?]
  rfl

section Exposed

variable {own : Instance} {children : List Node} {x scope : String}

theorem Instance.exposed?_of_mem (h : x ∈ instanceNames children) : (own.asClass children).exposed? x = some .capsule := by
  exact if_pos h

theorem Instance.exposed?_of_not_mem (h : x ∉ instanceNames children) :
    (own.asClass children).exposed? x = (own.asClass []).exposed? x := by
  have ho : x ∉ instanceNames (own.asClass children).children := h
  rw [ClassDef.exposed?, if_neg ho]
  rfl

theorem not_mem_private_of_checkNames {members : Members} {style : PropertyMap}
    (h : checkNames scope members style children = .ok ()) (hx : x ∈ instanceNames children) : x ∉ members.privateTier.names := by
  intro hm
  have hd := (List.nodup_append.1 (nodup_of_checkNames h)).2.2
  simp only [List.mem_append] at hd
  exact hd x (.inl (.inl (.inl (.inl hm)))) x hx rfl

end Exposed

/-! ### Reached and missed -/

/-- How the bodies of a unit reach the instances that the unit keeps, where `node` is its
instance. -/
structure ScriptUnit.ReachesChildren (u : ScriptUnit) (t : ClassTable) (node : Node) : Prop where
  capsuleNames_eq : u.capsuleNames = handleNamesAll node.children
  reached : ∃ ambient, u.Writes ambient node.label.members ∧
    -- An instance directly inside is hidden by nothing but an assignment.
    (∀ x ∈ instanceNames node.children, ambient.get? x =
      if x ∈ node.label.assignments.keys then some .direct else some .capsule) ∧
    -- Any other name is reached as if nothing were kept under it.
    (∀ x ∉ instanceNames node.children, ambient.get? x = t.declared? node.label x) ∧
    ((∀ x ∈ u.capsuleNames, x ∉ node.label.members.privateTier.names → ambient.get? x = some .capsule) ↔
      ∀ x ∈ u.capsuleNames, x ∉ node.label.members.privateTier.names →
        x ∉ node.label.assignments.keys ∧
          (x ∈ instanceNames node.children ∨ t.declared? node.label x = some .capsule))

theorem ClassTable.get?_ambient_of_checkNames (t : ClassTable) (anchor : Anchor) (h : HasCheckedNames node) (x : String) :
    (t.ambient (.ofInstance node.label (instanceNames node.children) anchor)).get? x = if x ∈ instanceNames node.children then
        if x ∈ node.label.assignments.keys then some .direct else some .capsule else t.declared? node.label x := by
  rw [get?_ambient_ofInstance]
  by_cases hx : x ∈ instanceNames node.children
  · rw [if_pos hx, if_neg (not_mem_private_of_checkNames h hx), Instance.exposed?_of_mem hx, Option.some_or]
  · rw [if_neg hx, Instance.exposed?_of_not_mem hx, declared?]

theorem ScriptUnit.reachesChildren {t : ClassTable} {anchor : Anchor} {u : ScriptUnit}
    (hc : HasCheckedNames node) (ha : u.capsuleNames = handleNamesAll node.children)
    (hw : u.Writes (t.ambient (.ofInstance node.label (instanceNames node.children) anchor))
      node.label.members) : u.ReachesChildren t node := by
  have hg := fun x => t.get?_ambient_of_checkNames anchor hc x
  have hd : ∀ x ∈ instanceNames node.children, (t.ambient (.ofInstance node.label (instanceNames node.children) anchor)).get? x =
        if x ∈ node.label.assignments.keys then some .direct else some .capsule := by
    intro x hx
    rw [hg, if_pos hx]
  have ho : ∀ x ∉ instanceNames node.children,
      (t.ambient (.ofInstance node.label (instanceNames node.children) anchor)).get? x = t.declared? node.label x := by
    intro x hx
    rw [hg, if_neg hx]
  refine ⟨ha, _, hw, hd, ho, forall₂_congr fun x _ => forall_congr' fun hp => ?_⟩
  by_cases hx : x ∈ instanceNames node.children
  · rw [hd x hx]
    by_cases hk : x ∈ node.label.assignments.keys <;> simp [hx, hk]
  · rw [ho x hx]
    by_cases hk : x ∈ node.label.assignments.keys
    · simp [ClassTable.declared?, hp, hk]
    · simp [hx, hk]

/-- **Names of children.** In a compiled page every unit that is bound to the markup is that of an
instance of the page. It keeps the nearest instances inside that have a unit, and its bodies are
written with ambient names in which an instance directly inside is found in the capsule unless
something is assigned under its name. A name that comes up from farther below is found in the
capsule only if the instance declares or inherits the name otherwise. -/
theorem compileText_children_reached {text : List Char} {links : HeadLinks} {out : PageOutput}
    (h : compileText text links = .ok out) :
    ∃ source script, PageSource.readChecked text = .ok source ∧ source.script = .ok script ∧
      out.behavior = script.render ∧
      ∀ u ∈ script.units, ∀ id, u.anchor = .byMarkup id → ∃ s ∈ source.bearing,
        s.2.label.id? = some id ∧ u.ReachesChildren source.table (s.2.map Placed.toInstance) := by
  obtain ⟨source, script, hread, hscript, rfl⟩ := compileText_eq_ok_iff.1 h
  refine ⟨source, script, hread, hscript, rfl, fun u hu id hid => ?_⟩
  obtain ⟨called, hfamilies⟩ := PageSource.exists_family hscript
  obtain ⟨plan, plans, hfamily, hunit⟩ := hfamilies u hu
  have hcapsule := hunit.capsuleNames_eq
  obtain ⟨p, hbuilds⟩ := hunit.builds
  obtain ⟨s, hs, hnumber, hplan, hmet⟩ := hfamily.exists_placed (hbuilds.anchor_eq.symm.trans hid)
  have hwrites := hbuilds.writes
  have hchecked := ((PageSource.passes hread).2 _ (PageSource.mem_sitesAll_of_mem_bearing hs)).names
  rw [hplan, planOf_eq] at hwrites
  exact ⟨s, hs, hnumber, ScriptUnit.reachesChildren hchecked (hcapsule.trans hmet) hwrites⟩

theorem Method.exists_bare {amb : Ambient} {ms : List Method} {fs : List ScriptFunction}
    (h : List.Forall₂ (Method.Becomes amb) ms fs) {m : Method} (hm : m ∈ ms) {x : Fragment.Identifier}
    {access : Access} (hb : m.body.toList = Fragment.print [.expression (.operand (.name x))])
    (hp : x.text ∉ m.paramNames) (hx : amb.get? x.text = some access) :
    ∃ f ∈ fs, f.name = m.name ∧ f.body.toList = (access.qualify x.text).toList ++ [';'] := by
  obtain ⟨f, hf, hn, -, hw⟩ := exists_of_mem_left h hm
  exact ⟨f, hf, hn, hw.bare hb hp hx⟩

/-- A page with a method that reads a child by its name. -/
def childRead : List Char :=
  "div as r\x7bp\x7bi\x7b\x7d\x7di as x\x7b\x7dpublic\x7bm()\x7bx;\x7d\x7d\x7d".toList

/-- The child is read from the capsule. -/
theorem compileText_children_reached_childRead :
    ∃ out source script u, compileText childRead ⟨"page.js", "page.css"⟩ = .ok out ∧
      PageSource.readChecked childRead = .ok source ∧ source.script = .ok script ∧
      out.behavior = script.render ∧ u ∈ script.units ∧ u.anchor = .byMarkup 1 ∧ "x" ∈ u.capsuleNames ∧
      ∃ f ∈ u.publicMethods, f.name = "m" ∧ f.body.toList = "__self.__protected.x;".toList := by
  have heval : CompilesWith childRead fun source script => (∃ u ∈ script.units, u.anchor = .byMarkup 1 ∧
          "x" ∈ u.capsuleNames) ∧
        ∀ s ∈ source.bearing, s.2.label.id? = some 1 →
          instanceNames (s.2.map Placed.toInstance).children = ["x"] ∧
            (s.2.map Placed.toInstance).label.assignments.keys = [] ∧
            ∃ m ∈ (s.2.map Placed.toInstance).label.members.publicTier.methods,
              m.name = "m" ∧ m.body = "x;" ∧ m.paramNames = [] := by
    set_option synthInstance.maxSize 256 in
    decide +kernel
  obtain ⟨source, script, out, hread, hscript, hout, ⟨⟨u, hu, hanchor, hkept⟩, hnode⟩, hbehavior, hunits⟩ :=
    heval.exists_and ⟨"page.js", "page.css"⟩ fun _ => compileText_children_reached
  obtain ⟨s, hs, hid, -, ambient, hwrites, hdirect, -, -⟩ := hunits u hu 1 hanchor
  obtain ⟨hnames, hkeys, m, hm, hname, hbody, hparams⟩ := hnode s hs hid
  have hcapsule : ambient.get? "x" = some .capsule := by
    rw [hdirect "x" (by rw [hnames]; exact List.mem_cons_self), hkeys]
    rfl
  obtain ⟨f, hf, hfname, hwritten⟩ := Method.exists_bare hwrites.publicMethods hm (x := readX)
    (by rw [hbody]; rfl) (by rw [hparams]; exact List.not_mem_nil) hcapsule
  exact ⟨out, source, script, u, hout, hread, hscript, hbehavior, hu, hanchor, hkept, f, hf,
    hfname.trans hname, hwritten⟩

/-- A page with a method that reads an instance farther below by its name. -/
def grandchildRead : List Char :=
  "div as r\x7bp\x7bi as a\x7b\x7d\x7dpublic\x7bm()\x7ba;\x7d\x7d\x7d".toList

/-- A page with a method that reads a child by its name, under which something is assigned, too. -/
def assignedChildRead : List Char :=
  "div as r\x7ba=1;i as a\x7b\x7dpublic\x7bm()\x7ba;\x7d\x7d\x7d".toList

/-- In both pages the unit keeps an instance in its capsule under the name, hides it by no private
member, and reads something else. -/
theorem compileText_children_missed :
    (∃ source script u, PageSource.readChecked grandchildRead = .ok source ∧ source.script = .ok script ∧
      u ∈ script.units ∧ u.anchor = .byMarkup 1 ∧ u.capsuleNames = ["a"] ∧ u.privateVariables = [] ∧
      u.privateMethods = [] ∧ u.publicMethods = [⟨"m", [], "a;"⟩]) ∧
    ∃ source script u, PageSource.readChecked assignedChildRead = .ok source ∧ source.script = .ok script ∧
      u ∈ script.units ∧ u.anchor = .byMarkup 1 ∧ u.capsuleNames = ["a"] ∧ u.privateVariables = [] ∧
      u.privateMethods = [] ∧ u.publicMethods = [⟨"m", [], "__self.a;"⟩] := by
  exact ⟨CompilesWith.exists_unit (by decide +kernel), CompilesWith.exists_unit (by decide +kernel)⟩

end Pagewright
