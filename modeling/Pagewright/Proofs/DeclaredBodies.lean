import Pagewright.Proofs.WrittenLiterals

/-!
# Declared bodies

The units of a script belong one by one to the classes, the instances inside classes and the
instances of the page that need a unit (`PageSource.forall₂_owners`). Every method, handler and
constructor declared there is written as the function it is meant to be (`ScriptUnit.WritesBody`),
and of the accessors of one name the first is. So no body is lost exactly where accessors of one
kind have different names (`compileText_declared_bodies_written`); the check of names lets others
pass, too (`compileText_second_getter_left_out`). -/

namespace Pagewright

open List Pagewright.Tree
open String (ofList)

variable {m : Method} {part text : String} {kind : BodyKind} {u : ScriptUnit}

/-! ### Owners of units -/

/-- What a unit belongs to. -/
inductive Owner where
  | ofClass (c : ClassDef)
  /-- An instance inside a class. -/
  | inside (own : Instance)
  /-- An instance of the page. -/
  | page (own : Instance)

namespace Owner

/-- The parents of a class, or the entries of an instance. -/
def entries : Owner → List String
  | ofClass c => c.parents
  | inside own | page own => own.entries

def members : Owner → Members
  | ofClass c => c.members
  | inside own | page own => own.members

/-- What the unit of an owner is bound to. -/
def HasAnchor : Owner → Anchor → Prop
  | ofClass c, anchor => anchor = .byClass c.name
  | inside _, anchor => anchor.isCreation = true
  | page _, anchor => anchor.markupId?.isSome = true

/-- The plan is that of the unit of an owner. -/
structure HasPlan (owner : Owner) (plan : UnitPlan) : Prop where
  entries_eq : plan.entries = owner.entries
  members_eq : plan.members = owner.members
  anchor : owner.HasAnchor plan.anchor

end Owner

namespace PageSource

variable (source : PageSource)

/-- All that has a unit, in order: each class with the instances inside it, then the instances of
the page that need one. -/
def owners : List Owner :=
  source.table.classes.flatMap (fun c => .ofClass c :: (labelsAll c.children).map .inside) ++
    ((labelsAll source.page.nodes).filter Instance.needsUnit).map .page

variable {source}

theorem page_mem_owners {own : Instance} (ho : own ∈ labelsAll source.page.nodes) {inCtor : Bool}
    (hm : own.members.HasBody inCtor m) : .page own ∈ source.owners := by
  have hn : own.needsUnit := by simp [Instance.needsUnit, hm.isEmpty_eq]
  exact mem_append_right _ (mem_map_of_mem (mem_filter.2 ⟨ho, hn⟩))

theorem forall₂_inside (nodes : List PlacedNode) :
    Forall₂ Owner.HasPlan ((labelsAll (mapAll Placed.toInstance nodes)).map .inside) (bodyPlans nodes) := by
  rw [← map_label_sitesAll [] 0, sitesAll_mapAll, bodyPlans, map_map, map_map, forall₂_map_left_iff, forall₂_map_right_iff, forall₂_same]
  intro s _
  rw [planOf_eq]
  exact ⟨rfl, rfl, rfl⟩

theorem forall₂_classes {cs : List ClassDef} {bodies : List (List PlacedNode)}
    (h : bodies.map (mapAll Placed.toInstance) = cs.map ClassDef.children) :
    Forall₂ Owner.HasPlan (cs.flatMap fun c => .ofClass c :: (labelsAll c.children).map .inside)
      ((zipWith classFamilies cs bodies).flatten.map Prod.fst) := by
  induction cs generalizing bodies with
  | nil => exact .nil
  | cons c cs ih =>
    cases bodies with
    | nil => cases h
    | cons nodes bodies =>
      obtain ⟨hn, hb⟩ := cons.inj h
      rw [flatMap_cons, zipWith_cons_cons, flatten_cons, map_append, map_fst_classFamilies, ← hn]
      exact rel_append (.cons ⟨rfl, rfl, rfl⟩ (forall₂_inside nodes)) (ih hb)

theorem forall₂_page : Forall₂ Owner.HasPlan (((labelsAll source.page.nodes).filter Instance.needsUnit).map .page)
      (source.bearing.map fun s => planOf .byMarkup s.2) := by
  have hl : (labelsAll source.page.nodes).filter Instance.needsUnit = source.bearing.map fun s => (s.2.map Placed.toInstance).label := by
    rw [← source.mapAll_toInstance_settledPage, ← map_label_sitesAll [] 0, sitesAll_mapAll, map_map, filter_map]
    refine congrArg (List.map _) (filter_congr fun s _ => ?_)
    obtain ⟨a, own, children⟩ := s
    rfl
  rw [hl, map_map, forall₂_map_left_iff, forall₂_map_right_iff, forall₂_same]
  intro s _
  rw [planOf_eq]
  exact ⟨rfl, rfl, rfl⟩

theorem forall₂_owners (source : PageSource) : Forall₂ Owner.HasPlan source.owners (source.families.map Prod.fst) := by
  rw [families_eq, map_append]
  refine rel_append (forall₂_classes source.settledBodies_spec.2.2.2) ?_
  rw [nearestFamilies, map_map]
  exact forall₂_page

end PageSource

/-! ### Bodies in a unit -/

theorem isPart_iff_toList : IsPart part text ↔ part.toList <:+: text.toList := by
  constructor
  · rintro ⟨pre, post, rfl⟩
    exact ⟨pre.toList, post.toList, by simp⟩
  · rintro ⟨pre, post, h⟩
    exact ⟨ofList pre, ofList post, String.toList_inj.1 (by simp [h])⟩

/-- The kinds of body. -/
inductive BodyKind where
  | constructor
  | privateMethod
  | protectedMethod
  | publicMethod
  | getter
  | setter
  | handler
deriving DecidableEq

namespace Members

/-- The bodies of a kind that are declared. -/
def declared (members : Members) : BodyKind → List Method
  | .constructor => members.constructor?.toList
  | .privateMethod => members.privateTier.methods
  | .protectedMethod => members.protectedTier.methods
  | .publicMethod => members.publicTier.methods
  | .getter => members.getters
  | .setter => members.setters
  | .handler => members.handlers

theorem hasBody_of_mem_declared {members : Members} (h : m ∈ members.declared kind) :
    members.HasBody (kind = .constructor) m := by
  cases kind with
  | constructor => exact Option.mem_toList.1 h
  | privateMethod => exact .inl h
  | protectedMethod => exact .inr (.inl h)
  | publicMethod => exact .inr (.inr (.inl h))
  | getter => exact .inr (.inr (.inr (.inl h)))
  | setter => exact .inr (.inr (.inr (.inr (.inl h))))
  | handler => exact .inr (.inr (.inr (.inr (.inr h))))

/-- The body counts: of the accessors of one name the first does. -/
def Counts (members : Members) (kind : BodyKind) (m : Method) : Prop :=
  match kind with
  | .getter | .setter => (members.declared kind).find? (·.name = m.name) = some m
  | _ => m ∈ members.declared kind

theorem counts_of_nodup {members : Members} (hg : (members.getters.map Method.name).Nodup)
    (hs : (members.setters.map Method.name).Nodup)
    (hm : m ∈ members.declared kind) : members.Counts kind m := by
  cases kind with
  | getter => exact find?_of_nodup hg hm
  | setter => exact find?_of_nodup hs hm
  | _ => exact hm

end Members

namespace ScriptUnit

variable (u : ScriptUnit) {f : ScriptFunction}

/-- The unit writes a body as the function it is meant to be: the constructor as its last work, the
others under their names. -/
def WritesBody (kind : BodyKind) (m : Method) (body : String) : Prop :=
  match kind with
  | .constructor => u.params = m.params ∧ IsPart (ofList (u.layout (trimString body).toList)) u.render
  | .privateMethod => IsPart (functionDeclaration 1 ⟨m.name, m.params, body⟩) u.render
  | .protectedMethod => IsPart (methodText capsuleText [⟨m.name, m.params, body⟩]) u.render
  | .publicMethod => IsPart (methodText selfName [⟨m.name, m.params, body⟩]) u.render
  | .getter => ∃ setter?, IsPart (defineProperty 1 m.name (some (functionText 2 [] body)) setter?) u.render
  | .setter => ∃ getter?, IsPart (defineProperty 1 m.name getter? (some (functionText 2 m.params body))) u.render
  | .handler => IsPart (line 2 (elementText ++ ".addEventListener(" ++ scriptString m.name ++ ", " ++
      functionText 2 m.params body ++ ");")) u.render

variable {u}

theorem isPart_methodText (holder : String) {methods : List ScriptFunction} (h : f ∈ methods) :
    IsPart (methodText holder [f]) (methodText holder methods) := by
  obtain ⟨front, back, rfl⟩ := append_of_mem h
  exact ⟨methodText holder front, methodText holder back, by simp [methodText, String.append_assoc]⟩

theorem isPart_render_of_memberText (h : part ∈ u.privateMethods.map (functionDeclaration 1) ∨
    IsPart part (methodText capsuleText u.protectedMethods) ∨ IsPart part (methodText selfName u.publicMethods)) :
    IsPart part u.render := by
  refine isPart_render (.inr (.inr (.inl ?_)))
  rw [memberText]
  rcases h with h | h | h
  · exact ((((isPart_join_of_mem h).within _ _).append_right _).append_right _).append_right _
  · exact (h.within _ _).append_right _
  · have hp := fun pre => h.within pre ""
    simpa only [String.append_empty] using hp _

theorem isPart_render_of_surface (h : IsPart part u.accessorText ∨ IsPart part u.handlerText) : IsPart part u.render := by
  rcases h with h | h
  · exact ((((((h.within _ _).append_right _).append_right _).append_right _).append_right _).append_right _).append_right _
  · exact (((((h.within _ _).append_right _).append_right _).append_right _).append_right _).append_right _

theorem isPart_handlerText (h : f ∈ u.handlers) :
    IsPart (line 2 (elementText ++ ".addEventListener(" ++ scriptString f.name ++ ", " ++
      functionText 2 f.params f.body ++ ");")) u.handlerText := by
  have hn : u.handlers.isEmpty = false := isEmpty_eq_false_iff.2 (ne_nil_of_mem h)
  rw [handlerText, hn]
  exact (isPart_join_of_mem (mem_map.2 ⟨f, h, rfl⟩)).within _ _

theorem isPart_accessorText {a : Accessor} (h : a ∈ u.accessors) :
    IsPart (defineProperty 1 a.name (a.getter?.map (functionText 2 []))
      (a.setter?.map fun f => functionText 2 f.params f.body)) u.accessorText :=
  isPart_join_of_mem (mem_map_of_mem h)

end ScriptUnit

/-! ### The accessors of a unit -/

section Accessors

variable {getters setters fs : List ScriptFunction} {ns : List String}

theorem length_eraseDups_eq_iff : ns.eraseDups.length = ns.length ↔ ns.Nodup := by
  constructor
  · intro hl
    rw [← (eraseDups_spec ns).2.eq_of_length hl]
    exact (eraseDups_spec ns).1
  · intro hn
    exact ((perm_ext_iff_of_nodup (eraseDups_spec ns).1 hn).2 fun name => mem_eraseDups).length_eq

theorem length_filterMap_find? {α : Type} (hn : ∀ f ∈ fs, f.name ∈ ns) (g : ScriptFunction → α) :
    (ns.eraseDups.filterMap fun name => (fs.find? (·.name = name)).map g).length = (fs.map ScriptFunction.name).eraseDups.length := by
  have ho (name : String) : ((fs.find? (·.name = name)).map g).isSome ↔ name ∈ fs.map ScriptFunction.name := by
    simp [find?_isSome]
  rw [length_filterMap_eq_countP, countP_eq_length_filter]
  refine ((perm_ext_iff_of_nodup ((eraseDups_spec ns).1.filter _) (eraseDups_spec _).1).2 fun name => ?_).length_eq
  rw [mem_filter, ho, mem_eraseDups, mem_eraseDups]
  refine ⟨And.right, fun ha => ⟨?_, ha⟩⟩
  obtain ⟨f, hf, rfl⟩ := mem_map.1 ha
  exact hn f hf

theorem length_getters_accessorsOf : ((accessorsOf getters setters).filterMap Accessor.getter?).length =
    (getters.map ScriptFunction.name).eraseDups.length := by
  rw [accessorsOf, filterMap_map]
  exact length_filterMap_find? (fun f hf => mem_map_of_mem (mem_append_left _ hf)) ScriptFunction.body

theorem length_setters_accessorsOf : ((accessorsOf getters setters).filterMap Accessor.setter?).length =
    (setters.map ScriptFunction.name).eraseDups.length := by
  have hn : ∀ f ∈ setters, f.name ∈ (getters ++ setters).map ScriptFunction.name := fun f hf =>
    mem_map_of_mem (mem_append_right _ hf)
  have hl := length_filterMap_find? hn id
  simp only [Option.map_id_fun, id] at hl
  rw [accessorsOf, filterMap_map]
  exact hl

end Accessors

/-! ### What becomes of declared bodies -/

namespace UnitContext.IsUnit

variable {ctx : UnitContext} {plan : UnitPlan} {plans : List UnitPlan} {u : ScriptUnit} {s : Source}

theorem writes_constructor (h : ctx.IsUnit (plan, plans) u) (hp : plan.ReadFrom s) (hm : plan.members.constructor? = some m) :
    ∃ body, (ctx.bodies plan).prepare true m = .ok body ∧ u.WritesBody .constructor m (ofList body.text) := by
  obtain ⟨p, hb⟩ := h.builds
  obtain ⟨body, ho, hc⟩ := hb.prepares.constructor m hm
  have ha : u.params = m.params := by rw [h.keeps.params_eq, hm, Option.map_some, Option.getD_some]
  refine ⟨body, ho, ha, isPart_iff_toList.2 ?_⟩
  cases he : (trimString (ofList body.text)).isEmpty with
  | true =>
    rw [String.isEmpty_iff.1 he]
    unfold ScriptUnit.layout
    split_ifs
    all_goals exact nil_infix
  | false =>
    have hw : trimString (ofList body.text) ∈ u.workBody? := by
      simp [ScriptUnit.workBody?, hb.constructor_eq, hc, Option.filter_some, he]
    exact h.infix_render hp (ScriptUnit.spliced_mem_of_lastWork (.inr hw))

theorem writes (h : ctx.IsUnit (plan, plans) u) (hp : plan.ReadFrom s) (hm : plan.members.Counts kind m) : ∃ body,
      (ctx.bodies plan).prepare (kind = .constructor) m = .ok body ∧ u.WritesBody kind m (ofList body.text) := by
  obtain ⟨p, hb⟩ := h.builds
  have ha {f : ScriptFunction} (hf : f ∈ p.getters ++ p.setters) {getter? setter? : Option ScriptFunction}
      (hg : p.getters.find? (·.name = f.name) = getter?) (hs : p.setters.find? (·.name = f.name) = setter?) :
      IsPart (defineProperty 1 f.name (getter?.map fun f => functionText 2 [] f.body)
        (setter?.map fun f => functionText 2 f.params f.body)) u.render := by
    have hmm := mem_accessorsOf hf
    rw [← hb.accessors_eq, hg, hs] at hmm
    have hpa := ScriptUnit.isPart_render_of_surface (.inl (ScriptUnit.isPart_accessorText hmm))
    simpa only [Option.map_map, Function.comp_def] using hpa
  cases kind with
  | constructor => exact h.writes_constructor hp (Option.mem_toList.1 hm)
  | privateMethod =>
    obtain ⟨_, hf, body, ho, rfl⟩ := exists_of_mem_left hb.prepares.privateMethods hm
    rw [← hb.privateMethods_eq] at hf
    exact ⟨body, ho, ScriptUnit.isPart_render_of_memberText (.inl (mem_map_of_mem hf))⟩
  | protectedMethod =>
    obtain ⟨_, hf, body, ho, rfl⟩ := exists_of_mem_left hb.prepares.protectedMethods hm
    rw [← hb.protectedMethods_eq] at hf
    exact ⟨body, ho, ScriptUnit.isPart_render_of_memberText (.inr (.inl (ScriptUnit.isPart_methodText _ hf)))⟩
  | publicMethod =>
    obtain ⟨_, hf, body, ho, rfl⟩ := exists_of_mem_left hb.prepares.publicMethods hm
    rw [← hb.publicMethods_eq] at hf
    exact ⟨body, ho, ScriptUnit.isPart_render_of_memberText (.inr (.inr (ScriptUnit.isPart_methodText _ hf)))⟩
  | getter =>
    obtain ⟨f, hf, body, ho, rfl⟩ := BodyContext.exists_find?_of_isFunction hb.prepares.getters hm
    have hpa := ha (mem_append_left p.setters (mem_of_find?_eq_some hf)) hf rfl
    exact ⟨body, ho, _, hpa⟩
  | setter =>
    obtain ⟨f, hf, body, ho, rfl⟩ := BodyContext.exists_find?_of_isFunction hb.prepares.setters hm
    have hpa := ha (mem_append_right p.getters (mem_of_find?_eq_some hf)) rfl hf
    exact ⟨body, ho, _, hpa⟩
  | handler =>
    obtain ⟨_, hf, body, ho, rfl⟩ := exists_of_mem_left hb.prepares.handlers hm
    rw [← hb.handlers_eq] at hf
    have hpa := ScriptUnit.isPart_render_of_surface (.inr (ScriptUnit.isPart_handlerText hf))
    exact ⟨body, ho, hpa⟩

end UnitContext.IsUnit

/-- What becomes of the bodies of an owner in its unit. -/
structure UnitContext.KeepsBodies (ctx : UnitContext) (owner : Owner) (u : ScriptUnit) (plan : UnitPlan) : Prop where
  hasPlan : owner.HasPlan plan
  anchor_eq : u.anchor = plan.anchor
  /-- Every body that counts is prepared and written. -/
  counting : ∀ kind m, owner.members.Counts kind m → ∃ body,
    (ctx.bodies plan).prepare (kind = .constructor) m = .ok body ∧ u.WritesBody kind m (ofList body.text)
  /-- No body is lost, if accessors of one kind have different names. -/
  all : (owner.members.getters.map Method.name).Nodup → (owner.members.setters.map Method.name).Nodup →
    ∀ kind, ∀ m ∈ owner.members.declared kind, ∃ body,
      (ctx.bodies plan).prepare (kind = .constructor) m = .ok body ∧ u.WritesBody kind m (ofList body.text)
  /-- As many getters are written as are declared only if their names are different. -/
  getters : (u.accessors.filterMap Accessor.getter?).length = owner.members.getters.length ↔
    (owner.members.getters.map Method.name).Nodup
  setters : (u.accessors.filterMap Accessor.setter?).length = owner.members.setters.length ↔
    (owner.members.setters.map Method.name).Nodup

theorem UnitContext.IsUnit.keepsBodies {ctx : UnitContext} {owner : Owner} {plan : UnitPlan} {plans : List UnitPlan}
    {s : Source} (h : ctx.IsUnit (plan, plans) u) (hp : plan.ReadFrom s) (ho : owner.HasPlan plan) : ctx.KeepsBodies owner u plan := by
  obtain ⟨p, hb⟩ := h.builds
  have hc : ∀ kind m, owner.members.Counts kind m → ∃ body,
      (ctx.bodies plan).prepare (kind = .constructor) m = .ok body ∧ u.WritesBody kind m (ofList body.text) := by
    intro kind m hm
    rw [← ho.members_eq] at hm
    exact h.writes hp hm
  refine ⟨ho, hb.anchor_eq, hc, ?_, ?_, ?_⟩
  · intro hg hs kind m hm
    exact hc kind m (Members.counts_of_nodup hg hs hm)
  · have hn := BodyContext.map_name_of_isFunction hb.prepares.getters
    rw [hb.accessors_eq, length_getters_accessorsOf, hn, ← ho.members_eq, ← length_eraseDups_eq_iff, length_map]
  · have hn := BodyContext.map_name_of_isFunction hb.prepares.setters
    rw [hb.accessors_eq, length_setters_accessorsOf, hn, ← ho.members_eq, ← length_eraseDups_eq_iff, length_map]

theorem forall₂_trans {α β γ : Type} {R : α → β → Prop} {S : β → γ → Prop} {T : α → γ → Prop} {xs : List α}
    {ys : List β} {zs : List γ} (h : ∀ x, ∀ y ∈ ys, ∀ z, R x y → S y z → T x z) (hx : Forall₂ R xs ys)
    (hz : Forall₂ S ys zs) : Forall₂ T xs zs := by
  induction hx generalizing zs with
  | nil =>
    cases hz
    exact .nil
  | @cons x y xs ys hxy _ ih =>
    cases hz with
    | cons hy hz =>
      refine .cons (h x y mem_cons_self _ hxy hy) (ih (fun x' y' hy' => ?_) hz)
      exact h x' y' (mem_cons_of_mem y hy')

theorem Script.isPart_render_unit {script : Script} (h : u ∈ script.units) : IsPart u.render script.render := by
  have hu : IsPart u.render (String.join (script.units.map fun u => "\n" ++ u.render)) :=
    isPart_join_map h ⟨"\n", "", by rw [String.append_empty]⟩
  exact ((hu.within _ _).append_right _)

/-- **Declared bodies.** The units of an accepted source belong one by one to the classes, the
instances inside classes and the instances of the page that need a unit, which are all those with
bodies. Every method, handler and constructor is prepared and written in the unit of what declares
it, and so is the first getter and the first setter of each name. All getters are written if their
names are different, and only then, and likewise all setters. -/
theorem compileText_declared_bodies_written {text : List Char} {links : HeadLinks}
    {out : PageOutput} (h : compileText text links = .ok out) :
    ∃ source script called, PageSource.readChecked text = .ok source ∧ source.script = .ok script ∧
      out.behavior = script.render ∧ (∀ u ∈ script.units, IsPart u.render script.render) ∧
      (∀ own ∈ labelsAll source.page.nodes, ∀ kind, own.members.declared kind ≠ [] → .page own ∈ source.owners) ∧
      Forall₂ (fun owner u => ∃ plan,
        UnitContext.KeepsBodies ⟨source.table, source.text, called⟩ owner u plan) source.owners script.units := by
  obtain ⟨source, script, hread, hscript, rfl⟩ := compileText_eq_ok_iff.1 h
  obtain ⟨called, hunits, -⟩ := PageSource.units_of_script hscript
  refine ⟨source, script, called, hread, hscript, rfl, fun u hu => Script.isPart_render_unit hu, ?_, ?_⟩
  · intro own hown kind hdeclared
    obtain ⟨m, hm⟩ := exists_mem_of_ne_nil _ hdeclared
    exact PageSource.page_mem_owners hown (Members.hasBody_of_mem_declared hm)
  · have howners := source.forall₂_owners
    rw [forall₂_map_right_iff] at howners
    refine forall₂_trans (fun owner family hfamily u howner hunit => ?_) howners hunits
    obtain ⟨plan, plans⟩ := family
    obtain ⟨s, -, hplan⟩ := (PageSource.isFamily_of_mem_families hfamily).exists_readFrom hread
    exact ⟨plan, hunit.keepsBodies hplan howner⟩

/-- A class with a getter and a setter of one name, a handler and a constructor. -/
def getterAndSetter : List Char :=
  ("class C extends div\x7bpublic\x7bget x()\x7breturn 1;\x7dset x(v)\x7bv;\x7d" ++
    "on click()\x7bx;\x7dconstructor(a)\x7ba;\x7d\x7d\x7d").toList

/-- All four bodies are written. -/
theorem compileText_declared_bodies_written_getterAndSetter :
    ∃ out source script called c u plan, compileText getterAndSetter ⟨"page.js", "page.css"⟩ = .ok out ∧
      PageSource.readChecked getterAndSetter = .ok source ∧ source.script = .ok script ∧
      out.behavior = script.render ∧ source.table.classes = [c] ∧ script.units = [u] ∧ IsPart u.render script.render ∧
      c.members.getters.map Method.body = ["return 1;"] ∧ c.members.setters.map Method.body = ["v;"] ∧
      c.members.handlers.map Method.body = ["x;"] ∧ c.members.constructor?.map Method.body = some "a;" ∧
      ∀ kind, ∀ m ∈ c.members.declared kind, ∃ body,
        (UnitContext.bodies ⟨source.table, source.text, called⟩ plan).prepare (kind = .constructor) m = .ok body ∧
        u.WritesBody kind m (String.ofList body.text) := by
  have heval : CompilesWith getterAndSetter fun source script => script.units.length = 1 ∧ source.table.classes.length = 1 ∧
        source.page.nodes.length = 0 ∧ ∀ c ∈ source.table.classes, c.children.length = 0 ∧
          c.members.getters.map Method.body = ["return 1;"] ∧ c.members.setters.map Method.body = ["v;"] ∧
          c.members.handlers.map Method.body = ["x;"] ∧ c.members.constructor?.map Method.body = some "a;" ∧
          (c.members.getters.map Method.name).Nodup ∧ (c.members.setters.map Method.name).Nodup := by
    decide +kernel
  obtain ⟨source, script, hread, hscript, hout, hunits, hclasses, hpage, hfacts⟩ := heval.exists_output ⟨"page.js", "page.css"⟩
  obtain ⟨source', script', called, hread', hscript', hbehavior, hparts, -, hkeeps⟩ :=
    compileText_declared_bodies_written hout
  cases hread.symm.trans hread'
  cases hscript.symm.trans hscript'
  obtain ⟨u, hu⟩ := length_eq_one_iff.1 hunits
  obtain ⟨c, hc⟩ := length_eq_one_iff.1 hclasses
  rw [hc, forall_mem_singleton] at hfacts
  obtain ⟨hchildren, hgetter, hsetter, hhandler, hconstructor, hgetters, hsetters⟩ := hfacts
  rw [PageSource.owners, hc, hu, length_eq_zero_iff.1 hpage] at hkeeps
  simp only [flatMap_cons, length_eq_zero_iff.1 hchildren] at hkeeps
  cases hkeeps with
  | cons hkeeps _ =>
    obtain ⟨plan, hkeeps⟩ := hkeeps
    exact ⟨_, source, script, called, c, u, plan, hout, hread, hscript, hbehavior, hc, hu,
      hparts u (hu ▸ mem_singleton_self u), hgetter, hsetter, hhandler, hconstructor,
      hkeeps.all hgetters hsetters⟩

/-- A class with two getters of one name. -/
def twoGetters : List Char :=
  "class C extends div\x7bpublic\x7bget x()\x7bfirst;\x7dget x()\x7bsecond;\x7d\x7d\x7d".toList

/-- The class passes the checks, and the body of its second getter is not written. -/
theorem compileText_second_getter_left_out :
    ∃ out source script c u, compileText twoGetters ⟨"page.js", "page.css"⟩ = .ok out ∧
      PageSource.readChecked twoGetters = .ok source ∧ source.script = .ok script ∧
      out.behavior = script.render ∧ c ∈ source.table.classes ∧
      c.members.getters.map Method.body = ["first;", "second;"] ∧ u ∈ script.units ∧
      u.anchor = .byClass c.name ∧ IsPart "first;" u.render ∧ ¬ IsPart "second;" u.render := by
  have heval : CompilesWith twoGetters fun source script => ∃ c ∈ source.table.classes,
        c.members.getters.map Method.body = ["first;", "second;"] ∧ ∃ u ∈ script.units, u.anchor = .byClass c.name ∧
          u.assignments = [] ∧ "first;".toList <:+: Segment.textOf u.segments ∧
          ¬ "second;".toList <:+: Segment.textOf u.segments := by
    decide +kernel
  obtain ⟨source, script, hread, hscript, hout, c, hc, hgetters, u, hu, hanchor, hassignments, hfirst, hsecond⟩ :=
    heval.exists_output ⟨"page.js", "page.css"⟩
  rw [u.textOf_segments (by rw [hassignments]; nofun)] at hfirst hsecond
  exact ⟨_, source, script, c, u, hout, hread, hscript, rfl, hc, hgetters, hu, hanchor,
    isPart_iff_toList.2 hfirst, fun hpart => hsecond (isPart_iff_toList.1 hpart)⟩

end Pagewright
