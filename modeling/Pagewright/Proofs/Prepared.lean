import Pagewright.Proofs.Join

/-!
# Prepared bodies

Each method of a class or instance is turned into one function (`BodyContext.Prepares`), and the
methods of ancestors that are called are those that its parent calls mean, in all bodies
(`callsOfMembers`). The latter depends on the classes and the entries only, so that both passes over
the bodies find the same. A unit holds what its own plan gives (`UnitContext.Builds`), and every
class of a source has a unit (`PageSource.exists_context`). -/

namespace Pagewright

open List

variable {t : ClassTable} {es : List String} {inCtor : Bool} {calls : List (List Char × ParentCall)}
  {pair : String × String} {members : Members}

/-! ### The methods called -/

/-- The methods of ancestors that some parent calls mean, the last call first. -/
def ClassTable.inheritedCalls (t : ClassTable) (entries : List String) (inConstructor : Bool) :
    List (List Char × ParentCall) → List (String × String)
  | [] => []
  | (_, call) :: calls =>
    t.inheritedCalls entries inConstructor calls ++
      match t.meaning? entries inConstructor call with
      | some (.inherited owner method) => [(owner, method)]
      | _ => []

/-- The methods of ancestors that a body calls. -/
def ClassTable.callsOfBody (t : ClassTable) (entries : List String) (inConstructor : Bool) (m : Method) :
    List (String × String) :=
  match (Source.ofText m.body.toList).bind Source.divide with
  | .ok divided => t.inheritedCalls entries inConstructor divided.calls
  | .error _ => []

/-- The methods of ancestors that the bodies of a class or instance call, each once. -/
def ClassTable.callsOfMembers (t : ClassTable) (entries : List String) (members : Members) :
    List (String × String) :=
  (members.constructor?.toList.flatMap (t.callsOfBody entries true) ++
    members.privateTier.methods.flatMap (t.callsOfBody entries false) ++
    members.protectedTier.methods.flatMap (t.callsOfBody entries false) ++
    members.publicTier.methods.flatMap (t.callsOfBody entries false) ++
    members.getters.flatMap (t.callsOfBody entries false) ++
    members.setters.flatMap (t.callsOfBody entries false) ++
    members.handlers.flatMap (t.callsOfBody entries false)).eraseDups

theorem ClassTable.exists_call_of_mem_inheritedCalls (h : pair ∈ t.inheritedCalls es inCtor calls) :
    ∃ call, t.meaning? es inCtor call = some (.inherited pair.1 pair.2) := by
  induction calls with
  | nil => cases h
  | cons first calls ih =>
    obtain ⟨pre, call⟩ := first
    rcases mem_append.1 h with h | h
    · exact ih h
    · split at h
      · next owner method hm =>
        rw [mem_singleton.1 h]
        exact ⟨call, hm⟩
      · cases h

theorem ClassTable.exists_call_of_mem_callsOfMembers (h : pair ∈ t.callsOfMembers es members) :
    ∃ inCtor call, t.meaning? es inCtor call = some (.inherited pair.1 pair.2) := by
  have hb {inCtor : Bool} {ms : List Method} (hp : pair ∈ ms.flatMap (t.callsOfBody es inCtor)) :
      ∃ inCtor call, t.meaning? es inCtor call = some (.inherited pair.1 pair.2) := by
    obtain ⟨m, -, hm⟩ := mem_flatMap.1 hp
    unfold callsOfBody at hm
    split at hm
    · exact ⟨inCtor, exists_call_of_mem_inheritedCalls hm⟩
    · cases hm
  simp only [callsOfMembers, mem_eraseDups, mem_append] at h
  rcases h with (((((h | h) | h) | h) | h) | h) | h <;> exact hb h

/-! ### Bodies -/

namespace BodyContext

variable {ctx : BodyContext} {m : Method} {body : ResolvedBody}

theorem inherited_of_resolve {tail : List Char} (h : ctx.resolve inCtor m tail calls = .ok body) :
    body.inherited = ctx.table.inheritedCalls ctx.entries inCtor calls := by
  induction calls generalizing body with
  | nil =>
    cases h
    rfl
  | cons first calls ih =>
    obtain ⟨done, hd, h⟩ := bind_eq_ok.1 h
    rw [ClassTable.inheritedCalls, ← ih hd]
    split at h
    · cases h
    · next hm =>
      obtain ⟨args, -, h⟩ := bind_eq_ok.1 h
      cases h
      rw [hm, append_nil]
    · next owner method hm =>
      cases h
      rw [hm]

/-- A prepared body: its text is divided at the parent calls, put together without them, and written
in full. -/
theorem exists_of_prepare (h : ctx.prepare inCtor m = .ok body) :
    ∃ divided resolved, (Source.ofText m.body.toList).bind Source.divide = .ok divided ∧
      ctx.resolve inCtor m divided.tail divided.calls = .ok resolved ∧
      qualify ctx.ambient m.paramNames resolved.text = .ok body.text ∧ body.chainArgs = resolved.chainArgs ∧
      body.inherited = ctx.table.callsOfBody ctx.entries inCtor m := by
  have hm {ε ε' α : Type} {f : ε → ε'} {r : Except ε α} {a : α} (hr : r.mapError f = .ok a) : r = .ok a := by
    cases r with
    | error e => cases hr
    | ok b => exact congrArg Except.ok (Except.ok.inj hr)
  obtain ⟨divided, hd, h⟩ := bind_eq_ok.1 h
  obtain ⟨resolved, he, h⟩ := bind_eq_ok.1 h
  obtain ⟨text, ht, h⟩ := bind_eq_ok.1 h
  cases h
  refine ⟨divided, resolved, hm hd, he, hm ht, rfl, ?_⟩
  rw [ClassTable.callsOfBody, hm hd]
  have hi := inherited_of_resolve he
  exact hi

/-- The function that a method becomes. -/
def IsFunction (ctx : BodyContext) (m : Method) (f : ScriptFunction) : Prop :=
  ∃ body, ctx.prepare false m = .ok body ∧ f = ⟨m.name, m.params, String.ofList body.text⟩

theorem forall₂_prepareMethods {ms : List Method} {fs : List ScriptFunction}
    {calls : List (String × String)} (h : ctx.prepareMethods ms = .ok (fs, calls)) :
    Forall₂ ctx.IsFunction ms fs ∧ calls = ms.flatMap (ctx.table.callsOfBody ctx.entries false) := by
  induction ms generalizing fs calls with
  | nil =>
    cases h
    exact ⟨.nil, rfl⟩
  | cons m ms ih =>
    obtain ⟨body, hb, h⟩ := bind_eq_ok.1 h
    obtain ⟨⟨fs', calls'⟩, hr, h⟩ := bind_eq_ok.1 h
    cases h
    obtain ⟨hf, rfl⟩ := ih hr
    obtain ⟨-, -, -, -, -, -, hi⟩ := exists_of_prepare hb
    exact ⟨.cons ⟨body, hb, rfl⟩ hf, by rw [flatMap_cons, hi]⟩

/-- The bodies of a class or instance are prepared one by one. -/
structure Prepares (ctx : BodyContext) (members : Members) (p : PreparedMembers) : Prop where
  constructor : ∀ m, members.constructor? = some m →
    ∃ body, ctx.prepare true m = .ok body ∧ p.constructor? = some (String.ofList body.text)
  privateMethods : Forall₂ ctx.IsFunction members.privateTier.methods p.privateMethods
  protectedMethods : Forall₂ ctx.IsFunction members.protectedTier.methods p.protectedMethods
  publicMethods : Forall₂ ctx.IsFunction members.publicTier.methods p.publicMethods
  getters : Forall₂ ctx.IsFunction members.getters p.getters
  setters : Forall₂ ctx.IsFunction members.setters p.setters
  handlers : Forall₂ ctx.IsFunction members.handlers p.handlers
  inherited_eq : p.inherited = ctx.table.callsOfMembers ctx.entries members

theorem prepares_of_prepareMembers {p : PreparedMembers} (h : ctx.prepareMembers members = .ok p) : ctx.Prepares members p ∧
    ∀ m body, members.constructor? = some m → ctx.prepare true m = .ok body → p.chainArgs = body.chainArgs := by
  unfold prepareMembers at h
  cases hc : members.constructor?
  all_goals
    simp only [hc] at h
    obtain ⟨own, ho, h⟩ := bind_eq_ok.1 h
    obtain ⟨⟨fs₁, calls₁⟩, h₁, h⟩ := bind_eq_ok.1 h
    obtain ⟨⟨fs₂, calls₂⟩, h₂, h⟩ := bind_eq_ok.1 h
    obtain ⟨⟨fs₃, calls₃⟩, h₃, h⟩ := bind_eq_ok.1 h
    obtain ⟨⟨fs₄, calls₄⟩, h₄, h⟩ := bind_eq_ok.1 h
    obtain ⟨⟨fs₅, calls₅⟩, h₅, h⟩ := bind_eq_ok.1 h
    obtain ⟨⟨fs₆, calls₆⟩, h₆, h⟩ := bind_eq_ok.1 h
    cases h
    obtain ⟨hf₁, rfl⟩ := forall₂_prepareMethods h₁
    obtain ⟨hf₂, rfl⟩ := forall₂_prepareMethods h₂
    obtain ⟨hf₃, rfl⟩ := forall₂_prepareMethods h₃
    obtain ⟨hf₄, rfl⟩ := forall₂_prepareMethods h₄
    obtain ⟨hf₅, rfl⟩ := forall₂_prepareMethods h₅
    obtain ⟨hf₆, rfl⟩ := forall₂_prepareMethods h₆
    refine ⟨⟨?_, hf₁, hf₂, hf₃, hf₄, hf₅, hf₆, ?_⟩, ?_⟩
  · intro m hm
    cases hc.symm.trans hm
  · cases ho
    simp [ClassTable.callsOfMembers, hc]
  · rintro m body ⟨⟩
  · intro m hm
    cases hc.symm.trans hm
    obtain ⟨body, hb, rfl⟩ := exists_of_map_eq_ok ho
    exact ⟨body, hb, rfl⟩
  · obtain ⟨body, hb, rfl⟩ := exists_of_map_eq_ok ho
    obtain ⟨-, -, -, -, -, -, hi⟩ := exists_of_prepare hb
    simp [ClassTable.callsOfMembers, hc, hi]
  · rintro m body ⟨⟩ hb
    rw [hb] at ho
    cases ho
    rfl

end BodyContext

/-! ### Variables and assignments -/

/-- A variable begins with its own expression. -/
def BodyContext.IsValue (ctx : BodyContext) (v : Variable) (entry : String × String) : Prop :=
  entry.1 = v.name ∧ ∀ raw, v.initializer = some raw → ctx.expression raw = .ok entry.2

section Variables

variable {ctx : BodyContext} {vars : List Variable}

theorem BodyContext.forall₂_values {es : List (String × String)} (h : ctx.values vars = .ok es) :
    Forall₂ ctx.IsValue vars es := by
  induction vars generalizing es with
  | nil =>
    cases h
    exact .nil
  | cons v vars ih =>
    rw [values] at h
    cases hi : v.initializer
    all_goals
      simp only [hi] at h
      obtain ⟨val, hv, h⟩ := bind_eq_ok.1 h
      obtain ⟨rest, hr, h⟩ := bind_eq_ok.1 h
      cases h
      refine .cons ⟨rfl, fun raw ha => ?_⟩ (ih hr)
      cases hi.symm.trans ha
    exact hv

/-- A private variable begins with its own expression, if it has one. -/
def BodyContext.IsPrivateValue (ctx : BodyContext) (v : Variable) (entry : String × Option String) : Prop :=
  entry.1 = v.name ∧ ∀ raw ∈ v.initializer, ∃ value ∈ entry.2, ctx.expression raw = .ok value

theorem BodyContext.forall₂_privateVariables {es : List (String × Option String)}
    (h : ctx.privateVariables vars = .ok es) : Forall₂ ctx.IsPrivateValue vars es := by
  induction vars generalizing es with
  | nil =>
    cases h
    exact .nil
  | cons v vars ih =>
    rw [privateVariables] at h
    cases hi : v.initializer
    all_goals
      simp only [hi] at h
      obtain ⟨val?, hv, h⟩ := bind_eq_ok.1 h
      obtain ⟨rest, hr, h⟩ := bind_eq_ok.1 h
      cases h
      refine .cons ⟨rfl, fun raw ha => ?_⟩ (ih hr)
      cases hi.symm.trans ha
    obtain ⟨val, he, rfl⟩ := exists_of_map_eq_ok hv
    exact ⟨val, rfl, he⟩

theorem BodyContext.map_fst_of_isValue {es : List (String × String)} (h : Forall₂ ctx.IsValue vars es) :
    es.map Prod.fst = vars.map Variable.name := map_eq_of_forall₂ (fun _ _ h => h.1) h

/-- An entry is written with its own expression. -/
def BodyContext.IsWritten (ctx : BodyContext) (entry written : String × String) : Prop :=
  written.1 = entry.1 ∧ ctx.expression entry.2 = .ok written.2

theorem BodyContext.forall₂_assignments {entries written : List (String × String)}
    (h : ctx.assignments entries = .ok written) : Forall₂ ctx.IsWritten entries written := by
  induction entries generalizing written with
  | nil =>
    cases h
    exact .nil
  | cons e entries ih =>
    obtain ⟨v, hv, h⟩ := bind_eq_ok.1 h
    obtain ⟨rest, hr, h⟩ := bind_eq_ok.1 h
    cases h
    exact .cons ⟨rfl, hv⟩ (ih hr)

end Variables

/-! ### Units -/

/-- What a unit holds besides its variables: the bodies of its plan, the classes that run first, the
tags of which it creates an element, the methods that it takes from ancestors and keeps for
descendants. -/
structure UnitContext.Builds (ctx : UnitContext) (plan : UnitPlan) (p : PreparedMembers) (u : ScriptUnit) :
    Prop where
  prepares : (ctx.bodies plan).Prepares plan.members p
  anchor_eq : u.anchor = plan.anchor
  chain_eq : u.chain.map Prod.fst = plan.entries.filter (!isTag ·)
  created_eq : u.created = ctx.createdTags plan
  hasValue_eq : u.hasValue = hasValue (ctx.tag plan)
  aliases_eq : u.aliases = p.inherited
  published_eq : u.published = ctx.published plan
  constructor_eq : u.constructor? = p.constructor?
  privateMethods_eq : u.privateMethods = p.privateMethods
  protectedMethods_eq : u.protectedMethods = p.protectedMethods
  publicMethods_eq : u.publicMethods = p.publicMethods
  accessors_eq : u.accessors = accessorsOf p.getters p.setters
  handlers_eq : u.handlers = p.handlers

/-- What a unit holds besides its bodies: parameters, variables, text, value and assignments. -/
structure UnitContext.Keeps (ctx : UnitContext) (plan : UnitPlan) (u : ScriptUnit) : Prop where
  params_eq : u.params = (plan.members.constructor?.map Method.params).getD []
  privateVariables : u.privateVariables.map Prod.fst = plan.members.privateTier.vars.map Variable.name
  protectedVariables : Forall₂ (ctx.bodies plan).IsValue plan.members.protectedTier.vars
    u.protectedVariables
  defaults : ctx.defaults plan = .ok u.defaults
  assigned : ctx.assigned plan = .ok u.assignments

/-- What a unit holds of its surface: the public variables, the attributes and the style. -/
structure UnitContext.Shows (ctx : UnitContext) (plan : UnitPlan) (u : ScriptUnit) : Prop where
  publicVariables : Forall₂ (ctx.bodies plan).IsValue
    (plan.members.publicTier.vars.filter fun v => !fixedNames.contains v.name) u.publicVariables
  attributes_eq : u.attributes = plan.attributes
  styleNames_eq : u.styleNames = plan.style.keys.map accessorName

section Units

variable {ctx : UnitContext} {family : UnitPlan × List UnitPlan} {u : ScriptUnit}

/-- Whatever a unit holds comes from its plan. -/
theorem UnitContext.IsUnit.parts (h : ctx.IsUnit family u) :
    (∃ p, (ctx.bodies family.1).prepareMembers family.1.members = .ok p ∧ ctx.Builds family.1 p u ∧
      u.chain = (family.1.entries.filter (!isTag ·)).map fun parent =>
        (parent, String.ofList ((p.chainArgs.lookup parent).getD []))) ∧
    (ctx.bodies family.1).privateVariables family.1.members.privateTier.vars = .ok u.privateVariables ∧
    ctx.Keeps family.1 u ∧ ctx.Shows family.1 u := by
  obtain ⟨front, defaults, assignments, hf, hd, ha, rfl⟩ := h
  obtain ⟨p, hp, hf⟩ := bind_eq_ok.1 hf
  obtain ⟨_, hv, hf⟩ := bind_eq_ok.1 hf
  obtain ⟨_, hr, hf⟩ := bind_eq_ok.1 hf
  obtain ⟨_, hs, hf⟩ := bind_eq_ok.1 hf
  cases hf
  have hn := map_eq_of_forall₂ (fun _ _ h => h.1) (BodyContext.forall₂_privateVariables hv)
  refine ⟨⟨p, hp, ⟨(BodyContext.prepares_of_prepareMembers hp).1, rfl, ?_, rfl, rfl, rfl, rfl, rfl, rfl, rfl, rfl, rfl, rfl⟩, rfl⟩,
    hv, ⟨rfl, hn, BodyContext.forall₂_values hr, hd, ha⟩, BodyContext.forall₂_values hs, rfl, rfl⟩
  rw [map_map]
  exact map_id _

theorem UnitContext.IsUnit.builds (h : ctx.IsUnit family u) : ∃ p, ctx.Builds family.1 p u := by
  obtain ⟨⟨p, -, hb, -⟩, -⟩ := h.parts
  exact ⟨p, hb⟩

theorem UnitContext.IsUnit.keeps (h : ctx.IsUnit family u) : ctx.Keeps family.1 u := h.parts.2.2.1

theorem UnitContext.IsUnit.shows (h : ctx.IsUnit family u) : ctx.Shows family.1 u := h.parts.2.2.2

end Units

/-! ### Plans -/

open Pagewright.Tree

/-- The unit is one of an instance: it has its entries and its members, and belongs to no class. -/
def UnitPlan.IsOf (plan : UnitPlan) (own : Instance) : Prop :=
  plan.entries = own.entries ∧ plan.members = own.members ∧ plan.anchor.className? = none

theorem children_map_toInstance (node : PlacedNode) :
    (node.map Placed.toInstance).children = mapAll Placed.toInstance node.children := by
  cases node
  rfl

/-- The plan of an instance that has its number, read off the instance of the source. -/
theorem planOf_eq (anchor : Nat → Anchor) (node : PlacedNode) :
    planOf anchor node = .ofInstance (node.map Placed.toInstance).label
      (instanceNames (node.map Placed.toInstance).children) (anchor (node.label.id?.getD 0)) := by
  rw [PageSource.label_map_toInstance, children_map_toInstance, instanceNames_mapAll]
  rfl

namespace PageSource

variable {source : PageSource} {script : Script} {c : ClassDef} {s : Address × PlacedNode}

theorem mapAll_toInstance_of_mem_zip {nodes : List PlacedNode}
    (h : (c, nodes) ∈ source.table.classes.zip source.settledBodies.1) :
    mapAll Placed.toInstance nodes = c.children := by
  have hb := source.settledBodies_spec.2.2.2
  rw [← forall₂_eq_eq_eq, forall₂_map_left_iff, forall₂_map_right_iff] at hb
  exact (forall₂_iff_zip.1 hb.flip).2 h

theorem exists_body (hc : c ∈ source.table.classes) : ∃ nodes, (c, nodes) ∈ source.table.classes.zip source.settledBodies.1 := by
  rw [← map_fst_zip (Nat.le_of_eq length_settledBodies.symm)] at hc
  obtain ⟨⟨c, nodes⟩, hp, rfl⟩ := mem_map.1 hc
  exact ⟨nodes, hp⟩

/-- An instance of the page with its number is one of the source. -/
theorem mem_sitesAll_of_mem_bearing (h : s ∈ source.bearing) :
    (s.1, s.2.map Placed.toInstance) ∈ sitesAll [] 0 source.page.nodes := by
  rw [← source.mapAll_toInstance_settledPage, sitesAll_mapAll]
  exact mem_map_of_mem (mem_of_mem_filter h)

/-- The plans of a source: those of its classes and of the instances inside, and those of the
instances of the page that have a unit. -/
theorem mem_plans_iff {plan : UnitPlan} : plan ∈ source.families.map Prod.fst ↔
    (∃ c nodes, (c, nodes) ∈ source.table.classes.zip source.settledBodies.1 ∧
        (plan = .ofClass c ∨ ∃ s ∈ sitesAll [] 0 nodes, plan = planOf .byCreation s.2)) ∨
      ∃ s ∈ source.bearing, plan = planOf .byMarkup s.2 := by
  have hc (c : ClassDef) (nodes : List PlacedNode) : plan ∈ (classFamilies c nodes).map Prod.fst ↔
      plan = .ofClass c ∨ ∃ s ∈ sitesAll [] 0 nodes, plan = planOf .byCreation s.2 := by
    rw [map_fst_classFamilies, mem_cons, bodyPlans, mem_map]
    simp only [eq_comm]
  rw [families_eq, map_append, mem_append, map_flatten, ← map_uncurry_zip_eq_zipWith,
    nearestFamilies, map_map, map_map, mem_flatten, mem_map]
  refine or_congr ⟨?_, ?_⟩ ?_
  · rintro ⟨plans, hp, hl⟩
    obtain ⟨⟨c, nodes⟩, ha, rfl⟩ := mem_map.1 hp
    exact ⟨c, nodes, ha, (hc c nodes).1 hl⟩
  · rintro ⟨c, nodes, ha, hl⟩
    exact ⟨_, mem_map_of_mem ha, (hc c nodes).2 hl⟩
  · simp only [Function.comp, eq_comm]

theorem exists_plan_of_mem_children (hc : c ∈ source.table.classes) {own : Instance} (ho : own ∈ labelsAll c.children) :
    ∃ ns id, .ofInstance own ns (.byCreation id) ∈ source.families.map Prod.fst := by
  obtain ⟨nodes, hp⟩ := exists_body hc
  rw [← mapAll_toInstance_of_mem_zip hp, labelsAll_mapAll, ← map_label_sitesAll [] 0, map_map] at ho
  obtain ⟨s, hs, rfl⟩ := mem_map.1 ho
  exact ⟨_, _, mem_plans_iff.2 (.inl ⟨c, nodes, hp, .inr ⟨s, hs, rfl⟩⟩)⟩

theorem exists_plan_of_mem_bearing (hs : s ∈ source.bearing) : ∃ ns id, s.2.label.id? = some id ∧
      .ofInstance s.2.label.toInstance ns (.byMarkup id) ∈ source.families.map Prod.fst := by
  obtain ⟨id, hid⟩ := Option.isSome_iff_exists.1 (isSome_of_mem_bearing hs)
  have hp : planOf .byMarkup s.2 ∈ source.families.map Prod.fst := mem_plans_iff.2 (.inr ⟨s, hs, rfl⟩)
  rw [planOf, hid] at hp
  exact ⟨_, id, hid, hp⟩

/-- The unit is one of a class, of an instance inside a class, or of an instance of the page. -/
def IsPlan (source : PageSource) (plan : UnitPlan) : Prop :=
  (∃ c ∈ source.table.classes, plan = .ofClass c ∨ ∃ own ∈ labelsAll c.children, plan.IsOf own) ∨
    ∃ own ∈ labelsAll source.page.nodes, plan.IsOf own

theorem isOf_planOf {node : PlacedNode} {anchor : Nat → Anchor} (ha : ∀ id, (anchor id).className? = none) :
    (planOf anchor node).IsOf (node.map Placed.toInstance).label := by
  rw [planOf_eq]
  exact ⟨rfl, rfl, ha _⟩

/-- Every class has a plan, and all plans are those of classes and instances. -/
theorem mem_families : (∀ c ∈ source.table.classes, .ofClass c ∈ source.families.map Prod.fst) ∧
    ∀ plan ∈ source.families.map Prod.fst, source.IsPlan plan := by
  constructor
  · intro c hc
    obtain ⟨nodes, hp⟩ := exists_body hc
    exact mem_plans_iff.2 (.inl ⟨c, nodes, hp, .inl rfl⟩)
  · intro plan hl
    rcases mem_plans_iff.1 hl with ⟨c, nodes, hp, rfl | ⟨s, hs, rfl⟩⟩ | ⟨s, hs, rfl⟩
    · exact .inl ⟨c, (of_mem_zip hp).1, .inl rfl⟩
    · refine .inl ⟨c, (of_mem_zip hp).1, .inr ⟨_, ?_, isOf_planOf fun _ => rfl⟩⟩
      rw [← mapAll_toInstance_of_mem_zip hp, ← map_label_sitesAll [] 0, sitesAll_mapAll, map_map]
      exact mem_map_of_mem hs
    · refine .inr ⟨_, ?_, isOf_planOf fun _ => rfl⟩
      rw [← map_label_sitesAll [] 0]
      exact mem_map_of_mem (mem_sitesAll_of_mem_bearing hs)

theorem forall₂_builds (h : source.script = .ok script) :
    ∃ called, source.table.calledMethods source.text source.placed.1 = .ok called ∧
      Forall₂ (fun plan u => ∃ p, UnitContext.Builds ⟨source.table, source.text, called⟩ plan p u)
        (source.families.map Prod.fst) script.units := by
  obtain ⟨called, hc, hu, -⟩ := units_of_called h
  exact ⟨called, hc, forall₂_map_left_iff.2 (hu.imp fun _ _ hn => hn.builds)⟩

theorem exists_context (h : source.script = .ok script) :
    ∃ called, source.table.calledMethods source.text source.placed.1 = .ok called ∧
      (∀ c ∈ source.table.classes, ∃ u ∈ script.units, ∃ p, UnitContext.Builds ⟨source.table, source.text, called⟩ (.ofClass c) p u) ∧
      ∀ u ∈ script.units, ∃ plan p, source.IsPlan plan ∧ UnitContext.Builds ⟨source.table, source.text, called⟩ plan p u := by
  obtain ⟨called, ha, hb⟩ := forall₂_builds h
  refine ⟨called, ha, fun c hc => exists_of_mem_left hb (mem_families.1 c hc), fun u hu => ?_⟩
  obtain ⟨plan, hp, p, hn⟩ := exists_of_mem_left hb.flip hu
  exact ⟨plan, p, mem_families.2 plan hp, hn⟩

end PageSource

end Pagewright
