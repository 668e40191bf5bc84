import Pagewright.Proofs.Lineage
import Pagewright.Proofs.Prepared

/-!
# Methods of ancestors

A unit reads a method of an ancestor from the capsule of its instance, under a name made of owner
and method. The owner is reached from the entries of the unit through parents
(`ClassTable.exists_reaches_of_meaning?`), its unit runs first (`UnitContext.Builds.exists_runs`)
and keeps what is called anywhere (`PageSource.mem_calledMethods`), so that nothing is read that was
not put there (`compileText_aliases_defined`). -/

namespace Pagewright

open List

variable {c : ClassDef} {p : PreparedMembers} {method name : String} {self owner part : String} {text : List Char}
  {plan : UnitPlan} {ctx : UnitContext} {inCtor isPublic : Bool} {src : PageSource} {u v : ScriptUnit} {s : Script}

/-! ### Methods of classes that are reached -/

namespace ClassTable

variable {cs : List ClassDef} {t : ClassTable} {entries seen work : List String}

theorem reaches_of_findMethodFrom (ht : t.NoTags) (hw : ∀ name ∈ work, t.Leads entries name)
    (h : t.findMethodFrom method seen work = some c) : t.Reaches entries c ∧ c.members.hasInheritable method := by
  fun_induction t.findMethodFrom method seen work with
  | case1 => cases h
  | case2 seen name rest hold ih | case3 seen name rest hold hn ih => exact ih (forall_mem_cons.1 hw).2 h
  | case4 seen name rest hold d hg hh =>
    cases h
    exact ⟨hw name mem_cons_self c hg, hh⟩
  | case5 seen name rest hold d hg hh ih =>
    obtain ⟨ha, hr⟩ := forall_mem_cons.1 hw
    exact ih (forall_mem_append.2 ⟨(ha d hg).leads ht, hr⟩) h

/-- A parent call that means a method means one of a class that is reached and declares it. -/
theorem exists_reaches_of_meaning? (ht : t.NoTags) {call : ParentCall}
    (h : t.meaning? entries inCtor call = some (.inherited owner method)) :
    ∃ c, t.Reaches entries c ∧ c.name = owner ∧ c.members.hasInheritable method := by
  unfold meaning? at h
  split at h
  · split at h
    · cases h
    · obtain ⟨c, hf, heq⟩ := Option.map_eq_some_iff.1 h
      cases heq
      obtain ⟨hr, hh⟩ := reaches_of_findMethodFrom ht (leads_of_mem ht) hf
      exact ⟨c, hr, rfl, hh⟩
  · split at h
    · next c hf =>
      split at h
      · next hh =>
        cases h
        exact ⟨c, (mem_lineage_iff ht).1 (mem_of_find?_eq_some hf), rfl, hh⟩
      · cases h
    · cases h

/-! ### Methods called anywhere -/

theorem callsOfMembers_of_callsOf {members : Members} {calls : List (String × String)}
    (h : t.callsOf text entries members = .ok calls) : calls = t.callsOfMembers entries members := by
  obtain ⟨p, hp, rfl⟩ := exists_of_map_eq_ok h
  exact (BodyContext.prepares_of_prepareMembers hp).1.inherited_eq

theorem mem_of_callsOfInstances {owns : List Instance} {calls : List (String × String)}
    (h : t.callsOfInstances text owns = .ok calls) :
    ∀ own ∈ owns, ∀ pair ∈ t.callsOfMembers own.entries own.members, pair ∈ calls := by
  induction owns generalizing calls with
  | nil => nofun
  | cons own owns ih =>
    unfold callsOfInstances at h
    obtain ⟨first, hf, h⟩ := bind_eq_ok.1 h
    obtain ⟨rest, hr, h⟩ := bind_eq_ok.1 h
    cases h
    rw [forall_mem_cons]
    constructor
    · intro pair hp
      exact mem_append_left _ (callsOfMembers_of_callsOf hf ▸ hp)
    · intro own' ho' pair hp
      exact mem_append_right _ (ih hr own' ho' pair hp)

theorem mem_of_callsOfClasses {calls : List (String × String)} (h : t.callsOfClasses text cs = .ok calls) :
    ∀ c ∈ cs, (∀ pair ∈ t.callsOfMembers c.parents c.members, pair ∈ calls) ∧
      ∀ own ∈ Tree.labelsAll c.children, ∀ pair ∈ t.callsOfMembers own.entries own.members, pair ∈ calls := by
  induction cs generalizing calls with
  | nil => nofun
  | cons c cs ih =>
    obtain ⟨first, hf, h⟩ := bind_eq_ok.1 h
    obtain ⟨inner, hi, h⟩ := bind_eq_ok.1 h
    obtain ⟨rest, hr, h⟩ := bind_eq_ok.1 h
    cases h
    rw [forall_mem_cons]
    refine ⟨⟨fun pair hp => ?_, fun own ho pair hp => ?_⟩, fun d hd => ?_⟩
    · exact mem_append_left _ (mem_append_left _ (callsOfMembers_of_callsOf hf ▸ hp))
    · exact mem_append_left _ (mem_append_right _ (mem_of_callsOfInstances hi own ho pair hp))
    · obtain ⟨ho, hn⟩ := ih hr d hd
      exact ⟨fun pair hp => mem_append_right _ (ho pair hp), fun own hm pair hp => mem_append_right _ (hn own hm pair hp)⟩

end ClassTable

theorem PageSource.labelsAll_placed : (Tree.labelsAll src.placed.1).map Placed.toInstance = Tree.labelsAll src.page.nodes := by
  rw [← Tree.labelsAll_mapAll, placed, mapAll_toInstance_numberNodes]

theorem PageSource.mem_calledMethods {called : List (String × String)}
    (h : src.table.calledMethods src.text src.placed.1 = .ok called)
    (hp : src.IsPlan plan) : ∀ pair ∈ src.table.callsOfMembers plan.entries plan.members, pair ∈ called := by
  obtain ⟨calls, hl, h⟩ := bind_eq_ok.1 h
  obtain ⟨inner, hi, h⟩ := bind_eq_ok.1 h
  cases h
  intro pair ha
  rcases hp with ⟨c, hc, rfl | ⟨own, ho, he, hm, -⟩⟩ | ⟨own, ho, he, hm, -⟩
  · exact mem_append_left _ ((ClassTable.mem_of_callsOfClasses hl c hc).1 pair ha)
  · rw [he, hm] at ha
    exact mem_append_left _ ((ClassTable.mem_of_callsOfClasses hl c hc).2 own ho pair ha)
  · rw [he, hm] at ha
    exact mem_append_right _ (ClassTable.mem_of_callsOfInstances hi own (labelsAll_placed ▸ ho) pair ha)

/-! ### Lines of a unit -/

/-- One text stands somewhere in another. -/
def IsPart (part text : String) : Prop := ∃ before after, text = before ++ part ++ after

theorem isPart_join_of_mem {parts : List String} (h : part ∈ parts) : IsPart part (String.join parts) := by
  obtain ⟨pre, post, rfl⟩ := append_of_mem h
  exact ⟨String.join pre, String.join post, by
    rw [String.join_append, String.join_cons, String.append_assoc]⟩

theorem IsPart.within {text : String} (h : IsPart part text) (pre post : String) : IsPart part (pre ++ text ++ post) := by
  obtain ⟨pre', post', rfl⟩ := h
  exact ⟨pre ++ pre', post' ++ post, by simp only [String.append_assoc]⟩

theorem IsPart.append_right {text : String} (h : IsPart part text) (post : String) : IsPart part (text ++ post) := by
  have hp := h.within "" post
  rwa [String.empty_append] at hp

/-- The line that runs the unit of a class, with its arguments, on the same instance. -/
def callLine (call : String × String) : String :=
  line 1 (call.1 ++ ".call(" ++ selfName ++ (if call.2.isEmpty then "" else ", " ++ call.2) ++ ");")

/-- The line that reads a method of an ancestor from the capsule. -/
def aliasLine (owner method : String) : String :=
  line 1 ("const " ++ aliasName owner method ++ " = " ++ capsuleText ++ "." ++ aliasName owner method ++ ";")

/-- The line that keeps a method in the capsule for descendants. -/
def publishedLine (owner method : String) (isPublic : Bool) : String :=
  line 1 (capsuleText ++ "." ++ aliasName owner method ++ " = " ++
    (if isPublic then selfName else capsuleText) ++ "." ++ method ++ ";")

namespace ScriptUnit

variable {u : ScriptUnit} {call : String × String}

/-- A unit as it is written up to its calls of the units of classes. -/
def head (u : ScriptUnit) : String :=
  "function " ++ u.anchor.function ++ "(" ++ joinNames ", " u.params ++ ") \x7b\n" ++ u.opening

/-- A unit as it is written behind what it keeps for descendants. -/
def tail (u : ScriptUnit) : String :=
  u.surfaceText ++ u.accessorText ++ u.handlerText ++
    line 1 (selfName ++ "." ++ childrenName ++ " = " ++ childApiName ++ "(" ++ selfName ++ ");") ++
    u.childText ++ u.defaultText ++ u.ownStyleText ++ u.lastWorkText ++ "\x7d\n"

theorem render_eq (u : ScriptUnit) : u.render =
    u.head ++ u.chainText ++ u.creationText ++ u.aliasText ++ u.memberText ++ u.publishedText ++ u.tail := by
  unfold render head tail
  simp only [← String.append_assoc]

theorem isPart_chainText (h : call ∈ u.chain) : IsPart (callLine call) u.chainText := isPart_join_of_mem (mem_map.2 ⟨call, h, rfl⟩)

theorem isPart_callLine (h : call ∈ u.chain) : IsPart (callLine call) u.render := by
  have hp := (isPart_chainText h).within u.head
    (u.creationText ++ u.aliasText ++ u.memberText ++ u.publishedText ++ u.tail)
  simpa only [render_eq, String.append_assoc] using hp

theorem exists_aliasLine (h : (owner, method) ∈ u.aliases) :
    ∃ before post, u.render = before ++ aliasLine owner method ++ post ∧
      ∀ call ∈ u.chain, IsPart (callLine call) before := by
  obtain ⟨front, back, ha⟩ : IsPart (aliasLine owner method) u.aliasText := isPart_join_of_mem (mem_map.2 ⟨(owner, method), h, rfl⟩)
  refine ⟨u.head ++ u.chainText ++ (u.creationText ++ front), back ++ u.memberText ++ u.publishedText ++ u.tail, ?_, fun call hc => ?_⟩
  · simp only [render_eq, ha, String.append_assoc]
  · exact (isPart_chainText hc).within _ _

theorem isPart_publishedLine (ha : u.anchor = .byClass owner)
    (h : (method, isPublic) ∈ u.published) : IsPart (publishedLine owner method isPublic) u.render := by
  have hp : IsPart (publishedLine owner method isPublic) u.publishedText := by
    refine isPart_join_of_mem (mem_map.2 ⟨(method, isPublic), h, ?_⟩)
    rw [ha]
    rfl
  have hpa := hp.within (u.head ++ u.chainText ++ u.creationText ++ u.aliasText ++ u.memberText) u.tail
  rwa [← render_eq] at hpa

end ScriptUnit

/-! ### Units that run -/

/-- A unit runs the unit of a class: the class is in its chain. -/
def Script.Calls (s : Script) (u v : ScriptUnit) : Prop :=
  v ∈ s.units ∧ ∃ call ∈ u.chain, v.anchor = .byClass call.1 ∧ IsPart (callLine call) u.render

theorem UnitContext.Builds.calls (h : ctx.Builds plan p u) (hv : v ∈ s.units)
    (ha : v.anchor = .byClass c.name) (hc : c.name ∈ plan.entries.filter (!isTag ·)) : s.Calls u v := by
  rw [← h.chain_eq] at hc
  obtain ⟨call, hca, hn⟩ := mem_map.1 hc
  exact ⟨hv, call, hca, hn ▸ ha, ScriptUnit.isPart_callLine hca⟩

theorem UnitContext.Builds.exists_runs (hu : ∀ c ∈ ctx.table.classes, ∃ v ∈ s.units, ∃ p, ctx.Builds (.ofClass c) p v)
    (h : ctx.Builds plan p u) (hc : ctx.table.Reaches plan.entries c) :
    ∃ v p, ctx.Builds (.ofClass c) p v ∧ Relation.TransGen s.Calls u v := by
  induction hc with
  | entry hc he =>
    obtain ⟨v, hv, q, hb⟩ := hu _ hc
    exact ⟨v, q, hb, .single (h.calls hv hb.anchor_eq he)⟩
  | parent _ hd hp ih =>
    obtain ⟨v, q, hb, hr⟩ := ih
    obtain ⟨w, hw, r, hb'⟩ := hu _ hd
    exact ⟨w, r, hb', hr.tail (hb.calls hw hb'.anchor_eq hp)⟩

theorem UnitContext.Builds.mem_published (h : ctx.Builds (.ofClass c) p u)
    (hc : (c.name, method) ∈ ctx.called) (hh : c.members.hasInheritable method) :
    (method, c.members.publicTier.hasMethod method) ∈ u.published := by
  rw [h.published_eq]
  refine mem_map.2 ⟨method, mem_filter.2 ⟨?_, ?_⟩, rfl⟩
  · simp only [Members.hasInheritable, Tier.hasMethod, Bool.or_eq_true, any_eq_true, decide_eq_true_eq] at hh
    rw [map_append, mem_append, mem_map, mem_map]
    exact hh.symm
  · simpa using hc

/-- **Methods of ancestors.** In a compiled page every method of an ancestor that a unit reads from
the capsule has been put there: the unit, before it reads, runs units of classes, which run others,
among them that of the owner of the method, which declares it as public or protected and keeps
it. -/
theorem compileText_aliases_defined {text : List Char} {links : HeadLinks} {out : PageOutput}
    (h : compileText text links = .ok out) :
    ∃ source script, PageSource.readChecked text = .ok source ∧ source.script = .ok script ∧
      out.behavior = script.render ∧
      ∀ u ∈ script.units, ∀ owner method, (owner, method) ∈ u.aliases →
        (∃ before after, u.render = before ++ aliasLine owner method ++ after ∧
          ∀ call ∈ u.chain, IsPart (callLine call) before) ∧
        ∃ c ∈ source.table.classes, c.name = owner ∧ c.members.hasInheritable method = true ∧
          ∃ v, Relation.TransGen script.Calls u v ∧ v.anchor = .byClass owner ∧
            IsPart (publishedLine owner method (c.members.publicTier.hasMethod method)) v.render := by
  obtain ⟨source, script, hread, hscript, rfl⟩ := compileText_eq_ok_iff.1 h
  refine ⟨source, script, hread, hscript, rfl, fun u hu owner method halias => ?_⟩
  obtain ⟨called, hcalled, hclasses, hunits⟩ := PageSource.exists_context hscript
  obtain ⟨plan, p, hplan, hbuilds⟩ := hunits u hu
  have htags := PageSource.noTags hread
  -- What the unit reads is what its bodies call, which the pass over all bodies has found too.
  have hcall : (owner, method) ∈ source.table.callsOfMembers plan.entries plan.members := by
    rw [hbuilds.aliases_eq, hbuilds.prepares.inherited_eq] at halias
    exact halias
  obtain ⟨inConstructor, call, hmeaning⟩ := ClassTable.exists_call_of_mem_callsOfMembers hcall
  obtain ⟨c, hreaches, rfl, hhas⟩ := ClassTable.exists_reaches_of_meaning? htags hmeaning
  obtain ⟨v, q, hv, hruns⟩ := hbuilds.exists_runs hclasses hreaches
  have hkept := hv.mem_published (PageSource.mem_calledMethods hcalled hplan _ hcall) hhas
  exact ⟨ScriptUnit.exists_aliasLine halias, c, hreaches.mem, rfl, hhas, v, hruns, hv.anchor_eq,
    ScriptUnit.isPart_publishedLine hv.anchor_eq hkept⟩

/-- A class that calls a method of its parent's parent. -/
def callsGrandparent : List Char :=
  ("class A extends div\x7bpublic\x7bgo()\x7b\x7d\x7d\x7dclass B extends A\x7b\x7d" ++
    "class C extends B\x7bpublic\x7brun()\x7b^go();\x7d\x7d\x7d").toList

/-- The method is kept two calls away. -/
theorem compileText_aliases_defined_grandparent :
    ∃ out source script u v, compileText callsGrandparent ⟨"page.js", "page.css"⟩ = .ok out ∧
      PageSource.readChecked callsGrandparent = .ok source ∧ source.script = .ok script ∧
      out.behavior = script.render ∧ u ∈ script.units ∧ u.anchor = .byClass "C" ∧
      u.chain = [("B", "")] ∧ ("A", "go") ∈ u.aliases ∧ Relation.TransGen script.Calls u v ∧
      v.anchor = .byClass "A" ∧ IsPart "    __self.__protected.__A_go = __self.go;\n" v.render := by
  have heval : CompilesWith callsGrandparent fun source script =>
      (∀ c ∈ source.table.classes, c.name ≠ "A" ∨ c.members.publicTier.hasMethod "go" = true) ∧
        ∃ u ∈ script.units, u.anchor = .byClass "C" ∧ u.chain = [("B", "")] ∧ ("A", "go") ∈ u.aliases := by
    set_option synthInstance.maxSize 256 in
    decide +kernel
  obtain ⟨source, script, out, hread, hscript, hout, ⟨hpublic, u, hu, hanchor, hchain, halias⟩, hbehavior, haliases⟩ :=
    heval.exists_and ⟨"page.js", "page.css"⟩ fun _ => compileText_aliases_defined
  obtain ⟨-, c, hc, hname, -, v, hruns, hv, hpart⟩ := haliases u hu "A" "go" halias
  rw [(hpublic c hc).resolve_left (fun hne => hne hname)] at hpart
  exact ⟨out, source, script, u, v, hout, hread, hscript, hbehavior, hu, hanchor, hchain, halias, hruns, hv,
    hpart⟩

end Pagewright
