import Pagewright.Proofs.Aliases
import Pagewright.Proofs.Visits

/-!
# Constructing instances

The function of a unit first calls the functions of the classes in its chain, each of which does the
same. `Script.Runs` says which units are executed on an instance then, and in which order. They are
the visits of the table (`ClassTable.Visits.exists_runs`), so that constructing an instance executes
the classes of its lineage, each as often as it is listed (`compileText_constructor_runs`): twice,
with its handlers and children, if it is listed twice (`compileText_shared_parent_runs_twice`). -/

namespace Pagewright

open List Pagewright.Tree

variable {called calls : List (String × String)}

/-! ### The plans of units -/

namespace PageSource

variable {source : PageSource} {script : Script} {text : List Char} {v w : ScriptUnit}

theorem eq_of_anchor_eq (h : source.script = .ok script) {name : String}
    (hv : v ∈ script.units) (hw : w ∈ script.units) (hvn : v.anchor = .byClass name) (hwn : w.anchor = .byClass name) : v = w := by
  let Differ (x y : ScriptUnit) : Prop := ∀ a, x.anchor.className? = some a → ∀ b, y.anchor.className? = some b → a ≠ b
  have hd : script.units.Pairwise Differ := by
    have hn := source.table.nodup
    rw [← ClassTable.names, ← filterMap_className_units h] at hn
    exact pairwise_filterMap.1 hn
  have hs : Std.Symm Differ := ⟨fun x y hx a ha b hb => (hx b hb a ha).symm⟩
  by_contra hne
  have hna := hd.forall hv hw hne name
  rw [hvn, hwn] at hna
  exact hna rfl name rfl rfl

theorem knows_of_isPlan (hr : readChecked text = .ok source) {plan : UnitPlan}
    (hp : source.IsPlan plan) : source.table.Knows plan.entries := by
  obtain ⟨hi, ha⟩ := passes hr
  rcases hp with ⟨c, hc, rfl | ⟨own, ho, he, -, -⟩⟩ | ⟨own, ho, he, -, -⟩
  · exact (isSound hr).knows c hc
  · rw [← map_label_sitesAll [] 0] at ho
    obtain ⟨s, hs, rfl⟩ := mem_map.1 ho
    exact he ▸ (hi c hc s hs).knows
  · rw [← map_label_sitesAll [] 0] at ho
    obtain ⟨s, hs, rfl⟩ := mem_map.1 ho
    exact he ▸ (ha s hs).knows

end PageSource

/-! ### Runs -/

/-- The units that some calls execute, in order: the unit of a class is executed when the calls of
its own chain have run. -/
inductive Script.Runs (s : Script) : List (String × String) → List ScriptUnit → Prop
  | nil : Runs s [] []
  | call {call : String × String} {calls : List (String × String)} {v : ScriptUnit}
      {inner after : List ScriptUnit} (hv : v ∈ s.units) (hanchor : v.anchor = .byClass call.1)
      (hinner : Runs s v.chain inner) (hafter : Runs s calls after) :
      Runs s (call :: calls) (inner ++ v :: after)

/-- How often a run executes the unit of a class. -/
def timesRun (run : List ScriptUnit) (name : String) : Nat :=
  (run.map ScriptUnit.anchor).count (.byClass name)

/-- The handlers that a unit registers, each with the unit and its place there. -/
def ScriptUnit.registrations (u : ScriptUnit) : List (Anchor × ScriptFunction × Nat) :=
  u.handlers.zipIdx.map (u.anchor, ·)

/-- The functions of the instances that a unit makes. -/
def ScriptUnit.made (u : ScriptUnit) : List String := u.children.map (·.anchor.function)

namespace Script

variable {s : Script} {calls : List (String × String)} {run run' : List ScriptUnit}

theorem Runs.mem_units (h : s.Runs calls run) : ∀ v ∈ run, v ∈ s.units := by
  induction h with
  | nil => nofun
  | call hv _ _ _ ihinner ihafter =>
    rw [forall_mem_append, forall_mem_cons]
    exact ⟨ihinner, hv, ihafter⟩

theorem Runs.unique (hu : ∀ v ∈ s.units, ∀ w ∈ s.units, ∀ name, v.anchor = .byClass name →
    w.anchor = .byClass name → v = w) (h : s.Runs calls run) (h' : s.Runs calls run') : run = run' := by
  induction h generalizing run' with
  | nil =>
    cases h'
    rfl
  | call hv ha _ _ ihinner ihafter =>
    cases h' with
    | call hv' ha' hi' hf' =>
      cases hu _ hv _ hv' _ ha ha'
      rw [ihinner hi', ihafter hf']

end Script

theorem ClassTable.Visits.exists_runs (ctx : UnitContext) {s : Script} {ns : List String}
    {cs : List ClassDef} (ht : ctx.table.NoTags)
    (hu : ∀ c ∈ ctx.table.classes, ∃ v ∈ s.units, ∃ p, ctx.Builds (.ofClass c) p v) (h : ctx.table.Visits ns cs)
    (hca : calls.map Prod.fst = ns.filter (!isTag ·)) :
    ∃ run, s.Runs calls run ∧ Forall₂ (fun c v => ∃ p, ctx.Builds (.ofClass c) p v) cs run := by
  induction h generalizing calls with
  | nil =>
    rw [map_eq_nil_iff.1 hca]
    exact ⟨[], .nil, .nil⟩
  | tag hta _ ih =>
    rw [filter_cons_of_neg (by simp [hta])] at hca
    exact ih hca
  | visit hc _ _ ihinner ihafter =>
    rw [filter_cons_of_pos (by simp [ht _ hc])] at hca
    obtain ⟨call, calls', rfl, hn, hca⟩ := map_eq_cons_iff.1 hca
    obtain ⟨v, hv, p, hb⟩ := hu _ hc
    obtain ⟨inner, hi, hi₂⟩ := ihinner hb.chain_eq
    obtain ⟨post, ha, ha₂⟩ := ihafter hca
    refine ⟨inner ++ v :: post, .call hv ?_ hi ha, rel_append hi₂ (.cons ⟨p, hb⟩ ha₂)⟩
    rw [hb.anchor_eq, hn]
    rfl

/-- The unit of a plan executes the units of the classes that are visited from its entries. -/
structure UnitContext.Executes (ctx : UnitContext) (s : Script) (plan : UnitPlan) (u : ScriptUnit)
    (cs : List ClassDef) (run : List ScriptUnit) : Prop where
  mem : u ∈ s.units
  builds : ∃ p, ctx.Builds plan p u
  visits : ctx.table.Visits plan.entries cs
  runs : s.Runs u.chain run
  classes : Forall₂ (fun c v => ∃ p, ctx.Builds (.ofClass c) p v) cs run

section Executions

variable {text : List Char} {source : PageSource} {script : Script} {plan : UnitPlan} {u : ScriptUnit}
  {cs : List ClassDef} {run us : List ScriptUnit} {t : ClassTable} {c d : ClassDef}

theorem UnitContext.Executes.map_anchor {ctx : UnitContext} (h : ctx.Executes script plan u cs run) :
    run.map ScriptUnit.anchor = (cs.map ClassDef.name).map .byClass := by
  rw [map_map]
  refine map_eq_of_forall₂ (fun c v hv => ?_) h.classes
  obtain ⟨p, hb⟩ := hv
  exact hb.anchor_eq

/-- In a compiled page all units execute those of classes. -/
theorem PageSource.forall₂_executes (hr : readChecked text = .ok source) (hs : source.script = .ok script) :
    ∃ called, Forall₂ (fun plan u => source.IsPlan plan ∧ ∃ cs run,
        UnitContext.Executes ⟨source.table, source.text, called⟩ script plan u cs run) (source.families.map Prod.fst) script.units := by
  obtain ⟨called, -, hb⟩ := forall₂_builds hs
  obtain ⟨hl, hp⟩ := forall₂_iff_zip.1 hb
  refine ⟨called, forall₂_iff_zip.2 ⟨hl, fun {plan u} ha => ?_⟩⟩
  obtain ⟨hpl, hu⟩ := of_mem_zip ha
  obtain ⟨p, hn⟩ := hp ha
  have hi := mem_families.2 plan hpl
  have ho := isSound hr
  obtain ⟨cs, hv⟩ := ho.exists_visits (knows_of_isPlan hr hi)
  obtain ⟨run, hru, hf⟩ := hv.exists_runs ⟨source.table, source.text, called⟩ ho.noTags
      (fun c hc => exists_of_mem_left hb (mem_families.1 c hc)) hn.chain_eq
  exact ⟨hi, cs, run, hu, ⟨p, hn⟩, hv, hru, hf⟩

/-- The units of a source execute others in one way only. -/
theorem PageSource.runs_iff (hs : source.script = .ok script)
    (h : script.Runs calls run) (run' : List ScriptUnit) : script.Runs calls run' ↔ run' = run := by
  constructor
  · intro h'
    exact h'.unique (fun v hv w hw name => eq_of_anchor_eq hs hv hw) h
  · rintro rfl
    exact h

/-! ### Constructing an instance -/

/-- Constructing an instance of a unit executes the units of a run and then the unit itself. -/
structure Script.IsConstruction (s : Script) (t : ClassTable) (plan : UnitPlan) (u : ScriptUnit)
    (run : List ScriptUnit) : Prop where
  anchor_eq : u.anchor = plan.anchor
  /-- The function begins with one call for each entry that is no tag. -/
  calls : ∃ rest, u.render = u.head ++ String.join (u.chain.map callLine) ++ rest
  chain_eq : u.chain.map Prod.fst = plan.entries.filter (!isTag ·)
  runs_iff : ∀ run', s.Runs u.chain run' ↔ run' = run
  /-- The units of the lineage are executed and no others. -/
  mem_iff : ∀ v, v ∈ run ↔ v ∈ s.units ∧ ∃ c ∈ t.lineage plan.entries, v.anchor = .byClass c.name
  /-- A class is executed once for each time that the unit lists it, and once for each time that a class of the lineage that is
  executed lists it. -/
  timesRun_eq : ∀ c ∈ t.lineage plan.entries, timesRun run c.name = plan.entries.count c.name +
    ((t.lineage plan.entries).map fun d => timesRun run d.name * d.parents.count c.name).sum
  /-- Nothing is executed twice if and only if no class is listed twice. -/
  nodup_iff : (run ++ [u]).Nodup ↔ t.ListsOnce plan.entries
  registered_once : t.ListsOnce plan.entries → ((run ++ [u]).flatMap ScriptUnit.registrations).Nodup
  made_once : t.ListsOnce plan.entries → ((run ++ [u]).flatMap ScriptUnit.made).Nodup

theorem ClassTable.transGen_of_reaches (hc : c ∈ t.classes) (h : t.Reaches c.parents d) : Relation.TransGen t.IsParent d c := by
  induction h with
  | entry hd hn => exact .single ⟨hc, hd, mem_of_mem_filter hn⟩
  | parent hd he hp ih => exact .head ⟨hd.mem, he, mem_of_mem_filter hp⟩ ih

theorem ClassTable.IsSound.not_mem_lineage (hs : t.IsSound) (hc : c ∈ t.classes) : c ∉ t.lineage c.parents := by
  intro hm
  have hi := transGen_of_reaches hc ((mem_lineage_iff hs.noTags).1 hm)
  exact hs.wellFounded.transGen.irrefl.irrefl c hi

theorem nodup_flatMap_registrations (h : (us.map ScriptUnit.anchor).Nodup) : (us.flatMap ScriptUnit.registrations).Nodup := by
  rw [nodup_flatMap]
  constructor
  · intro u _
    have hp : (u.handlers.zipIdx.map Prod.snd).Nodup := by
      rw [zipIdx_map_snd]
      exact nodup_range'
    exact (hp.of_map _).map (Prod.mk_right_injective u.anchor)
  · refine (pairwise_map.1 h).imp fun hne x hx hy => ?_
    obtain ⟨a, -, rfl⟩ := mem_map.1 hx
    obtain ⟨b, -, hb⟩ := mem_map.1 hy
    exact hne (congrArg Prod.fst hb).symm

theorem PageSource.nodup_flatMap_made (h : source.script = .ok script) (hn : us.Nodup)
    (hu : ∀ u ∈ us, u ∈ script.units) : (us.flatMap ScriptUnit.made).Nodup := by
  have hm := hasUnits h
  have ha : (script.units.flatMap ScriptUnit.made).Nodup := by
    have ho := hm.made_once.nodup_iff.2 hm.functions_nodup
    rw [map_append, map_flatMap] at ho
    exact ho.of_append_right
  obtain ⟨us', hp, hs⟩ := subperm_of_subset hn hu
  exact (hp.flatMap_right _).nodup_iff.1 (ha.sublist (hs.flatMap _))

theorem PageSource.anchor_not_mem_visits (hs : source.table.IsSound) (hp : source.IsPlan plan)
    (h : source.table.Visits plan.entries cs) : plan.anchor ∉ (cs.map ClassDef.name).map Anchor.byClass := by
  rw [map_map]
  intro hm
  obtain ⟨d, hd, ha⟩ := mem_map.1 hm
  have hi (hn : plan.anchor.className? = none) : False := by
    rw [← ha] at hn
    cases hn
  rcases hp with ⟨c, hc, rfl | ⟨-, -, -, -, hn⟩⟩ | ⟨-, -, -, -, hn⟩
  · have hna : d.name = c.name := Anchor.byClass.inj ha
    cases ClassTable.eq_of_name_eq (h.mem_classes d hd) hc hna
    exact hs.not_mem_lineage hc ((h.mem_iff hs.noTags).1 hd)
  · exact hi hn
  · exact hi hn

theorem UnitContext.Executes.isConstruction (hs : source.table.IsSound)
    (hsc : source.script = .ok script) (hp : source.IsPlan plan)
    (h : UnitContext.Executes ⟨source.table, source.text, called⟩ script plan u cs run) :
    script.IsConstruction source.table plan u run := by
  have ht := hs.noTags
  have ha := h.map_anchor
  obtain ⟨hu, ⟨p, hb⟩, hi, hr, -⟩ := h
  have he := source.anchor_not_mem_visits hs hp hi
  rw [← hb.anchor_eq, ← ha] at he
  have hcl : ∀ v ∈ run, ∃ c ∈ cs, v.anchor = .byClass c.name := by
    intro v hv
    have hm := (mem_map_of_mem hv : v.anchor ∈ run.map ScriptUnit.anchor)
    rw [ha, map_map] at hm
    obtain ⟨c, hc, heq⟩ := mem_map.1 hm
    exact ⟨c, hc, heq.symm⟩
  have hti : ∀ name, timesRun run name = (cs.map ClassDef.name).count name := by
    intro name
    rw [timesRun, ha, count_map_of_injective _ _ fun _ _ h => Anchor.byClass.inj h]
  have hun : ∀ v ∈ run ++ [u], v ∈ script.units := by
    rw [forall_mem_append]
    exact ⟨hr.mem_units, forall_mem_singleton.2 hu⟩
  have hsa : ∀ v ∈ run, ∀ w ∈ run, v.anchor = w.anchor → v = w := by
    intro v hv w hw heq
    obtain ⟨c, -, han⟩ := hcl v hv
    exact PageSource.eq_of_anchor_eq hsc (hr.mem_units v hv) (hr.mem_units w hw) han (heq.symm.trans han)
  have honce_iff : (run.map ScriptUnit.anchor).Nodup ↔ source.table.ListsOnce plan.entries := by
    rw [ha, nodup_map_iff fun _ _ heq => Anchor.byClass.inj heq]
    exact hi.nodup_iff ht
  have ho : source.table.ListsOnce plan.entries → ((run ++ [u]).map ScriptUnit.anchor).Nodup := by
    intro ho
    rw [map_append, map_singleton, ← concat_eq_append, nodup_concat]
    exact ⟨he, honce_iff.2 ho⟩
  have hnodup_iff : (run ++ [u]).Nodup ↔ source.table.ListsOnce plan.entries :=
    ⟨fun hn => honce_iff.1 (hn.of_append_left.map_on hsa), fun hl => (ho hl).of_map _⟩
  refine ⟨hb.anchor_eq, ?_, hb.chain_eq, PageSource.runs_iff hsc hr, fun v => ?_, fun c hc => ?_, hnodup_iff, fun hl => ?_, fun hl => ?_⟩
  · exact ⟨_, u.render_eq.trans (by simp only [String.append_assoc]; rfl)⟩
  · constructor
    · intro hv
      obtain ⟨c, hc, heq⟩ := hcl v hv
      exact ⟨hr.mem_units v hv, c, (hi.mem_iff ht).1 hc, heq⟩
    · rintro ⟨hv, c, hc, heq⟩
      have hm : v.anchor ∈ run.map ScriptUnit.anchor := by
        rw [heq, ha]
        exact mem_map_of_mem (mem_map_of_mem ((hi.mem_iff ht).2 hc))
      obtain ⟨w, hw, hsa⟩ := mem_map.1 hm
      rwa [PageSource.eq_of_anchor_eq hsc hv (hr.mem_units w hw) heq (hsa.trans heq)]
  · simp only [hti]
    exact hi.count_eq ht ((ClassTable.mem_lineage_iff ht).1 hc).mem
  · exact nodup_flatMap_registrations (ho hl)
  · exact PageSource.nodup_flatMap_made hsc (hnodup_iff.2 hl) hun

end Executions

/-- **Constructing instances.** In a compiled page every unit is constructed in one way: it executes
the units of its lineage, each as often as it is listed by the unit and by the classes that are
executed. Each is executed once, no handler is registered twice and no child is made twice, if no
class is listed twice. -/
theorem compileText_constructor_runs {text : List Char} {links : HeadLinks} {out : PageOutput}
    (h : compileText text links = .ok out) :
    ∃ source script, PageSource.readChecked text = .ok source ∧ source.script = .ok script ∧
      out.behavior = script.render ∧
      Forall₂ (fun plan u => ∃ run, script.IsConstruction source.table plan u run)
        (source.families.map Prod.fst) script.units := by
  obtain ⟨source, script, hread, hscript, rfl⟩ := compileText_eq_ok_iff.1 h
  refine ⟨source, script, hread, hscript, rfl, ?_⟩
  obtain ⟨called, hexecutes⟩ := PageSource.forall₂_executes hread hscript
  refine hexecutes.imp fun plan u hunit => ?_
  obtain ⟨hplan, cs, run, hrun⟩ := hunit
  exact ⟨run, hrun.isConstruction (PageSource.isSound hread) hscript hplan⟩

/-- A page with an instance of a class whose parent has a handler and a child. -/
def parentOnce : List Char :=
  "class A extends div\x7bp\x7b\x7dpublic\x7bon click()\x7b\x7d\x7d\x7dclass B extends A\x7b\x7dB\x7b\x7d".toList

/-- The instance is constructed by its parent, its class and itself, each once. -/
theorem compileText_constructor_runs_parentOnce :
    ∃ out source script plan u run, compileText parentOnce ⟨"page.js", "page.css"⟩ = .ok out ∧
      PageSource.readChecked parentOnce = .ok source ∧ source.script = .ok script ∧
      out.behavior = script.render ∧ u ∈ script.units ∧ u.anchor = .byMarkup 1 ∧ plan.entries = ["B"] ∧
      script.IsConstruction source.table plan u run ∧ (run ++ [u]).Nodup ∧
      ((run ++ [u]).flatMap ScriptUnit.registrations).Nodup := by
  have heval : CompilesWith parentOnce fun source script => source.table.ListsOnce ["B"] ∧
      ∃ pair ∈ (source.families.map Prod.fst).zip script.units, pair.2.anchor = .byMarkup 1 ∧ pair.1.entries = ["B"] := by
    decide +kernel
  obtain ⟨source, script, out, hread, hscript, hout, ⟨honce, ⟨plan, u⟩, hpair, hanchor, hentries⟩, hbehavior, hruns⟩ :=
    heval.exists_and ⟨"page.js", "page.css"⟩ fun _ => compileText_constructor_runs
  obtain ⟨run, hconstruction⟩ := (forall₂_iff_zip.1 hruns).2 hpair
  rw [← hentries] at honce
  exact ⟨out, source, script, plan, u, run, hout, hread, hscript, hbehavior, (of_mem_zip hpair).2,
    hanchor, hentries, hconstruction, hconstruction.nodup_iff.2 honce, hconstruction.registered_once honce⟩

/-- A class whose second parent has the first as its own parent. -/
def sharedParent : List Char :=
  ("class A extends div\x7bp\x7b\x7dpublic\x7bon click()\x7b\x7d\x7d\x7dclass B extends A\x7b\x7d" ++
    "class C extends A, B\x7b\x7d").toList

/-- The shared parent is executed twice on one instance, which registers its handler and makes its
child twice. -/
theorem compileText_shared_parent_runs_twice :
    ∃ out source script u run, compileText sharedParent ⟨"page.js", "page.css"⟩ = .ok out ∧
      PageSource.readChecked sharedParent = .ok source ∧ source.script = .ok script ∧
      out.behavior = script.render ∧ u ∈ script.units ∧ u.anchor = .byClass "C" ∧
      "A" ∈ (source.table.lineage (u.chain.map Prod.fst)).map ClassDef.name ∧
      script.Runs u.chain run ∧ timesRun run "A" = 2 ∧
      ¬ (run.flatMap ScriptUnit.registrations).Nodup ∧ ¬ (run.flatMap ScriptUnit.made).Nodup := by
  have heval : CompilesWith sharedParent fun source script =>
      "A" ∈ (source.table.lineage ["A", "B"]).map ClassDef.name ∧
      (∃ u ∈ script.units, u.anchor = .byClass "A" ∧ u.chain = [] ∧ u.registrations.length = 1 ∧ u.made.length = 1) ∧
      (∃ u ∈ script.units, u.anchor = .byClass "B" ∧ u.chain = [("A", "")]) ∧
      ∃ u ∈ script.units, u.anchor = .byClass "C" ∧ u.chain = [("A", ""), ("B", "")] := by
    decide +kernel
  obtain ⟨source, script, hread, hscript, hout, hlineage, ⟨a, ha, hanchorA, hchainA, hregistered, hmade⟩,
    ⟨b, hb, hanchorB, hchainB⟩, c, hc, hanchorC, hchainC⟩ := heval.exists_output ⟨"page.js", "page.css"⟩
  have hrunA : script.Runs a.chain [] := by
    rw [hchainA]
    exact .nil
  have hrunB : script.Runs b.chain [a] := by
    rw [hchainB]
    exact .call ha hanchorA hrunA .nil
  have hrunC : script.Runs c.chain [a, a, b] := by
    rw [hchainC]
    exact .call ha hanchorA hrunA (.call hb hanchorB hrunB .nil)
  have htwice {α : Type} {f : ScriptUnit → List α} (hlength : (f a).length = 1) :
      ¬ ([a, a, b].flatMap f).Nodup := by
    obtain ⟨x, hx⟩ := length_eq_one_iff.1 hlength
    simp [hx]
  refine ⟨_, source, script, c, [a, a, b], hout, hread, hscript, rfl, hc, hanchorC, ?_, hrunC, ?_,
    htwice hregistered, htwice hmade⟩
  · rw [hchainC]
    exact hlineage
  · simp [timesRun, hanchorA, hanchorB]

end Pagewright
