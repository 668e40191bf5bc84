import Pagewright.Proofs.DefaultTexts
import Pagewright.Proofs.EffectiveStyle
import Pagewright.Proofs.ElementTag

/-!
# The texts of elements

Markup gives an element its own quoted text or else the default text of the nearest class
(`ClassTable.staticText?`). A script gives it the first default that is not empty and is tried on an
element, parents first (`Script.ShowsText`). The two agree where the classes have but one text to
give and a tag to create an element with, and differ where a class gives another text than its
parent (`compileText_element_text_differs`). -/

namespace Pagewright

open List Pagewright.Tree

variable {cs : List ClassDef} {c : ClassDef} {raw scope text : String} {entries ns : List String} {u v : ScriptUnit}

/-! ### Tags before texts -/

theorem forall₂_dropWhile {α β : Type} {R : α → β → Prop} {p : α → Bool} {q : β → Bool} {xs : List α}
    {ys : List β} (h : Forall₂ R xs ys) (hs : ∀ x y, R x y → p x = q y) : Forall₂ R (xs.dropWhile p) (ys.dropWhile q) := by
  induction h with
  | nil => exact .nil
  | @cons x y xs ys hx hr ih =>
    rw [dropWhile_cons, dropWhile_cons, hs x y hx]
    split
    · exact ih
    · exact .cons hx hr

/-- A class without a tag among its parents. -/
def ClassDef.isTagless (c : ClassDef) : Bool := (c.parents.filter isTag).isEmpty

theorem ClassTable.Visits.mem_dropWhile {t : ClassTable} (ht : t.NoTags) (h : t.Visits ns cs)
    (hc : c ∈ cs) (hta : (t.tag? c.name).isSome) : c ∈ cs.dropWhile ClassDef.isTagless := by
  induction h with
  | nil => cases hc
  | tag _ _ ih => exact ih hc
  | @visit d ns inner post hd hi ha ihinner ihafter =>
    rw [dropWhile_append]
    rcases mem_append.1 hc with hc | hc
    · have hm := ihinner hc
      rw [if_neg (by rw [List.isEmpty_iff]; exact ne_nil_of_mem hm)]
      exact mem_append_left _ hm
    split
    · next hn =>
      rw [dropWhile_cons]
      split
      · next hg =>
        rcases mem_cons.1 hc with rfl | hc
        · -- The class has its tag from an ancestor, which was visited before it.
          exfalso
          obtain ⟨tag, hf⟩ := Option.isSome_iff_exists.1 hta
          obtain ⟨e, he, hp⟩ := mem_flatMap.1 (mem_of_find?_eq_some hf)
          have hv : t.Visits [c.name] (inner ++ [c]) := .visit hd hi .nil
          rw [← mem_lineage_singleton ht hd, ← hv.mem_iff ht, mem_append, mem_singleton] at he
          have hl : e.isTagless := by
            rcases he with he | rfl
            · exact dropWhile_eq_nil_iff.1 (isEmpty_iff.1 hn) e he
            · exact hg
          rw [ClassDef.isTagless, List.isEmpty_iff, filter_eq_nil_iff] at hl
          exact hl tag hp (find?_some hf)
        · exact ihafter hc
      · exact hc
    · exact mem_append_right _ hc

/-! ### The texts of an instance -/

namespace ClassTable

variable {t : ClassTable} {own : Instance}

/-- The default texts of the classes of an instance and of the instance itself, as they were
written. -/
def defaultTexts (t : ClassTable) (own : Instance) : List String :=
  (t.lineage own.entries).filterMap (·.members.defaultText?) ++ own.members.defaultText?.toList

/-- All texts that an instance can be given are quoted strings. -/
def HasQuotedTexts (t : ClassTable) (own : Instance) : Prop :=
  ∀ raw ∈ t.defaultTexts own ++ (own.assignments.get? "text").toList, (stringLiteral? raw).isSome = true

instance (t : ClassTable) (own : Instance) : Decidable (t.HasQuotedTexts own) :=
  inferInstanceAs (Decidable (∀ _ ∈ _, _))

/-- No default text of an instance is another than the one given, unless it is empty. -/
def GivesOnly (t : ClassTable) (own : Instance) (text : String) : Prop :=
  ∀ raw ∈ t.defaultTexts own, textValue raw = "" ∨ textValue raw = text

instance (t : ClassTable) (own : Instance) (text : String) : Decidable (t.GivesOnly own text) :=
  inferInstanceAs (Decidable (∀ _ ∈ _, _))

/-- The text that markup gives the element of an instance. -/
def shownText (t : ClassTable) (own : Instance) : String := (t.staticText? own).getD ""

theorem mem_defaultTexts : raw ∈ t.defaultTexts own ↔ (∃ c ∈ t.lineage own.entries, c.members.defaultText? = some raw) ∨
      own.members.defaultText? = some raw := by
  rw [defaultTexts, mem_append, mem_filterMap, Option.mem_toList]

theorem exists_of_inheritedText? (h : t.inheritedText? entries = some raw) :
    ∃ c ∈ t.lineage entries, c.members.defaultText? = some raw := by
  obtain ⟨entry, hen, h⟩ := exists_of_findSome?_eq_some h
  obtain ⟨c, hc, hr⟩ := exists_of_findSome?_eq_some h
  exact ⟨c, mem_lineage.2 ⟨entry, hen, hc⟩, hr⟩

end ClassTable

/-- The lines that give an element a default text. -/
def defaultGuard (raw : String) : String :=
  block 1 ("if (!" ++ elementText ++ " || !" ++ elementText ++ ".textContent)")
    (line 2 (selfName ++ ".text = " ++ raw ++ ";"))

theorem ScriptUnit.isPart_defaultGuard (h : raw ∈ texts u.defaults) : IsPart (defaultGuard raw) u.render := by
  obtain ⟨⟨key, v⟩, he, rfl⟩ := mem_map.1 h
  obtain ⟨he, hk⟩ := mem_filter.1 he
  have hk : key = "text" := by simpa using hk
  have hp : IsPart (defaultGuard v) u.defaultText := by
    refine isPart_join_of_mem (mem_map.2 ⟨(key, v), he, ?_⟩)
    show (if key = "text" then _ else _) = _
    rw [if_pos hk]
    rfl
  have ht := hp.within (u.surfaceText ++ u.accessorText ++ u.handlerText ++
    line 1 (selfName ++ "." ++ childrenName ++ " = " ++ childApiName ++ "(" ++ selfName ++ ");") ++
    u.childText) (u.ownStyleText ++ u.lastWorkText ++ "\x7d\n")
  refine isPart_render_of_tail ?_
  simpa only [tail, String.append_assoc] using ht

/-- What the unit of a class does about tags and texts. -/
structure ClassDef.HasTexts (c : ClassDef) (v : ScriptUnit) : Prop where
  anchor_eq : v.anchor = .byClass c.name
  created_eq : v.created = c.parents.filter isTag
  defaults_eq : texts v.defaults = c.members.defaultText?.toList
  assignments_eq : texts v.assignments = []

/-- Runs of some units, with instances inside that take no text away. -/
def AreExecutions (us : List ScriptUnit) (es : List Execution) : Prop :=
  es.map Execution.unit = us ∧ ∀ e ∈ es, e.Grows

/-- How the element of an instance comes to its text, the units of a run being executed before that
of the instance. -/
structure Script.ShowsText (s : Script) (t : ClassTable) (own : Instance) (u : ScriptUnit)
    (run : List ScriptUnit) : Prop where
  runs_iff : ∀ run', s.Runs u.chain run' ↔ run' = run
  /-- The units before are those of classes, with the tags and the text of the class. -/
  units : ∀ v ∈ run, ∃ c ∈ t.lineage own.entries, c.HasTexts v
  defaults_eq : texts u.defaults = own.members.defaultText?.toList
  written : ∀ v ∈ run ++ [u], ∀ raw ∈ texts v.defaults, IsPart (defaultGuard raw) v.render
  markup_eq : ∀ p : Placed, p.toInstance = own → isVoid (t.resolveTag own.entries) = false →
    (t.elementHead p).text = t.shownText own
  /-- An instance inside a class has its own text if it is assigned one. -/
  assigned : u.anchor.isCreation = true → (own.assignments.get? "text").isSome = true →
    ∀ es, AreExecutions (run ++ [u]) es → textAfter es none = some ⟨t.shownText own, ""⟩
  /-- Else it has the first default that is tried on an element. -/
  created : u.anchor.isCreation = true → own.assignments.get? "text" = none →
    ∀ es, AreExecutions (run ++ [u]) es → ∃ inside, textAfter es none =
      some ⟨firstText (es.dropWhile fun e => e.unit.created.isEmpty), inside⟩
  /-- An instance on the page keeps what the markup shows, and has the first default if that is nothing. -/
  placed : u.anchor.markupId?.isSome = true → ∀ es, AreExecutions (run ++ [u]) es → ∀ before, ∃ inside,
    textAfter es (some before) = some ⟨if before = {} then firstText es else before.own, inside⟩
  /-- Inside a class that is the text that markup would give, if the classes with a text have no other to give
  and a tag, and if the instances inside show nothing. -/
  created_agrees : u.anchor.isCreation = true → own.assignments.get? "text" = none →
    t.GivesOnly own (t.shownText own) →
    (∀ c ∈ t.lineage own.entries, c.members.defaultText?.isSome = true → (t.tag? c.name).isSome = true) →
    ∀ es, AreExecutions (run ++ [u]) es → (∀ e ∈ es, e.IsSilent) →
      ∃ inside, textAfter es none = some ⟨t.shownText own, inside⟩
  /-- On the page it is, if it is not empty or there is no other. -/
  placed_agrees : u.anchor.markupId?.isSome = true → (t.shownText own ≠ "" ∨ t.GivesOnly own "") →
    ∀ es, AreExecutions (run ++ [u]) es → ∀ before, before.own = t.shownText own →
      ∃ inside, textAfter es (some before) = some ⟨t.shownText own, inside⟩

/-! ### Two ways to a text -/

section

variable {t : ClassTable} {own : Instance} {u : ScriptUnit} {run us : List ScriptUnit} {es : List Execution}

theorem Anchor.isCreation_of_markupId? {a : Anchor} (h : a.markupId?.isSome) : a.isCreation = false := by
  cases a with
  | byMarkup _ => rfl
  | byClass _ | byCreation _ => cases h

theorem AreExecutions.mem (h : AreExecutions us es) {e : Execution} (he : e ∈ es) : e.unit ∈ us := h.1 ▸ mem_map_of_mem he

theorem AreExecutions.texts_assignments (h : AreExecutions (run ++ [u]) es)
    (hu : ∀ v ∈ run, ∃ c ∈ t.lineage own.entries, c.HasTexts v) (hn : texts u.assignments = []) :
    ∀ e ∈ es, texts e.unit.assignments = [] := by
  intro e he
  rcases mem_append.1 (h.mem he) with hv | hv
  · obtain ⟨c, -, ht⟩ := hu _ hv
    exact ht.assignments_eq
  · rw [mem_singleton.1 hv]
    exact hn

theorem AreExecutions.mem_defaultTexts (h : AreExecutions (run ++ [u]) es)
    (hu : ∀ v ∈ run, ∃ c ∈ t.lineage own.entries, c.HasTexts v)
    (hd : texts u.defaults = own.members.defaultText?.toList)
    (ht : text ∈ es.flatMap Execution.defaults) : ∃ raw ∈ t.defaultTexts own, textValue raw = text := by
  obtain ⟨e, he, ht⟩ := mem_flatMap.1 ht
  obtain ⟨raw, hr, rfl⟩ := mem_map.1 ht
  refine ⟨raw, ClassTable.mem_defaultTexts.2 ?_, rfl⟩
  rcases mem_append.1 (h.mem he) with hv | hv
  · obtain ⟨c, hc, hte⟩ := hu _ hv
    rw [hte.defaults_eq, Option.mem_toList] at hr
    exact .inl ⟨c, hc, hr⟩
  · rw [mem_singleton.1 hv, hd, Option.mem_toList] at hr
    exact .inr hr

theorem AreExecutions.textAfter_of_assigned (h : AreExecutions (run ++ [u]) es) (hc : u.created ≠ [])
    (ha : texts u.assignments = [raw]) (before? : Option ElementText) : textAfter es before? = some ⟨textValue raw, ""⟩ := by
  obtain ⟨first, last, rfl, -, hl⟩ := map_eq_append_iff.1 h.1
  obtain ⟨e, rest, rfl, rfl, hr⟩ := map_eq_cons_iff.1 hl
  cases map_eq_nil_iff.1 hr
  have hs : ∀ x?, e.after x? = some ⟨textValue raw, ""⟩ := by
    intro x?
    rw [Execution.after, if_neg (by simpa using hc)]
    cases x? <;> simp [Execution.onElement, ha]
  rw [textAfter, foldl_append]
  exact hs _

theorem AreExecutions.textAfter_of_created (h : AreExecutions (run ++ [u]) es) (hc : u.created ≠ [])
    (ha : ∀ e ∈ es, texts e.unit.assignments = []) : ∃ inside, textAfter es none =
      some ⟨firstText (es.dropWhile fun e => e.unit.created.isEmpty), inside⟩ := by
  have hs : ∀ e ∈ es.dropWhile fun e => e.unit.created.isEmpty, e ∈ es := fun e he => (dropWhile_suffix _).subset he
  obtain ⟨e, he, hu⟩ : ∃ e ∈ es, e.unit = u := by
    rw [← mem_map, h.1]
    exact mem_append_right _ mem_cons_self
  rw [textAfter_none ⟨e, he, hu ▸ hc⟩]
  exact textAfter_some (fun e he => h.2 e (hs e he)) (fun e he => ha e (hs e he)) {}

theorem firstText_eq_empty (h : ∀ text ∈ es.flatMap Execution.defaults, text = "") : firstText es = "" := by
  refine firstOf_eq (fun text ht => .inl (h text ?_)) (.inl rfl)
  obtain ⟨e, he, ht⟩ := mem_flatMap.1 ht
  exact mem_flatMap.2 ⟨e, (takeWhile_sublist _).subset he, ht⟩

theorem firstText_of_isSilent (h : ∀ e ∈ es, e.IsSilent) : firstText es = firstOf (es.flatMap Execution.defaults) := by
  rw [firstText, takeWhile_eq_self_iff.2 fun e he => by simpa using h e he]

theorem AreExecutions.mem_dropWhile (h : AreExecutions (run ++ [u]) es) (ht : t.NoTags) (hi : t.Visits own.entries cs)
    (hl : Forall₂ ClassDef.HasTexts cs run) (hc : c ∈ t.lineage own.entries) (ha : (t.tag? c.name).isSome)
    (hr : c.members.defaultText? = some raw) :
    textValue raw ∈ (es.dropWhile fun e => e.unit.created.isEmpty).flatMap Execution.defaults := by
  have hm := hi.mem_dropWhile ht ((hi.mem_iff ht).2 hc) ha
  have hs : ∀ (d : ClassDef) (v : ScriptUnit), d.HasTexts v → d.isTagless = v.created.isEmpty := by
    intro d v hte
    rw [hte.created_eq]
    rfl
  obtain ⟨v, hv, hte⟩ := exists_of_mem_left (forall₂_dropWhile hl hs) hm
  have hv : v ∈ (run ++ [u]).dropWhile fun v => v.created.isEmpty := by
    rw [dropWhile_append, if_neg (by rw [List.isEmpty_iff]; exact ne_nil_of_mem hv)]
    exact mem_append_left _ hv
  rw [← h.1, dropWhile_map] at hv
  obtain ⟨e, he, rfl⟩ := mem_map.1 hv
  refine mem_flatMap.2 ⟨e, he, mem_map_of_mem ?_⟩
  rw [hte.defaults_eq, hr]
  exact mem_cons_self

theorem ClassTable.shownText_cases (hn : own.assignments.get? "text" = none) :
    t.shownText own = "" ∨ ∃ c ∈ t.lineage own.entries, ∃ raw,
      c.members.defaultText? = some raw ∧ textValue raw = t.shownText own := by
  rw [shownText, staticText?, hn]
  cases hi : t.inheritedText? own.entries with
  | none => exact .inl rfl
  | some raw =>
    obtain ⟨c, hc, hr⟩ := exists_of_inheritedText? hi
    exact .inr ⟨c, hc, raw, hr, rfl⟩

theorem AreExecutions.firstText_eq_shownText (h : AreExecutions (run ++ [u]) es)
    (ht : t.NoTags) (hv : t.Visits own.entries cs) (hl : Forall₂ ClassDef.HasTexts cs run)
    (hu : ∀ v ∈ run, ∃ c ∈ t.lineage own.entries, c.HasTexts v) (hd : texts u.defaults = own.members.defaultText?.toList)
    (hn : own.assignments.get? "text" = none) (hg : t.GivesOnly own (t.shownText own))
    (ha : ∀ c ∈ t.lineage own.entries, c.members.defaultText?.isSome → (t.tag? c.name).isSome) (hs : ∀ e ∈ es, e.IsSilent) :
    firstText (es.dropWhile fun e => e.unit.created.isEmpty) = t.shownText own := by
  have hsu : ∀ e ∈ es.dropWhile fun e => e.unit.created.isEmpty, e ∈ es := fun e he => (dropWhile_suffix _).subset he
  rw [firstText_of_isSilent fun e he => hs e (hsu e he)]
  refine firstOf_eq (fun x hx => ?_) ?_
  · obtain ⟨e, he, hx⟩ := mem_flatMap.1 hx
    obtain ⟨raw, hr, rfl⟩ := h.mem_defaultTexts hu hd (mem_flatMap.2 ⟨e, hsu e he, hx⟩)
    exact hg raw hr
  · refine (ClassTable.shownText_cases hn).imp id ?_
    rintro ⟨c, hc, raw, hr, hh⟩
    have ha : (t.tag? c.name).isSome := ha c hc (by rw [hr]; rfl)
    rw [← hh]
    exact h.mem_dropWhile ht hv hl hc ha hr

theorem Script.showsText {s : Script} (ht : t.NoTags) (hi : t.Visits own.entries cs)
    (hr : ∀ run', s.Runs u.chain run' ↔ run' = run)
    (hl : Forall₂ ClassDef.HasTexts cs run) (hcr : u.anchor.isCreation → u.created ≠ [])
    (hd : texts u.defaults = own.members.defaultText?.toList)
    (ha : texts u.assignments = if u.anchor.isCreation then (own.assignments.get? "text").toList else []) : s.ShowsText t own u run := by
  have hu : ∀ v ∈ run, ∃ c ∈ t.lineage own.entries, c.HasTexts v := by
    intro v hv
    obtain ⟨c, hc, hte⟩ := exists_of_mem_left hl.flip hv
    exact ⟨c, (hi.mem_iff ht).1 hc, hte⟩
  have hce : u.anchor.isCreation → own.assignments.get? "text" = none → ∀ es, AreExecutions (run ++ [u]) es → ∃ inside, textAfter es none =
        some ⟨firstText (es.dropWhile fun e => e.unit.created.isEmpty), inside⟩ := by
    intro hca hn es he
    refine he.textAfter_of_created (hcr hca) (he.texts_assignments hu ?_)
    rw [ha, if_pos hca, hn]
    rfl
  have hp : u.anchor.markupId?.isSome → ∀ es, AreExecutions (run ++ [u]) es → ∀ pre, ∃ inside,
      textAfter es (some pre) = some ⟨if pre = {} then firstText es else pre.own, inside⟩ := by
    intro hm es he pre
    refine textAfter_some he.2 (he.texts_assignments hu ?_) pre
    rw [ha, Anchor.isCreation_of_markupId? hm]
    rfl
  refine ⟨hr, hu, hd, ?_, ?_, ?_, hce, hp, ?_, ?_⟩
  · intro v _ raw hra
    exact v.isPart_defaultGuard hra
  · rintro p rfl ho
    rw [ClassTable.elementHead, if_neg (by simpa using ho)]
    rfl
  · intro hca hs es he
    obtain ⟨raw, hra⟩ := Option.isSome_iff_exists.1 hs
    rw [if_pos hca, hra] at ha
    rw [he.textAfter_of_assigned (hcr hca) ha, ClassTable.shownText, ClassTable.staticText?, hra]
    rfl
  · intro hca hn hg hta es he hsi
    rw [← he.firstText_eq_shownText ht hi hl hu hd hn hg hta hsi]
    exact hce hca hn es he
  · intro hm hg es he pre hb
    obtain ⟨inside, hf⟩ := hp hm es he pre
    refine ⟨inside, hf.trans (congrArg (fun own => some (ElementText.mk own inside)) ?_)⟩
    split
    · next hem =>
      rw [hem] at hb
      have hg := hg.resolve_left fun hne => hne hb.symm
      rw [← hb]
      refine firstText_eq_empty fun x hx => ?_
      obtain ⟨raw, hra, rfl⟩ := he.mem_defaultTexts hu hd hx
      exact (hg raw hra).elim id id
    · exact hb

end

/-! ### The units of a source -/

theorem public_of_checkNames {members : Members} {style : PropertyMap} {children : List Node}
    (h : checkNames scope members style children = .ok ()) : (members.publicTier.vars.map Variable.name).Nodup := by
  have hn : members.publicTier.names.Nodup := by
    refine (nodup_of_checkNames h).sublist ?_
    simp only [append_assoc]
    exact (sublist_append_left _ _).trans ((sublist_append_right _ _).trans (sublist_append_right _ _))
  exact hn.sublist (sublist_append_left _ _)

namespace PageSource

variable {text : List Char} {source : PageSource} {script : Script}

theorem forall₂_keeps (hr : readChecked text = .ok source) (hs : source.script = .ok script) :
    ∃ called, Forall₂ (fun plan u => u.anchor = plan.anchor ∧ UnitContext.Keeps ⟨source.table, source.text, called⟩ plan u ∧
        (plan.members.publicTier.vars.map Variable.name).Nodup) (source.families.map Prod.fst) script.units := by
  obtain ⟨called, hu, -⟩ := units_of_script hs
  obtain ⟨hl, hp⟩ := forall₂_iff_zip.1 hu
  refine ⟨called, forall₂_map_left_iff.2 (forall₂_iff_zip.2 ⟨hl, fun {family u} ha => ?_⟩)⟩
  have hn := hp ha
  obtain ⟨scope, children, hc⟩ := (isFamily_of_mem_families (of_mem_zip ha).1).exists_checkNames hr
  exact ⟨hn.anchor_eq, hn.keeps, public_of_checkNames hc⟩

theorem hasTexts (hr : readChecked text = .ok source) (hs : source.script = .ok script)
    {ctx : UnitContext} {p : PreparedMembers} (hc : c ∈ source.table.classes) (hv : v ∈ script.units) (hb : ctx.Builds (.ofClass c) p v)
    (hq : ∀ raw, c.members.defaultText? = some raw → (stringLiteral? raw).isSome) : c.HasTexts v := by
  obtain ⟨called, hk⟩ := forall₂_keeps hr hs
  obtain ⟨w, hw, ha, hk, hn⟩ := exists_of_mem_left hk (source.mem_families.1 c hc)
  cases eq_of_anchor_eq hs hv hw hb.anchor_eq ha
  refine ⟨ha, hb.created_eq, hk.texts_defaults hn hq, ?_⟩
  exact hk.texts_assignments nofun

theorem showsText (hr : readChecked text = .ok source) (hs : source.script = .ok script)
    {plan : UnitPlan} (hp : (plan, u) ∈ (source.families.map Prod.fst).zip script.units)
    {own : Instance} (hpl : plan = .ofInstance own ns plan.anchor)
    (hq : source.table.HasQuotedTexts own) : ∃ run, script.ShowsText source.table own u run := by
  have ht := noTags hr
  obtain ⟨called, he⟩ := forall₂_executes hr hs
  obtain ⟨called', hk⟩ := forall₂_keeps hr hs
  obtain ⟨-, cs, run, hu⟩ := (forall₂_iff_zip.1 he).2 hp
  obtain ⟨ha, hk, hn⟩ := (forall₂_iff_zip.1 hk).2 hp
  have hi : source.table.Visits own.entries cs := by
    have hi := hu.visits
    rwa [hpl] at hi
  have hl : ∀ c ∈ cs, c ∈ source.table.lineage own.entries := fun c hc => (hi.mem_iff ht).1 hc
  have hcl : Forall₂ ClassDef.HasTexts cs run := by
    obtain ⟨hle, hpa⟩ := forall₂_iff_zip.1 hu.classes
    refine forall₂_iff_zip.2 ⟨hle, fun {c v} hp => ?_⟩
    obtain ⟨hc, hv⟩ := of_mem_zip hp
    obtain ⟨p, hb⟩ := hpa hp
    refine hasTexts hr hs (hi.mem_classes c hc) (hu.runs.mem_units v hv) hb ?_
    intro raw hra
    exact hq raw (mem_append_left _ (ClassTable.mem_defaultTexts.2 (.inl ⟨c, hl c hc, hra⟩)))
  refine ⟨run, Script.showsText ht hi (runs_iff hs hu.runs) hcl ?_ ?_ ?_⟩
  · intro hcr
    rw [(hu.createsElement ht hs (ha ▸ hcr)).created_eq]
    exact cons_ne_nil _ _
  · rw [hpl] at hk hn
    refine hk.texts_defaults hn fun raw hra => ?_
    exact hq raw (mem_append_left _ (ClassTable.mem_defaultTexts.2 (.inr hra)))
  · rw [ha]
    rw [hpl] at hk
    refine hk.texts_assignments fun raw hra => ?_
    exact hq raw (mem_append_right _ (Option.mem_toList.2 hra))

end PageSource

/-- **The texts of elements.** In a compiled page every instance inside a class, and every one on
the page that has a unit, comes to its text in a known way, if its classes and itself give quoted
strings only: inside a class it has its own text, or else the first default that is not empty and is
tried on an element; on the page it keeps what the markup shows, or else has the first default. This
is the text that markup gives, if its classes have no other to give. -/
theorem compileText_element_text {text : List Char} {links : HeadLinks} {out : PageOutput}
    (h : compileText text links = .ok out) :
    ∃ source script, PageSource.readChecked text = .ok source ∧ source.script = .ok script ∧
      out.behavior = script.render ∧
      (∀ c ∈ source.table.classes, ∀ own ∈ labelsAll c.children, ∃ names id,
        .ofInstance own names (.byCreation id) ∈ source.families.map Prod.fst) ∧
      (∀ s ∈ source.bearing, ∃ names id, s.2.label.id? = some id ∧
        .ofInstance s.2.label.toInstance names (.byMarkup id) ∈ source.families.map Prod.fst) ∧
      Forall₂ (fun plan u => u.anchor = plan.anchor ∧
          ∀ own names, plan = .ofInstance own names plan.anchor → source.table.HasQuotedTexts own →
            ∃ run, script.ShowsText source.table own u run)
        (source.families.map Prod.fst) script.units := by
  obtain ⟨source, script, hread, hscript, rfl⟩ := compileText_eq_ok_iff.1 h
  refine ⟨source, script, hread, hscript, rfl,
    fun c hc own => PageSource.exists_plan_of_mem_children hc,
    fun s => PageSource.exists_plan_of_mem_bearing, ?_⟩
  obtain ⟨called, hkeeps⟩ := PageSource.forall₂_keeps hread hscript
  obtain ⟨hlength, hpairs⟩ := forall₂_iff_zip.1 hkeeps
  refine forall₂_iff_zip.2 ⟨hlength, fun {plan u} hpair => ⟨(hpairs hpair).1, ?_⟩⟩
  intro own names hplan hquoted
  exact PageSource.showsText hread hscript hpair hplan hquoted

/-- Runs of some units whose instances show nothing. -/
def quietly (us : List ScriptUnit) : List Execution := us.map (⟨·, id⟩)

theorem areExecutions_quietly (us : List ScriptUnit) : AreExecutions us (quietly us) := by
  refine ⟨?_, ?_⟩
  · rw [quietly, map_map]
    exact map_id us
  · intro e he text ht
    obtain ⟨u, -, rfl⟩ := mem_map.1 he
    exact ht

theorem isSilent_quietly {us : List ScriptUnit} : ∀ e ∈ quietly us, e.IsSilent := by
  intro e he
  obtain ⟨u, -, rfl⟩ := mem_map.1 he
  rfl

/-- An instance of a class inside another class and one on the page, the text coming from a
parent. -/
def textOfParent : List Char :=
  ("class P extends div\x7bpublic\x7bvar text='p';\x7d\x7dclass C extends P\x7b\x7d" ++
    "class D extends div\x7bC\x7b\x7d\x7dC\x7b\x7d").toList

/-- Both have the text of the parent, as the markup gives it. -/
theorem compileText_element_text_ofParent :
    ∃ out source script, compileText textOfParent ⟨"page.js", "page.css"⟩ = .ok out ∧
      PageSource.readChecked textOfParent = .ok source ∧ source.script = .ok script ∧
      out.behavior = script.render ∧
      (∃ c ∈ source.table.classes, ∃ own ∈ labelsAll c.children, source.table.shownText own = "p" ∧
        ∃ u ∈ script.units, u.anchor.isCreation = true ∧ ∃ run, script.Runs u.chain run ∧
          ∃ inside, textAfter (quietly (run ++ [u])) none = some ⟨"p", inside⟩) ∧
      ∃ s ∈ source.bearing, (source.table.elementHead s.2.label).text = "p" ∧
        ∃ u ∈ script.units, u.anchor.markupId?.isSome = true ∧ ∃ run, script.Runs u.chain run ∧
          ∃ inside, textAfter (quietly (run ++ [u])) (some ⟨"p", ""⟩) = some ⟨"p", inside⟩ := by
  have heval : CompilesWith textOfParent fun source _ =>
      (∃ c ∈ source.table.classes, ∃ own ∈ labelsAll c.children,
        source.table.HasQuotedTexts own ∧ own.assignments.get? "text" = none ∧
        source.table.shownText own = "p" ∧ source.table.GivesOnly own "p" ∧
        ∀ c ∈ source.table.lineage own.entries, (source.table.tag? c.name).isSome = true) ∧
      ∃ s ∈ source.bearing, source.table.HasQuotedTexts s.2.label.toInstance ∧
        source.table.shownText s.2.label.toInstance = "p" ∧
        isVoid (source.table.resolveTag s.2.label.entries) = false := by
    decide +kernel
  obtain ⟨source, script, out, hread, hscript, hout, hfacts, hbehavior, hinside, hpage, htexts⟩ :=
    heval.exists_and ⟨"page.js", "page.css"⟩ fun _ => compileText_element_text
  obtain ⟨⟨c, hc, own, hown, hquoted, hnone, hshown, hgives, htag⟩, s, hs, hquoted', hshown', hvoid⟩ := hfacts
  refine ⟨out, source, script, hout, hread, hscript, hbehavior, ⟨c, hc, own, hown, hshown, ?_⟩, s, hs, ?_⟩
  · obtain ⟨names, id, hplan⟩ := hinside c hc own hown
    obtain ⟨u, hu, hanchor, hunit⟩ := exists_of_mem_left htexts hplan
    obtain ⟨run, hshows⟩ := hunit own names rfl hquoted
    have hcreation : u.anchor.isCreation = true := by
      rw [hanchor]
      rfl
    have hagrees := hshows.created_agrees hcreation hnone (hshown.symm ▸ hgives) (fun c hc _ => htag c hc) _
      (areExecutions_quietly _) isSilent_quietly
    rw [hshown] at hagrees
    exact ⟨u, hu, hcreation, run, (hshows.runs_iff run).2 rfl, hagrees⟩
  · obtain ⟨names, id, -, hplan⟩ := hpage s hs
    obtain ⟨u, hu, hanchor, hunit⟩ := exists_of_mem_left htexts hplan
    obtain ⟨run, hshows⟩ := hunit _ names rfl hquoted'
    have hmarkup : u.anchor.markupId?.isSome = true := by
      rw [hanchor]
      rfl
    have hne : source.table.shownText s.2.label.toInstance ≠ "" := by
      rw [hshown']
      decide
    have hagrees := hshows.placed_agrees hmarkup (.inl hne) _ (areExecutions_quietly _) ⟨"p", ""⟩ hshown'.symm
    rw [hshown'] at hagrees
    refine ⟨(hshows.markup_eq s.2.label rfl hvoid).trans hshown', u, hu, hmarkup, run,
      (hshows.runs_iff run).2 rfl, hagrees⟩

/-- An instance inside a class, of a class that has a text of its own and one from its parent. -/
def textOfBoth : List Char :=
  ("class P extends div\x7bpublic\x7bvar text='p';\x7d\x7d" ++
    "class C extends P\x7bpublic\x7bvar text='c';\x7d\x7d" ++ "class D extends div\x7bC\x7b\x7d\x7d").toList

/-- Markup gives such an instance the text of its class, and the script gives it that of the
parent. -/
theorem compileText_element_text_differs :
    ∃ out source script own u run, compileText textOfBoth ⟨"page.js", "page.css"⟩ = .ok out ∧
      PageSource.readChecked textOfBoth = .ok source ∧ source.script = .ok script ∧
      out.behavior = script.render ∧ (source.table.classes.flatMap fun c => labelsAll c.children) = [own] ∧
      source.table.staticText? own = some "c" ∧ u ∈ script.units ∧ u.anchor = .byCreation 1 ∧
      script.Runs u.chain run ∧ textAfter (quietly (run ++ [u])) none = some ⟨"p", ""⟩ := by
  have heval : CompilesWith textOfBoth fun source script =>
      (source.table.classes.flatMap fun c => labelsAll c.children).map source.table.staticText? = [some "c"] ∧
      ∃ p ∈ script.units, ∃ c ∈ script.units, ∃ u ∈ script.units,
        p.anchor = .byClass "P" ∧ p.chain = [] ∧ c.anchor = .byClass "C" ∧ c.chain = [("P", "")] ∧
        u.anchor = .byCreation 1 ∧ u.chain = [("C", "")] ∧
        textAfter (quietly ([p, c] ++ [u])) none = some ⟨"p", ""⟩ := by
    set_option synthInstance.maxSize 256 in
    decide +kernel
  obtain ⟨source, script, hread, hscript, hout, hstatic, p, hp, c, hc, u, hu, hanchorP, hchainP, hanchorC, hchainC, hanchor,
    hchain, htext⟩ := heval.exists_output ⟨"page.js", "page.css"⟩
  obtain ⟨own, rest, hown, hstatic, hrest⟩ := map_eq_cons_iff.1 hstatic
  rw [map_eq_nil_iff.1 hrest] at hown
  have hrunP : script.Runs p.chain [] := hchainP ▸ .nil
  have hrunC : script.Runs c.chain [p] := hchainC ▸ .call hp hanchorP hrunP .nil
  have hrun : script.Runs u.chain [p, c] := hchain ▸ .call hc hanchorC hrunC .nil
  exact ⟨_, source, script, own, u, [p, c], hout, hread, hscript, rfl, hown, hstatic, hu, hanchor,
    hrun, htext⟩

end Pagewright
