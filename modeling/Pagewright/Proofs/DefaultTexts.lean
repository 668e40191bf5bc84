import Pagewright.Proofs.QuotedValues

/-!
# Default texts

The units that run on an element each try their own default text, parents first, and one is taken
only while the element shows no text at all (`ElementText.assignDefault`). So the first one that is
not empty is left (`textAfter_some`). A default has no effect before there is an element, which a
class without a tag does not create (`textAfter_none`), and what the instances inside show counts,
too. The texts of a unit are those of its plan (`UnitContext.Keeps.texts_defaults`,
`UnitContext.Keeps.texts_assignments`). -/

namespace Pagewright

open List

variable {entries written : List (String × String)} {vars : List Variable} {text x : String} {ctx : BodyContext}

/-! ### The text of an element -/

/-- The text of an element: what stands in it directly, and what the elements inside it show. -/
structure ElementText where
  own : String := ""
  inside : String := ""
deriving DecidableEq

/-- The first text that is not empty. -/
def firstOf (texts : List String) : String := (texts.find? (· ≠ "")).getD ""

namespace ElementText

/-- All text that the element shows. -/
def content (t : ElementText) : String := t.own ++ t.inside

/-- Gives an element that shows no text a text. -/
def assignDefault (t : ElementText) (text : String) : ElementText := if t.content = "" then ⟨text, ""⟩ else t

theorem content_eq_empty {t : ElementText} : t.content = "" ↔ t = {} := by
  obtain ⟨own, inside⟩ := t
  rw [content]
  simp

theorem foldl_assignDefault (texts : List String) (t : ElementText) :
    texts.foldl assignDefault t = if t = {} then ⟨firstOf texts, ""⟩ else t := by
  induction texts generalizing t with
  | nil =>
    split
    · next he => exact he
    · rfl
  | cons text texts ih =>
    rw [foldl_cons, ih, assignDefault, if_congr content_eq_empty rfl rfl]
    by_cases he : t = {}
    · rw [if_pos he, if_pos he]
      by_cases ht : text = ""
      · rw [ht, if_pos rfl, firstOf, firstOf, find?_cons_of_neg (by simp)]
      · have hne : (⟨text, ""⟩ : ElementText) ≠ {} := fun heq => ht (ElementText.mk.inj heq).1
        rw [if_neg hne, firstOf, find?_cons_of_pos (by simpa using ht), Option.getD_some]
    · rw [if_neg he, if_neg he, if_neg he]

end ElementText

theorem firstOf_append (texts texts' : List String) :
    firstOf (texts ++ texts') = if firstOf texts = "" then firstOf texts' else firstOf texts := by
  unfold firstOf
  rw [find?_append]
  cases hf : texts.find? (· ≠ "") with
  | none => rfl
  | some text =>
    have ht : text ≠ "" := by simpa using find?_some hf
    rw [Option.some_or, Option.getD_some, if_neg ht]

theorem firstOf_eq {texts : List String} (h : ∀ x ∈ texts, x = "" ∨ x = text)
    (hm : text = "" ∨ text ∈ texts) : firstOf texts = text := by
  unfold firstOf
  cases hf : texts.find? (· ≠ "") with
  | none =>
    rcases hm with he | hm
    · exact he.symm
    · have he : text = "" := by simpa using find?_eq_none.1 hf text hm
      exact he.symm
  | some x =>
    have hx : x ≠ "" := by simpa using find?_some hf
    exact (h x (mem_of_find?_eq_some hf)).resolve_left hx

/-! ### Running units -/

/-- The expressions for a text among some entries. -/
def texts (entries : List (String × String)) : List String :=
  (entries.filter (·.1 = "text")).map Prod.snd

theorem texts_cons (e : String × String) (entries : List (String × String)) : texts (e :: entries) =
    if e.1 = "text" then e.2 :: texts entries else texts entries := by
  unfold texts
  split
  · next ht => rw [filter_cons_of_pos (by simpa using ht), map_cons]
  · next ht => rw [filter_cons_of_neg (by simpa using ht)]

/-- The text that a quoted string stands for, read as markup reads it. -/
def textValue (raw : String) : String := (stringLiteral? raw).getD ""

/-- A unit that runs on an element, and what the instances that it makes do to the text inside. -/
structure Execution where
  unit : ScriptUnit
  grow : String → String

namespace Execution

/-- The defaults that a unit tries. -/
def defaults (e : Execution) : List String := (texts e.unit.defaults).map textValue

/-- The instances that a unit makes take no text away. -/
def Grows (e : Execution) : Prop := ∀ text, text ≠ "" → e.grow text ≠ ""

/-- The instances that a unit makes show no text. -/
def IsSilent (e : Execution) : Prop := e.grow "" = ""

instance (e : Execution) : Decidable e.IsSilent := inferInstanceAs (Decidable (_ = _))

/-- The text of an element when a unit has made its instances. -/
def onMaking (e : Execution) (before : ElementText) : ElementText := ⟨before.own, e.grow before.inside⟩

/-- The text of an element when a unit has run on it: the unit makes its instances, tries its
defaults and does its assignments. -/
def onElement (e : Execution) (before : ElementText) : ElementText :=
  (texts e.unit.assignments).foldl (fun _ raw => ⟨textValue raw, ""⟩)
    (e.defaults.foldl ElementText.assignDefault (e.onMaking before))

/-- The text of the element, if there is one, when a unit has run. The unit of a class with a tag
creates an element where there is none; without one a text is lost. -/
def after (e : Execution) (before? : Option ElementText) : Option ElementText :=
  (if e.unit.created.isEmpty then before? else before?.or (some {})).map e.onElement

end Execution

/-- The text of the element, if there is one, when some units have run. -/
def textAfter (es : List Execution) (before? : Option ElementText) : Option ElementText :=
  es.foldl (fun before? e => e.after before?) before?

/-- The first text that is not empty among the defaults tried before an instance inside shows
text. -/
def firstText (es : List Execution) : String :=
  firstOf ((es.takeWhile fun e => e.IsSilent).flatMap Execution.defaults)

theorem firstText_cons (e : Execution) (es : List Execution) : firstText (e :: es) =
    if e.IsSilent then (if firstOf e.defaults = "" then firstText es else firstOf e.defaults) else "" := by
  unfold firstText
  by_cases hs : e.IsSilent
  · rw [takeWhile_cons_of_pos (by simpa using hs), flatMap_cons, firstOf_append, if_pos hs]
  · rw [takeWhile_cons_of_neg (by simpa using hs), if_neg hs]
    rfl

theorem Execution.after_some (e : Execution) (pre : ElementText) : e.after (some pre) = some (e.onElement pre) := by
  rw [after, Option.some_or, ite_self, Option.map_some]

theorem Execution.Grows.onMaking_eq_empty {e : Execution} (hg : e.Grows) {pre : ElementText} :
    e.onMaking pre = {} ↔ pre = {} ∧ e.IsSilent := by
  obtain ⟨own, inside⟩ := pre
  constructor
  · intro he
    obtain ⟨ho, hr⟩ := ElementText.mk.inj he
    have hi : inside = "" := by
      by_contra hne
      exact hg inside hne hr
    cases ho
    cases hi
    exact ⟨rfl, hr⟩
  · rintro ⟨he, hs⟩
    cases he
    exact congrArg (ElementText.mk "") hs

theorem Execution.onElement_eq {e : Execution} (ha : texts e.unit.assignments = []) (before : ElementText) : e.onElement before =
      if e.onMaking before = {} then ⟨firstOf e.defaults, ""⟩ else e.onMaking before := by
  rw [onElement, ha, foldl_nil, ElementText.foldl_assignDefault]

/-- **Units that run on an element** leave its text as it is if it has one, and else give it the
first default that is not empty. -/
theorem textAfter_some {es : List Execution} (hg : ∀ e ∈ es, e.Grows)
    (ha : ∀ e ∈ es, texts e.unit.assignments = []) (pre : ElementText) :
    ∃ inside, textAfter es (some pre) = some ⟨if pre = {} then firstText es else pre.own, inside⟩ := by
  induction es generalizing pre with
  | nil =>
    refine ⟨pre.inside, congrArg some ?_⟩
    split
    · next he =>
      rw [he]
      rfl
    · rfl
  | cons e es ih =>
    obtain ⟨hgr, hg⟩ := forall_mem_cons.1 hg
    obtain ⟨has, ha⟩ := forall_mem_cons.1 ha
    obtain ⟨inside, hr⟩ := ih hg ha (e.onElement pre)
    refine ⟨inside, ?_⟩
    rw [textAfter, foldl_cons, e.after_some]
    refine hr.trans (congrArg (fun own => some (ElementText.mk own inside)) ?_)
    rw [e.onElement_eq has, firstText_cons]
    by_cases he : e.onMaking pre = {}
    · obtain ⟨hb, hs⟩ := hgr.onMaking_eq_empty.1 he
      rw [if_pos he, if_pos hb, if_pos hs]
      exact if_congr (by simp) rfl rfl
    · -- What is shown now keeps all further defaults off.
      rw [if_neg he, if_neg he]
      split
      · next hb =>
        rw [if_neg fun hs => he (hgr.onMaking_eq_empty.2 ⟨hb, hs⟩), hb]
        rfl
      · rfl

theorem textAfter_none {es : List Execution} (h : ∃ e ∈ es, e.unit.created ≠ []) :
    textAfter es none = textAfter (es.dropWhile fun e => e.unit.created.isEmpty) (some {}) := by
  induction es with
  | nil =>
    obtain ⟨e, he, -⟩ := h
    cases he
  | cons e es ih =>
    by_cases hc : e.unit.created = []
    · have hr : ∃ e ∈ es, e.unit.created ≠ [] := by
        obtain ⟨x, hx, hne⟩ := h
        rcases mem_cons.1 hx with rfl | hx
        · exact absurd hc hne
        · exact ⟨x, hx, hne⟩
      have hn : e.after none = none := by
        rw [Execution.after, hc]
        rfl
      rw [dropWhile_cons_of_pos (by simp [hc]), ← ih hr, textAfter, foldl_cons, hn]
      rfl
    · have hs : e.after none = e.after (some {}) := by
        rw [e.after_some, Execution.after, if_neg (by simpa using hc)]
        rfl
      rw [dropWhile_cons_of_neg (by simpa using hc), textAfter, foldl_cons, hs]
      rfl

/-! ### The texts of a unit -/

/-- A variable with its expression, if it has one. -/
def Variable.binding? (v : Variable) : Option (String × String) := v.initializer.map (v.name, ·)

theorem BodyContext.isWritten_of_isValue (h : Forall₂ ctx.IsValue vars written) (hi : ∀ v ∈ vars, v.initializer.isSome) :
    Forall₂ ctx.IsWritten (vars.filterMap Variable.binding?) written := by
  induction h with
  | nil => exact .nil
  | @cons v e vars written ha _ ih =>
    obtain ⟨hv, hvr⟩ := forall_mem_cons.1 hi
    obtain ⟨raw, hr⟩ := Option.isSome_iff_exists.1 hv
    have he : v.binding? = some (v.name, raw) := by
      rw [Variable.binding?, hr]
      rfl
    rw [filterMap_cons_some he]
    exact .cons ⟨ha.1, ha.2 raw hr⟩ (ih hvr)

theorem BodyContext.texts_of_isWritten (h : Forall₂ ctx.IsWritten entries written)
    (hq : ∀ raw ∈ texts entries, (stringLiteral? raw).isSome) : texts written = texts entries := by
  induction h with
  | nil => rfl
  | @cons e other entries written he _ ih =>
    obtain ⟨hn, hv⟩ := he
    rw [texts_cons] at hq
    rw [texts_cons, texts_cons, hn]
    split at hq
    · next ht =>
      obtain ⟨hr, hq⟩ := forall_mem_cons.1 hq
      obtain ⟨text, hl⟩ := Option.isSome_iff_exists.1 hr
      rw [if_pos ht, if_pos ht, ih hq, expression_of_stringLiteral? hl hv]
    · next ht => rw [if_neg ht, if_neg ht, ih hq]

theorem texts_eq_nil (h : "text" ∉ entries.map Prod.fst) : texts entries = [] := by
  rw [texts, map_eq_nil_iff, filter_eq_nil_iff]
  intro e he ht
  exact h (mem_map.2 ⟨e, he, by simpa using ht⟩)

theorem texts_entries (m : PropertyMap) : texts m.entries = (m.get? "text").toList := by
  obtain ⟨entries, hn⟩ := m
  show texts entries = (entries.lookup "text").toList
  induction entries with
  | nil => rfl
  | cons e entries ih =>
    obtain ⟨key, raw⟩ := e
    obtain ⟨hk, hn⟩ := nodup_cons.1 hn
    rw [texts_cons, lookup_cons]
    by_cases ht : key = "text"
    · subst ht
      rw [texts_eq_nil hk]
      rfl
    · rw [if_neg ht, beq_eq_false_iff_ne.2 (Ne.symm ht)]
      exact ih hn

theorem fst_of_mem_filterMap_binding? (h : x ∈ (vars.filterMap Variable.binding?).map Prod.fst) : x ∈ vars.map Variable.name := by
  obtain ⟨e, he, rfl⟩ := mem_map.1 h
  obtain ⟨v, hv, heq⟩ := mem_filterMap.1 he
  obtain ⟨raw, -, rfl⟩ := Option.map_eq_some_iff.1 heq
  exact mem_map_of_mem hv

theorem texts_of_nodup (h : (vars.map Variable.name).Nodup) : texts (vars.filterMap Variable.binding?) =
      ((vars.find? (·.name = "text")).bind Variable.initializer).toList := by
  induction vars with
  | nil => rfl
  | cons v vars ih =>
    obtain ⟨hv, ha⟩ := nodup_cons.1 h
    by_cases ht : v.name = "text"
    · have hr : texts (vars.filterMap Variable.binding?) = [] := by
        rw [ht] at hv
        exact texts_eq_nil fun hm => hv (fst_of_mem_filterMap_binding? hm)
      rw [find?_cons_of_pos (by simpa using ht), Option.bind_some, filterMap_cons, Variable.binding?]
      cases v.initializer with
      | none => exact hr
      | some raw =>
        rw [Option.map_some, texts_cons, if_pos ht, hr]
        rfl
    · rw [find?_cons_of_neg (by simpa using ht), filterMap_cons, Variable.binding?]
      cases v.initializer with
      | none => exact ih ha
      | some raw =>
        rw [Option.map_some, texts_cons, if_neg ht]
        exact ih ha

theorem texts_filter_fixedNames (vars : List Variable) :
    texts ((vars.filter fun v => fixedNames.contains v.name && v.initializer.isSome).filterMap
      Variable.binding?) = texts (vars.filterMap Variable.binding?) := by
  induction vars with
  | nil => rfl
  | cons v vars ih =>
    rw [filterMap_cons, Variable.binding?]
    cases hi : v.initializer with
    | none =>
      rw [filter_cons_of_neg (by simp [hi])]
      exact ih
    | some raw =>
      have he : v.binding? = some (v.name, raw) := by
        rw [Variable.binding?, hi]
        rfl
      rw [Option.map_some, texts_cons]
      by_cases ht : v.name = "text"
      · rw [filter_cons_of_pos (by simp [hi, ht, fixedNames]), filterMap_cons_some he, texts_cons, if_pos ht, if_pos ht, ih]
      · rw [if_neg ht]
        by_cases hf : fixedNames.contains v.name
        · rw [filter_cons_of_pos (by rw [hf, hi]; rfl), filterMap_cons_some he, texts_cons, if_neg ht, ih]
        · rw [filter_cons_of_neg (by simp only [hf]; simp), ih]

namespace UnitContext

variable {ctx : UnitContext} {plan : UnitPlan} {u : ScriptUnit}

theorem Keeps.texts_defaults (h : ctx.Keeps plan u) (hn : (plan.members.publicTier.vars.map Variable.name).Nodup)
    (hq : ∀ raw, plan.members.defaultText? = some raw → (stringLiteral? raw).isSome) :
    texts u.defaults = plan.members.defaultText?.toList := by
  have hd : plan.members.defaultText? = (plan.members.publicTier.vars.find? (·.name = "text")).bind Variable.initializer := by
    rw [Members.defaultText?]
    cases plan.members.publicTier.vars.find? (·.name = "text") <;> rfl
  have hw := BodyContext.isWritten_of_isValue (BodyContext.forall₂_values h.defaults) fun v hv => by
    have hv := of_mem_filter hv
    rw [Bool.and_eq_true] at hv
    exact hv.2
  have ht := texts_filter_fixedNames plan.members.publicTier.vars
  rw [texts_of_nodup hn, ← hd] at ht
  rw [BodyContext.texts_of_isWritten hw, ht]
  rw [ht]
  exact fun raw hr => hq raw (Option.mem_toList.1 hr)

theorem Keeps.texts_assignments (h : ctx.Keeps plan u)
    (hq : ∀ raw, plan.assignments.get? "text" = some raw → (stringLiteral? raw).isSome) :
    texts u.assignments = if plan.anchor.isCreation then (plan.assignments.get? "text").toList else [] := by
  have hw := BodyContext.forall₂_assignments h.assigned
  by_cases hc : plan.anchor.isCreation
  · have ha : (plan.assignments.entries.filter fun e => plan.anchor.isCreation || !isStaticText e) = plan.assignments.entries := by
      rw [hc]
      simp
    rw [ha] at hw
    rw [if_pos hc, BodyContext.texts_of_isWritten hw, texts_entries]
    rw [texts_entries]
    exact fun raw hr => hq raw (Option.mem_toList.1 hr)
  · have hn : texts (plan.assignments.entries.filter fun e =>
        plan.anchor.isCreation || !isStaticText e) = [] := by
      refine texts_eq_nil fun hm => ?_
      obtain ⟨⟨key, raw⟩, he, rfl⟩ := mem_map.1 hm
      obtain ⟨he, hs⟩ := mem_filter.1 he
      have hr : raw ∈ texts plan.assignments.entries := mem_map_of_mem (mem_filter.2 ⟨he, by simp⟩)
      rw [texts_entries] at hr
      simp [hc, isStaticText, hq raw (Option.mem_toList.1 hr)] at hs
    rw [if_neg hc, BodyContext.texts_of_isWritten hw, hn]
    rw [hn]
    nofun

end UnitContext

end Pagewright
