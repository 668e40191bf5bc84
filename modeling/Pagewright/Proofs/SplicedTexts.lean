import Pagewright.Proofs.DefaultTexts
import Pagewright.Proofs.InstalledNames
import Pagewright.Proofs.LiteralTexts

/-!
# Texts of the source in a unit

Every body that is prepared for a unit, every expression that a variable begins with or that is
assigned, and the arguments of the first call for each parent are segments of the unit
(`ScriptUnit.spliced_mem_of_mem_bodies` and the theorems behind it). Assignments and the body of the
constructor are laid out before (`ScriptUnit.layout`). Of the accessors of one name only the first
is written (`Members.Writes`). -/

namespace Pagewright

open List
open String (ofList)

variable {text name val parent args raw : String} {body : ResolvedBody} {f : ScriptFunction} {m : Method}
  {lines segments : List Segment} {cs pre : List Char} {key seg : Segment}
  {fs getters methods setters : List ScriptFunction}

/-! ### Texts of the source in a unit -/

theorem Segment.infix_textOf (h : .spliced text ∈ segments) : text.toList <:+: textOf segments := by
  obtain ⟨front, back, rfl⟩ := append_of_mem h
  exact ⟨textOf front, textOf back, by simp⟩

namespace ScriptUnit

variable (u : ScriptUnit)

/-- The bodies that a unit writes, besides that of its constructor. -/
def bodies : List String :=
  (u.privateMethods ++ u.protectedMethods ++ u.publicMethods ++ u.handlers).map ScriptFunction.body ++
    u.accessors.flatMap fun a => a.getter?.toList ++ (a.setter?.map ScriptFunction.body).toList

/-- The expressions that the variables of a unit begin with. -/
def initialValues : List String :=
  u.privateVariables.filterMap Prod.snd ++ (u.protectedVariables ++ u.publicVariables ++ u.defaults).map Prod.snd

/-- How a unit lays out the texts of its last work. -/
def layout (cs : List Char) : List Char := if u.anchor.markupId?.isSome then cs else reindent cs

theorem layout_eq_self_iff : u.layout cs = cs ↔ u.anchor.markupId?.isSome ∨ '\n' ∉ cs := by
  unfold layout
  split_ifs with hb
  · simp [hb]
  · simp [hb, reindent_eq_self_iff]

end ScriptUnit

namespace Segment

variable {level : Nat} {getter? setter? : Option (List Segment)}

@[simp] theorem spliced_mem_line : .spliced text ∈ line level segments ↔ .spliced text ∈ segments := by simp [line]

@[simp] theorem spliced_mem_block {head : List Segment} :
    .spliced text ∈ block level head lines ↔ .spliced text ∈ head ∨ .spliced text ∈ lines := by simp [block]

theorem spliced_mem_defineProperty (h : (∃ f ∈ getter?, .spliced text ∈ f) ∨ ∃ f ∈ setter?, .spliced text ∈ f) :
    .spliced text ∈ defineProperty level key getter? setter? := by
  rw [defineProperty]
  rcases h with ⟨f, rfl, hf⟩ | ⟨f, rfl, hf⟩ <;> simp [propertyPart, hf]

theorem mem_function {body : String} (h : (trimString body).isEmpty = false) (level : Nat)
    (ps : List String) : .spliced (trimString body) ∈ function level ps body := by
  simp [function, h]

theorem mem_declaration (h : (trimString f.body).isEmpty = false) (level : Nat) :
    .spliced (trimString f.body) ∈ declaration level f := by
  simp [declaration, h]

theorem mem_joinLines : ∀ {items : List (List Segment)} {item : List Segment}, item ∈ items → seg ∈ item → seg ∈ joinLines items
  | [first], item, hi, h => by
    rw [mem_singleton.1 hi] at h
    exact h
  | first :: next :: rest, item, hi, h => by
    rw [joinLines, mem_append, mem_cons]
    rcases mem_cons.1 hi with rfl | hi
    · exact .inl h
    · exact .inr (.inr (mem_joinLines hi h))

end Segment

namespace ScriptUnit

variable {u : ScriptUnit}

theorem mem_methodSegments (holder : String) (hf : f ∈ methods)
    (hne : (trimString f.body).isEmpty = false) : .spliced (trimString f.body) ∈ methodSegments holder methods := by
  refine mem_flatMap.2 ⟨f, hf, ?_⟩
  have hb := Segment.mem_function hne 1 f.params
  simp [hb]

theorem spliced_mem_of_mem_bodies {body : String} (h : body ∈ u.bodies)
    (hne : (trimString body).isEmpty = false) : .spliced (trimString body) ∈ u.segments := by
  rw [bodies, mem_append, mem_map, mem_flatMap] at h
  rcases h with ⟨f, hf, rfl⟩ | ⟨a, ha, hb⟩
  · simp only [mem_append] at hf
    rcases hf with ((hf | hf) | hf) | hf
    · have hd := mem_flatMap.2 ⟨f, hf, Segment.mem_declaration hne 1⟩
      simp [segments, memberSegments, hd]
    · have hm := mem_methodSegments capsuleText hf hne
      simp [segments, memberSegments, hm]
    · have hm := mem_methodSegments selfName hf hne
      simp [segments, memberSegments, hm]
    · have hu := Segment.mem_function hne 2 f.params
      have hn : u.handlers.isEmpty = false := isEmpty_eq_false_iff.2 (ne_nil_of_mem hf)
      have hm : .spliced (trimString f.body) ∈ u.handlerSegments := by
        rw [handlerSegments, hn, if_neg Bool.false_ne_true, Segment.spliced_mem_block, mem_flatMap]
        exact .inr ⟨f, hf, by simp [hu]⟩
      simp [segments, hm]
  · suffices hm : .spliced (trimString body) ∈ u.accessorSegments by simp [segments, hm]
    refine mem_flatMap.2 ⟨a, ha, Segment.spliced_mem_defineProperty ?_⟩
    rcases mem_append.1 hb with hb | hb
    · rw [Option.mem_toList] at hb
      exact .inl ⟨_, Option.mem_map.2 ⟨body, hb, rfl⟩, Segment.mem_function hne 2 []⟩
    · rw [Option.mem_toList] at hb
      obtain ⟨f, hf, rfl⟩ := Option.mem_map.1 hb
      exact .inr ⟨_, Option.mem_map.2 ⟨f, hf, rfl⟩, Segment.mem_function hne 2 f.params⟩

theorem mem_variableSegments (holder : String) {values : List (String × String)}
    (h : (name, val) ∈ values) : .spliced val ∈ variableSegments holder values :=
  mem_flatMap.2 ⟨(name, val), h, by simp⟩

theorem spliced_mem_of_mem_initialValues (h : val ∈ u.initialValues) : .spliced val ∈ u.segments := by
  rw [initialValues, mem_append, mem_filterMap, mem_map] at h
  rcases h with ⟨⟨name, value?⟩, he, rfl⟩ | ⟨⟨name, val⟩, he, rfl⟩
  · have hv : .spliced val ∈ u.memberSegments := by
      simp only [memberSegments, mem_append, List.mem_flatMap]
      exact .inl (.inl (.inl (.inl (.inl ⟨_, he, by simp⟩))))
    simp [segments, hv]
  · simp only [mem_append] at he
    rcases he with (he | he) | he
    · have hv := mem_variableSegments capsuleText he
      simp [segments, memberSegments, hv]
    · have hv := mem_variableSegments selfName he
      simp [segments, memberSegments, hv]
    · have hv : .spliced val ∈ u.defaultSegments := by
        refine List.mem_flatMap.2 ⟨_, he, ?_⟩
        dsimp only
        split_ifs <;> simp
      simp [segments, hv]

theorem spliced_mem_of_mem_chain (h : (parent, args) ∈ u.chain) (hne : args.isEmpty = false) : .spliced args ∈ u.segments := by
  have hc : .spliced args ∈ u.chainSegments := mem_flatMap.2 ⟨(parent, args), h, by simp [hne]⟩
  simp [segments, hc]

theorem spliced_mem_of_lastWork (h : text ∈ u.assignments.map Prod.snd ∨ text ∈ u.workBody?) :
    .spliced (ofList (u.layout text.toList)) ∈ u.segments := by
  suffices hw : .spliced (ofList (u.layout text.toList)) ∈ u.lastWorkSegments by simp [segments, hw]
  obtain ⟨item, hi, hm⟩ : ∃ item ∈ u.workItems fun t => ofList (u.layout t.toList),
      .spliced (ofList (u.layout text.toList)) ∈ item := by
    rcases h with h | h
    · obtain ⟨⟨key, val⟩, he, rfl⟩ := mem_map.1 h
      exact ⟨_, mem_append_left _ (mem_map.2 ⟨_, he, rfl⟩), by simp⟩
    · exact ⟨_, mem_append_right _ (mem_map.2 ⟨text, by simpa using h, rfl⟩), by simp⟩
  by_cases hb : u.anchor.markupId?.isSome
  · have hl : (fun t : String => ofList (u.layout t.toList)) = id := by
      funext t
      simp [layout, hb]
    rw [hl] at hi
    have hne : (u.workItems id).isEmpty = false := isEmpty_eq_false_iff.2 (ne_nil_of_mem hi)
    have hw := Segment.mem_joinLines hi hm
    rw [lastWorkSegments, if_pos hb, hne]
    simp [hw]
  · have hl : (fun t : String => ofList (u.layout t.toList)) = fun t => ofList (reindent t.toList) := by
      simp [layout, hb]
    rw [hl] at hi
    rw [lastWorkSegments, if_neg hb]
    exact mem_flatMap.2 ⟨item, hi, by simp [hm]⟩

end ScriptUnit

/-! ### What becomes of the texts of a plan -/

section Plans

variable {ctx : UnitContext} {plan : UnitPlan} {plans : List UnitPlan} {u : ScriptUnit}
  {back front : List (List Char × ParentCall)}

/-- The body is written into the unit: it is a method or a handler, or the first accessor of its
name. -/
def Members.Writes (members : Members) (m : Method) : Prop :=
  m ∈ members.privateTier.methods ∨ m ∈ members.protectedTier.methods ∨ m ∈ members.publicTier.methods ∨
    members.getters.find? (·.name = m.name) = some m ∨ members.setters.find? (·.name = m.name) = some m ∨
    m ∈ members.handlers

theorem BodyContext.exists_find?_of_isFunction {bodies : BodyContext} {ms : List Method}
    (h : Forall₂ bodies.IsFunction ms fs) (hm : ms.find? (·.name = name) = some m) :
    ∃ f, fs.find? (·.name = name) = some f ∧ bodies.IsFunction m f := by
  induction h with
  | nil => cases hm
  | @cons m' f ms fs hf hs ih =>
    obtain ⟨body, hb, rfl⟩ := hf
    by_cases hn : m'.name = name
    · rw [find?_cons_of_pos (by simpa using hn)] at hm
      cases hm
      exact ⟨_, find?_cons_of_pos (by simpa using hn), body, hb, rfl⟩
    · rw [find?_cons_of_neg (by simpa using hn)] at hm
      obtain ⟨f, hf, hi⟩ := ih hm
      exact ⟨f, by rw [find?_cons_of_neg (by simpa using hn), hf], hi⟩

theorem mem_accessorsOf (h : f ∈ getters ++ setters) :
    ⟨f.name, (getters.find? (·.name = f.name)).map ScriptFunction.body, setters.find? (·.name = f.name)⟩ ∈ accessorsOf getters setters :=
  mem_map.2 ⟨f.name, mem_eraseDups.2 (mem_map.2 ⟨f, h, rfl⟩), rfl⟩

theorem UnitContext.IsUnit.exists_body (h : ctx.IsUnit (plan, plans) u) (hm : plan.members.Writes m) :
    ∃ body, (ctx.bodies plan).prepare false m = .ok body ∧ ofList body.text ∈ u.bodies := by
  obtain ⟨p, hb⟩ := h.builds
  have hs := hb.prepares
  have hfs := rel_append (rel_append (rel_append hs.privateMethods hs.protectedMethods) hs.publicMethods) hs.handlers
  rw [ScriptUnit.bodies, hb.privateMethods_eq, hb.protectedMethods_eq, hb.publicMethods_eq, hb.handlers_eq, hb.accessors_eq]
  rcases hm with hm | hm | hm | hm | hm | hm
  case inr.inr.inr.inl =>
    obtain ⟨f, hf, body, hbo, rfl⟩ := BodyContext.exists_find?_of_isFunction hs.getters hm
    have ha := mem_accessorsOf (mem_append_left p.setters (mem_of_find?_eq_some hf))
    exact ⟨body, hbo, mem_append_right _ (List.mem_flatMap.2 ⟨_, ha, by simp [hf]⟩)⟩
  case inr.inr.inr.inr.inl =>
    obtain ⟨f, hf, body, hbo, rfl⟩ := BodyContext.exists_find?_of_isFunction hs.setters hm
    have ha := mem_accessorsOf (mem_append_right p.getters (mem_of_find?_eq_some hf))
    exact ⟨body, hbo, mem_append_right _ (List.mem_flatMap.2 ⟨_, ha, by simp [hf]⟩)⟩
  all_goals
    obtain ⟨f, hf, body, hbo, rfl⟩ := exists_of_mem_left hfs (show m ∈ _ by simp [hm])
    exact ⟨body, hbo, mem_append_left _ (mem_map.2 ⟨_, hf, rfl⟩)⟩

theorem UnitContext.IsUnit.exists_initialValue (h : ctx.IsUnit (plan, plans) u) {v : Variable}
    (hv : v ∈ plan.members.variables) (hr : raw ∈ v.initializer) :
    ∃ val, (ctx.bodies plan).expression raw = .ok val ∧ val ∈ u.initialValues := by
  have ha {vars : List Variable} {es : List (String × String)}
      (hvr : Forall₂ (ctx.bodies plan).IsValue vars es) (hm : v ∈ vars)
      (hw : ∀ e ∈ es, e ∈ u.protectedVariables ++ u.publicVariables ++ u.defaults) :
      ∃ val, (ctx.bodies plan).expression raw = .ok val ∧ val ∈ u.initialValues := by
    obtain ⟨e, he, -, hx⟩ := exists_of_mem_left hvr hm
    exact ⟨e.2, hx raw hr, mem_append_right _ (mem_map.2 ⟨e, hw e he, rfl⟩)⟩
  simp only [Members.variables, mem_append] at hv
  rcases hv with (hv | hv) | hv
  · obtain ⟨e, he, -, hl⟩ := exists_of_mem_left (BodyContext.forall₂_privateVariables h.parts.2.1) hv
    obtain ⟨val, hm, hx⟩ := hl raw hr
    exact ⟨val, hx, mem_append_left _ (mem_filterMap.2 ⟨e, he, hm⟩)⟩
  · exact ha h.keeps.protectedVariables hv fun e he => by simp [he]
  · cases hf : fixedNames.contains v.name with
    | false =>
      exact ha h.shows.publicVariables (mem_filter.2 ⟨hv, by rw [hf]; rfl⟩) fun e he => by simp [he]
    | true =>
      have hs : v.initializer.isSome := Option.isSome_iff_exists.2 ⟨raw, hr⟩
      exact ha (BodyContext.forall₂_values h.keeps.defaults) (mem_filter.2 ⟨hv, by rw [hf, hs]; rfl⟩)
        fun e he => by simp [he]

theorem UnitContext.IsUnit.exists_assigned (h : ctx.IsUnit (plan, plans) u) {e : String × String}
    (he : e ∈ plan.assignments.entries) (ha : (plan.anchor.isCreation || !isStaticText e)) :
    ∃ val, (ctx.bodies plan).expression e.2 = .ok val ∧ val ∈ u.assignments.map Prod.snd := by
  obtain ⟨val, hv, -, hx⟩ := exists_of_mem_left (BodyContext.forall₂_assignments h.keeps.assigned)
    (mem_filter.2 ⟨he, ha⟩)
  exact ⟨val.2, hx, mem_map.2 ⟨val, hv, rfl⟩⟩

theorem UnitContext.IsUnit.mem_chain (h : ctx.IsUnit (plan, plans) u) (hm : plan.members.constructor? = some m)
    (hb : (ctx.bodies plan).prepare true m = .ok body) (hpa : parent ∈ plan.entries)
    (ht : isTag parent = false) {args : List Char} (ha : body.chainArgs.lookup parent = some args) :
    (parent, ofList args) ∈ u.chain := by
  obtain ⟨⟨p, hp, -, hc⟩, -⟩ := h.parts
  rw [hc]
  refine mem_map.2 ⟨parent, mem_filter.2 ⟨hpa, by simp [ht]⟩, ?_⟩
  rw [(BodyContext.prepares_of_prepareMembers hp).2 m body hm hb, ha]
  rfl

theorem BodyContext.exists_lookup_of_resolve {bodies : BodyContext} {inCtor : Bool} {tail : List Char} {call : ParentCall}
    (h : bodies.resolve inCtor m tail (front ++ (pre, call) :: back) = .ok body)
    (hc : bodies.table.meaning? bodies.entries inCtor call = some .chain) (hf : ∀ other ∈ front.map Prod.snd,
      bodies.table.meaning? bodies.entries inCtor other = some .chain → other.target ≠ call.target) :
    ∃ args, qualify bodies.ambient m.paramNames call.args = .ok args ∧ body.chainArgs.lookup call.target = some args := by
  induction front generalizing body with
  | nil =>
    obtain ⟨done, -, h⟩ := bind_eq_ok.1 h
    simp only [hc] at h
    obtain ⟨args, ha, h⟩ := bind_eq_ok.1 h
    cases h
    exact ⟨args, ha, lookup_cons_self⟩
  | cons e front ih =>
    obtain ⟨pre', other⟩ := e
    rw [map_cons, forall_mem_cons] at hf
    obtain ⟨done, hd, h⟩ := bind_eq_ok.1 h
    obtain ⟨args, ha, hl⟩ := ih hd hf.2
    cases hm : bodies.table.meaning? bodies.entries inCtor other with
    | none =>
      simp only [hm] at h
      cases h
    | some meaning =>
      cases meaning with
      | chain =>
        simp only [hm] at h
        obtain ⟨_, -, h⟩ := bind_eq_ok.1 h
        cases h
        have hne : (call.target == other.target) = false := by simpa using (hf.1 hm).symm
        exact ⟨args, ha, by rw [lookup_cons, hne, hl]⟩
      | inherited owner method =>
        simp only [hm] at h
        cases h
        exact ⟨args, ha, hl⟩

end Plans

end Pagewright
