import Pagewright.Proofs.InstalledNames
import Pagewright.Proofs.ReadBack
import Pagewright.Proofs.SetLines

/-!
# Names are code

The names that a unit writes as they are come from words of the source, numbers of instances, and
keys of style properties. None has a quote, a slash or a line feed, so that they are code
(`PageSource.hasCodeNames`). -/

namespace Pagewright

open List Tree

variable {name method key back front owner : String} {c : Char} {s : Source} {m : Members} {child root : ChildHandle}

/-! ### Kinds of names -/

/-- The text has only characters of code that are no signs. -/
def IsPlainName (name : String) : Prop := ∀ c ∈ name.toList, isCodeChar c = true ∧ c ≠ '+' ∧ c ≠ '-'

theorem IsPlainName.isCodeText (h : IsPlainName name) : isCodeText name.toList := by
  rw [Pagewright.isCodeText, Bool.and_eq_true, all_eq_true, Option.all_eq_true]
  refine ⟨fun c hc => (h c hc).1, fun c hc => ?_⟩
  obtain ⟨-, hp, hm⟩ := h c (mem_of_getLast? hc)
  simp [hp, hm]

theorem IsPlainName.append (hf : IsPlainName front) (hb : IsPlainName back) : IsPlainName (front ++ back) := by
  intro c hc
  rw [String.toList_append] at hc
  exact (mem_append.1 hc).elim (hf c) (hb c)

theorem isCodeChar_of_isWordPart (h : isWordPart c) : isCodeChar c := by
  have hw : (['\'', '"', '`', '/', '\\', '\n'].all fun d => !isWordPart d) := by decide
  by_contra hc
  simp only [isCodeChar, Bool.not_eq_true, Bool.not_eq_false', Bool.or_eq_true, decide_eq_true_eq] at hc
  have ho := all_eq_true.1 hw c (by simpa [or_assoc] using hc)
  rw [h] at ho
  cases ho

theorem IsWordText.isCode (h : IsWordText name) : isCode name := all_eq_true.2 fun c hc => isCodeChar_of_isWordPart (h c hc)

theorem IsNameText.isPlainName (h : IsNameText name) : IsPlainName name := by
  intro c hc
  have hn := h c hc
  refine ⟨isCodeChar_of_isWordPart (h.isWordText c hc), ?_, ?_⟩
  · rintro rfl
    exact absurd hn (by decide)
  · rintro rfl
    exact absurd hn (by decide)

/-- A character of keys other than the dash. -/
def isKeyChar (c : Char) : Bool := c.isAlphanum || c = '_' || c = '.' || c = ':'

theorem toNat_lt_of_isKeyChar (h : isKeyChar c) : c.toNat < 128 := by
  simp only [isKeyChar, Bool.or_eq_true, decide_eq_true_eq] at h
  rcases h with ((h | rfl) | rfl) | rfl
  · unfold Char.isAlphanum Char.isAlpha Char.isUpper Char.isLower Char.isDigit at h
    simp only [Bool.or_eq_true, Bool.and_eq_true, decide_eq_true_eq, UInt32.le_iff_toNat_le, ge_iff_le] at h
    have hc : c.toNat = c.val.toNat := rfl
    have hb : 'Z'.val.toNat = 90 ∧ 'z'.val.toNat = 122 ∧ '9'.val.toNat = 57 := ⟨rfl, rfl, rfl⟩
    omega
  all_goals decide

theorem isKeyChar_spec (h : isKeyChar c) : (isCodeChar c ∧ c ≠ '+' ∧ c ≠ '-') ∧ isKeyChar c.toUpper := by
  have ha : ∀ n : Fin 128, isKeyChar (Char.ofNat n) → (isCodeChar (Char.ofNat n) ∧ Char.ofNat n ≠ '+' ∧ Char.ofNat n ≠ '-') ∧
        isKeyChar (Char.ofNat n).toUpper := by
    decide +kernel
  have hc := ha ⟨c.toNat, toNat_lt_of_isKeyChar h⟩
  rw [Char.ofNat_toNat] at hc
  exact hc h

theorem isPlainName_of_isKeyChar (h : ∀ c ∈ name.toList, isKeyChar c) :
    IsPlainName name := fun c hc => (isKeyChar_spec (h c hc)).1

theorem isPlainName_aliasName (ho : IsNameText owner) (hm : IsNameText method) : IsPlainName (aliasName owner method) := by
  have hj (joint : String) (h : joint.toList.all isKeyChar) : IsPlainName joint := isPlainName_of_isKeyChar (all_eq_true.1 h)
  exact (((hj "__" (by decide)).append ho.isPlainName).append (hj "_" (by decide))).append hm.isPlainName

theorem isPlainName_idText (id : Nat) : IsPlainName (idText id) := by
  have hh : (idText id).toList = 't' :: Nat.toDigits 10 id := by simp [idText, toString]
  refine isPlainName_of_isKeyChar fun c hc => ?_
  rw [hh] at hc
  rcases mem_cons.1 hc with rfl | hc
  · decide
  · simp [isKeyChar, Char.isAlphanum, Nat.isDigit_of_mem_toDigits (by decide) (by decide) hc]

theorem isKeyChar_of_isPropertyKey {key : List Char} (h : isPropertyKey key) : ∀ c ∈ key, c = '-' ∨ isKeyChar c := by
  intro c hc
  obtain ⟨-, ha⟩ := Bool.and_eq_true_iff.1 (isAttributeName_of_isPropertyKey h)
  simpa [isKeyChar, or_comm] using all_eq_true.1 ha c hc

theorem isKeyChar_of_mem_camelCase {cs : List Char} (h : ∀ c ∈ cs, c = '-' ∨ isKeyChar c)
    (begun raised : Bool) : ∀ c ∈ camelCase begun raised cs, isKeyChar c := by
  induction cs generalizing begun raised with
  | nil => nofun
  | cons d cs ih =>
    obtain ⟨hd, hs⟩ := forall_mem_cons.1 h
    intro c hc
    rw [camelCase] at hc
    split_ifs at hc with ha hr
    · exact ih hs begun begun c hc
    · have hk := hd.resolve_left ha
      rcases mem_append.1 hc with hc | hc
      · rw [uppercase, if_pos (toNat_lt_of_isKeyChar hk), mem_singleton] at hc
        exact hc ▸ (isKeyChar_spec hk).2
      · exact ih hs true false c hc
    · rcases mem_cons.1 hc with rfl | hc
      · exact hd.resolve_left ha
      · exact ih hs true false c hc

theorem isPlainName_accessorName (h : isPropertyKey key.toList) : IsPlainName (accessorName key) := by
  refine isPlainName_of_isKeyChar fun c hc => ?_
  rw [accessorName, String.toList_ofList] at hc
  exact isKeyChar_of_mem_camelCase (isKeyChar_of_isPropertyKey h) false false c hc

theorem isCode_of_isPropertyKey (h : isPropertyKey key.toList) : isCode key := by
  refine all_eq_true.2 fun c hc => ?_
  rcases isKeyChar_of_isPropertyKey h c hc with rfl | hk
  · decide
  · exact (isKeyChar_spec hk).1.1

/-! ### Names of instances -/

namespace PageSource

variable {text : List Char} {src : PageSource} {script : Script} {plan : UnitPlan} {plans : List UnitPlan}

theorem IsFamily.isNameText (hr : readChecked text = .ok src) (h : src.IsFamily plan plans) :
    ∀ name ∈ plans.filterMap UnitPlan.name?, IsNameText name := by
  obtain ⟨s, page, -, -, hcl, hn⟩ := exists_sources hr
  intro name ha
  obtain ⟨own, heq, ⟨c, hc, ho⟩ | ho⟩ := h.exists_label ha
  · obtain ⟨node, hno, hl⟩ := mem_labelsAll.1 ho
    exact ((hcl c hc).children node hno own hl).name name heq
  · exact (hn own ho).name name heq

end PageSource

/-! ### Names in units -/

theorem Members.CutFrom.isNameText (h : m.CutFrom s) : ∀ name ∈ m.privateTier.names ++ m.shownNames, IsNameText name := by
  intro name hn
  have hc : name ∈ m.variables.map Variable.name ∨ name ∈ m.named.map Method.name := by
    simp only [Members.shownNames, Tier.names, mem_append, mem_accessorNames, map_append] at hn
    simp only [Members.variables, named, map_append, mem_append]
    tauto
  rcases hc with ha | hm
  · obtain ⟨v, hv, rfl⟩ := mem_map.1 ha
    exact (h.declared v hv).name
  · obtain ⟨x, hx, rfl⟩ := mem_map.1 hm
    exact h.names x hx

theorem Members.CutFrom.isNameText_of_hasInheritable (h : m.CutFrom s) (hh : m.hasInheritable method) : IsNameText method := by
  refine h.isNameText method ?_
  simp only [hasInheritable, Tier.hasMethod, Bool.or_eq_true, any_eq_true, decide_eq_true_eq] at hh
  simp only [shownNames, Tier.names, mem_append, mem_map]
  rcases hh with hp | hr
  · exact .inr (.inl (.inr (.inr hp)))
  · exact .inr (.inl (.inl (.inr hr)))

theorem isPlainName_function {anchor : Anchor} (h : ∀ name ∈ anchor.className?, IsNameText name) :
    IsPlainName anchor.function := by
  have hn (id : Nat) : IsPlainName ("__unit_" ++ idText id) := by
    refine IsPlainName.append (isPlainName_of_isKeyChar (all_eq_true.1 ?_)) (isPlainName_idText id)
    decide
  cases anchor with
  | byClass name => exact (h name rfl).isPlainName
  | byMarkup id | byCreation id => exact hn id

theorem ChildHandle.isPlainName_localName (h : child.anchor.className? = none) : IsPlainName child.localName := by
  obtain ⟨id, hn, -⟩ := child.exists_number h
  rw [hn]
  refine IsPlainName.append (isPlainName_of_isKeyChar (all_eq_true.1 ?_)) (isPlainName_idText id)
  decide

namespace UnitContext.IsUnit

variable {ctx : UnitContext} {plan : UnitPlan} {plans : List UnitPlan} {u : ScriptUnit} {s : Source}

theorem isNameText_of_members (h : ctx.IsUnit (plan, plans) u) (hp : plan.ReadFrom s) :
    (∀ name ∈ u.privateNames, IsNameText name) ∧
      (∀ e ∈ u.protectedVariables ++ u.publicVariables ++ u.defaults, IsNameText e.1) ∧
      ∀ f ∈ u.protectedMethods ++ u.publicMethods, IsNameText f.name := by
  obtain ⟨p, hb⟩ := h.builds
  have hn : u.privateNames = plan.members.privateTier.names := by
    rw [ScriptUnit.privateNames, h.keeps.privateVariables, hb.privateMethods_eq,
      BodyContext.map_name_of_isFunction hb.prepares.privateMethods, Tier.names]
  obtain ⟨hr, ho, hu, hpb, -, hd⟩ := h.mem_shownNames
  have hs : ∀ name ∈ plan.members.shownNames, IsNameText name := fun name ha =>
    hp.members.isNameText name (mem_append_right _ ha)
  refine ⟨fun name ha => ?_, fun e he => hs _ ?_, fun f hf => hs _ ?_⟩
  · exact hp.members.isNameText name (mem_append_left _ (hn ▸ ha))
  · rcases mem_append.1 he with he | he
    · rcases mem_append.1 he with he | he
      · exact hr _ (mem_map_of_mem he)
      · exact hu _ (mem_map_of_mem he)
    · exact hd _ (mem_map_of_mem he)
  · rcases mem_append.1 hf with hf | hf
    · exact ho _ (mem_map_of_mem hf)
    · exact hpb _ (mem_map_of_mem hf)

theorem isNameText_of_published (h : ctx.IsUnit (plan, plans) u) (hp : plan.ReadFrom s) :
    ∀ e ∈ u.published, IsNameText e.1 ∧ ∃ owner, u.anchor.className? = some owner ∧ IsNameText owner := by
  obtain ⟨p, hb⟩ := h.builds
  have ha : u.anchor = plan.anchor := h.anchor_eq
  rw [hb.published_eq, ha]
  unfold published
  intro e he
  split at he
  · cases he
  · next owner ho =>
    obtain ⟨method, hm, rfl⟩ := mem_map.1 he
    refine ⟨hp.members.isNameText method ?_, owner, ho, hp.className owner ho⟩
    have hme := mem_of_mem_filter hm
    simp only [Members.shownNames, Tier.names, mem_append, map_append] at hme ⊢
    tauto

theorem hasCodeNames (h : ctx.IsUnit (plan, plans) u) (hp : plan.ReadFrom s)
    (hl : ∀ a ∈ u.aliases, IsNameText a.1 ∧ IsNameText a.2)
    (hm : ∀ child ∈ u.children, child.anchor.className? = none)
    (hc : ∀ name ∈ plans.filterMap UnitPlan.name?, IsNameText name) : u.HasCodeNames where
  function := by
    have han : u.anchor = plan.anchor := h.anchor_eq
    rw [han]
    exact (isPlainName_function hp.className).isCodeText
  parents := by
    intro e he
    obtain ⟨p, hb⟩ := h.builds
    have hme : e.1 ∈ u.chain.map Prod.fst := mem_map_of_mem he
    rw [hb.chain_eq] at hme
    exact (hp.entries e.1 (mem_of_mem_filter hme)).isCode
  aliases := by
    intro name hn
    obtain ⟨a, ha, rfl⟩ := mem_map.1 hn
    exact (isPlainName_aliasName (hl a ha).1 (hl a ha).2).isCodeText
  privates := fun name hn => ((h.isNameText_of_members hp).1 name hn).isPlainName.isCodeText
  values := by
    intro e he
    rcases mem_append.1 he with he | he
    · exact ((h.isNameText_of_members hp).2.1 e he).isPlainName.isCodeText
    · exact (h.isNameText_of_mem_assignments hp e he).isPlainName.isCodeText
  methods := fun f hf => ((h.isNameText_of_members hp).2.2 f hf).isPlainName.isCodeText
  published := by
    intro e he
    obtain ⟨hn, owner, hcl, ho⟩ := h.isNameText_of_published hp e he
    rw [hcl]
    exact ⟨hn.isPlainName.isCodeText, (isPlainName_aliasName ho hn).isCodeText⟩
  styleNames := by
    intro name hn
    rw [h.shows.styleNames_eq] at hn
    obtain ⟨key, hk, rfl⟩ := mem_map.1 hn
    exact (isPlainName_accessorName (hp.style key hk)).isCodeText
  children := by
    intro child hh
    have hno := hm child hh
    refine ⟨(isPlainName_function (by simp [hno])).isCodeText, child.isPlainName_localName hno |>.isCodeText, fun name hn => ?_⟩
    rw [h.children_eq] at hh
    obtain ⟨other, ht, rfl⟩ := mem_map.1 hh
    exact (hc name (mem_filterMap.2 ⟨other, ht, hn⟩)).isPlainName.isCodeText

end UnitContext.IsUnit

namespace PageSource

variable {text : List Char} {src : PageSource} {script : Script} {u : ScriptUnit}

theorem isNameText_of_mem_aliases (hr : readChecked text = .ok src) {called : List (String × String)}
    {family : UnitPlan × List UnitPlan} (hu : UnitContext.IsUnit ⟨src.table, src.text, called⟩ family u) :
    ∀ a ∈ u.aliases, IsNameText a.1 ∧ IsNameText a.2 := by
  rintro ⟨owner, method⟩ ha
  obtain ⟨p, hb⟩ := hu.builds
  obtain ⟨s, page, -, -, hl, -⟩ := exists_sources hr
  rw [hb.aliases_eq, hb.prepares.inherited_eq] at ha
  obtain ⟨inCtor, call, hm⟩ := ClassTable.exists_call_of_mem_callsOfMembers ha
  obtain ⟨c, he, hn, hh⟩ := ClassTable.exists_reaches_of_meaning? (noTags hr) hm
  have hc := hl c he.mem
  exact ⟨hn ▸ hc.name, hc.members.isNameText_of_hasInheritable hh⟩

/-- **Names are code.** The names that the units of a page write have nothing that begins a text of
its own. -/
theorem hasCodeNames (hr : readChecked text = .ok src) (hs : src.script = .ok script)
    (hu : u ∈ script.units) : u.HasCodeNames := by
  obtain ⟨called, hf⟩ := exists_family hs
  obtain ⟨plan, plans, ha, hn⟩ := hf u hu
  obtain ⟨s, -, hp⟩ := ha.exists_readFrom hr
  exact hn.hasCodeNames hp (isNameText_of_mem_aliases hr hn)
    (fun child => className?_of_mem_children hs hu) (ha.isNameText hr)

theorem isPlainName_of_mem_roots (hr : readChecked text = .ok src) (hs : src.script = .ok script) (hro : root ∈ script.roots) :
    IsPlainName root.anchor.function ∧ IsPlainName root.localName ∧ ∀ name ∈ root.name?, IsPlainName name := by
  obtain ⟨s, page, -, -, -, hn⟩ := exists_sources hr
  obtain ⟨called, -, ht⟩ := units_of_script hs
  rw [ht] at hro
  obtain ⟨plan, hp, rfl⟩ := mem_map.1 hro
  have hno : plan.handle.anchor.className? = none := by
    obtain ⟨site, -, rfl⟩ := mem_map.1 hp
    rfl
  refine ⟨isPlainName_function (by simp [hno]), ChildHandle.isPlainName_localName hno, fun name ha => ?_⟩
  have hm : name ∈ handleNamesAll src.page.nodes := names_topLabels ▸ mem_filterMap.2 ⟨plan, hp, ha⟩
  obtain ⟨own, ho, ho'⟩ := exists_label_of_mem_handleNamesAll hm
  exact ((hn own ho).name name ho').isPlainName

end PageSource

end Pagewright
