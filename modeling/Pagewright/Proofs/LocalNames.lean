import Pagewright.Proofs.Families

/-!
# Names that a unit binds

The function of a unit binds its parameters, the instance, the constants for the methods of
ancestors, the private members, and the constants for instances without a name. Private members
differ from each other and are not reserved, the number of an instance has no underscore, and the
name of every method of an ancestor has one. Nothing else keeps these names apart: parameters are
compared with nothing, and owner and name of a method are put together by an underscore that both
may have. So the names differ exactly under the conditions of `ScriptUnit.LocalsApart`
(`compileText_local_names_differ_iff`), which do not always hold
(`compileText_local_names_collide`). -/

namespace Pagewright

open List Pagewright.Tree

variable {method method' owner owner' scope self x : String} {child : ChildHandle}
  {aliases handles params privates taken : List String}

/-! ### Names of patterns -/

/-- What stands behind the key of a property inside an object pattern: behind the first colon
outside all brackets, unless the mark of a default value comes before it. -/
def behindKey? (opened : List Bracket) : List ScriptToken → Option (List ScriptToken)
  | [] => none
  | t :: ts =>
    if opened.isEmpty && t.kind = .colon then some ts
    else if opened.isEmpty && t.kind = .other '=' then none
    else behindKey? (openAfter opened t.kind) ts

theorem length_le_of_behindKey? {opened : List Bracket} {ts rest : List ScriptToken}
    (h : behindKey? opened ts = some rest) : rest.length ≤ ts.length := by
  fun_induction behindKey? opened ts with
  | case1 => cases h
  | case2 =>
    cases h
    exact Nat.le_succ _
  | case3 => cases h
  | case4 opened t ts _ _ ih => exact Nat.le_succ_of_le (ih h)

/-- The names that the pattern at the front of the tokens declares. The property of an object
pattern is a pattern behind a key, which may be a name, a string, a number or anything in brackets;
without a key it is a pattern itself. -/
def patternNames (ts : List ScriptToken) : List String :=
  match ts with
  | [] => []
  | t :: rest =>
    match t.kind with
    | .word name => [name]
    | .spread => patternNames rest
    | .opener .curly =>
      match _hg : closeGroup [.curly] rest with
      | none => []
      | some g => (splitCommas [] g.inside).attach.flatMap fun ⟨part, _hp⟩ =>
          match _hk : behindKey? [] part with
          | some value => patternNames value
          | none => patternNames part
    | .opener .square =>
      match _hg : closeGroup [.square] rest with
      | none => []
      | some g => (splitCommas [] g.inside).attach.flatMap fun ⟨part, _hp⟩ => patternNames part
    | _ => []
termination_by ts.length
decreasing_by
  · simp
  · have h₁ := closeGroup_length _hg
    have h₂ := length_le_of_mem_splitCommas _hp
    have h₃ := length_le_of_behindKey? _hk
    simp only [List.length_cons]
    omega
  all_goals
    have h₁ := closeGroup_length _hg
    have h₂ := length_le_of_mem_splitCommas _hp
    simp only [List.length_cons]
    omega

/-! ### Names of units -/

namespace ScriptUnit

variable (u : ScriptUnit)

/-- The names that the parameters of a unit declare. -/
def paramNames : List String := u.params.flatMap fun p =>
  match Source.ofText p.toList with
  | .ok s => patternNames s.scriptTokens.1
  | .error _ => []

/-- The constants for the methods of ancestors. -/
def aliasNames : List String := u.aliases.map fun a => aliasName a.1 a.2

/-- The names of the private members of a unit. -/
def privateNames : List String :=
  u.privateVariables.map Prod.fst ++ u.privateMethods.map ScriptFunction.name

/-- The constants that hold the instances without a name. -/
def localHandles : List String := (u.children.filter (·.name?.isNone)).map ChildHandle.localName

/-- The declarations in the function of a unit: the keyword and the name. -/
def declarations : List (String × String) :=
  ("const ", selfName) :: (u.aliasNames.map ("const ", ·) ++
    (u.privateVariables.map (("let ", ·.1)) ++ u.privateMethods.map (("function ", ·.name)) ++
      u.localHandles.map ("const ", ·)))

/-- The names that the function of a unit binds. -/
def localNames : List String := u.paramNames ++ u.declarations.map Prod.snd

/-- What is left to keep the names apart that the function of a unit binds. -/
structure LocalsApart : Prop where
  params_nodup : u.paramNames.Nodup
  params_new : ∀ x ∈ u.paramNames, x ≠ selfName ∧ x ∉ u.aliasNames ∧ x ∉ u.privateNames ∧ x ∉ u.localHandles
  /-- The owner and the name of a method can be told from the constant for it. -/
  aliases_differ : ∀ a ∈ u.aliases, ∀ b ∈ u.aliases, aliasName a.1 a.2 = aliasName b.1 b.2 → a = b
  privates_new : ∀ x ∈ u.privateNames, x ∉ u.aliasNames ∧ x ∉ u.localHandles

/-- Names that cannot be taken for made ones: parameters differ and are no private members, neither
begins with two underscores, and no class whose method is called has an underscore in its name. -/
structure HasPlainNames : Prop where
  params_nodup : u.paramNames.Nodup
  params_new : ∀ x ∈ u.paramNames, x ∉ u.privateNames
  no_underscores : ∀ x ∈ u.paramNames ++ u.privateNames, ¬ ['_', '_'] <+: x.toList
  owners : ∀ a ∈ u.aliases, '_' ∉ a.1.toList

end ScriptUnit

/-! ### Declarations -/

namespace ScriptUnit

variable {u : ScriptUnit}

theorem localNames_eq (u : ScriptUnit) : u.localNames =
    u.paramNames ++ selfName :: (u.aliasNames ++ (u.privateNames ++ u.localHandles)) := by
  simp [localNames, declarations, privateNames, Function.comp_def]

theorem exists_render_params (u : ScriptUnit) : ∃ rest, u.render =
    "function " ++ u.anchor.function ++ "(" ++ joinNames ", " u.params ++ ") \x7b\n" ++ rest :=
  ⟨_, by rw [render_eq, head]; simp only [String.append_assoc]; rfl⟩

theorem isPart_head : IsPart ("const " ++ selfName) u.head := by
  have ho : ∃ rest, u.opening = line 1 ("const " ++ selfName ++ " = this;") ++ rest :=
    ⟨_, by rw [opening]; simp only [String.append_assoc]; rfl⟩
  obtain ⟨rest, hr⟩ := ho
  rw [head, hr, ← String.append_assoc]
  exact (isPart_line 1 ("const " ++ selfName) " = this;").within _ _

theorem isPart_functionDeclaration (level : Nat) (f : ScriptFunction) :
    IsPart ("function " ++ f.name) (functionDeclaration level f) := by
  have hl (rest : String) := isPart_line level ("function " ++ f.name)
    ("(" ++ joinNames ", " f.params ++ ") \x7b" ++ rest)
  simp only [functionDeclaration]
  split
  · have hp := hl "\x7d"
    simpa only [String.append_assoc] using hp
  · have hp := (hl "").within "" (line (level + 1) (trimString f.body) ++ line level "\x7d")
    simpa only [String.append_assoc, String.append_empty, String.empty_append] using hp

theorem isPart_declaration : ∀ d ∈ u.declarations, IsPart (d.1 ++ d.2) u.render := by
  intro d hd
  simp only [declarations, mem_cons, mem_append, mem_map] at hd
  rcases hd with rfl | ⟨x, hx, rfl⟩ | (⟨v, hv, rfl⟩ | ⟨f, hf, rfl⟩) | ⟨x, hx, rfl⟩
  · exact isPart_render (.inl isPart_head)
  · obtain ⟨a, ha, rfl⟩ := mem_map.1 hx
    have hl := isPart_line 1 ("const " ++ aliasName a.1 a.2) (" = " ++ capsuleText ++ "." ++ aliasName a.1 a.2 ++ ";")
    refine isPart_render (.inr (.inl (isPart_join_map ha ?_)))
    simpa only [String.append_assoc] using hl
  · have hl := isPart_line 1 ("let " ++ v.1) (((v.2.map (" = " ++ ·)).getD "") ++ ";")
    refine isPart_render (.inr (.inr (.inl ?_)))
    refine (((((isPart_join_map hv ?_).append_right _).append_right _).append_right _).append_right _).append_right _
    simpa only [String.append_assoc] using hl
  · refine isPart_render (.inr (.inr (.inl ?_)))
    exact ((((isPart_join_map hf (isPart_functionDeclaration 1 f)).within _ _).append_right _).append_right _).append_right _
  · obtain ⟨child, hc, rfl⟩ := mem_map.1 hx
    obtain ⟨hm, hn⟩ := mem_filter.1 hc
    have hp : child.place = "const " ++ child.localName := by
      rw [ChildHandle.place, Option.isNone_iff_eq_none.1 hn]
    have hr : IsPart ("const " ++ child.localName) (child.place ++ " = new ") := ⟨"", " = new ", by rw [hp, String.empty_append]⟩
    exact isPart_render (.inr (.inr (.inr (hr.trans (isPart_childText hm)))))

end ScriptUnit

/-! ### Names that are made -/

theorem underscore_mem_aliasName (owner method : String) :
    ∃ rest, (aliasName owner method).toList = '_' :: '_' :: rest ∧ '_' ∈ rest := by
  simp [aliasName]

theorem aliasName_inj (h : '_' ∉ owner.toList) (h' : '_' ∉ owner'.toList)
    (heq : aliasName owner method = aliasName owner' method') :
    owner = owner' ∧ method = method' := by
  have hh : owner.toList ++ '_' :: method.toList = owner'.toList ++ '_' :: method'.toList := by
    simpa [aliasName] using congrArg String.toList heq
  have hf {name : List Char} (hn : '_' ∉ name) (rest : List Char) :
      (name ++ '_' :: rest).takeWhile (· != '_') = name := by
    rw [takeWhile_append_of_pos, takeWhile_cons_of_neg (by simp), append_nil]
    intro c hc
    rw [bne_iff_ne]
    rintro rfl
    exact hn hc
  have ho : owner.toList = owner'.toList := by rw [← hf h method.toList, hh, hf h' method'.toList]
  rw [ho, append_cancel_left_eq, cons_inj_right] at hh
  exact ⟨String.toList_injective ho, String.toList_injective hh⟩

theorem underscore_not_mem_idText (id : Nat) : ∃ digits, (idText id).toList = 't' :: digits ∧ '_' ∉ digits := by
  have hc : (idText id).toList = "t".toList ++ Nat.toDigits 10 id := by simp [idText, toString]
  refine ⟨Nat.toDigits 10 id, hc, fun hm => ?_⟩
  have hd := Nat.isDigit_of_mem_toDigits (by decide) (by decide) hm
  exact absurd hd (by decide)

theorem ChildHandle.exists_number (h : child.anchor.className? = none) :
    ∃ id, child.localName = "__" ++ idText id ∧ child.anchor.function = "__unit_" ++ idText id := by
  unfold localName
  cases ha : child.anchor with
  | byClass name =>
    rw [ha] at h
    cases h
  | byMarkup id | byCreation id => exact ⟨id, rfl, rfl⟩

theorem ChildHandle.toList_localName (h : child.anchor.className? = none) :
    ∃ digits, child.localName.toList = '_' :: '_' :: 't' :: digits ∧ '_' ∉ digits := by
  obtain ⟨id, hn, -⟩ := exists_number h
  obtain ⟨digits, hd, hu⟩ := underscore_not_mem_idText id
  exact ⟨digits, by simp [hn, hd], hu⟩

/-! ### Names that are checked -/

theorem private_of_checkNames {members : Members} {style : PropertyMap}
    {children : List Node} (h : checkNames scope members style children = .ok ()) :
    members.privateTier.names.Nodup ∧ selfName ∉ members.privateTier.names := by
  constructor
  · refine (nodup_of_checkNames h).sublist ?_
    simp only [append_assoc]
    exact sublist_append_left _ _
  · intro hm
    obtain ⟨_, hc, -⟩ := bind_eq_ok.1 h
    have hm' : (selfName, false) ∈ claimedNames members style children := by
      simp only [claimedNames, map_append, append_assoc]
      exact mem_append_left _ (mem_map_of_mem hm)
    have hr := (claimNames_spec hc).2.2 _ hm' rfl
    exact absurd hr (by decide)

/-! ### The names of a unit -/

theorem nodup_four_iff (hp : privates.Nodup) (hh : handles.Nodup)
    (hs : self ∉ aliases ∧ self ∉ privates ∧ self ∉ handles) (ha : ∀ x ∈ aliases, x ∉ handles) :
    (params ++ self :: (aliases ++ (privates ++ handles))).Nodup ↔
      params.Nodup ∧ (∀ x ∈ params, x ≠ self ∧ x ∉ aliases ∧ x ∉ privates ∧ x ∉ handles) ∧
        aliases.Nodup ∧ ∀ x ∈ privates, x ∉ aliases ∧ x ∉ handles := by
  simp only [nodup_append, nodup_cons, mem_append, mem_cons]
  constructor
  · rintro ⟨hpa, ⟨-, hal, ⟨-, -, hl⟩, hn⟩, hd⟩
    refine ⟨hpa, fun x hx => ⟨?_, ?_, ?_, ?_⟩, hal, fun x hx => ⟨?_, ?_⟩⟩
    · exact hd x hx self (.inl rfl)
    · exact fun hm => hd x hx x (.inr (.inl hm)) rfl
    · exact fun hm => hd x hx x (.inr (.inr (.inl hm))) rfl
    · exact fun hm => hd x hx x (.inr (.inr (.inr hm))) rfl
    · exact fun hm => hn x hm x (.inl hx) rfl
    · exact fun hm => hl x hx x hm rfl
  · rintro ⟨hpa, hn, hal, hd⟩
    refine ⟨hpa, ⟨by tauto, hal, ⟨hp, hh, ?_⟩, ?_⟩, ?_⟩
    · rintro x hx _ hm rfl
      exact (hd x hx).2 hm
    · rintro x hx _ (hm | hm) rfl
      · exact (hd x hm).1 hx
      · exact ha x hx hm
    · rintro x hx _ (rfl | hm | hm | hm) rfl
      · exact (hn x hx).1 rfl
      · exact (hn x hx).2.1 hm
      · exact (hn x hx).2.2.1 hm
      · exact (hn x hx).2.2.2 hm

theorem eraseDups_spec {α : Type} [BEq α] [LawfulBEq α] : ∀ xs : List α, xs.eraseDups.Nodup ∧ xs.eraseDups.Sublist xs
  | [] => ⟨nodup_nil, .slnil⟩
  | x :: xs => by
    obtain ⟨hn, hs⟩ := eraseDups_spec (xs.filter fun y => !y == x)
    rw [eraseDups_cons, nodup_cons]
    exact ⟨⟨by simp, hn⟩, (hs.trans filter_sublist).cons_cons x⟩
termination_by xs => xs.length
decreasing_by
  exact Nat.lt_succ_of_le (length_filter_le _ xs)

/-- What holds of all units: private members are checked, no method of an ancestor is taken twice,
each instance is made once. -/
structure ScriptUnit.IsBuilt (u : ScriptUnit) : Prop where
  privates : u.privateNames.Nodup ∧ selfName ∉ u.privateNames
  aliases : u.aliases.Nodup
  children : ∀ child ∈ u.children, child.anchor.className? = none
  made : u.made.Nodup

namespace ScriptUnit.IsBuilt

variable {u : ScriptUnit}

theorem toList_of_mem_localHandles (h : u.IsBuilt) (hx : x ∈ u.localHandles) :
    ∃ digits, x.toList = '_' :: '_' :: 't' :: digits ∧ '_' ∉ digits := by
  obtain ⟨child, hc, rfl⟩ := mem_map.1 hx
  exact ChildHandle.toList_localName (h.children child (mem_of_mem_filter hc))

theorem nodup_localHandles (h : u.IsBuilt) : u.localHandles.Nodup := by
  have hf : (u.children.map (·.anchor.function)).Nodup := h.made
  have hs : (u.children.filter (·.name?.isNone)).Sublist u.children := filter_sublist
  refine pairwise_map.2 (((pairwise_map.1 hf).sublist hs).imp_of_mem ?_)
  intro a b ha hb hd heq
  obtain ⟨i, hn, hu⟩ := ChildHandle.exists_number (h.children a (mem_of_mem_filter ha))
  obtain ⟨j, hn', hu'⟩ := ChildHandle.exists_number (h.children b (mem_of_mem_filter hb))
  have hsa : idText i = idText j := by simpa [hn, hn'] using heq
  exact hd (by rw [hu, hu', hsa])

theorem self_not_mem (h : u.IsBuilt) : selfName ∉ u.aliasNames ∧ selfName ∉ u.localHandles := by
  constructor
  · intro hm
    obtain ⟨a, -, heq⟩ := mem_map.1 hm
    obtain ⟨rest, hr, hu⟩ := underscore_mem_aliasName a.1 a.2
    have hs : "self".toList = rest := by simpa [heq, selfName] using hr
    exact absurd (hs ▸ hu) (by decide)
  · intro hm
    obtain ⟨digits, hd, -⟩ := h.toList_of_mem_localHandles hm
    simp [selfName] at hd

theorem aliases_apart (h : u.IsBuilt) : ∀ x ∈ u.aliasNames, x ∉ u.localHandles := by
  intro x hx hm
  obtain ⟨a, -, rfl⟩ := mem_map.1 hx
  obtain ⟨rest, hr, hu⟩ := underscore_mem_aliasName a.1 a.2
  obtain ⟨digits, hd, hn⟩ := h.toList_of_mem_localHandles hm
  have hs : rest = 't' :: digits := by simpa using hr.symm.trans hd
  rw [hs] at hu
  simp [hn] at hu

theorem nodup_localNames_iff (h : u.IsBuilt) : u.localNames.Nodup ↔ u.LocalsApart := by
  have ha : u.aliasNames.Nodup ↔ ∀ a ∈ u.aliases, ∀ b ∈ u.aliases, aliasName a.1 a.2 = aliasName b.1 b.2 → a = b :=
    nodup_map_iff_inj_on h.aliases
  rw [localNames_eq, nodup_four_iff h.privates.1 h.nodup_localHandles
    ⟨h.self_not_mem.1, h.privates.2, h.self_not_mem.2⟩ h.aliases_apart, ha]
  constructor
  · rintro ⟨hp, hn, hd, hr⟩
    exact ⟨hp, hn, hd, hr⟩
  · rintro ⟨hp, hn, hd, hr⟩
    exact ⟨hp, hn, hd, hr⟩

theorem localsApart (h : u.IsBuilt) (hp : u.HasPlainNames) : u.LocalsApart := by
  have hm : ∀ x ∈ u.paramNames ++ u.privateNames, x ≠ selfName ∧ x ∉ u.aliasNames ∧ x ∉ u.localHandles := by
    intro x hx
    have hp := hp.no_underscores x hx
    refine ⟨?_, fun he => hp ?_, fun he => hp ?_⟩
    · rintro rfl
      exact hp (by decide)
    · obtain ⟨a, -, rfl⟩ := mem_map.1 he
      obtain ⟨rest, hr, -⟩ := underscore_mem_aliasName a.1 a.2
      exact ⟨rest, hr.symm⟩
    · obtain ⟨digits, hd, -⟩ := h.toList_of_mem_localHandles he
      exact ⟨'t' :: digits, hd.symm⟩
  refine ⟨hp.params_nodup, fun x hx => ?_, fun a ha b hb heq => ?_, fun x hx => ?_⟩
  · obtain ⟨hs, hl, hh⟩ := hm x (mem_append_left _ hx)
    exact ⟨hs, hl, hp.params_new x hx, hh⟩
  · obtain ⟨ho, ht⟩ := aliasName_inj (hp.owners a ha) (hp.owners b hb) heq
    exact Prod.ext ho ht
  · exact (hm x (mem_append_right _ hx)).2

end ScriptUnit.IsBuilt

/-! ### The units of a page -/

namespace PageSource

variable {text : List Char} {source : PageSource} {script : Script} {u : ScriptUnit}

theorem className?_of_mem_children (h : source.script = .ok script) (hu : u ∈ script.units)
    (hc : child ∈ u.children) : child.anchor.className? = none := by
  obtain ⟨called, hun, -⟩ := units_of_script h
  have hm : child ∈ script.units.flatMap ScriptUnit.children := mem_flatMap.2 ⟨u, hu, hc⟩
  rw [UnitContext.flatMap_children hun] at hm
  obtain ⟨plan, hp, rfl⟩ := mem_map.1 hm
  have hn : plan ∈ source.nodePlans := made_perm_nodePlans.subset (mem_append_right _ hp)
  rw [← filter_families] at hn
  have ho := (mem_filter.1 hn).2
  exact Option.isNone_iff_eq_none.1 ho

theorem isBuilt (hr : readChecked text = .ok source) (hs : source.script = .ok script) (hu : u ∈ script.units) : u.IsBuilt := by
  obtain ⟨called, hf⟩ := exists_family hs
  obtain ⟨plan, plans, ha, hun⟩ := hf u hu
  obtain ⟨p, hb⟩ := hun.builds
  obtain ⟨scope, children, hc⟩ := ha.exists_checkNames hr
  have hn : u.privateNames = plan.members.privateTier.names := by
    rw [ScriptUnit.privateNames, hun.keeps.privateVariables, hb.privateMethods_eq,
      BodyContext.map_name_of_isFunction hb.prepares.privateMethods, Tier.names]
  refine ⟨hn ▸ private_of_checkNames hc, ?_, fun child => className?_of_mem_children hs hu, ?_⟩
  · rw [hb.aliases_eq, hb.prepares.inherited_eq]
    exact (eraseDups_spec _).1
  · have hm := nodup_flatMap_made hs (nodup_singleton u) fun v hv => mem_singleton.1 hv ▸ hu
    simpa using hm

end PageSource

/-- **Names that a unit binds.** In a compiled page the function of a unit has its parameters in its
head and its declarations in its text. The names bound differ exactly if the parameters differ from
each other and from all others, the constants for the methods of ancestors differ, and no private
member has the name of such a constant or of the constant for an instance. Plain names are enough
for that. -/
theorem compileText_local_names_differ_iff {text : List Char} {links : HeadLinks} {out : PageOutput}
    (h : compileText text links = .ok out) :
    ∃ source script, PageSource.readChecked text = .ok source ∧ source.script = .ok script ∧
      out.behavior = script.render ∧
      ∀ u ∈ script.units,
        (∃ rest, u.render =
          "function " ++ u.anchor.function ++ "(" ++ joinNames ", " u.params ++ ") \x7b\n" ++ rest) ∧
        (∀ d ∈ u.declarations, IsPart (d.1 ++ d.2) u.render) ∧
        (u.localNames.Nodup ↔ u.LocalsApart) ∧ (u.HasPlainNames → u.localNames.Nodup) := by
  obtain ⟨source, script, hread, hscript, rfl⟩ := compileText_eq_ok_iff.1 h
  refine ⟨source, script, hread, hscript, rfl, fun u hu => ?_⟩
  have hbuilt := PageSource.isBuilt hread hscript hu
  refine ⟨u.exists_render_params, ScriptUnit.isPart_declaration, hbuilt.nodup_localNames_iff,
    fun hplain => ?_⟩
  exact hbuilt.nodup_localNames_iff.2 (hbuilt.localsApart hplain)

/-- A class with a parameter, a private member, a call of an inherited method and a child. -/
def allKindsOfNames : List Char :=
  ("class A extends div\x7bpublic\x7bm()\x7b\x7d\x7d\x7d" ++
    "class B extends A\x7bp\x7b\x7dprivate\x7bvar v;\x7dpublic\x7bconstructor(x)\x7b^m();\x7d\x7d\x7d").toList

/-- All of them are bound under different names. -/
theorem compileText_local_names_differ_allKindsOfNames :
    ∃ out source script u, compileText allKindsOfNames ⟨"page.js", "page.css"⟩ = .ok out ∧
      PageSource.readChecked allKindsOfNames = .ok source ∧ source.script = .ok script ∧
      out.behavior = script.render ∧ u ∈ script.units ∧ u.anchor = .byClass "B" ∧
      u.localNames = ["x", "__self", "__A_m", "v", "__t1"] ∧ u.localNames.Nodup := by
  have heval : CompilesWith allKindsOfNames fun _ script => ∃ u ∈ script.units, u.anchor = .byClass "B" ∧
        u.localNames = ["x", "__self", "__A_m", "v", "__t1"] ∧ u.paramNames.Nodup ∧
        (∀ x ∈ u.paramNames, x ∉ u.privateNames) ∧
        (∀ x ∈ u.paramNames ++ u.privateNames, ¬ ['_', '_'] <+: x.toList) ∧
        ∀ a ∈ u.aliases, '_' ∉ a.1.toList := by
    set_option synthInstance.maxSize 256 in
    decide +kernel
  obtain ⟨source, script, out, hread, hscript, hout, ⟨u, hu, hanchor, hnames, hparams, hnew, hplain, howners⟩, hbehavior, hunits⟩ :=
    heval.exists_and ⟨"page.js", "page.css"⟩ fun _ => compileText_local_names_differ_iff
  exact ⟨out, source, script, u, hout, hread, hscript, hbehavior, hu, hanchor, hnames,
    (hunits u hu).2.2.2 ⟨hparams, hnew, hplain, howners⟩⟩

/-- A class with a private member that has the name of a parameter. -/
def parameterAndMember : List Char :=
  "class C extends div\x7bprivate\x7bvar x=1;\x7dpublic\x7bconstructor(x)\x7b\x7d\x7d\x7d".toList

/-- A class with a private member that has the name in a pattern, behind a key in quotes. -/
def patternAndMember : List Char :=
  "class C extends div\x7bprivate\x7bvar c=1;\x7dpublic\x7bconstructor(\x7b'x':c\x7d)\x7b\x7d\x7d\x7d".toList

/-- A class that calls methods of two parents whose owners and names are put together alike. -/
def ownersWithUnderscore : List Char :=
  ("class A extends div\x7bpublic\x7bb_c()\x7b\x7d\x7d\x7d" ++
    "class A_b extends div\x7bpublic\x7bc()\x7b\x7d\x7d\x7d" ++
    "class D extends A, A_b\x7bpublic\x7bm()\x7b^A.b_c();^A_b.c();\x7d\x7d\x7d").toList

/-- All are compiled, and the function of a unit binds a name twice. -/
theorem compileText_local_names_collide :
    (∃ source script u, PageSource.readChecked parameterAndMember = .ok source ∧
      source.script = .ok script ∧ u ∈ script.units ∧ u.localNames = ["x", "__self", "x"]) ∧
    (∃ source script u, PageSource.readChecked patternAndMember = .ok source ∧
      source.script = .ok script ∧ u ∈ script.units ∧ u.localNames = ["c", "__self", "c"]) ∧
    ∃ source script u, PageSource.readChecked ownersWithUnderscore = .ok source ∧
      source.script = .ok script ∧ u ∈ script.units ∧ u.aliases = [("A_b", "c"), ("A", "b_c")] ∧
      u.localNames = ["__self", "__A_b_c", "__A_b_c"] := by
  exact ⟨CompilesWith.exists_unit (by decide +kernel), CompilesWith.exists_unit (by decide +kernel),
    CompilesWith.exists_unit (by decide +kernel)⟩

end Pagewright
