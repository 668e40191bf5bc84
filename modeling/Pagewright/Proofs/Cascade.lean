import Mathlib.Logic.Relation
import Pagewright.Proofs.Acyclic

/-!
# The style cascade

Where going to parents comes to an end, there are styles that obey the cascade
(`ClassTable.exists_isCascade`), and the styles that are resolved are these
(`ClassTable.lookup_resolveStyles`). A class has all properties of its ancestors, with whatever
value (`ClassTable.IsCascade.isSome_get?`). -/

namespace Pagewright

open List

variable {key name p : String} {c d : ClassDef}

/-! ### Property maps -/

namespace PropertyMap

theorem lookup_putEntry (key v k : String) (es : List (String × String)) :
    (putEntry key v es).lookup k = if k = key then some v else es.lookup k := by
  induction es with
  | nil => rw [putEntry, lookup_cons_eq]
  | cons e rest ih =>
    obtain ⟨k', v'⟩ := e
    rw [putEntry, lookup_cons_eq]
    by_cases hk : k' = key
    · rw [if_pos hk, lookup_cons_eq, hk]
      by_cases h : k = key <;> simp only [h, if_true, if_false]
    · rw [if_neg hk, lookup_cons_eq, ih]
      by_cases h : k = k'
      · rw [if_pos h, if_pos h, if_neg fun heq => hk (h.symm.trans heq)]
      · rw [if_neg h, if_neg h]

theorem get?_insert (m : PropertyMap) (key v k : String) : (m.insert key v).get? k = if k = key then some v else m.get? k :=
  lookup_putEntry key v k m.entries

theorem get?_merge (m other : PropertyMap) (k : String) : (m.merge other).get? k = (other.get? k).or (m.get? k) := by
  have hf : ∀ (es : List (String × String)) (m : PropertyMap), (es.map Prod.fst).Nodup →
      (es.foldl (fun m e => m.insert e.1 e.2) m).get? k = (es.lookup k).or (m.get? k) := by
    intro es
    induction es with
    | nil => exact fun m _ => rfl
    | cons entry rest ih =>
      obtain ⟨key, v⟩ := entry
      intro m hn
      obtain ⟨hfr, hr⟩ := nodup_cons.1 hn
      rw [foldl_cons, ih _ hr, get?_insert, lookup_cons_eq]
      by_cases h : k = key
      · have ho : rest.lookup k = none := by
          rw [lookup_eq_none_iff]
          intro e he
          rw [bne_iff_ne]
          intro heq
          exact hfr (mem_map.2 ⟨e, he, heq.symm.trans h⟩)
        rw [if_pos h, if_pos h, ho, Option.none_or, Option.some_or]
      · rw [if_neg h, if_neg h]
  exact hf other.entries m other.nodup

end PropertyMap

namespace ClassTable

variable {t : ClassTable} {styles : String → PropertyMap} {active parents : List String} {done : ResolvedStyles}

/-! ### Styles that obey the cascade -/

/-- The styles of some parents, merged from left to right. -/
def inheritedStyle (styles : String → PropertyMap) (start : PropertyMap) (parents : List String) :
    PropertyMap :=
  parents.foldl (fun style p => style.merge (styles p)) start

/-- A class has the styles of its parents, merged from left to right, and then its own; any other
name has none. -/
structure IsCascade (t : ClassTable) (styles : String → PropertyMap) : Prop where
  eq_empty : ∀ name, t.get? name = none → styles name = .empty
  eq_merge : ∀ c ∈ t.classes, styles c.name = (inheritedStyle styles .empty c.parents).merge c.style

/-- Without circles of parents the cascade can be followed. -/
theorem exists_isCascade (hw : WellFounded t.IsParent) : ∃ styles, t.IsCascade styles := by
  classical
  let parentStyle (c : ClassDef) (ih : ∀ d, t.IsParent d c → PropertyMap) (p : String) : PropertyMap :=
    (t.get? p).elim .empty fun d => if h : t.IsParent d c then ih d h else .empty
  let classStyle : ClassDef → PropertyMap := hw.fix fun c ih =>
    (inheritedStyle (parentStyle c ih) .empty c.parents).merge c.style
  let styles (name : String) : PropertyMap := (t.get? name).elim .empty classStyle
  refine ⟨styles, ?_, ?_⟩
  · intro name hn
    simp only [styles, hn, Option.elim_none]
  · intro c hc
    have ha : ∀ p ∈ c.parents, parentStyle c (fun d _ => classStyle d) p = styles p := by
      intro p hp
      cases hg : t.get? p with
      | none => simp only [parentStyle, styles, hg, Option.elim_none]
      | some d =>
        have hr : t.IsParent d c := ⟨hc, mem_of_get? hg, name_of_get? hg ▸ hp⟩
        simp only [parentStyle, styles, hg, Option.elim_some, dif_pos hr]
    have hl : styles c.name = classStyle c := by simp only [styles, get?_of_mem hc, Option.elim_some]
    have hf : inheritedStyle (parentStyle c fun d _ => classStyle d) .empty c.parents = inheritedStyle styles .empty c.parents :=
      foldl_ext _ _ _ fun style p hp => by rw [ha p hp]
    rw [hl, ← hf]
    exact hw.fix_eq _ c

/-! ### Properties of ancestors -/

theorem get?_inheritedStyle (styles : String → PropertyMap) (start : PropertyMap) (parents : List String) (key : String) :
    (inheritedStyle styles start parents).get? key = (parents.reverse.findSome? fun p => (styles p).get? key).or (start.get? key) := by
  induction parents generalizing start with
  | nil => rfl
  | cons p ps ih =>
    have hi := ih (start.merge (styles p))
    rw [PropertyMap.get?_merge, ← Option.or_assoc] at hi
    rw [reverse_cons, findSome?_append, findSome?_singleton]
    exact hi

theorem IsCascade.get?_eq (h : t.IsCascade styles) (hc : c ∈ t.classes) (key : String) :
    (styles c.name).get? key = (c.style.get? key).or (c.parents.reverse.findSome? fun p => (styles p).get? key) := by
  rw [h.eq_merge c hc, PropertyMap.get?_merge, get?_inheritedStyle]
  exact congrArg _ (Option.or_none)

theorem IsCascade.isSome_get?_of_isParent (h : t.IsCascade styles) (hd : t.IsParent d c)
    (hk : ((styles d.name).get? key).isSome) : ((styles c.name).get? key).isSome := by
  rw [h.get?_eq hd.1, Option.isSome_or, Bool.or_eq_true, findSome?_isSome_iff]
  exact .inr ⟨d.name, mem_reverse.2 hd.2.2, hk⟩

theorem IsCascade.isSome_get? (h : t.IsCascade styles) (hd : Relation.ReflTransGen t.IsParent d c)
    (hk : ((styles d.name).get? key).isSome) : ((styles c.name).get? key).isSome := by
  induction hd with
  | refl => exact hk
  | tail _ hp ih => exact h.isSome_get?_of_isParent hp ih

/-! ### What is kept -/

/-- The styles that are kept are right. -/
def IsMemo (styles : String → PropertyMap) (done : ResolvedStyles) : Prop :=
  ∀ name style, done.lookup name = some style → style = styles name

/-- The classes that have a style in one list have one in another. -/
def Holds (done done' : ResolvedStyles) : Prop :=
  ∀ name, (done.lookup name).isSome = true → (done'.lookup name).isSome = true

theorem IsMemo.cons (h : IsMemo styles done) : IsMemo styles ((name, styles name) :: done) := by
  intro x style hx
  rw [lookup_cons_eq] at hx
  by_cases heq : x = name
  · rw [if_pos heq] at hx
    rw [heq, ← Option.some.inj hx]
  · rw [if_neg heq] at hx
    exact h x style hx

theorem holds_cons (done : ResolvedStyles) (name : String) (style : PropertyMap) : Holds done ((name, style) :: done) := by
  intro x hx
  rw [lookup_cons_eq]
  split
  · rfl
  · exact hx

/-- The classes being resolved are all below a name. -/
def IsBelow (t : ClassTable) (active : List String) (name : String) : Prop :=
  ∀ c, t.get? name = some c → ∀ a ∈ active, ∀ d, t.get? a = some d → Relation.TransGen t.IsParent c d

theorem IsBelow.parent (h : t.IsBelow active name) (hg : t.get? name = some c)
    (hp : p ∈ c.parents) : t.IsBelow (name :: active) p := by
  intro e he a ha d hd
  have hpa : t.IsParent e c := ⟨mem_of_get? hg, mem_of_get? he, name_of_get? he ▸ hp⟩
  rcases mem_cons.1 ha with rfl | ha
  · cases hg.symm.trans hd
    exact .single hpa
  · exact .head hpa (h c hg a ha d hd)

theorem resolveStyle_spec (hw : WellFounded t.IsParent) (hca : t.IsCascade styles) :
    (∀ active done name, t.IsBelow active name → IsMemo styles done → (t.resolveStyle active done name).1 = styles name ∧
      IsMemo styles (t.resolveStyle active done name).2 ∧ Holds done (t.resolveStyle active done name).2 ∧
      (t.contains name → ((t.resolveStyle active done name).2.lookup name).isSome)) ∧
    ∀ active done start parents, (∀ p ∈ parents, t.IsBelow active p) → IsMemo styles done →
      (t.mergeParents active done start parents).1 = inheritedStyle styles start parents ∧
        IsMemo styles (t.mergeParents active done start parents).2 ∧
        Holds done (t.mergeParents active done start parents).2 := by
  apply resolveStyle.mutual_induct t
  -- A name: resolved before, no class, being resolved, or a class that is resolved behind its parents.
  · intro active done name style hl _ hdo
    rw [resolveStyle, hl]
    refine ⟨hdo name style hl, hdo, fun _ => id, fun _ => ?_⟩
    rw [hl]
    rfl
  · intro active done name hl hg _ hdo
    rw [resolveStyle, hl]
    dsimp only
    split
    · refine ⟨(hca.eq_empty name hg).symm, hdo, fun _ => id, fun hco => ?_⟩
      rw [contains_of_get?_eq_none hg] at hco
      cases hco
    · next c hc =>
      rw [hg] at hc
      cases hc
  · intro active done name hl c hg ha hb _
    have hi := hb c hg name ha c hg
    exact absurd hi (hw.transGen.irrefl.irrefl c)
  · intro active done name hl c hg ha inherited done₁ hm ih hb hdo
    obtain ⟨hs, hdo₁, hh⟩ := ih (fun p hp => hb.parent hg hp) hdo
    rw [hm] at hs hdo₁ hh
    dsimp only at hs hdo₁ hh
    rw [resolveStyle, hl]
    dsimp only
    split
    · next hn =>
      rw [hg] at hn
      cases hn
    · next d hd =>
      cases hg.symm.trans hd
      have heq : inherited.merge c.style = styles name := by
        rw [← name_of_get? hg, hca.eq_merge c (mem_of_get? hg), hs]
      rw [dif_neg ha, hm]
      rw [heq]
      refine ⟨rfl, hdo₁.cons, fun x hx => holds_cons _ _ _ x (hh x hx), fun _ => ?_⟩
      rw [lookup_cons_self]
      rfl
  -- Parents one after the other.
  · intro active done start _ hdo
    rw [mergeParents]
    exact ⟨rfl, hdo, fun _ => id⟩
  · intro active done start p ps own done₁ ho ihp ihps hb hdo
    obtain ⟨hf, hr⟩ := forall_mem_cons.1 hb
    obtain ⟨hs, hdo₁, hh, -⟩ := ihp hf hdo
    rw [ho] at hs hdo₁ hh
    dsimp only at hs hdo₁ hh
    obtain ⟨hs', hdo₂, hh'⟩ := ihps hr hdo₁
    rw [mergeParents, ho]
    refine ⟨?_, hdo₂, fun x hx => hh' x (hh x hx)⟩
    rw [hs', hs]
    rfl

/-- **The cascade.** Without circles of parents each class is resolved to its style by the
cascade. -/
theorem lookup_resolveStyles (hw : WellFounded t.IsParent) (hca : t.IsCascade styles)
    (hc : c ∈ t.classes) : t.resolveStyles.lookup c.name = some (styles c.name) := by
  have hf : ∀ (ns : List String) (done : ResolvedStyles), IsMemo styles done →
      IsMemo styles (ns.foldl (fun done name => (t.resolveStyle [] done name).2) done) ∧
        Holds done (ns.foldl (fun done name => (t.resolveStyle [] done name).2) done) ∧
        ∀ name ∈ ns, t.contains name → ((ns.foldl (fun done name => (t.resolveStyle [] done name).2) done).lookup name).isSome := by
    intro ns
    induction ns with
    | nil => exact fun done hd => ⟨hd, fun _ => id, nofun⟩
    | cons name ns ih =>
      intro done hd
      obtain ⟨-, hd₁, hh, hn⟩ := (resolveStyle_spec hw hca).1 [] done name (fun _ _ _ ha => absurd ha not_mem_nil) hd
      obtain ⟨hd₂, hh', hna⟩ := ih _ hd₁
      refine ⟨hd₂, fun x hx => hh' x (hh x hx), forall_mem_cons.2 ⟨?_, hna⟩⟩
      exact fun ho => hh' name (hn ho)
  obtain ⟨hm, -, hl⟩ := hf t.names [] nofun
  have hs := hl c.name (mem_map_of_mem hc) (contains_of_mem hc)
  obtain ⟨style, ht⟩ := Option.isSome_iff_exists.1 hs
  rw [resolveStyles, ht, hm c.name style ht]

/-! ### Tables in another order -/

theorem IsCascade.of_perm {t' : ClassTable} (h : t.IsCascade styles) (hp : t'.classes.Perm t.classes) : t'.IsCascade styles := by
  refine ⟨fun name hn => h.eq_empty name ?_, fun c hc => h.eq_merge c (hp.mem_iff.1 hc)⟩
  rw [get?, find?_eq_none] at hn ⊢
  exact fun c hc => hn c (hp.mem_iff.2 hc)

theorem isParent_of_perm {t' : ClassTable} (hp : t'.classes.Perm t.classes) : t'.IsParent = t.IsParent := by
  funext d c
  rw [IsParent, IsParent, hp.mem_iff, hp.mem_iff]

/-- **The cascade.** If no class leads through parents back to itself, exactly one style for each
name obeys the cascade, and resolving gives every class this style, in whatever order the classes
stand. The value of a property is the class's own if it has one, else that of the last parent that
has one. -/
theorem resolveStyles_eq_cascade (hacyclic : ∀ name, ¬Relation.TransGen t.Extends name name) :
    (∃! styles, t.IsCascade styles) ∧ ∀ styles, t.IsCascade styles → ∀ c ∈ t.classes,
      (∀ t' : ClassTable, t'.classes.Perm t.classes → t'.resolveStyles.lookup c.name = some (styles c.name)) ∧
      ∀ key, (styles c.name).get? key =
        (c.style.get? key).or (c.parents.reverse.findSome? fun p => (styles p).get? key) := by
  have hw := wellFounded_iff.2 hacyclic
  constructor
  · obtain ⟨styles, hcascade⟩ := exists_isCascade hw
    refine ⟨styles, hcascade, fun styles' hcascade' => funext fun name => ?_⟩
    cases hname : t.get? name with
    | none => rw [hcascade.eq_empty name hname, hcascade'.eq_empty name hname]
    | some c =>
      have hresolved := lookup_resolveStyles hw hcascade (mem_of_get? hname)
      rw [lookup_resolveStyles hw hcascade' (mem_of_get? hname), name_of_get? hname] at hresolved
      exact Option.some.inj hresolved
  · intro styles hcascade c hc
    refine ⟨fun t' hperm => ?_, hcascade.get?_eq hc⟩
    exact lookup_resolveStyles (isParent_of_perm hperm ▸ hw) (hcascade.of_perm hperm) (hperm.mem_iff.2 hc)

/-- A class before its two parents, one of which is a parent of the other. -/
def diamond : ClassTable where
  classes := [{ name := "C", parents := ["A", "B"], offset := 0 },
    { name := "A", parents := ["div"], style := .ofList [("x", "1"), ("y", "1")], offset := 1 },
    { name := "B", parents := ["A"], style := .ofList [("z", "2"), ("y", "2")], offset := 2 }]
  nodup := by decide

/-- The property that both parents have keeps its place and gets the value of the last. -/
theorem resolveStyles_eq_cascade_diamond :
    (∀ name, ¬Relation.TransGen diamond.Extends name name) ∧ ∃ styles, diamond.IsCascade styles ∧
      diamond.resolveStyles.lookup "C" = some (styles "C") ∧
      (styles "C").entries = [("x", "1"), ("y", "2"), ("z", "2")] := by
  have hcheck : (diamond.checkCycles []).toOption.isSome = true ∧
      (diamond.resolveStyles.lookup "C").map PropertyMap.entries = some [("x", "1"), ("y", "2"), ("z", "2")] := by
    decide +kernel
  have hacyclic : ∀ name, ¬Relation.TransGen diamond.Extends name name := by
    obtain ⟨-, hw⟩ | ⟨e, he, -⟩ := diamond.checkCycles_cases []
    · exact wellFounded_iff.1 hw
    · rw [he] at hcheck
      cases hcheck.1
  obtain ⟨⟨styles, hcascade, -⟩, hall⟩ := resolveStyles_eq_cascade hacyclic
  have hresolved := (hall styles hcascade _ mem_cons_self).1 diamond (.refl _)
  refine ⟨hacyclic, styles, hcascade, hresolved, ?_⟩
  have hentries := hcheck.2
  rw [hresolved] at hentries
  exact Option.some.inj hentries

end ClassTable

end Pagewright
