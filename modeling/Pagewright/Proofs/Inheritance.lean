import Pagewright.Proofs.CallSites
import Pagewright.Proofs.Prepared
import Pagewright.Proofs.Scoping

/-!
# Inherited names

How a name that a class does not declare is reached in its bodies. The ambient names of a unit are
gathered from its classes, nearest first, each putting its names over those known already, so of
several ancestors with one name the farthest counts (`ClassTable.get?_ambient`). On a single line of
inheritance the ancestors are the line itself (`ClassTable.lineage_of_isLine`), and the bodies are
written with what comes out (`compileText_inherited_access`). -/

namespace Pagewright

open List

variable {c d : ClassDef} {x body self : String} {ctx : BodyContext} {m : Method} {t : ClassTable}
  {farther nearer : List ClassDef} {inCtor : Bool} {access : Access}

/-! ### Looking up ambient names -/

namespace Ambient

theorem get?_hide (a : Ambient) (name x : String) : (a.hide name).get? x = if x = name then none else a.get? x :=
  lookup_filter_ne a.entries name x

theorem get?_put (a : Ambient) (name : String) (access : Access) (x : String) :
    (a.put name access).get? x = if x = name then some access else a.get? x := by
  rw [get?, put]
  have hh := a.get?_hide name x
  rw [get?] at hh
  grind

theorem get?_putAll (a : Ambient) (access : Access) (ns : List String) (x : String) :
    (a.putAll access ns).get? x = if x ∈ ns then some access else a.get? x := by
  induction ns generalizing a with
  | nil => simp [putAll]
  | cons name ns ih =>
    rw [putAll, foldl_cons, ← putAll, ih, get?_put]
    grind

theorem get?_hideAll (a : Ambient) (ns : List String) (x : String) :
    (a.hideAll ns).get? x = if x ∈ ns then none else a.get? x := by
  induction ns generalizing a with
  | nil => simp [hideAll]
  | cons name ns ih =>
    rw [hideAll, foldl_cons, ← hideAll, ih, get?_hide]
    grind

end Ambient

/-! ### What classes expose -/

/-- How a name that a class exposes is reached. Of two uses of a name the one named first here
counts. -/
def ClassDef.exposed? (c : ClassDef) (x : String) : Option Access :=
  if x ∈ instanceNames c.children then some .capsule
  else if x ∈ (c.style.keys ++ c.attributes.keys).map accessorName then some .direct
  else if x ∈ (c.members.getters ++ c.members.setters).map Method.name then some .direct
  else if x ∈ c.members.protectedTier.names then some .capsule
  else if x ∈ c.members.publicTier.names then some .direct
  else none

theorem Ambient.get?_expose (a : Ambient) (c : ClassDef) (x : String) :
    (a.expose c.members c.style c.attributes (instanceNames c.children)).get? x = (c.exposed? x).or (a.get? x) := by
  simp only [expose, get?_putAll, ClassDef.exposed?]
  split_ifs <;> rfl

theorem Ambient.get?_foldl_expose (cs : List ClassDef) (a : Ambient) (x : String) :
    (cs.foldl (fun a c => a.expose c.members c.style c.attributes (instanceNames c.children)) a).get? x =
      (cs.reverse.findSome? (·.exposed? x)).or (a.get? x) := by
  induction cs generalizing a with
  | nil => rfl
  | cons c cs ih =>
    rw [foldl_cons, ih, get?_expose, reverse_cons, findSome?_append]
    cases cs.reverse.findSome? (·.exposed? x) <;> simp

theorem ClassTable.get?_ambient (hp : x ∉ c.members.privateTier.names) (ho : c.exposed? x = none) :
    (t.ambient (.ofClass c)).get? x = ((t.lineage c.parents).reverse.findSome? (·.exposed? x)).or
        (if x ∈ fixedNames then some .direct else none) := by
  have he : (PropertyMap.keys .empty) = [] := rfl
  have hx := fun a : Ambient => a.get?_expose c x
  simp only [ambient, UnitPlan.ofClass, Ambient.get?_hideAll, Ambient.get?_putAll, he, if_neg hp,
    hx, ho, Ambient.get?_foldl_expose, Option.none_or]
  rfl

theorem ClassDef.IsChecked.exposed?_of_mem (h : c.IsChecked) : (x ∈ c.members.publicTier.names → c.exposed? x = some .direct) ∧
      (x ∈ c.members.protectedTier.names → x ∉ c.attributes.keys.map accessorName → c.exposed? x = some .capsule) := by
  obtain ⟨⟨⟨⟨-, -, hp⟩, -, ha⟩, -, hs⟩, -, hc⟩ := by
    simpa only [nodup_append] using nodup_of_checkNames h.names
  simp only [mem_append, mem_accessorNames] at hp ha hs hc
  constructor
  · intro hx
    have hn : x ∉ instanceNames c.children := fun hm => hc x (by tauto) x hm rfl
    have hr : x ∉ c.members.protectedTier.names := fun hm => hp x (by tauto) x hx rfl
    simp only [exposed?, if_neg hn, if_neg hr, if_pos hx]
    split_ifs <;> rfl
  · intro hx ht
    have hn : x ∉ instanceNames c.children := fun hm => hc x (by tauto) x hm rfl
    have hk : x ∉ (c.style.keys ++ c.attributes.keys).map accessorName := by
      rw [map_append, mem_append]
      exact fun hm => hm.elim (fun hm => hs x (by tauto) x hm rfl) ht
    have hac : x ∉ (c.members.getters ++ c.members.setters).map Method.name := fun hm => ha x (by tauto) x hm rfl
    simp only [exposed?, if_neg hn, if_neg hk, if_neg hac, if_pos hx]

/-! ### Single lines of inheritance -/

namespace ClassTable

/-- The classes on the one line of inheritance from some parents on, nearest first: among the
parents there is one class, apart from tags, and so on to a class without one. -/
inductive IsLine (t : ClassTable) : List String → List ClassDef → Prop
  | root {parents : List String} (h : parents.filter (!isTag ·) = []) : IsLine t parents []
  | step {parents : List String} {c : ClassDef} {line : List ClassDef}
      (h : parents.filter (!isTag ·) = [c.name]) (hget : t.get? c.name = some c)
      (hline : IsLine t c.parents line) : IsLine t parents (c :: line)

section IsLine

variable {t : ClassTable} {parents found : List String} {line line' : List ClassDef}

theorem IsLine.unique (h : t.IsLine parents line) (h' : t.IsLine parents line') : line = line' := by
  induction h generalizing line' with
  | root hn =>
    cases h' with
    | root => rfl
    | step ho => rw [hn] at ho; cases ho
  | step ho hg _ ih =>
    cases h' with
    | root hn => rw [hn] at ho; cases ho
    | step ho' hg' hl' =>
      have ha := (cons.inj (ho.symm.trans ho')).1
      rw [ha] at hg
      cases hg.symm.trans hg'
      rw [ih hl']

theorem IsLine.of_mem (h : t.IsLine parents line) (hc : c ∈ line) :
    t.get? c.name = some c ∧ ∃ farther, farther.length < line.length ∧ t.IsLine c.parents farther := by
  induction h with
  | root => cases hc
  | step _ hg hl ih =>
    rcases mem_cons.1 hc with rfl | hc
    · exact ⟨hg, _, Nat.lt_succ_self _, hl⟩
    · obtain ⟨hg', farther, hlt, hf⟩ := ih hc
      exact ⟨hg', farther, Nat.lt_succ_of_lt hlt, hf⟩

theorem IsLine.nodup (h : t.IsLine parents line) : (line.map ClassDef.name).Nodup := by
  induction h with
  | root => exact nodup_nil
  | @step _ c line _ hg hl ih =>
    refine nodup_cons.2 ⟨fun hm => ?_, ih⟩
    obtain ⟨d, hd, hn⟩ := mem_map.1 hm
    obtain ⟨hg', farther, hlt, hf⟩ := hl.of_mem hd
    rw [hn, hg] at hg'
    cases hg'
    rw [hl.unique hf] at hlt
    exact Nat.lt_irrefl _ hlt

theorem freshParents_filter (ht : t.NoTags) (self : String) (seen parents : List String) :
    t.freshParents self seen parents = t.freshParents self seen (parents.filter (!isTag ·)) := by
  induction parents generalizing seen with
  | nil => rfl
  | cons p ps ih =>
    by_cases hp : isTag p
    · have hn : t.contains p = false := by
        rw [Bool.eq_false_iff, ne_eq, contains_iff]
        intro hm
        obtain ⟨c, hc, rfl⟩ := mem_map.1 hm
        rw [ht c hc] at hp
        cases hp
      rw [filter_cons_of_neg (by simpa using hp), ← ih, freshParents, hn]
      rfl
    · rw [filter_cons_of_pos (by simpa using hp), freshParents, freshParents, ih, ih]

theorem ancestorsFrom_of_isLine (ht : t.NoTags) (hg : t.get? c.name = some c) (h : t.IsLine c.parents line)
    (hs : self ∉ line.map ClassDef.name) (hf : ∀ d ∈ line, d.name ∉ found) :
    t.ancestorsFrom self found [c.name] = found ++ line.map ClassDef.name := by
  induction line generalizing c found with
  | nil =>
    cases h with
    | root hn =>
      have hr : t.freshParents self found c.parents = [] := by
        rw [freshParents_filter ht, hn]
        rfl
      rw [ancestorsFrom, hg]
      simp only [hr, append_nil, map_nil]
      rw [ancestorsFrom]
  | cons d line ih =>
    have hno := h.nodup
    cases h with
    | step ho hg' hl =>
      obtain ⟨hne, hs⟩ := not_or.1 (fun hor => hs (mem_cons.2 hor))
      have hc : t.contains d.name := contains_iff.2 (mem_names_of_get? hg')
      have hr : t.freshParents self found c.parents = [d.name] := by
        rw [freshParents_filter ht, ho, freshParents, hc]
        simp [freshParents, Ne.symm hne, hf d mem_cons_self]
      rw [ancestorsFrom, hg]
      simp only [hr, nil_append]
      rw [ih hg' hl hs, append_assoc]
      · rfl
      · intro e he
        rw [mem_append, mem_singleton, not_or]
        refine ⟨hf e (mem_cons_of_mem d he), fun heq => ?_⟩
        exact (nodup_cons.1 hno).1 (heq ▸ mem_map_of_mem he)

theorem withAncestors_of_isLine (ht : t.NoTags) (hg : t.get? c.name = some c)
    (h : t.IsLine c.parents line) : t.withAncestors c.name = c :: line := by
  have hs : c.name ∉ line.map ClassDef.name := by
    have hl : t.IsLine [c.name] (c :: line) := by
      refine .step ?_ hg h
      rw [filter_cons_of_pos (by simp [ht c (mem_of_get? hg)]), filter_nil]
    exact (nodup_cons.1 hl.nodup).1
  have hg' : (line.map ClassDef.name).filterMap t.get? = line := by
    rw [filterMap_map]
    have ho : ∀ d ∈ line, (t.get? ∘ ClassDef.name) d = some d := fun d hd => (h.of_mem hd).1
    rw [filterMap_congr ho, filterMap_some]
  rw [withAncestors, hg, ancestors, ancestorNames, ancestorsFrom_of_isLine ht hg h hs (fun _ _ => not_mem_nil), nil_append, hg']

theorem foldl_dedup (cs found : List ClassDef) (h : ((found ++ cs).map ClassDef.name).Nodup) :
    cs.foldl (fun found c => if found.any (·.name = c.name) then found else found ++ [c]) found = found ++ cs := by
  induction cs generalizing found with
  | nil => simp
  | cons c cs ih =>
    have hn : found.any (·.name = c.name) = false := by
      rw [any_eq_false]
      intro d hd heq
      rw [map_append, nodup_append] at h
      exact h.2.2 d.name (mem_map_of_mem hd) c.name mem_cons_self (by simpa using heq)
    rw [foldl_cons, hn]
    simp only [Bool.false_eq_true, if_false]
    rw [ih (found ++ [c]) (by simpa using h), append_assoc]
    rfl

theorem lineage_of_isLine (ht : t.NoTags) (h : t.IsLine parents line) : t.lineage parents = line := by
  have hn := h.nodup
  cases h with
  | root hno => rw [lineage, hno]; rfl
  | step ho hg hl =>
    rw [lineage, ho, flatMap_cons, flatMap_nil, append_nil, withAncestors_of_isLine ht hg hl, foldl_dedup _ [] hn, nil_append]

end IsLine

end ClassTable

/-! ### Printed bodies -/

namespace Fragment

theorem Lexeme.Reads.ne_caret {l : Lexeme} {next? : Option Char} (h : l.Reads next?)
    (hk : l.kind ≠ .literal) : ∀ c ∈ l.text, c ≠ '^' := by
  have hn : ∀ c, isNameChar c → c ≠ '^' := by
    rintro c hc rfl
    exact absurd hc (by decide)
  have hu : ∀ c, isNumberPart c → c ≠ '^' := by
    rintro c hc rfl
    exact absurd hc (by decide)
  cases h with
  | word hf ho => exact forall_mem_cons.2 ⟨hn _ (isNameChar_of_isNameStart hf), fun c hc => hn c (ho c hc)⟩
  | number hf ho => exact forall_mem_cons.2 ⟨hu _ (isNumberPart_of_isDigit hf), fun c hc => hu c (ho c hc)⟩
  | text => exact absurd rfl hk
  | arrow | dot | equals => simp
  | mark hc =>
    rintro d hd rfl
    rw [← mem_singleton.1 hd] at hc
    exact absurd hc (by decide)
  | sign g => cases g <;> simp [Sign.char]

theorem code_caret_not_mem {ls : List Lexeme} (h : Readable ls) : .code '^' ∉ ls.flatMap Lexeme.pieces := by
  induction ls with
  | nil => exact not_mem_nil
  | cons l ls ih =>
    obtain ⟨hg, hr, he⟩ := h
    rw [flatMap_cons, mem_append, not_or, Lexeme.pieces, mem_append, not_or]
    refine ⟨⟨fun hm => ?_, fun hm => ?_⟩, ih he⟩
    · obtain ⟨c, hc, heq⟩ := mem_map.1 hm
      cases heq
      exact absurd (hg _ hc) (by decide)
    · split at hm
      · simp at hm
      · next hk =>
        obtain ⟨c, hc, heq⟩ := mem_map.1 hm
        cases heq
        exact hr.ne_caret hk _ hc rfl

end Fragment

namespace Source

theorem divide_of_no_caret {s : Source} (h : .code '^' ∉ s.pieces) : s.divide = .ok ⟨[], s.text⟩ := by
  have hc : ∀ p ∈ s.pieces, p ≠ .code '^' := fun p hp heq => h (heq ▸ hp)
  rw [divide, glyphs, divideFrom_of_noCalls (noCalls_of_not_caret hc [] []), s.chars_pieces]

end Source

namespace Fragment

theorem text_of_prepare {body : ResolvedBody} {program : List Stmt} (hb : m.body.toList = print program)
    (h : ctx.prepare inCtor m = .ok body) : body.text = print (qualifiedAll ctx.ambient m.paramNames program) := by
  obtain ⟨divided, resolved, hd, hr, hq, -⟩ := BodyContext.exists_of_prepare h
  have he := readable_program program
  have hs := Source.ofText_of_pieces (piecesFrom_textOf he {} 0)
  rw [hb, print, hs] at hd
  cases (Source.divide_of_no_caret (code_caret_not_mem he)).symm.trans hd
  cases hr
  exact Except.ok.inj (hq.symm.trans (qualify_program ctx.ambient m.paramNames program))

end Fragment

/-! ### Bodies of a unit -/

/-- A text is a method body written again: a printed program with its free ambient names
replaced. -/
def Method.IsWritten (m : Method) (ambient : Ambient) (body : String) : Prop :=
  ∀ program, m.body.toList = Fragment.print program →
    body.toList = Fragment.print (Fragment.qualifiedAll ambient m.paramNames program)

/-- A method becomes a function: the same name and parameters, the body written again. -/
def Method.Becomes (ambient : Ambient) (m : Method) (f : ScriptFunction) : Prop :=
  f.name = m.name ∧ f.params = m.params ∧ m.IsWritten ambient f.body

/-- All bodies of a unit are those of some members, written with the same ambient names. -/
structure ScriptUnit.Writes (u : ScriptUnit) (ambient : Ambient) (members : Members) : Prop where
  constructor : ∀ m, members.constructor? = some m →
    ∃ body, u.constructor? = some body ∧ m.IsWritten ambient body
  privateMethods : Forall₂ (Method.Becomes ambient) members.privateTier.methods u.privateMethods
  protectedMethods :
    Forall₂ (Method.Becomes ambient) members.protectedTier.methods u.protectedMethods
  publicMethods : Forall₂ (Method.Becomes ambient) members.publicTier.methods u.publicMethods
  accessors : ∃ getters setters, Forall₂ (Method.Becomes ambient) members.getters getters ∧
    Forall₂ (Method.Becomes ambient) members.setters setters ∧
    u.accessors = accessorsOf getters setters
  handlers : Forall₂ (Method.Becomes ambient) members.handlers u.handlers

theorem BodyContext.isWritten_of_prepare {body : ResolvedBody}
    (h : ctx.prepare inCtor m = .ok body) : m.IsWritten ctx.ambient (String.ofList body.text) := by
  intro program hp
  rw [String.toList_ofList]
  exact Fragment.text_of_prepare hp h

theorem BodyContext.forall₂_becomes {ms : List Method} {fs : List ScriptFunction}
    (h : Forall₂ ctx.IsFunction ms fs) : Forall₂ (Method.Becomes ctx.ambient) ms fs := by
  refine h.imp fun m f hf => ?_
  obtain ⟨body, hb, rfl⟩ := hf
  exact ⟨rfl, rfl, isWritten_of_prepare hb⟩

/-- A body that is a bare ambient name. -/
theorem Method.IsWritten.bare {amb : Ambient} {x : Fragment.Identifier} (h : m.IsWritten amb body)
    (hb : m.body.toList = Fragment.print [.expression (.operand (.name x))])
    (hp : x.text ∉ m.paramNames) (hx : amb.get? x.text = some access) : body.toList = (access.qualify x.text).toList ++ [';'] := by
  have hr : x.resolved amb m.paramNames = x.reached access := by
    rw [Fragment.Identifier.resolved, if_neg hp, hx]
  rw [h _ hb, Fragment.print, Fragment.qualifiedAll, Fragment.Stmt.qualified, Fragment.Expr.qualified,
    Fragment.Operand.qualified, hr, Fragment.qualifiedAll, Fragment.stmtLexemes,
    Fragment.stmtLexemes, append_nil, Fragment.Stmt.lexemes, Fragment.Expr.lexemes,
    Fragment.textOf_append, Fragment.textOf_reached]
  rfl

theorem UnitContext.Builds.writes {ctx : UnitContext} {plan : UnitPlan} {p : PreparedMembers}
    {u : ScriptUnit} (h : ctx.Builds plan p u) : u.Writes (ctx.table.ambient plan) plan.members where
  constructor m hm := by
    obtain ⟨body, hb, hp⟩ := h.prepares.constructor m hm
    exact ⟨_, h.constructor_eq.trans hp, BodyContext.isWritten_of_prepare hb⟩
  privateMethods := h.privateMethods_eq ▸ BodyContext.forall₂_becomes h.prepares.privateMethods
  protectedMethods := h.protectedMethods_eq ▸ BodyContext.forall₂_becomes h.prepares.protectedMethods
  publicMethods := h.publicMethods_eq ▸ BodyContext.forall₂_becomes h.prepares.publicMethods
  accessors := ⟨p.getters, p.setters, BodyContext.forall₂_becomes h.prepares.getters,
    BodyContext.forall₂_becomes h.prepares.setters, h.accessors_eq⟩
  handlers := h.handlers_eq ▸ BodyContext.forall₂_becomes h.prepares.handlers

/-! ### Names of ancestors -/

theorem findSome?_reverse_append_cons {α β : Type} {f : α → Option β} {xs ys : List α} {x : α}
    (h : ∀ y ∈ ys, f y = none) (hx : (f x).isSome) : (xs ++ x :: ys).reverse.findSome? f = f x := by
  have hs : ys.reverse.findSome? f = none := findSome?_eq_none_iff.2 fun y hy => h y (mem_reverse.1 hy)
  rw [reverse_append, reverse_cons, append_assoc, findSome?_append, hs, Option.none_or, cons_append, findSome?_cons]
  obtain ⟨b, hb⟩ := Option.isSome_iff_exists.1 hx
  rw [hb]

theorem ClassTable.get?_ambient_of_isLine (ht : t.NoTags) (hp : x ∉ c.members.privateTier.names) (ho : c.exposed? x = none)
    (hl : t.IsLine c.parents (nearer ++ d :: farther)) (hf : ∀ e ∈ farther, e.exposed? x = none)
    (ha : d.exposed? x = some access) : (t.ambient (.ofClass c)).get? x = some access := by
  rw [get?_ambient hp ho, lineage_of_isLine ht hl, findSome?_reverse_append_cons hf (ha ▸ rfl), ha]
  rfl

/-- **Inherited names.** In a compiled page the unit of a class has the bodies of the class, all
written with the same ambient names. On a single line of inheritance a name that the class does not
declare is reached as the farthest ancestor that exposes it has it: directly if it is public there,
through the capsule if it is protected. What nearer ancestors say of it does not count. -/
theorem compileText_inherited_access {text : List Char} {links : HeadLinks} {out : PageOutput}
    (h : compileText text links = .ok out) :
    ∃ source script, PageSource.readChecked text = .ok source ∧ source.script = .ok script ∧
      out.behavior = script.render ∧
      ∀ c ∈ source.table.classes, ∃ u ∈ script.units, ∃ ambient, u.anchor = .byClass c.name ∧
        u.Writes ambient c.members ∧
        ∀ x ∉ c.members.privateTier.names, c.exposed? x = none →
          ∀ nearer d farther, source.table.IsLine c.parents (nearer ++ d :: farther) →
            (∀ e ∈ farther, e.exposed? x = none) →
            (x ∈ d.members.publicTier.names → ambient.get? x = some .direct) ∧
            (x ∈ d.members.protectedTier.names → x ∉ d.attributes.keys.map accessorName →
              ambient.get? x = some .capsule) := by
  obtain ⟨source, script, hread, hscript, rfl⟩ := compileText_eq_ok_iff.1 h
  refine ⟨source, script, hread, hscript, rfl, fun c hc => ?_⟩
  obtain ⟨called, -, hunits, -⟩ := PageSource.exists_context hscript
  obtain ⟨u, hu, p, hbuilds⟩ := hunits c hc
  refine ⟨u, hu, _, hbuilds.anchor_eq, hbuilds.writes, ?_⟩
  intro x hprivate hown nearer d farther hline hfarther
  have hd : d.IsChecked := by
    refine PageSource.checked_classes hread d (ClassTable.mem_of_get? (hline.of_mem ?_).1)
    exact mem_append_right _ mem_cons_self
  have hget {access : Access} (haccess : d.exposed? x = some access) :=
    ClassTable.get?_ambient_of_isLine (PageSource.noTags hread) hprivate hown hline hfarther haccess
  exact ⟨fun hx => hget (hd.exposed?_of_mem.1 hx),
    fun hx hattribute => hget (hd.exposed?_of_mem.2 hx hattribute)⟩

/-- A name that the nearer of two ancestors has public and the farther one protected. -/
def twoTiers : List Char :=
  ("class P2 extends div\x7bprotected\x7bvar x=1;\x7d\x7d" ++
    "class P1 extends P2\x7bpublic\x7bvar x=2;\x7d\x7d" ++
    "class C extends P1\x7bpublic\x7bm()\x7bx;\x7d\x7d\x7d").toList

/-- Whether a class and its two ancestors are those of `twoTiers`. -/
def isTwoTiers : List ClassDef → Bool
  | [p₂, p₁, c] =>
    decide (c.parents.filter (!isTag ·) = [p₁.name] ∧ p₁.parents.filter (!isTag ·) = [p₂.name] ∧
      p₂.parents.filter (!isTag ·) = [] ∧ c.members.privateTier.names = [] ∧ c.exposed? "x" = none ∧
      "x" ∈ p₁.members.publicTier.names ∧ "x" ∈ p₂.members.protectedTier.names ∧
      p₂.attributes.keys = [] ∧
      c.members.publicTier.methods.map (fun m => (m.name, m.paramNames, m.body)) = [("m", [], "x;")])
  | _ => false

/-- The name that is read there. -/
def readX : Fragment.Identifier := ⟨'x', [], by decide, by decide, by decide⟩

/-- A public declaration in the parent does not keep a name from being sought in the capsule. -/
theorem compileText_inherited_access_twoTiers :
    ∃ out source script p₂ p₁ c u, compileText twoTiers ⟨"page.js", "page.css"⟩ = .ok out ∧
      PageSource.readChecked twoTiers = .ok source ∧ source.script = .ok script ∧
      out.behavior = script.render ∧ source.table.classes = [p₂, p₁, c] ∧
      source.table.IsLine c.parents [p₁, p₂] ∧ "x" ∈ p₁.members.publicTier.names ∧
      "x" ∈ p₂.members.protectedTier.names ∧ u ∈ script.units ∧ u.anchor = .byClass c.name ∧
      u.publicMethods.map (fun f => (f.name, f.body)) = [("m", "__self.__protected.x;")] := by
  have heval : CompilesWith twoTiers fun source _ => isTwoTiers source.table.classes = true := by
    decide +kernel
  obtain ⟨source, script, out, hread, hscript, hout, htiers, hbehavior, hunits⟩ :=
    heval.exists_and ⟨"page.js", "page.css"⟩ fun _ => compileText_inherited_access
  generalize hclasses : source.table.classes = classes at htiers
  match classes, hclasses, htiers with
  | [p₂, p₁, c], hclasses, htiers =>
    obtain ⟨hc, h₁, h₂, hprivate, hown, hpublic, hprotected, hkeys, hmethods⟩ := of_decide_eq_true htiers
    have hmem {d : ClassDef} (hd : d ∈ [p₂, p₁, c]) : source.table.get? d.name = some d :=
      ClassTable.get?_of_mem (hclasses ▸ hd)
    have hline : source.table.IsLine c.parents [p₁, p₂] :=
      .step hc (hmem (by simp)) (.step h₁ (hmem (by simp)) (.root h₂))
    obtain ⟨u, hu, ambient, hanchor, hwrites, haccess⟩ := hunits c (hclasses ▸ by simp)
    have hcapsule : ambient.get? "x" = some .capsule :=
      (haccess "x" (by rw [hprivate]; exact not_mem_nil) hown [p₁] p₂ [] hline nofun).2 hprotected
        (by rw [hkeys]; exact not_mem_nil)
    refine ⟨out, source, script, p₂, p₁, c, u, hout, hread, hscript, hbehavior, hclasses, hline, hpublic,
      hprotected, hu, hanchor, ?_⟩
    obtain ⟨m, hm, hmethod⟩ := map_eq_singleton_iff.1 hmethods
    simp only [Prod.mk.injEq] at hmethod
    obtain ⟨hname, hparams, hbody⟩ := hmethod
    have hfunctions := hwrites.publicMethods
    rw [hm] at hfunctions
    obtain ⟨f, fs, ⟨hfname, -, hfbody⟩, hnil, hfs⟩ := forall₂_cons_left_iff.1 hfunctions
    rw [forall₂_nil_left_iff.1 hnil] at hfs
    have hwritten : f.body.toList = "__self.__protected.x;".toList :=
      hfbody.bare (x := readX) (by rw [hbody]; rfl) (by rw [hparams]; exact not_mem_nil) hcapsule
    rw [hfs, map_cons, map_nil, hfname, hname, String.toList_injective hwritten]

end Pagewright
