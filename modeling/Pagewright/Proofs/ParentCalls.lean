import Pagewright.Proofs.Bodies
import Pagewright.Proofs.ResolvedBodies
import Pagewright.Proofs.Runs

/-!
# Parent calls of a compiled page

Every body of a class or an instance is prepared for some unit
(`PageSource.exists_unit_of_declares`), so all its parent calls mean something. They are replaced in
the text, which is not scanned again. Where the text around a call and its arguments keep apart from
the replacement (`BodyContext.IsClean`), the new text has no parent calls, and its lexemes are those
of the body with the calls replaced (`compileText_parent_calls_resolved`). A call among the
arguments of another is left as it is (`compileText_nested_parent_call_left`). -/

namespace Pagewright

open List Fragment Pagewright.Tree

variable {members : Members} {inConstructor : Bool} {m : Method} {ctx : BodyContext} {method name owner : String}

/-! ### The bodies of a source -/

/-- The members have the body: it is that of the constructor, or of a method, an accessor or a
handler. -/
def Members.HasBody (members : Members) (inConstructor : Bool) (m : Method) : Prop :=
  if inConstructor then members.constructor? = some m
  else m ∈ members.privateTier.methods ∨ m ∈ members.protectedTier.methods ∨ m ∈ members.publicTier.methods ∨
    m ∈ members.getters ∨ m ∈ members.setters ∨ m ∈ members.handlers

/-- The source has a class or an instance with the entries and the members: a class with its
parents, an instance inside a class, or one of the page. -/
inductive PageSource.Declares (source : PageSource) : List String → Members → Prop where
  | ofClass {c : ClassDef} (hc : c ∈ source.table.classes) : Declares source c.parents c.members
  | inside {c : ClassDef} {own : Instance} (hc : c ∈ source.table.classes) (hown : own ∈ labelsAll c.children) :
      Declares source own.entries own.members
  | page {own : Instance} (hown : own ∈ labelsAll source.page.nodes) : Declares source own.entries own.members

theorem Members.HasBody.isEmpty_eq (h : members.HasBody inConstructor m) : members.isEmpty = false := by
  rw [HasBody] at h
  split at h
  · simp [isEmpty, h]
  · rcases h with h | h | h | h | h | h <;> simp [isEmpty, Tier.isEmpty, ne_nil_of_mem h]

namespace PageSource

variable {source : PageSource} {script : Script}

theorem exists_unit_of_declares (h : source.script = .ok script) :
    ∃ called, ∀ es members, source.Declares es members → ∀ inConstructor m,
      members.HasBody inConstructor m → ∃ u ∈ script.units, ∃ plan p, plan.entries = es ∧
        plan.members = members ∧ UnitContext.Builds ⟨source.table, source.text, called⟩ plan p u := by
  obtain ⟨called, -, hb⟩ := forall₂_builds h
  refine ⟨called, fun es members hd inConstructor m hbo => ?_⟩
  have hun {plan : UnitPlan} (hp : plan ∈ source.families.map Prod.fst) (he : plan.entries = es)
      (hm : plan.members = members) : ∃ u ∈ script.units, ∃ plan p, plan.entries = es ∧
        plan.members = members ∧ UnitContext.Builds ⟨source.table, source.text, called⟩ plan p u := by
    obtain ⟨u, hu, p, hun⟩ := exists_of_mem_left hb hp
    exact ⟨u, hu, plan, p, he, hm, hun⟩
  cases hd with
  | @ofClass c hc => exact hun (mem_families.1 c hc) rfl rfl
  | inside hc ho =>
    obtain ⟨ns, id, hp⟩ := exists_plan_of_mem_children hc ho
    exact hun hp rfl rfl
  | page ho =>
    rw [← source.mapAll_toInstance_settledPage, labelsAll_mapAll, ← map_label_sitesAll [] 0, map_map] at ho
    obtain ⟨s, hs, rfl⟩ := mem_map.1 ho
    have hn : bearsUnit s.2 := by
      simp [bearsUnit, Instance.needsUnit, show s.2.label.members.isEmpty = false from hbo.isEmpty_eq]
    obtain ⟨ns, id, -, hp⟩ := exists_plan_of_mem_bearing (mem_filter.2 ⟨hs, hn⟩)
    exact hun hp rfl rfl

end PageSource

theorem BodyContext.Prepares.exists_prepare {p : PreparedMembers} (h : ctx.Prepares members p)
    (hm : members.HasBody inConstructor m) : ∃ body, ctx.prepare inConstructor m = .ok body := by
  have hf {ms : List Method} {fs : List ScriptFunction} (hs : Forall₂ ctx.IsFunction ms fs)
      (hm : m ∈ ms) : ∃ body, ctx.prepare false m = .ok body := by
    obtain ⟨f, -, body, hb, -⟩ := exists_of_mem_left hs hm
    exact ⟨body, hb⟩
  cases inConstructor with
  | true =>
    obtain ⟨body, hb, -⟩ := h.constructor m hm
    exact ⟨body, hb⟩
  | false =>
    rcases hm with hm | hm | hm | hm | hm | hm
    · exact hf h.privateMethods hm
    · exact hf h.protectedMethods hm
    · exact hf h.publicMethods hm
    · exact hf h.getters hm
    · exact hf h.setters hm
    · exact hf h.handlers hm

/-! ### Aliases -/

theorem CallSite.isNameChar_of_meaning? {t : ClassTable} {es : List String} (site : CallSite)
    (h : t.meaning? es inConstructor site.call = some (.inherited owner method)) : ∀ c ∈ method.toList, isNameChar c := by
  have hc {name : String} (hn : IsName name.toList) : ∀ c ∈ name.toList, isNameChar c := by
    obtain ⟨first, others, heq, hf, ho⟩ := hn
    rw [heq, forall_mem_cons]
    exact ⟨isNameChar_of_isNameStart hf, ho⟩
  have hm := site.isName_method
  unfold ClassTable.meaning? at h
  split at h
  · split at h
    · cases h
    · obtain ⟨c, -, heq⟩ := Option.map_eq_some_iff.1 h
      cases heq
      exact hc site.isName_target
  · next name hn =>
    split at h
    · split at h
      · cases h
        exact hc (hm method hn)
      · cases h
    · cases h

theorem BodyContext.isAlias_of_alias? (ht : ctx.table.NoTags) (hc : ∀ c ∈ ctx.table.classes, ∀ ch ∈ c.name.toList, isNameChar ch)
    {site : CallSite} (h : name ∈ ctx.alias? inConstructor site.call) : IsAlias name := by
  unfold alias? at h
  split at h
  · next owner method hm =>
    cases h
    obtain ⟨c, hr, rfl, -⟩ := ClassTable.exists_reaches_of_meaning? ht hm
    have he := site.isNameChar_of_meaning? hm
    have ho := hc c hr.mem
    refine ⟨'_' :: (c.name.toList ++ '_' :: method.toList), by simp [aliasName], ?_⟩
    have hu : isNameChar '_' := by decide
    simp only [forall_mem_cons, forall_mem_append]
    exact ⟨hu, ho, hu, he⟩
  · cases h

theorem PageSource.isNameChar_of_mem_classes {text : List Char} {source : PageSource}
    (h : readChecked text = .ok source) : ∀ c ∈ source.table.classes, ∀ ch ∈ c.name.toList, isNameChar ch := by
  obtain ⟨-, s, -, -, -, -, -, -, hl, -⟩ := exists_of_read (read_of_readChecked h)
  exact fun c hc => (hl c hc).name

/-! ### Resolved bodies -/

/-- The body is divided into the sites of its parent calls and a tail. -/
def Source.IsDivided (s : Source) (sites : List CallSite) (tail : List Piece) : Prop :=
  Divides [] s.pieces sites tail ∧ s.divide = .ok (dividedOf sites tail)

namespace BodyContext

variable {ctx : BodyContext} {inConstructor : Bool} {m : Method} {s : Source} {sites : List CallSite}
  {tail : List Piece} {body resolved : ResolvedBody}

/-- The parent calls of a body can be replaced where they stand. In the rest every slash that could
begin a pattern has to begin one, and no blanks are used that only a part of the readers knows. -/
structure IsClean (ctx : BodyContext) (inConstructor : Bool) (s : Source) (sites : List CallSite)
    (tail : List Piece) : Prop where
  patterns : endsPatterns {} s.text = true
  blanks : PlainBlanks s.pieces
  calls : AreClean (ctx.alias? inConstructor) true sites tail

/-- The parent calls of a body are resolved: each means something, and if they can be replaced where
they stand, none is left, and the lexemes are those of the body with the calls replaced. -/
structure Resolves (ctx : BodyContext) (inConstructor : Bool) (m : Method) (s : Source) (resolved : ResolvedBody)
    (sites : List CallSite) (tail : List Piece) : Prop where
  meaning : ∀ site ∈ sites, (ctx.table.meaning? ctx.entries inConstructor site.call).isSome = true
  resolve_eq : ctx.resolve inConstructor m (tail.flatMap Piece.chars) (sites.map CallSite.entry) = .ok resolved
  lexemes_eq : lexemesOf s.pieces = sites.flatMap CallSite.lexemes ++ lexemesOf tail
  replaced : ctx.IsClean inConstructor s sites tail → ∃ s', Source.ofText resolved.text = .ok s' ∧
    s'.divide = .ok ⟨[], resolved.text⟩ ∧ lexemesOf s'.pieces = rewritten (ctx.alias? inConstructor) false sites tail

/-- **Clean bodies.** The text of a resolved body that is clean has no parent calls, and its lexemes
are those of the body with the calls replaced. -/
theorem IsClean.exists_source (h : ctx.IsClean inConstructor s sites tail) (hs : s.IsScan)
    (hn : ∀ site ∈ sites, ∀ name ∈ ctx.alias? inConstructor site.call, IsAlias name) (hd : Divides [] s.pieces sites tail)
    (hr : ctx.resolve inConstructor m (tail.flatMap Piece.chars) (sites.map CallSite.entry) = .ok resolved) :
    ∃ s', Source.ofText resolved.text = .ok s' ∧ s'.divide = .ok ⟨[], resolved.text⟩ ∧
      lexemesOf s'.pieces = rewritten (ctx.alias? inConstructor) false sites tail := by
  have hb : Begun s.pieces := fun kind text hm => exists_start_of_mem_piecesFrom hs hm
  obtain ⟨c, hp⟩ := passes_of_piecesFrom hs fun _ => h.patterns
  have hi := hd.pieces_eq
  -- The text is that of the pieces with the calls replaced, and a scan of it finds these pieces again.
  obtain ⟨ht, -⟩ := text_of_resolve hn (hi ▸ hb) (hi ▸ hp) h.calls hr
  have hf : ScanContext.Fresh {} := by rintro c ⟨⟩
  obtain ⟨d, hc⟩ := passes_replaced hn (hi ▸ hp) (hi ▸ h.blanks)
    (.alike (isOpen_start.alike isOpen_start)) (fun _ => hf) h.calls
  have hpi : pieces resolved.text = .ok (replaced (ctx.alias? inConstructor) false sites tail) := by
    rw [ht]
    exact hc.piecesFrom_eq 0
  have ho := noCalls_replaced hn hd hb hp (.alike fun _ => rfl) nofun h.calls
  refine ⟨_, Source.ofText_of_pieces hpi, ?_, lexemesOf_replaced hn h.calls⟩
  refine (Source.divideFrom_of_noCalls ho 0).trans ?_
  rw [ht]

/-- **Resolved bodies.** A body that is prepared is divided, and however its division is told over
its pieces, its parent calls are resolved. -/
theorem resolves_of_prepare (ht : ctx.table.NoTags) (hc : ∀ c ∈ ctx.table.classes, ∀ ch ∈ c.name.toList, isNameChar ch)
    (h : ctx.prepare inConstructor m = .ok body) : ∃ s resolved, Source.ofText m.body.toList = .ok s ∧
      qualify ctx.ambient m.paramNames resolved.text = .ok body.text ∧ (∃ sites tail, s.IsDivided sites tail) ∧
      ∀ sites tail, s.IsDivided sites tail → ctx.Resolves inConstructor m s resolved sites tail := by
  obtain ⟨divided, resolved, hd, hr, hq, -⟩ := exists_of_prepare h
  obtain ⟨s, hs, hi⟩ := bind_eq_ok.1 hd
  have hsc := Source.isScan_ofText hs
  have hb : Begun s.pieces := fun kind text hm => exists_start_of_mem_piecesFrom hsc hm
  refine ⟨s, resolved, hs, hq, ?_, fun sites tail hsi => ?_⟩
  · obtain ⟨sites, tail, hv, rfl⟩ := Source.exists_sites_of_divideFrom hb hi
    exact ⟨sites, tail, hv, hi⟩
  · obtain ⟨hv, hi'⟩ := hsi
    obtain rfl : divided = dividedOf sites tail := Except.ok.inj (hi.symm.trans hi')
    have hn : ∀ site ∈ sites, ∀ name ∈ ctx.alias? inConstructor site.call, IsAlias name := fun site _ name ha => isAlias_of_alias? ht hc ha
    refine ⟨fun site hst => ?_, hr, ?_, fun hl => hl.exists_source hsc hn hv hr⟩
    · refine isSome_meaning?_of_resolve hr _ ?_
      rw [dividedOf, map_map]
      exact mem_map_of_mem hst
    · rw [hv.pieces_eq, lexemesOf_sites]

end BodyContext

/-- **Parent calls.** Every body of an accepted source is prepared for a unit of the script. Each of
its parent calls means an inherited method or hands arguments to a constructor. If the calls can be
replaced where they stand, the resolved body has no parent calls, and its lexemes are those of the
body with every call of a method turned into a call of its alias and every call of a constructor
left out. -/
theorem compileText_parent_calls_resolved {text : List Char} {links : HeadLinks} {out : PageOutput}
    (h : compileText text links = .ok out) :
    ∃ source script called, PageSource.readChecked text = .ok source ∧ source.script = .ok script ∧
      out.behavior = script.render ∧
      ∀ entries members, source.Declares entries members → ∀ inConstructor m, members.HasBody inConstructor m →
        ∃ u ∈ script.units, ∃ plan p, plan.entries = entries ∧ plan.members = members ∧
          UnitContext.Builds ⟨source.table, source.text, called⟩ plan p u ∧
          ∃ body s resolved,
            (UnitContext.bodies ⟨source.table, source.text, called⟩ plan).prepare inConstructor m = .ok body ∧
            Source.ofText m.body.toList = .ok s ∧
            qualify (source.table.ambient plan) m.paramNames resolved.text = .ok body.text ∧
            (∃ sites tail, s.IsDivided sites tail) ∧
            ∀ sites tail, s.IsDivided sites tail →
              (UnitContext.bodies ⟨source.table, source.text, called⟩ plan).Resolves inConstructor m s resolved
                sites tail := by
  obtain ⟨source, script, hread, hscript, rfl⟩ := compileText_eq_ok_iff.1 h
  obtain ⟨called, hunits⟩ := PageSource.exists_unit_of_declares hscript
  refine ⟨source, script, called, hread, hscript, rfl, ?_⟩
  intro entries members hdeclares inConstructor m hm
  obtain ⟨u, hu, plan, p, hentries, hmembers, hbuilds⟩ := hunits entries members hdeclares inConstructor m hm
  obtain ⟨body, hbody⟩ := hbuilds.prepares.exists_prepare (hmembers ▸ hm)
  obtain ⟨s, resolved, hs, hqualify, hdivided, hresolves⟩ :=
    BodyContext.resolves_of_prepare (PageSource.noTags hread) (PageSource.isNameChar_of_mem_classes hread) hbody
  exact ⟨u, hu, plan, p, hentries, hmembers, hbuilds, body, s, resolved, hbody, hs, hqualify, hdivided, hresolves⟩

/-- A constructor that hands an argument to that of its parent and returns what a method of it
gives. -/
def chainThenMethod : List Char :=
  ("class A extends div\x7bpublic\x7bm(x)\x7b\x7d\x7d\x7d" ++
    "class B extends A\x7bpublic\x7bconstructor(n)\x7b^A(n);return ^A.m(2);\x7d\x7d\x7d").toList

theorem isName_A : IsName "A".toList := ⟨'A', [], by decide, by decide, by simp⟩

/-- The call of the constructor. -/
def chainSite : CallSite where
  before := []
  call := ⟨0, "A", none, ['n']⟩
  blanks := []
  inside := [.code 'n']
  isName_target := isName_A
  isName_method := nofun
  isBlank_blanks := nofun
  args_eq := by decide

/-- The call of the method. -/
def methodSite : CallSite where
  before := ";return ".toList.map .code
  call := ⟨13, "A", some "m", ['2']⟩
  blanks := []
  inside := [.code '2']
  isName_target := isName_A
  isName_method := by
    rintro name ⟨⟩
    exact ⟨'m', [], by decide, by decide, by simp⟩
  isBlank_blanks := nofun
  args_eq := by decide

/-- The call of the constructor is left out with its semicolon, and the word before the other call
is not joined to the alias. -/
theorem compileText_parent_calls_resolved_chainThenMethod :
    ∃ (out : PageOutput) (source : PageSource) (script : Script) (c : ClassDef) (m : Method) (ctx : BodyContext)
      (s s' : Source) (resolved : ResolvedBody),
      compileText chainThenMethod ⟨"page.js", "page.css"⟩ = .ok out ∧
      PageSource.readChecked chainThenMethod = .ok source ∧ source.script = .ok script ∧
      out.behavior = script.render ∧ c ∈ source.table.classes ∧ c.members.HasBody true m ∧
      m.body = "^A(n);return ^A.m(2);" ∧ ctx.table = source.table ∧ ctx.entries = c.parents ∧
      Source.ofText m.body.toList = .ok s ∧ s.IsDivided [chainSite, methodSite] [.code ';'] ∧
      ctx.IsClean true s [chainSite, methodSite] [.code ';'] ∧
      ctx.Resolves true m s resolved [chainSite, methodSite] [.code ';'] ∧
      Source.ofText resolved.text = .ok s' ∧ s'.divide = .ok ⟨[], resolved.text⟩ ∧
      lexemesOf s'.pieces = [wordLexeme "return", wordLexeme "__A_m", markLexeme '(', (.number, ['2']),
        markLexeme ')', markLexeme ';'] := by
  have heval : CompilesWith chainThenMethod fun source _ =>
      (∃ c ∈ source.table.classes, c.parents = ["A"] ∧
        c.members.constructor?.map Method.body = some "^A(n);return ^A.m(2);") ∧
      source.table.meaning? ["A"] true chainSite.call = some .chain ∧
      source.table.meaning? ["A"] true methodSite.call = some (.inherited "A" "m") := by
    decide +kernel
  have hscanned : ∃ s, Source.ofText "^A(n);return ^A.m(2);".toList = .ok s ∧
      s.pieces = chainSite.pieces ++ (methodSite.pieces ++ [.code ';']) ∧
      s.divide = .ok (dividedOf [chainSite, methodSite] [.code ';']) ∧ endsPatterns {} s.text = true := by
    decide +kernel
  obtain ⟨source, script, hread, hscript, hout, ⟨c, hc, hparents, hconstructor⟩, hchain, hmethod⟩ :=
    heval.exists_output ⟨"page.js", "page.css"⟩
  obtain ⟨source', script', called, hread', hscript', hbehavior, hbodies⟩ := compileText_parent_calls_resolved hout
  cases hread.symm.trans hread'
  cases hscript.symm.trans hscript'
  obtain ⟨m, hm, hbody⟩ := Option.map_eq_some_iff.1 hconstructor
  obtain ⟨u, -, plan, p, hentries, -, -, body, s, resolved, -, hs, -, -, hresolves⟩ :=
    hbodies c.parents c.members (.ofClass hc) true m hm
  obtain ⟨s₁, hs₁, hpieces, hdivide, hpatterns⟩ := hscanned
  rw [hbody] at hs
  cases hs.symm.trans hs₁
  have hdivided : s.IsDivided [chainSite, methodSite] [.code ';'] := by
    refine ⟨?_, hdivide⟩
    rw [hpieces]
    exact .site (by decide) (by decide) (.site (by decide +kernel) (by decide +kernel) (.tail (by decide)))
  have htable : (UnitContext.bodies ⟨source.table, source.text, called⟩ plan).table = source.table := rfl
  have hentries : (UnitContext.bodies ⟨source.table, source.text, called⟩ plan).entries = c.parents := hentries
  generalize UnitContext.bodies ⟨source.table, source.text, called⟩ plan = ctx at hresolves htable hentries
  have hchain' : ctx.alias? true chainSite.call = none := by
    rw [BodyContext.alias?, htable, hentries, hparents, hchain]
  have hmethod' : ctx.alias? true methodSite.call = some "__A_m" := by
    rw [BodyContext.alias?, htable, hentries, hparents, hmethod]
    rfl
  have hclean : ctx.IsClean true s [chainSite, methodSite] [.code ';'] := by
    refine ⟨hpatterns, by rw [hpieces]; decide, ?_⟩
    simp only [AreClean, CallSite.IsClean, hchain', hmethod']
    decide +kernel
  obtain ⟨s', hs', hnone, hlexemes⟩ := (hresolves _ _ hdivided).replaced hclean
  refine ⟨_, source, script, c, m, ctx, s, s', resolved, hout, hread, hscript, hbehavior, hc, hm, hbody,
    htable, hentries, hbody ▸ hs, hdivided, hclean, hresolves _ _ hdivided, hs', hnone, hlexemes.trans ?_⟩
  simp only [rewritten, hchain', hmethod']
  decide +kernel

/-- A method with a parent call among the arguments of another. -/
def nestedCalls : List Char :=
  ("class A extends div\x7bpublic\x7bm()\x7b\x7dn()\x7b\x7d\x7d\x7d" ++
    "class B extends A\x7bpublic\x7bk()\x7b^m(^n());\x7d\x7d\x7d").toList

/-- The inner call is not resolved: it is still in the function that the method becomes. -/
theorem compileText_nested_parent_call_left :
    ∃ out source script u f s d, compileText nestedCalls ⟨"page.js", "page.css"⟩ = .ok out ∧
      PageSource.readChecked nestedCalls = .ok source ∧ source.script = .ok script ∧
      out.behavior = script.render ∧ u ∈ script.units ∧ u.anchor = .byClass "B" ∧ f ∈ u.publicMethods ∧
      f.body = "__A_m(^__self.n());" ∧ Source.ofText f.body.toList = .ok s ∧ s.divide = .ok d ∧
      d.calls.map (fun entry => entry.2.display) = ["^__self.n"] := by
  have heval : CompilesWith nestedCalls fun _ script => ∃ u ∈ script.units, u.anchor = .byClass "B" ∧
      ∃ f ∈ u.publicMethods, f.body = "__A_m(^__self.n());" := by
    decide +kernel
  have hscanned : ∃ s, Source.ofText "__A_m(^__self.n());".toList = .ok s ∧ ∃ d, s.divide = .ok d ∧
      d.calls.map (fun entry => entry.2.display) = ["^__self.n"] := by
    decide +kernel
  obtain ⟨source, script, hread, hscript, hout, u, hu, hanchor, f, hf, hbody⟩ := heval.exists_output ⟨"page.js", "page.css"⟩
  obtain ⟨s, hs, d, hd, hcalls⟩ := hscanned
  exact ⟨_, source, script, u, f, s, d, hout, hread, hscript, rfl, hu, hanchor, hf, hbody, hbody ▸ hs, hd, hcalls⟩

end Pagewright
