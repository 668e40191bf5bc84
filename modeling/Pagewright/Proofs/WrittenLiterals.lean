import Mathlib.Data.List.Infix
import Pagewright.Proofs.SplicedTexts

/-!
# Strings and templates in the script

Every string and template of the source that belongs to what a unit writes is a part of the unit
(`compileText_literals_written`). Those of assignments and of the body of the constructor are laid
out with the last work of the unit: unless that is left until the page is bound, each line but the
first is moved to the right, inside a template, too (`compileText_template_not_written`). Three
things are asked of the source. Parent calls have to keep apart from what stands around them
(`BodyContext.IsClean`); of two calls that hand arguments to the same parent the second is left out;
and the blanks before a value must be ones that the scan of literals knows (`PlainMargin`). -/

namespace Pagewright

open List

variable {ps tail cut : List Piece} {inConstructor : Bool} {body : ResolvedBody} {text lit cs out : List Char}
  {Written : List Char → Prop} {m : Method} {b s : Source}

/-! ### Literals of bodies and values -/

section Literals

variable {bodies : BodyContext} {s : Source} {m : Method} {back front sites : List CallSite} {es params : List String}
  {raw v : String}

theorem IsQuotedText.ne_nil_of_part (h : IsQuotedText lit) (hp : lit <:+: cs) : cs ≠ [] := by
  obtain ⟨quote, inner, -, rfl⟩ := h
  rintro rfl
  cases infix_nil.1 hp

theorem Source.IsScan.scans (h : s.IsScan) : Scans {} s.pieces := scans_of_piecesFrom h

theorem Scans.exists_source (h : Scans {} ps) : ∃ s, Source.ofText (ps.flatMap Piece.chars) = .ok s ∧ s.pieces = ps :=
  ⟨_, Source.ofText_of_pieces (h.piecesFrom_eq 0), rfl⟩

theorem BodyContext.infix_of_prepare (ht : bodies.table.NoTags)
    (hc : ∀ c ∈ bodies.table.classes, ∀ ch ∈ c.name.toList, isNameChar ch)
    (h : bodies.prepare inConstructor m = .ok body) (hs : Source.ofText m.body.toList = .ok s)
    (hd : s.IsDivided sites tail) (hcl : sites = [] ∨ bodies.IsClean inConstructor s sites tail)
    (he : text ∈ quotedTexts (stayingPieces (bodies.alias? inConstructor) sites tail)) : text <:+: body.text := by
  obtain ⟨s', resolved, hs', hq, -, hr⟩ := resolves_of_prepare ht hc h
  cases hs.symm.trans hs'
  have hre := hr sites tail hd
  rcases hcl with rfl | hcl
  · have ha : s.pieces = tail := by
      have hp := hd.1.pieces_eq
      simpa using hp
    have hsa : resolved.text = m.body.toList := by
      have hrs := hre.resolve_eq
      cases hrs
      rw [← ha, s.chars_pieces, Source.text_ofText hs]
    rw [hsa] at hq
    refine infix_of_qualify hq hs (mem_lexemesOf_of_mem_quotedTexts ?_)
    rw [ha]
    simpa [stayingPieces] using he
  · obtain ⟨s', hs', -, hl⟩ := hre.replaced hcl
    refine infix_of_qualify hq hs' ?_
    rw [hl]
    exact mem_rewritten_of_staying he false

theorem infix_of_qualify_trim {amb : Ambient} (h : Scans {} ps) (hm : PlainMargin (ps.flatMap Piece.chars))
    (hq : qualify amb params (trim (ps.flatMap Piece.chars)) = .ok out) (ht : text ∈ quotedTexts ps) : text <:+: out := by
  obtain ⟨core, hc, hh, hu⟩ := h.exists_trim hm
  obtain ⟨s, hs, hp⟩ := hc.exists_source
  rw [hh] at hs
  refine infix_of_qualify hq hs (mem_lexemesOf_of_mem_quotedTexts ?_)
  rwa [hp, hu]

/-- The pieces stand in the source between the mark before a value and the one that ends it. -/
def Source.IsCut (s : Source) (cut : List Piece) : Prop :=
  ∃ before mark stop after, (mark = '=' ∨ mark = ':') ∧ (stop = ';' ∨ isCloser stop = true) ∧
    s.pieces = before ++ .code mark :: (cut ++ .code stop :: after)

theorem Source.IsCut.scans (hs : s.IsScan) (h : s.IsCut cut) : Scans {} cut := by
  obtain ⟨pre, mark, stop, post, hm, -, hp⟩ := h
  have ho : isPlainBlank mark = false ∧ (mark ≠ '+' ∧ mark ≠ '-') ∧ IsOpenMark mark := by
    rcases hm with rfl | rfl <;> decide
  rw [Source.IsScan, hp] at hs
  obtain ⟨ctx, hl, hc⟩ := (scans_of_piecesFrom hs).exists_behind ho.1 ho.2.1
  exact hc.front (isFront_append _ _) ((isOpen_of_last hl ho.2.2).alike isOpen_start _ _)

theorem scans_inside (hs : s.IsScan) {site : CallSite}
    (hd : Divides [] s.pieces (front ++ site :: back) tail) : Scans {} site.inside := by
  have hp : s.pieces = (front.flatMap CallSite.pieces ++ (site.before ++
      .code '^' :: (site.call.headText ++ site.blanks).map .code)) ++ .code '(' :: (site.inside ++
        .code ')' :: (back.flatMap CallSite.pieces ++ tail)) := by
    rw [hd.pieces_eq]
    simp [CallSite.pieces, CallSite.callPieces]
  rw [Source.IsScan, hp] at hs
  exact scans_of_piecesFrom (pieces_inside rfl hs)

theorem BodyContext.exists_resolve_of_prepare
    (h : bodies.prepare inConstructor m = .ok body) (hs : Source.ofText m.body.toList = .ok s) {divided : DividedBody}
    (hd : s.divide = .ok divided) : ∃ resolved, bodies.resolve inConstructor m divided.tail divided.calls = .ok resolved ∧
      body.chainArgs = resolved.chainArgs := by
  obtain ⟨divided', resolved, hi, hr, -, hc, -⟩ := exists_of_prepare h
  rw [hs] at hi
  cases hd.symm.trans hi
  exact ⟨resolved, hr, hc⟩

theorem ClassTable.mem_entries_of_chain {t : ClassTable} {call : ParentCall}
    (h : t.meaning? es inConstructor call = some .chain) :
    call.target ∈ es ∧ isTag call.target = false := by
  unfold meaning? at h
  split at h
  · split_ifs at h with hc
    · simp only [Bool.and_eq_true, contains_iff_mem, Bool.not_eq_true'] at hc
      exact ⟨hc.1.2, hc.2⟩
    · obtain ⟨owner, -, ho⟩ := Option.map_eq_some_iff.1 h
      cases ho
  · split at h
    · split_ifs at h
      cases h
    · cases h

theorem mem_quotedTexts_of_staying {alias? : ParentCall → Option String}
    (h : text ∈ quotedTexts (stayingPieces alias? sites tail)) :
    text ∈ quotedTexts (sites.flatMap CallSite.pieces ++ tail) := by
  obtain ⟨quote, h⟩ := mem_quotedTexts.1 h
  refine mem_quotedTexts.2 ⟨quote, ?_⟩
  rcases mem_append.1 h with h | h
  · obtain ⟨site, hs, h⟩ := mem_flatMap.1 h
    refine mem_append_left _ (mem_flatMap.2 ⟨site, hs, ?_⟩)
    rcases mem_append.1 h with h | h
    · exact mem_append_left _ h
    · split_ifs at h
      · simp [CallSite.pieces, CallSite.callPieces, h]
      · cases h
  · exact mem_append_right _ h

/-- The body is one of the source. Of what stays of it every string and template is written, if it
has no parent calls or they can be replaced where they stand. -/
def BodyContext.BodyWritten (bodies : BodyContext) (s : Source) (inConstructor : Bool) (m : Method)
    (Written : List Char → Prop) : Prop :=
  ∃ before b, Source.ofText m.body.toList = .ok b ∧ s.IsGroup '{' '}' before b.pieces ∧
    (∃ sites tail, b.IsDivided sites tail) ∧
    ∀ sites tail, b.IsDivided sites tail → sites = [] ∨ bodies.IsClean inConstructor b sites tail →
      ∀ lit ∈ quotedTexts (stayingPieces (bodies.alias? inConstructor) sites tail), Written lit

/-- Where a constructor hands arguments to a parent for the first time, every string and template
among them is written. -/
def BodyContext.ArgumentsWritten (bodies : BodyContext) (m : Method) (Written : List Char → Prop) : Prop :=
  ∀ b front site back tail, Source.ofText m.body.toList = .ok b → b.IsDivided (front ++ site :: back) tail →
    bodies.table.meaning? bodies.entries true site.call = some .chain →
    (∀ other ∈ front, bodies.table.meaning? bodies.entries true other.call = some .chain →
      other.call.target ≠ site.call.target) →
    PlainMargin (site.inside.flatMap Piece.chars) → ∀ lit ∈ quotedTexts site.inside, Written lit

/-- The value was cut out of the source, and every string and template of it is written. -/
def Source.ValueWritten (s : Source) (raw : String) (Written : List Char → Prop) : Prop :=
  ∃ cut, s.IsCut cut ∧ raw.toList = trim (cut.flatMap Piece.chars) ∧
    (PlainMargin (cut.flatMap Piece.chars) → ∀ lit ∈ quotedTexts cut, Written lit)

/-- The strings and templates of the source that a unit writes: as they are, or laid out with the
last work. -/
structure UnitContext.WritesLiterals (ctx : UnitContext) (s : Source) (plan : UnitPlan) (u : ScriptUnit) : Prop where
  bodies : ∀ m, plan.members.Writes m →
    (ctx.bodies plan).BodyWritten s false m (· <:+: u.render.toList)
  constructor : ∀ m, plan.members.constructor? = some m →
    (ctx.bodies plan).BodyWritten s true m (u.layout · <:+: u.render.toList) ∧
      (ctx.bodies plan).ArgumentsWritten m (· <:+: u.render.toList)
  initializers : ∀ v ∈ plan.members.variables, ∀ raw ∈ v.initializer,
    s.ValueWritten raw (· <:+: u.render.toList)
  assignments : ∀ entry ∈ plan.assignments.entries, (plan.anchor.isCreation || !isStaticText entry) = true →
    s.ValueWritten entry.2 (u.layout · <:+: u.render.toList)

theorem BodyContext.bodyWritten (ht : bodies.table.NoTags)
    (hc : ∀ c ∈ bodies.table.classes, ∀ ch ∈ c.name.toList, isNameChar ch) (hs : s.IsScan)
    (hm : s.IsBody m) (h : bodies.prepare inConstructor m = .ok body) (hw : ∀ lit, IsQuotedText lit → lit <:+: trim body.text →
      (trimString (.ofList body.text)).isEmpty = false → Written lit) :
    bodies.BodyWritten s inConstructor m Written := by
  obtain ⟨b, -, hb, -, hd, -⟩ := resolves_of_prepare ht hc h
  obtain ⟨pre, pieces, hg, ho, -⟩ := hm
  have hp : b.pieces = pieces := by
    obtain ⟨post, ha⟩ := hg
    rw [Source.IsScan, ha] at hs
    rw [ho] at hb
    exact Except.ok.inj ((Source.pieces_ofText hb).symm.trans (pieces_inside rfl hs))
  refine ⟨pre, b, hb, by rwa [hp], hd, fun sites tail hi hcl lit hl => ?_⟩
  have he := mem_quotedTexts_of_staying hl
  rw [← hi.1.pieces_eq] at he
  have hq := (Source.isScan_ofText hb).scans.isQuotedText he
  have htr := hq.infix_trim (infix_of_prepare ht hc h hb hi hcl hl)
  exact hw lit hq htr (by simpa [trimString] using hq.ne_nil_of_part htr)

theorem Source.IsValue.valueWritten (hs : s.IsScan) (h : s.IsValue raw) (hv : bodies.expression raw = .ok v)
    (hw : ∀ lit, IsQuotedText lit → lit <:+: v.toList → Written lit) : s.ValueWritten raw Written := by
  obtain ⟨pre, mark, cut, stop, post, hm, ht, hp, hr⟩ := h
  have hc : s.IsCut cut := ⟨pre, mark, stop, post, hm, ht, hp⟩
  refine ⟨cut, hc, hr, fun ha lit hl => hw lit ((hc.scans hs).isQuotedText hl) ?_⟩
  obtain ⟨out, ho, rfl⟩ := exists_of_map_eq_ok hv
  rw [hr] at ho
  rw [String.toList_ofList]
  exact infix_of_qualify_trim (hc.scans hs) ha ho hl

end Literals

/-! ### Units -/

theorem ScriptUnit.layout_part (u : ScriptUnit) (h : IsQuotedText lit) (hp : lit <:+: cs) : u.layout lit <:+: u.layout cs := by
  unfold layout
  split_ifs
  · exact hp
  · exact h.infix_reindent hp

theorem Members.Writes.mem_methods {members : Members} (h : members.Writes m) : m ∈ members.methods := by
  simp only [methods, mem_append]
  rcases h with h | h | h | h | h | h
  · simp [h]
  · simp [h]
  · simp [h]
  · simp [mem_of_find?_eq_some h]
  · simp [mem_of_find?_eq_some h]
  · simp [h]

namespace UnitContext.IsUnit

variable {ctx : UnitContext} {plan : UnitPlan} {plans : List UnitPlan} {u : ScriptUnit} {s : Source}

theorem infix_render (h : ctx.IsUnit (plan, plans) u) (hp : plan.ReadFrom s) {text : String}
    (ht : .spliced text ∈ u.segments) : text.toList <:+: u.render.toList := by
  rw [← u.textOf_segments fun e he =>
    (h.isNameText_of_mem_assignments hp e he).isWordText.newline_not_mem]
  exact Segment.infix_textOf ht

theorem argumentsWritten (h : ctx.IsUnit (plan, plans) u) (hp : plan.ReadFrom s) (hm : plan.members.constructor? = some m)
    (hbo : (ctx.bodies plan).prepare true m = .ok body) : (ctx.bodies plan).ArgumentsWritten m (· <:+: u.render.toList) := by
  intro b front site back tail hb hd hc hf hma lit hl
  obtain ⟨resolved, hr, hh⟩ := BodyContext.exists_resolve_of_prepare hbo hb hd.2
  have hi := scans_inside (Source.isScan_ofText hb) hd.1
  rw [dividedOf, map_append] at hr
  obtain ⟨args, ha, hlo⟩ := BodyContext.exists_lookup_of_resolve hr hc (by
    intro other ho
    rw [map_map] at ho
    obtain ⟨site', hs', rfl⟩ := mem_map.1 ho
    exact hf site' hs')
  rw [site.args_eq] at ha
  have hpa := infix_of_qualify_trim hi hma ha hl
  obtain ⟨he, ht⟩ := ClassTable.mem_entries_of_chain hc
  have hme := h.mem_chain hm hbo he ht (hh ▸ hlo)
  have hne : (String.ofList args).isEmpty = false := by simpa using (hi.isQuotedText hl).ne_nil_of_part hpa
  have hw := h.infix_render hp (ScriptUnit.spliced_mem_of_mem_chain hme hne)
  rw [String.toList_ofList] at hw
  exact hpa.trans hw

theorem writesLiterals (h : ctx.IsUnit (plan, plans) u) (ht : ctx.table.NoTags)
    (hc : ∀ c ∈ ctx.table.classes, ∀ ch ∈ c.name.toList, isNameChar ch) (hs : s.IsScan)
    (hp : plan.ReadFrom s) : ctx.WritesLiterals s plan u where
  bodies := by
    intro m hm
    obtain ⟨body, hb, hme⟩ := h.exists_body hm
    refine BodyContext.bodyWritten ht hc hs (hp.members.bodies m hm.mem_methods) hb fun lit hl htr hne => ?_
    have hw := h.infix_render hp (ScriptUnit.spliced_mem_of_mem_bodies hme hne)
    simp only [trimString, String.toList_ofList] at hw
    exact htr.trans hw
  constructor := by
    intro m hm
    obtain ⟨p, hu⟩ := h.builds
    obtain ⟨body, hb, ho⟩ := hu.prepares.constructor m hm
    have hme : m ∈ plan.members.methods := by simp [Members.methods, hm]
    refine ⟨BodyContext.bodyWritten ht hc hs (hp.members.bodies m hme) hb fun lit hl htr hne => ?_, h.argumentsWritten hp hm hb⟩
    have hwo : trimString (String.ofList body.text) ∈ u.workBody? := by
      simp [ScriptUnit.workBody?, hu.constructor_eq, ho, Option.filter_some, hne]
    have hw := h.infix_render hp (ScriptUnit.spliced_mem_of_lastWork (.inr hwo))
    simp only [trimString, String.toList_ofList] at hw
    exact (u.layout_part hl htr).trans hw
  initializers := by
    intro v hv raw hr
    obtain ⟨val, hva, hme⟩ := h.exists_initialValue hv hr
    refine ((hp.members.declared v hv).value raw hr).valueWritten hs hva fun lit hl hpa => ?_
    exact hpa.trans (h.infix_render hp (ScriptUnit.spliced_mem_of_mem_initialValues hme))
  assignments := by
    intro e he ha
    obtain ⟨val, hva, hme⟩ := h.exists_assigned he ha
    refine (hp.assignments e he).2.valueWritten hs hva fun lit hl hpa => ?_
    have hw := h.infix_render hp (ScriptUnit.spliced_mem_of_lastWork (.inl hme))
    rw [String.toList_ofList] at hw
    exact (u.layout_part hl hpa).trans hw

end UnitContext.IsUnit

/-- **Strings and templates.** Every unit of a compiled page writes the strings and templates of its
bodies, initializers and assignments as they stand in the source; those of its assignments and of
the body of its constructor are laid out with the last work, which leaves them as they are exactly
if the unit is bound to the markup or they have one line. -/
theorem compileText_literals_written {text : List Char} {links : HeadLinks} {out : PageOutput}
    (h : compileText text links = .ok out) :
    ∃ source script called, PageSource.readChecked text = .ok source ∧ source.script = .ok script ∧
      out.behavior = script.render ∧
      ∀ u ∈ script.units, ∃ plan plans s, source.IsFamily plan plans ∧ IsSourceOf text s ∧
        UnitContext.IsUnit ⟨source.table, source.text, called⟩ (plan, plans) u ∧
        UnitContext.WritesLiterals ⟨source.table, source.text, called⟩ s plan u ∧
        ∀ lit, u.layout lit = lit ↔ u.anchor.markupId?.isSome = true ∨ '\n' ∉ lit := by
  obtain ⟨source, script, hread, hscript, rfl⟩ := compileText_eq_ok_iff.1 h
  obtain ⟨called, hfamilies⟩ := PageSource.exists_family hscript
  refine ⟨source, script, called, hread, hscript, rfl, fun u hu => ?_⟩
  obtain ⟨plan, plans, hfamily, hunit⟩ := hfamilies u hu
  obtain ⟨s, hs, hplan⟩ := hfamily.exists_readFrom hread
  exact ⟨plan, plans, s, hfamily, hs, hunit, hunit.writesLiterals (PageSource.noTags hread)
    (PageSource.isNameChar_of_mem_classes hread) hs.isScan hplan, fun lit => u.layout_eq_self_iff⟩

/-- A string in a method and a template of two lines in a constructor. -/
def stringAndTemplate : List Char :=
  ("class C extends div\x7bpublic\x7bm()\x7breturn \"q\";\x7d" ++
    "constructor()\x7bx=`a\nb`;\x7d\x7d\x7d").toList

theorem BodyContext.BodyWritten.of_not_caret {bodies : BodyContext} (h : bodies.BodyWritten s inConstructor m Written)
    (hb : Source.ofText m.body.toList = .ok b) (hc : .code '^' ∉ b.pieces) : ∀ lit ∈ quotedTexts b.pieces, Written lit := by
  obtain ⟨pre, b', hb', -, ⟨sites, tail, hd⟩, hw⟩ := h
  cases hb.symm.trans hb'
  have hp := hd.1.pieces_eq
  cases sites with
  | nil =>
    intro lit hl
    refine hw [] tail hd (.inl rfl) lit ?_
    rw [hp] at hl
    exact hl
  | cons site sites => simp [hp, CallSite.pieces, CallSite.callPieces] at hc

/-- The string is written as it is, the template with its second line indented. -/
theorem compileText_literals_written_stringAndTemplate :
    ∃ out source script u, compileText stringAndTemplate ⟨"page.js", "page.css"⟩ = .ok out ∧
      PageSource.readChecked stringAndTemplate = .ok source ∧ source.script = .ok script ∧
      out.behavior = script.render ∧ u ∈ script.units ∧ u.anchor = .byClass "C" ∧
      "\"q\"".toList <:+: u.render.toList ∧ "`a\n    b`".toList <:+: u.render.toList := by
  have heval : CompilesWith stringAndTemplate fun source script => (∃ u ∈ script.units, u.anchor = .byClass "C") ∧
        ∀ c ∈ source.table.classes, (∃ m ∈ c.members.publicTier.methods, m.body = "return \"q\";") ∧
          c.members.constructor?.map Method.body = some "x=`a\nb`;" := by
    decide +kernel
  have hstring : ∃ b, Source.ofText "return \"q\";".toList = .ok b ∧
      .code '^' ∉ b.pieces ∧ "\"q\"".toList ∈ quotedTexts b.pieces := by
    decide +kernel
  have htemplate : ∃ b, Source.ofText "x=`a\nb`;".toList = .ok b ∧
      .code '^' ∉ b.pieces ∧ "`a\nb`".toList ∈ quotedTexts b.pieces := by
    decide +kernel
  obtain ⟨source, script, hread, hscript, hout, ⟨u, hu, hanchor⟩, hclasses⟩ := heval.exists_output ⟨"page.js", "page.css"⟩
  obtain ⟨source', script', called, hread', hscript', hbehavior, hunits⟩ := compileText_literals_written hout
  cases hread.symm.trans hread'
  cases hscript.symm.trans hscript'
  obtain ⟨plan, plans, s, hfamily, -, hunit, hwrites, -⟩ := hunits u hu
  have hplan : plan.anchor = .byClass "C" := hunit.anchor_eq.symm.trans hanchor
  cases hfamily with
  | created => cases hplan
  | placed => cases hplan
  | ofClass hc hnames =>
    obtain ⟨⟨m, hm, hbody⟩, hconstructor⟩ := hclasses _ hc
    obtain ⟨m', hm', hbody'⟩ := Option.map_eq_some_iff.1 hconstructor
    obtain ⟨b, hb, hcaret, hlit⟩ := hstring
    obtain ⟨b', hb', hcaret', hlit'⟩ := htemplate
    have hlayout : u.layout "`a\nb`".toList = "`a\n    b`".toList := by
      rw [ScriptUnit.layout, hanchor]
      decide
    refine ⟨_, source, script, u, hout, hread, hscript, hbehavior, hu, hanchor, ?_, ?_⟩
    · exact (hwrites.bodies m (.inr (.inr (.inl hm)))).of_not_caret (hbody ▸ hb) hcaret _ hlit
    · rw [← hlayout]
      exact (hwrites.constructor m' hm').1.of_not_caret (hbody' ▸ hb') hcaret' _ hlit'

/-- A template of two lines in the body of a constructor. -/
def templateInConstructor : List Char :=
  "class C extends div\x7bpublic\x7bconstructor()\x7bx=`a\nb`;\x7d\x7d\x7d".toList

/-- It is not a part of the unit. -/
theorem compileText_template_not_written :
    ∃ out source script c m b u, compileText templateInConstructor ⟨"page.js", "page.css"⟩ = .ok out ∧
      PageSource.readChecked templateInConstructor = .ok source ∧ source.script = .ok script ∧
      out.behavior = script.render ∧ c ∈ source.table.classes ∧ c.members.constructor? = some m ∧
      Source.ofText m.body.toList = .ok b ∧ "`a\nb`".toList ∈ quotedTexts b.pieces ∧ u ∈ script.units ∧
      u.anchor = .byClass c.name ∧ ¬"`a\nb`".toList <:+: u.render.toList := by
  have heval : CompilesWith templateInConstructor fun source script => ∃ c ∈ source.table.classes,
        c.members.constructor?.map Method.body = some "x=`a\nb`;" ∧ ∃ u ∈ script.units, u.anchor = .byClass c.name ∧
          u.assignments = [] ∧ ¬"`a\nb`".toList <:+: Segment.textOf u.segments := by
    decide +kernel
  have htemplate : ∃ b, Source.ofText "x=`a\nb`;".toList = .ok b ∧ "`a\nb`".toList ∈ quotedTexts b.pieces := by
    decide +kernel
  obtain ⟨source, script, hread, hscript, hout, c, hc, hconstructor, u, hu, hanchor, hassignments, hpart⟩ :=
    heval.exists_output ⟨"page.js", "page.css"⟩
  obtain ⟨m, hm, hbody⟩ := Option.map_eq_some_iff.1 hconstructor
  obtain ⟨b, hb, hlit⟩ := htemplate
  rw [u.textOf_segments (by rw [hassignments]; nofun)] at hpart
  exact ⟨_, source, script, c, m, b, u, hout, hread, hscript, rfl, hc, hm, hbody ▸ hb,
    hlit, hu, hanchor, hpart⟩

end Pagewright
