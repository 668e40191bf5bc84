import Pagewright.Proofs.Prepared
import Pagewright.Proofs.ReplacedCalls

/-!
# What a resolved body says

The text of a body with its parent calls resolved is that of its pieces with the calls replaced
(`BodyContext.text_of_resolve`). Its lexemes are those of the body, with the alias in place of the
names of a call and without the calls of constructors (`lexemesOf_replaced`), and no parent call is
left (`noCalls_replaced`). -/

namespace Pagewright

open List Fragment
open Piece (chars)

variable {before before' front rest : List Char} {ps tail blanks : List Piece} {sites : List CallSite}
  {body : ResolvedBody} {name : String} {first chained inConstructor : Bool} {qs : List Piece}
  {back back' : List Char} {site : CallSite} {c c' ctx ctx' : ScanContext}

theorem Divides.pieces_eq (h : Divides before ps sites tail) : ps = sites.flatMap CallSite.pieces ++ tail := by
  induction h with
  | tail => rfl
  | site _ _ _ ih => rw [flatMap_cons, append_assoc, ← ih]

theorem Begun.of_site (h : Begun (site.pieces ++ ps)) : Begun site.before ∧ Begun site.inside :=
  ⟨fun kind text hm => h kind text (by simp [CallSite.pieces, hm]),
    fun kind text hm => h kind text (by simp [CallSite.pieces, CallSite.callPieces, hm])⟩

/-! ### The text -/

namespace BodyContext

variable {ctx : BodyContext} {inConstructor : Bool} {m : Method} {calls : List (List Char × ParentCall)}

/-- The alias that a parent call becomes; a call of a constructor becomes none. -/
def alias? (ctx : BodyContext) (inConstructor : Bool) (call : ParentCall) : Option String :=
  match ctx.table.meaning? ctx.entries inConstructor call with
  | some (.inherited owner method) => some (aliasName owner method)
  | _ => none

theorem exists_of_resolve_cons {tail : List Char} {call : ParentCall}
    (h : ctx.resolve inConstructor m tail ((before, call) :: calls) = .ok body) :
    ∃ done, ctx.resolve inConstructor m tail calls = .ok done ∧ (ctx.table.meaning? ctx.entries inConstructor call).isSome ∧
      body.text = before ++ match ctx.alias? inConstructor call with
        | some name => name.toList ++ ('(' :: call.args ++ ')' :: done.text)
        | none => dropStatementEnd done.text := by
  obtain ⟨done, hd, h⟩ := bind_eq_ok.1 h
  refine ⟨done, hd, ?_⟩
  rw [alias?]
  split at h
  · cases h
  · next hm =>
    obtain ⟨args, -, h⟩ := bind_eq_ok.1 h
    cases h
    rw [hm]
    exact ⟨rfl, rfl⟩
  · next owner method hm =>
    cases h
    rw [hm]
    exact ⟨rfl, by simp⟩

theorem isSome_meaning?_of_resolve {tail : List Char} (h : ctx.resolve inConstructor m tail calls = .ok body) :
    ∀ call ∈ calls.map Prod.snd, (ctx.table.meaning? ctx.entries inConstructor call).isSome := by
  induction calls generalizing body with
  | nil => simp
  | cons e calls ih =>
    obtain ⟨done, hd, hm, -⟩ := exists_of_resolve_cons h
    rw [map_cons, forall_mem_cons]
    exact ⟨hm, ih hd⟩

end BodyContext

theorem dropStatementEnd_of_alias (hn : IsAlias name) (cs : List Char) :
    dropStatementEnd (name.toList ++ cs) = name.toList ++ cs := by
  obtain ⟨others, ho, -⟩ := hn
  rw [ho]
  rfl

theorem exists_not_isBlankCode (h : endsStatement false ps) : ∃ p ∈ ps, ¬p.isBlankCode := by
  obtain ⟨h, -⟩ | ⟨init, c, gaps, rfl, hc, -⟩ := endsStatement_cases h
  · cases h
  · obtain ⟨-, -, hb, -⟩ := statementMarks_spec hc
    exact ⟨.code c, by simp, by simp [Piece.isBlankCode, hb]⟩

/-- **The text of a resolved body** is that of its pieces with the calls replaced. Behind a call
that is left out, the end of its statement is left out too. -/
theorem BodyContext.text_of_resolve {ctx : BodyContext} {m : Method}
    (hn : ∀ site ∈ sites, ∀ name ∈ ctx.alias? inConstructor site.call, IsAlias name) (hb : Begun (sites.flatMap CallSite.pieces ++ tail))
    (hpa : Passes true [] c (sites.flatMap CallSite.pieces ++ tail) c') (hc : AreClean (ctx.alias? inConstructor) first sites tail)
    (h : ctx.resolve inConstructor m (tail.flatMap chars) (sites.map CallSite.entry) = .ok body) :
    body.text = (replaced (ctx.alias? inConstructor) false sites tail).flatMap chars ∧ (first = false →
        dropStatementEnd body.text = (replaced (ctx.alias? inConstructor) true sites tail).flatMap chars) := by
  induction sites generalizing body first c with
  | nil =>
    cases h
    refine ⟨rfl, fun _ => ?_⟩
    have he : dropStatementEnd (tail.flatMap chars ++ []) = (kept true tail).flatMap chars ++ [] :=
      dropStatementEnd_append hb fun _ => rfl
    simpa [replaced] using he
  | cons site sites ih =>
    rw [flatMap_cons, append_assoc] at hb hpa
    rw [forall_mem_cons] at hn
    obtain ⟨done, hd, -, ht⟩ := exists_of_resolve_cons h
    obtain ⟨_, _, c₁, c₂, c₃, c₄, -, -, hi, -, hm⟩ := hpa.exists_of_site
    obtain ⟨hs, hsi⟩ := hc
    obtain ⟨hk, hdr⟩ := ih hn.2 hb.of_append_right hm hsi hd
    obtain ⟨hbe, hg⟩ := hb.of_site
    rw [CallSite.IsClean] at hs
    rw [replaced, replaced, ht]
    simp only [flatMap_append]
    cases ha : ctx.alias? inConstructor site.call with
    | some name =>
      rw [ha] at hs
      have hr : name.toList ++ ('(' :: site.call.args ++ ')' :: done.text) =
          (site.replacement name ++ replaced (ctx.alias? inConstructor) false sites tail).flatMap chars := by
        rw [CallSite.replacement, hk, site.args_eq]
        simp only [flatMap_append, flatMap_chars_map_code, chars_trimPieces hg hi hs.2.2.2]
        simp [chars]
      refine ⟨congrArg _ hr, fun _ => ?_⟩
      rw [← hr]
      exact dropStatementEnd_append hbe fun _ => dropStatementEnd_of_alias (hn.1 name ha) _
    | none =>
      rw [ha] at hs
      refine ⟨congrArg _ (hdr rfl), ?_⟩
      rintro rfl
      rw [← hdr rfl]
      refine dropStatementEnd_append hbe fun hl => ?_
      obtain ⟨p, hp, hne⟩ := exists_not_isBlankCode hs.1
      exact absurd (hl p hp) hne

/-! ### The lexemes -/

/-- A word as a lexeme. -/
def wordLexeme (name : String) : ScriptKind × List Char := (.word name, name.toList)

/-- A mark as a lexeme. -/
def markLexeme (c : Char) : ScriptKind × List Char := (markKind c, [c])

/-- The lexemes between the `^` of a call and its parentheses. -/
def ParentCall.lexemes (call : ParentCall) : List (ScriptKind × List Char) :=
  match call.method? with
  | some method => [wordLexeme call.target, markLexeme '.', wordLexeme method]
  | none => [wordLexeme call.target]

/-- The lexemes of a site. -/
def CallSite.lexemes (site : CallSite) : List (ScriptKind × List Char) :=
  lexemesOf site.before ++ markLexeme '^' :: (site.call.lexemes ++
    markLexeme '(' :: (lexemesOf site.inside ++ [markLexeme ')']))

section Rewritten

variable (alias? : ParentCall → Option String)

/-- The lexemes of the sites and the tail with the calls replaced: the alias is a word in place of
`^` and the names of a call, and of a call that is left out nothing stays, nor of a semicolon right
behind it. -/
def rewritten (chained : Bool) : List CallSite → List Piece → List (ScriptKind × List Char)
  | [], tail => lexemesOf (kept chained tail)
  | site :: sites, tail =>
    lexemesOf (kept chained site.before) ++
      match alias? site.call with
      | some name => wordLexeme name :: markLexeme '(' :: (lexemesOf site.inside ++
          markLexeme ')' :: rewritten false sites tail)
      | none => rewritten true sites tail

end Rewritten

theorem lexemesOf_name (hn : IsName name.toList) (hq : ∀ d qs', qs = .code d :: qs' → isNameChar d = false) :
    lexemesOf (name.toList.map .code ++ qs) = wordLexeme name :: lexemesOf qs := by
  obtain ⟨first, others, hc, hf, ho⟩ := hn
  rw [wordLexeme, hc, lexemesOf_word hf ho hq, ← hc, String.ofList_toList]

theorem lexemesOf_dot (hn : IsName name.toList) (qs : List Piece) : lexemesOf (.code '.' :: (name.toList.map .code ++ qs)) =
      markLexeme '.' :: lexemesOf (name.toList.map .code ++ qs) := by
  obtain ⟨first, others, hc, hf, -⟩ := hn
  have hm : lexScript '.' (name.toList.map .code ++ qs) = (.dot, ['.'], name.toList.map .code ++ qs) := by
    rw [lexScript_of_mark (by decide) (by decide), lexMark_dot]
    rw [hc]
    rintro qs' ⟨⟩
    exact absurd hf (by decide)
  rw [lexemesOf_code (by decide), hm]
  rfl

theorem CallSite.lexemesOf_head (site : CallSite) (qs : List Piece) :
    lexemesOf ((site.call.headText ++ site.blanks).map .code ++ .code '(' :: qs) =
      site.call.lexemes ++ markLexeme '(' :: lexemesOf qs := by
  have hl : lexemesOf (site.blanks.map .code ++ .code '(' :: qs) = markLexeme '(' :: lexemesOf qs := by
    rw [lexemesOf_gaps_append (by simpa [Piece.isGap] using site.isBlank_blanks), lexemesOf_separator (by decide)]
    rfl
  have he : ∀ d qs', site.blanks.map Piece.code ++ .code '(' :: qs = .code d :: qs' → isNameChar d = false := by
    have ha := site.isBlank_blanks
    cases hb : site.blanks with
    | nil =>
      rintro d qs' ⟨⟩
      decide
    | cons b bs =>
      rintro d qs' ⟨⟩
      exact (takes_of_isBlank (ha b (by rw [hb]; exact mem_cons_self))).2.1
  have hm := site.isName_method
  rw [map_append, append_assoc, ParentCall.headText, ParentCall.lexemes]
  cases h : site.call.method? with
  | none => rw [lexemesOf_name site.isName_target he, hl]; rfl
  | some method =>
    have hn := hm method (by rw [h]; rfl)
    simp only [map_append, map_cons, append_assoc, cons_append]
    rw [lexemesOf_name site.isName_target (by rintro d qs' ⟨⟩; decide), lexemesOf_dot hn, lexemesOf_name hn he, hl]
    rfl

/-- **The lexemes of a body** are those of its sites and its tail. -/
theorem lexemesOf_sites (sites : List CallSite) (tail : List Piece) :
    lexemesOf (sites.flatMap CallSite.pieces ++ tail) = sites.flatMap CallSite.lexemes ++ lexemesOf tail := by
  induction sites with
  | nil => rfl
  | cons site sites ih =>
    have hc : (site :: sites).flatMap CallSite.pieces ++ tail = site.before ++
        .code '^' :: ((site.call.headText ++ site.blanks).map .code ++ .code '(' ::
          (site.inside ++ .code ')' :: (sites.flatMap CallSite.pieces ++ tail))) := by
      simp [CallSite.pieces, CallSite.callPieces]
    rw [hc, lexemesOf_append_separator _ (by decide), site.lexemesOf_head, lexemesOf_append_separator _ (by decide), ih]
    simp [CallSite.lexemes, markLexeme]

theorem lexemesOf_trimPieces (ps : List Piece) : lexemesOf (trimPieces ps) = lexemesOf ps := by
  obtain ⟨front, back, hs, hf, hb, -, -⟩ := exists_trimmed ps
  have hg : ∀ p ∈ front, p.isGap := fun p hp => isGap_of_isBlankCode (hf p hp)
  have hg' : ∀ p ∈ back, p.isGap := fun p hp => isGap_of_isBlankCode (hb p hp)
  rw [hs, lexemesOf_gaps_append hg, lexemesOf_append_gaps _ hg', ← hs]

theorem lexemesOf_append_of_endsStatement (h : endsStatement first ps)
    (qs : List Piece) : lexemesOf (ps ++ qs) = lexemesOf ps ++ lexemesOf qs := by
  obtain ⟨-, hg⟩ | ⟨init, c, gaps, rfl, hc, hg⟩ := endsStatement_cases h
  · rw [lexemesOf_gaps_append hg, lexemesOf_gaps hg, nil_append]
  · have hm := (statementMarks_spec hc).1
    rw [append_assoc, cons_append, lexemesOf_append_separator _ hm, lexemesOf_gaps_append hg,
      lexemesOf_append_separator _ hm, lexemesOf_gaps hg]
    simp

theorem joinsWord_kept (chained : Bool) (h : joinsWord ps = false) : joinsWord (kept chained ps) = false := by
  have hb {blanks qs : List Piece} (ha : ∀ p ∈ blanks, p.isBlankCode)
      (h : joinsWord (blanks ++ qs) = false) : joinsWord qs = false := by
    induction blanks with
    | nil => exact h
    | cons p blanks ih =>
      rw [forall_mem_cons] at ha
      rw [joinsWord, cons_append, lastKind?_gap (isGap_of_isBlankCode ha.1)] at h
      exact ih ha.2 h
  cases chained with
  | false => exact h
  | true =>
    obtain ⟨blanks, rest, ha, hk, rfl | ⟨rfl, -⟩⟩ := kept_cases ps
    · have hr := hb ha h
      rw [hk]
      cases rest with
      | nil => rw [joinsWord, lastKind?.eq_def]
      | cons p rest =>
        rw [joinsWord, lastKind?.eq_def] at hr
        exact hr
    · rw [hk]
      exact hb ha h

/-- **The lexemes of a resolved body.** -/
theorem lexemesOf_replaced {alias? : ParentCall → Option String} (hn : ∀ site ∈ sites, ∀ name ∈ alias? site.call, IsAlias name)
    (hc : AreClean alias? first sites tail) : lexemesOf (replaced alias? chained sites tail) = rewritten alias? chained sites tail := by
  induction sites generalizing first chained with
  | nil => rfl
  | cons site sites ih =>
    rw [forall_mem_cons] at hn
    obtain ⟨hs, hi⟩ := hc
    rw [CallSite.IsClean] at hs
    rw [replaced, rewritten]
    cases ha : alias? site.call with
    | some name =>
      rw [ha] at hs
      obtain ⟨cs, hcs, ho⟩ := hn.1 name ha
      have hu : site.replacement name ++ replaced alias? false sites tail = ('_' :: cs).map .code ++
          .code '(' :: (trimPieces site.inside ++ .code ')' :: replaced alias? false sites tail) := by
        simp [CallSite.replacement, hcs]
      dsimp only
      rw [hu, lexemesOf_append_word (joinsWord_kept chained hs.1) (by decide) ho
        (by rintro d qs' ⟨⟩; decide), lexemesOf_separator (by decide), lexemesOf_append_separator _ (by decide),
        lexemesOf_trimPieces, ih hn.2 hi, ← hcs, String.ofList_toList]
      rfl
    | none =>
      rw [ha] at hs
      rw [lexemesOf_append_of_endsStatement (endsStatement_kept chained hs.1), ih hn.2 hi]

/-! ### Calls that are left -/

theorem endsWord_cons {c : Char} (hc : isNameChar c = false) (before : List Char) : EndsWord (c :: before) := by
  rintro d ⟨⟩
  exact hc

theorem endsWord_append (hf : ∀ c, front.head? = some c → isNameChar c = false)
    (hb : EndsWord before) : EndsWord (front ++ before) := by
  cases front with
  | nil => exact hb
  | cons c front => exact endsWord_cons (hf c rfl) _

theorem NoCalls.transfer_goesOn (h : NoCalls before back ps) (hp : Begun ps) (hg : goesOn ps = false) (he : EndsWord before)
    (he' : EndsWord before') (hl : ps.getLast? = some (.code '^') → beginsName back' = false) : NoCalls before' back' ps := by
  induction ps generalizing before before' with
  | nil => trivial
  | cons p ps ih =>
    have hl' : ps.getLast? = some (.code '^') → beginsName back' = false := by
      intro heq
      apply hl
      rw [getLast?_cons, heq]
      rfl
    refine ⟨?_, ?_⟩
    · rintro rfl
      cases hg
    · by_cases hb : p.isBlankCode
      · -- A blank tells nothing, and what follows it begins with no operator.
        cases p with
        | literal => cases hb
        | code c =>
          have hc := (takes_of_isBlank hb).2.1
          rw [goesOn_gap (isGap_of_isBlankCode hb)] at hg
          exact ih h.2 hp.of_cons hg (endsWord_cons hc before) (endsWord_cons hc before') hl'
      · obtain ⟨c, rest, hh, hc, -⟩ := exists_first hp (Bool.not_eq_true _ ▸ hb)
        have hm : c ∈ p.chars.reverse := by
          rw [hh]
          simp
        exact h.2.transfer hp.of_cons (callsAlike_append hm hc he he') hl'

theorem Passes.endsWord (h : Passes true ('^' :: rest) ctx ps ctx') (he : endsStatement first ps) (hq : qs <:+ ps)
    (hb : qs = [] → EndsWord before) : EndsWord ((qs.flatMap chars).reverse ++ before) := by
  rcases eq_nil_or_concat qs with rfl | ⟨init, p, rfl⟩
  · exact hb rfl
  · rw [concat_eq_append] at hq ⊢
    have hp : p ∈ ps.getLast? := getLast?_of_suffix hq (by simp)
    obtain ⟨init', c, hh, hc⟩ : ∃ init' c, p.chars = init' ++ [c] ∧ isNameChar c = false := by
      obtain ⟨c, rfl, hc⟩ | ⟨text, rfl⟩ := h.last_of_endsStatement he hp
      · refine ⟨[], c, rfl, ?_⟩
        rcases hc with hc | hl
        · exact (statementMarks_spec hc).2.1
        · exact (takes_of_isBlank hl).2.1
      · exact ⟨text, '/', rfl, by decide⟩
    rw [flatMap_append, flatMap_singleton, hh]
    simp only [reverse_append, reverse_singleton, append_assoc, singleton_append]
    exact endsWord_cons hc _

/-- How calls are told behind a part of a body in the new text: as they were, or a call before it is
left out, and no operator follows that belonged to it. -/
inductive CallsResume (before before' : List Char) (ps : List Piece) : Bool → Prop where
  | alike (h : CallsAlike before before') : CallsResume before before' ps false
  | chained (hends : EndsWord before) (hends' : EndsWord before') (hallows : allowsCall before' = true)
      (hgoes : goesOn ps = false) : CallsResume before before' ps true

theorem CallsResume.of_append (h : CallsResume before before' (ps ++ qs) chained) : CallsResume before before' ps chained := by
  cases h with
  | alike h => exact .alike h
  | chained he he' ha hg => exact .chained he he' ha (goesOn_of_append hg)

theorem endsWord_of_blanks (hb : ∀ p ∈ blanks, p.isBlankCode)
    (he : EndsWord before) : EndsWord ((blanks.flatMap chars).reverse ++ before) := by
  refine endsWord_append (fun c hc => ?_) he
  have hm : c ∈ blanks.flatMap chars := mem_reverse.1 (mem_of_head? hc)
  exact (takes_of_isBlank (isBlank_of_mem_chars hb c hm)).2.1

theorem NoCalls.kept (h : NoCalls before back ps) (hp : Begun ps) (hr : CallsResume before before' ps chained)
    (hl : ps.getLast? = some (.code '^') → beginsName back' = false) : NoCalls before' back' (kept chained ps) := by
  cases hr with
  | alike ha => exact h.transfer hp ha hl
  | chained he he' hal hg =>
    have hl' : (kept true ps).getLast? = some (.code '^') → beginsName back' = false :=
      fun heq => hl (getLast?_of_suffix (kept_suffix true ps) heq)
    obtain ⟨blanks, rest, hb, hk, hc⟩ := kept_cases ps
    rw [hk] at hl' ⊢
    rcases hc with rfl | ⟨rfl, -⟩
    · -- Behind the semicolon a call can begin, as it can where the call was left out.
      obtain ⟨-, -, hre⟩ := noCalls_append.1 h
      have hs : isNameChar ';' = false := by decide
      exact hre.transfer hp.of_append_right.of_cons (callsAlike_of_allowsCall hal.symm (endsWord_cons hs _) he') hl'
    · rw [goesOn_blanks_append hb] at hg
      exact (noCalls_append.1 h).2.transfer_goesOn hp.of_append_right hg (endsWord_of_blanks hb he) he' hl'

theorem allowsCall_kept (hr : CallsResume before before' ps chained) (h : allowsCall ((ps.flatMap chars).reverse ++ before)) :
    allowsCall (((kept chained ps).flatMap chars).reverse ++ before') := by
  cases hr with
  | alike ha => exact (ha _).symm.trans h
  | chained he he' hl hg =>
    obtain ⟨front, rest, hk, rfl, hf⟩ : ∃ front rest, kept true ps = rest ∧ ps = front ++ rest ∧
        EndsWord ((front.flatMap chars).reverse ++ before) := by
      obtain ⟨blanks, rest, hb, hk, hu | ⟨hu, -⟩⟩ := kept_cases ps
      · refine ⟨blanks ++ [.code ';'], rest, hk, by simp [hu], ?_⟩
        rw [flatMap_append, reverse_append]
        exact endsWord_cons (by decide) _
      · exact ⟨blanks, rest, hk, hu, endsWord_of_blanks hb he⟩
    rw [flatMap_append, reverse_append, append_assoc] at h
    rw [hk]
    by_cases hbl : ∀ c ∈ (rest.flatMap chars).reverse, isBlank c
    · rwa [allowsCall_append_of_blank hbl]
    · simp only [not_forall, Bool.not_eq_true] at hbl
      obtain ⟨c, hc, hbl⟩ := hbl
      rw [allowsCall_append_of_not_blank hc hbl hf] at h
      rwa [allowsCall_append_of_not_blank hc hbl he']

theorem NoCalls.trimmed (h : NoCalls [] [] ps) (hp : Begun ps) (before back : List Char) :
    NoCalls ('(' :: before) (')' :: back) (trimPieces ps) := by
  obtain ⟨front, post, ha, hf, -, -, -⟩ := exists_trimmed ps
  rw [ha] at h hp
  obtain ⟨ht, -⟩ := noCalls_append.1 (noCalls_append.1 h).2
  refine ht.transfer hp.of_append_right.of_append_left (callsAlike_of_allowsCall ?_ ?_ ?_) fun _ => ?_
  · rw [allowsCall_append_of_blank (by simpa using isBlank_of_mem_chars hf)]
    rfl
  · exact endsWord_of_blanks hf nofun
  · exact endsWord_cons (by decide) _
  · rfl

theorem IsAlias.noCalls_replacement (hn : IsAlias name)
    (hi : NoCalls [] [] site.inside) (hb : Begun site.inside) (before back : List Char) : NoCalls before back (site.replacement name) := by
  have ho : ∀ p ∈ name.toList.map Piece.code, p ≠ .code '^' := by
    intro p hp
    obtain ⟨c, hc, rfl⟩ := mem_map.1 hp
    rintro ⟨⟩
    exact absurd (hn.isNameChar '^' hc) (by decide)
  rw [CallSite.replacement, noCalls_append, noCalls_append, noCalls_append]
  refine ⟨noCalls_of_not_caret ho _ _, noCalls_of_not_caret (by simp) _ _, ?_, noCalls_of_not_caret (by simp) _ _⟩
  exact hi.trimmed hb _ _

/-- **No calls left.** The pieces of a body with its calls replaced have no parent calls. -/
theorem noCalls_replaced {alias? : ParentCall → Option String}
    (hn : ∀ site ∈ sites, ∀ name ∈ alias? site.call, IsAlias name) (hd : Divides before ps sites tail)
    (hb : Begun ps) (hp : Passes true [] ctx ps ctx') (hr : CallsResume before before' ps chained)
    (hf : (first || chained) → EndsWord before') (hcl : AreClean alias? first sites tail) :
    NoCalls before' [] (replaced alias? chained sites tail) := by
  induction hd generalizing before' first chained ctx with
  | tail h => exact h.kept hb hr fun _ => rfl
  | @site before site sites ps tail hbe ha hre ih =>
    rw [forall_mem_cons] at hn
    obtain ⟨rest, _, c₁, c₂, c₃, c₄, hs, -, -, -, hm⟩ := hp.exists_of_site
    obtain ⟨hsi, ht⟩ := hcl
    obtain ⟨hbg, hu⟩ := hb.of_site
    have hrs : CallsResume before before' site.before chained := by
      rw [CallSite.pieces, append_assoc] at hr
      exact hr.of_append
    obtain ⟨others, ho⟩ : ∃ cs, (site.pieces.flatMap chars).reverse = ')' :: cs := by
      simp [CallSite.pieces, CallSite.callPieces, chars]
    rw [ho] at ih
    rw [CallSite.IsClean, ← hre.pieces_eq] at hsi
    rw [replaced, noCalls_append]
    cases hal : alias? site.call with
    | some name =>
      rw [hal] at hsi
      obtain ⟨-, hl, hi, -⟩ := hsi
      refine ⟨hbe.kept hbg hrs fun heq => absurd heq hl, noCalls_append.2 ⟨?_, ?_⟩⟩
      · exact (hn.1 name hal).noCalls_replacement hi hu _ _
      · obtain ⟨others', ho'⟩ : ∃ cs, ((site.replacement name).flatMap chars).reverse = ')' :: cs := by
          simp [CallSite.replacement, chars]
        rw [ho']
        have hco (cs : List Char) : EndsWord (')' :: cs) := endsWord_cons (by decide) cs
        exact ih hn.2 hb.of_append_right hm (.alike (callsAlike_of_allowsCall rfl (hco _) (hco _))) (by simp) ht
    | none =>
      rw [hal] at hsi
      obtain ⟨he, hg⟩ := hsi
      refine ⟨hbe.kept hbg hrs fun heq => ?_, ?_⟩
      · obtain ⟨c, hc, h⟩ | ⟨text, h⟩ := hs.last_of_endsStatement he heq
        · cases hc
          rcases h with h | h
          · exact absurd h (by decide)
          · cases h
        · cases h
      · have hw : EndsWord (((kept chained site.before).flatMap chars).reverse ++ before') := by
          refine hs.endsWord he (kept_suffix chained site.before) fun hni => hf ?_
          have hk := endsStatement_kept chained he
          rwa [hni] at hk
        exact ih hn.2 hb.of_append_right hm (.chained (endsWord_cons (by decide) _) hw (allowsCall_kept hrs ha) hg)
          (fun _ => hw) ht

end Pagewright
