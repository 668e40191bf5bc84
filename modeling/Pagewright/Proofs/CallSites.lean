import Pagewright.Behavior.ParentCall
import Pagewright.Proofs.Lexing
import Pagewright.Proofs.Places

/-!
# Where parent calls stand

The division of a body at its parent calls, told over its pieces: sites, each with the pieces before
a call, the call and what stands between its parentheses, and a tail (`Divides`). Between the calls
no `^` begins one (`NoCalls`), and that is all there is to a body without calls
(`divideFrom_of_noCalls`).

Whether `^` begins a call is told by the text before it, read backwards. `CallsAlike` says when two
such texts tell the same of all that follows; behind a mark, nothing before the mark matters. -/

namespace Pagewright

open List Fragment
open Piece (chars)

variable {ps : List Piece} {o start : Nat} {before before' back' cs : List Char} {qs : List Piece} {c : Char}
  {front back : List Char} {p : Piece}

/-- A name as it is written. -/
def IsName (cs : List Char) : Prop :=
  ∃ first others, cs = first :: others ∧ isNameStart first = true ∧ ∀ c ∈ others, isNameChar c = true

/-- A parent call in its place: the pieces before its `^`, the call, and its parentheses with what
stands in them. -/
structure CallSite where
  before : List Piece
  call : ParentCall
  /-- The blanks before the parentheses. -/
  blanks : List Char
  /-- The pieces between the parentheses. -/
  inside : List Piece
  isName_target : IsName call.target.toList
  isName_method : ∀ name ∈ call.method?, IsName name.toList
  isBlank_blanks : ∀ c ∈ blanks, isBlank c = true
  args_eq : call.args = trim (inside.flatMap chars)

/-- The names of a parent call as they are written behind its `^`. -/
def ParentCall.headText (call : ParentCall) : List Char :=
  match call.method? with
  | some method => call.target.toList ++ '.' :: method.toList
  | none => call.target.toList

namespace CallSite

/-- The pieces of a call, without those before it. -/
def callPieces (site : CallSite) : List Piece :=
  .code '^' :: ((site.call.headText ++ site.blanks ++ ['(']).map .code ++ (site.inside ++ [.code ')']))

/-- The pieces of a site. -/
def pieces (site : CallSite) : List Piece := site.before ++ site.callPieces

/-- A site as an entry of a divided body. -/
def entry (site : CallSite) : List Char × ParentCall := (site.before.flatMap chars, site.call)

end CallSite

/-! ### Glyphs of names and blanks -/

/-- Every literal among the pieces begins as a literal does. -/
def Begun (ps : List Piece) : Prop :=
  ∀ kind text, .literal kind text ∈ ps → ∃ c rest, text = c :: rest ∧ isLiteralStart c = true

theorem Begun.of_cons (h : Begun (p :: ps)) : Begun ps := fun kind text hm => h kind text (mem_cons_of_mem p hm)

theorem Begun.of_append_right (h : Begun (ps ++ qs)) : Begun qs := fun kind text hm => h kind text (mem_append_right ps hm)

theorem Begun.of_append_left (h : Begun (ps ++ qs)) : Begun ps := fun kind text hm => h kind text (mem_append_left qs hm)

theorem piecesSize_map_code (cs : List Char) : piecesSize (cs.map .code) = byteSize cs := by
  rw [piecesSize, flatMap_chars_map_code]

theorem drop_glyphsOf_code (o : Nat) (cs : List Char) (qs : List Piece) :
    (glyphsOf o (cs.map .code ++ qs)).drop cs.length = glyphsOf (o + byteSize cs) qs := by
  have hl : (glyphsOf o (cs.map .code)).length = cs.length := by
    rw [length_glyphsOf, flatMap_chars_map_code]
  rw [glyphsOf_append, piecesSize_map_code, ← hl, drop_left]

theorem exists_code_of_takeWhile {p : Char → Bool} (hp : ∀ c, isLiteralStart c → p c = false) (hs : Begun ps) (o : Nat) :
    ∃ cs qs, ps = cs.map .code ++ qs ∧ (∀ c ∈ cs, p c) ∧ glyphText ((glyphsOf o ps).takeWhile (p ·.char)) = cs ∧
      (glyphsOf o ps).dropWhile (p ·.char) = glyphsOf (o + byteSize cs) qs := by
  induction ps generalizing o with
  | nil => exact ⟨[], [], rfl, by simp, rfl, rfl⟩
  | cons x ps ih =>
    cases x with
    | code c =>
      cases hc : p c with
      | false =>
        refine ⟨[], .code c :: ps, rfl, by simp, ?_, ?_⟩
        · simp [glyphsOf, hc, glyphText]
        · simp [glyphsOf, hc, byteSize]
      | true =>
        obtain ⟨cs, qs, rfl, hcs, ht, hd⟩ := ih hs.of_cons (o + c.utf8Size)
        refine ⟨c :: cs, qs, rfl, by simpa [hc] using hcs, ?_, ?_⟩
        · simp only [glyphsOf, takeWhile_cons, hc, if_true]
          exact congrArg (c :: ·) ht
        · simp only [glyphsOf, dropWhile_cons, hc, if_true]
          rw [hd, byteSize, Nat.add_assoc]
    | literal kind text =>
      obtain ⟨c, rest, rfl, hc⟩ := hs kind text (mem_cons_self)
      refine ⟨[], .literal kind (c :: rest) :: ps, rfl, by simp, ?_, ?_⟩
      · simp [glyphsOf, coveredGlyphs, hp c hc, glyphText]
      · simp [glyphsOf, coveredGlyphs, hp c hc, byteSize]

theorem exists_code_of_head? (hp : Begun ps) (hc : isLiteralStart c = false) (h : ((glyphsOf o ps).head?.any (·.char = c))) :
    ∃ qs, ps = .code c :: qs ∧ glyphsOf o ps = ⟨c, o, none⟩ :: glyphsOf (o + c.utf8Size) qs := by
  cases ps with
  | nil => cases h
  | cons x ps =>
    cases x with
    | code d =>
      obtain rfl : d = c := by simpa [glyphsOf] using h
      exact ⟨ps, rfl, rfl⟩
    | literal kind text =>
      obtain ⟨d, rest, rfl, hd⟩ := hp kind text mem_cons_self
      obtain rfl : d = c := by simpa [glyphsOf, coveredGlyphs] using h
      rw [hc] at hd
      cases hd

/-- Whether a text begins with a name. -/
def beginsName (cs : List Char) : Bool := cs.head?.any isNameStart

theorem nameText_isEmpty (gs : List Glyph) : (nameText gs).isEmpty = !beginsName (glyphText gs) := by
  cases gs with
  | nil => rfl
  | cons g gs =>
    cases hg : isNameStart g.char with
    | false => simp [nameText, beginsName, glyphText, hg]
    | true => simp [nameText, beginsName, glyphText, hg, isNameChar_of_isNameStart hg]

theorem exists_name_of_nameText (hp : Begun ps) (h : (nameText (glyphsOf o ps)).isEmpty = false) :
    ∃ cs qs, ps = cs.map .code ++ qs ∧ IsName cs ∧ nameText (glyphsOf o ps) = cs ∧
      afterName (glyphsOf o ps) = glyphsOf (o + byteSize cs) qs := by
  obtain ⟨cs, qs, rfl, hcs, ht, -⟩ := exists_code_of_takeWhile (fun c hc => isNameChar_of_isLiteralStart hc) hp o
  have hs : (glyphsOf o (cs.map .code ++ qs)).head?.any (isNameStart ·.char) := by
    by_contra hs
    rw [nameText, if_neg hs] at h
    cases h
  have hn : nameText (glyphsOf o (cs.map .code ++ qs)) = cs := by rw [nameText, if_pos hs, ht]
  refine ⟨cs, qs, rfl, ?_, hn, ?_⟩
  · cases cs with
    | nil =>
      rw [hn] at h
      cases h
    | cons c cs => exact ⟨c, cs, rfl, hs, (forall_mem_cons.1 hcs).2⟩
  · rw [afterName, hn, drop_glyphsOf_code]

theorem exists_name_of_pointedName (hp : Begun ps) (h : (pointedName (glyphsOf o ps)).isEmpty = false) :
    ∃ cs qs, ps = ('.' :: cs).map .code ++ qs ∧ IsName cs ∧ pointedName (glyphsOf o ps) = cs ∧
      afterPointedName (glyphsOf o ps) = glyphsOf (o + byteSize ('.' :: cs)) qs := by
  have ho : (glyphsOf o ps).head?.any (·.char = '.') := by
    unfold pointedName at h
    split at h
    · next heq => simp [heq]
    · cases h
  obtain ⟨qs, rfl, hg⟩ := exists_code_of_head? hp (by decide) ho
  have hi : pointedName (glyphsOf o (.code '.' :: qs)) = nameText (glyphsOf (o + ('.' : Char).utf8Size) qs) := by
    rfl
  rw [hi] at h
  obtain ⟨cs, qs, rfl, hn, ht, -⟩ := exists_name_of_nameText hp.of_cons h
  refine ⟨cs, qs, rfl, hn, by rw [hi, ht], ?_⟩
  rw [afterPointedName, hi, ht]
  rw [ht] at h
  rw [h]
  exact drop_glyphsOf_code o ('.' :: cs) qs

/-! ### Reading a call -/

/-- The name of a method behind a point; nothing if there is none. -/
def pointed (method : List Char) : List Char := if method.isEmpty then [] else '.' :: method

theorem headText_mk (start : Nat) (target method args : List Char) : (ParentCall.mk start (String.ofList target)
      (if method.isEmpty then none else some (String.ofList method)) args).headText = target ++ pointed method := by
  cases hm : method.isEmpty <;> simp [ParentCall.headText, pointed, hm]

theorem exists_head_of_call (hp : Begun ps) (hn : (nameText (glyphsOf o ps)).isEmpty = false) :
    ∃ target method blanks qs o', ps = (target ++ pointed method ++ blanks).map .code ++ qs ∧
      IsName target ∧ (method.isEmpty = false → IsName method) ∧ (∀ c ∈ blanks, isBlank c) ∧
      nameText (glyphsOf o ps) = target ∧ pointedName (afterName (glyphsOf o ps)) = method ∧
      callArguments (glyphsOf o ps) = glyphsOf o' qs := by
  have hb {qs : List Piece} (hq : Begun qs) (o : Nat) := exists_code_of_takeWhile
    (fun c hc => isBlank_of_isLiteralStart hc) hq o
  obtain ⟨target, qs, rfl, ht, he, ha⟩ := exists_name_of_nameText hp hn
  cases hm : (pointedName (glyphsOf (o + byteSize target) qs)).isEmpty with
  | true =>
    obtain ⟨blanks, qs, rfl, hl, -, hd⟩ := hb hp.of_append_right (o + byteSize target)
    refine ⟨target, [], blanks, qs, o + byteSize target + byteSize blanks, ?_, ht, fun h => (by cases h), hl, he, ?_, ?_⟩
    · simp [pointed]
    · rw [ha]
      exact isEmpty_iff.1 hm
    · rw [callArguments, ha, afterPointedName, if_pos hm, hd]
  | false =>
    obtain ⟨method, qs, rfl, hi, ho, hpa⟩ := exists_name_of_pointedName hp.of_append_right hm
    obtain ⟨blanks, qs, rfl, hl, -, hd⟩ := hb hp.of_append_right.of_append_right
      (o + byteSize target + byteSize ('.' :: method))
    have hne : method.isEmpty = false := ho ▸ hm
    refine ⟨target, method, blanks, qs, o + byteSize target + byteSize ('.' :: method) + byteSize blanks,
      ?_, ht, fun _ => hi, hl, he, ?_, ?_⟩
    · simp [pointed, hne]
    · rw [ha, ho]
    · rw [callArguments, ha, hpa, hd]

theorem Source.exists_site_of_readCall {s : Source} (hp : Begun ps) (hn : (nameText (glyphsOf o ps)).isEmpty = false)
    {r : Read ParentCall (glyphsOf o ps).length} (h : s.readCall start (glyphsOf o ps) = .ok r) :
    ∃ (site : CallSite) (after : List Piece) (o' : Nat), site.before = [] ∧ site.call = r.value ∧
      .code '^' :: ps = site.callPieces ++ after ∧ r.rest = glyphsOf o' after := by
  obtain ⟨target, method, blanks, qs, o', hpi, ht, hm, hb, he, hpo, ha⟩ := exists_head_of_call hp hn
  unfold readCall at h
  split at h
  · cases h
  · next ho =>
    rw [Bool.not_eq_true', Bool.not_eq_false, ha] at ho
    have hq : Begun qs := by
      rw [hpi] at hp
      exact hp.of_append_right
    obtain ⟨more, hmo, -⟩ := exists_code_of_head? hq (by decide) ho
    split at h
    · next group rest hs =>
      rw [ha] at hs
      obtain ⟨body, after, hbo, rfl, rfl⟩ := exists_cut_of_splitGroup hs
      cases body with
      | nil =>
        rw [hmo] at hbo
        cases hbo
      | cons x inside =>
        rw [cons_append, hmo, cons.injEq] at hbo
        obtain ⟨rfl, rfl⟩ := hbo
        have hi : glyphText (((glyphsOf o' (.code '(' :: inside ++ [.code ')'])).drop 1).dropLast) = inside.flatMap chars := by
          rw [cons_append, glyphsOf, drop_one, tail_cons, glyphsOf_append]
          simp only [glyphsOf, dropLast_concat]
          exact glyphText_glyphsOf _ inside
        cases h
        simp only [he, hpo, hi]
        refine ⟨⟨[], _, blanks, inside, ?_, ?_, hb, rfl⟩, after, _, rfl, rfl, ?_, rfl⟩
        · rw [String.toList_ofList]
          exact ht
        · intro name hme
          split at hme
          · cases hme
          · next hne =>
            cases hme
            rw [String.toList_ofList]
            exact hm (Bool.not_eq_true _ ▸ hne)
        · rw [hpi, CallSite.callPieces, headText_mk, hmo]
          simp
    · cases h

/-! ### Bodies divided -/

/-- No `^` of the pieces begins a parent call, where `before`, backwards, stands before them and
`back` follows. -/
def NoCalls (before : List Char) (back : List Char) : List Piece → Prop
  | [] => True
  | p :: ps =>
    (p = .code '^' → allowsCall before = true → beginsName (ps.flatMap chars ++ back) = false) ∧
      NoCalls (p.chars.reverse ++ before) back ps

instance NoCalls.decide (back : List Char) :
    ∀ (before : List Char) (ps : List Piece), Decidable (NoCalls before back ps)
  | _, [] => .isTrue trivial
  | before, p :: ps => @instDecidableAnd _ _ _ (NoCalls.decide back (p.chars.reverse ++ before) ps)

/-- The pieces, with `before` backwards before them, are sites of parent calls and a tail, and no
other `^` begins a call. -/
inductive Divides : List Char → List Piece → List CallSite → List Piece → Prop where
  | tail {before : List Char} {ps : List Piece} (h : NoCalls before [] ps) : Divides before ps [] ps
  | site {before : List Char} {site : CallSite} {sites : List CallSite} {ps tail : List Piece}
      (hbefore : NoCalls before ['^'] site.before)
      (hallows : allowsCall ((site.before.flatMap chars).reverse ++ before) = true)
      (hrest : Divides ((site.pieces.flatMap chars).reverse ++ before) ps sites tail) :
      Divides before (site.pieces ++ ps) (site :: sites) tail

/-- The divided body that consists of the sites and the tail. -/
def dividedOf (sites : List CallSite) (tail : List Piece) : DividedBody :=
  ⟨sites.map CallSite.entry, tail.flatMap chars⟩

theorem beginsName_append_cons (cs : List Char) (c : Char) (ds : List Char) :
    beginsName (cs ++ c :: ds) = beginsName (cs ++ [c]) := by
  cases cs <;> rfl

theorem foldr_cons_tail (cs tail : List Char) : cs.foldr DividedBody.cons ⟨[], tail⟩ = ⟨[], cs ++ tail⟩ := by
  induction cs with
  | nil => rfl
  | cons c cs ih => rw [foldr_cons, ih]; rfl

theorem foldr_cons_site (cs before tail : List Char) (call : ParentCall) (calls : List (List Char × ParentCall)) :
    cs.foldr DividedBody.cons ⟨(before, call) :: calls, tail⟩ = ⟨(cs ++ before, call) :: calls, tail⟩ := by
  induction cs with
  | nil => rfl
  | cons c cs ih => rw [foldr_cons, ih]; rfl

theorem Divides.cons {sites : List CallSite} {tail : List Piece} (h : Divides (p.chars.reverse ++ before) ps sites tail)
    (hp : p = .code '^' → allowsCall before → beginsName (ps.flatMap chars) = false) :
    ∃ sites' tail', Divides before (p :: ps) sites' tail' ∧
      dividedOf sites' tail' = p.chars.foldr DividedBody.cons (dividedOf sites tail) := by
  cases h with
  | tail hn =>
    refine ⟨[], p :: ps, .tail ⟨?_, hn⟩, ?_⟩
    · rwa [append_nil]
    · exact (foldr_cons_tail p.chars _).symm
  | @site _ site sites rest tail hb ha hr =>
    have hf : NoCalls before ['^'] (p :: site.before) := by
      refine ⟨fun hc he => ?_, hb⟩
      have hna := hp hc he
      rw [CallSite.pieces, append_assoc, flatMap_append] at hna
      rw [← beginsName_append_cons]
      exact hna
    have hba (qs : List Piece) : ((p :: qs).flatMap chars).reverse ++ before =
        (qs.flatMap chars).reverse ++ (p.chars.reverse ++ before) := by
      rw [flatMap_cons, reverse_append, append_assoc]
    let site' : CallSite := { site with before := p :: site.before }
    refine ⟨site' :: sites, tail, ?_, (foldr_cons_site p.chars _ _ _ _).symm⟩
    have hd : Divides before (site'.pieces ++ rest) (site' :: sites) tail := by
      refine .site hf ?_ ?_
      · rw [hba]
        exact ha
      · rw [show site'.pieces = p :: site.pieces from rfl, hba]
        exact hr
    exact hd

namespace Source

variable {s : Source} {d : DividedBody}

theorem divideFrom_cons {g : Glyph} {gs : List Glyph}
    (h : g.char = '^' → g.cover = none → allowsCall before → beginsName (glyphText gs) = false) :
    s.divideFrom before (g :: gs) = (s.divideFrom (g.char :: before) gs).map (·.cons g.char) := by
  rw [divideFrom, if_neg]
  rw [nameText_isEmpty]
  simp only [Bool.not_not, Bool.and_eq_true, decide_eq_true_eq, Option.isNone_iff_eq_none, not_and]
  rintro ⟨⟨hc, ho⟩, ha⟩
  simp [h hc ho ha]

theorem divideFrom_coveredGlyphs (before : List Char) (stop o : Nat) (text : List Char)
    (gs : List Glyph) : s.divideFrom before (coveredGlyphs stop o text ++ gs) =
      (s.divideFrom (text.reverse ++ before) gs).map (text.foldr DividedBody.cons ·) := by
  induction text generalizing before o with
  | nil =>
    rw [coveredGlyphs, nil_append, reverse_nil, nil_append]
    cases s.divideFrom before gs <;> rfl
  | cons c text ih =>
    rw [coveredGlyphs, cons_append, divideFrom_cons (by rintro - ⟨⟩), ih, reverse_cons, append_assoc, singleton_append]
    cases s.divideFrom (text.reverse ++ c :: before) gs <;> rfl

theorem divideFrom_of_noCalls (h : NoCalls before [] ps)
    (o : Nat) : s.divideFrom before (glyphsOf o ps) = .ok ⟨[], ps.flatMap chars⟩ := by
  induction ps generalizing before o with
  | nil => rw [glyphsOf, divideFrom]; rfl
  | cons p ps ih =>
    have hr (o : Nat) := ih h.2 o
    cases p with
    | code c =>
      rw [glyphsOf, divideFrom_cons]
      · exact congrArg (Except.map _) (hr _)
      · rintro rfl - ha
        have hn := h.1 rfl ha
        rwa [append_nil, ← glyphText_glyphsOf] at hn
    | literal kind text =>
      rw [glyphsOf, divideFrom_coveredGlyphs]
      refine (congrArg (Except.map _) (hr _)).trans ?_
      exact congrArg Except.ok (foldr_cons_tail text _)

theorem exists_site_of_divideFrom_call (hp : Begun (.code '^' :: ps)) (ha : allowsCall before)
    (hb : beginsName (ps.flatMap chars))
    (h : s.divideFrom before (glyphsOf o (.code '^' :: ps)) = .ok d) :
    ∃ (site : CallSite) (after : List Piece) (o' : Nat) (d' : DividedBody), site.before = [] ∧ .code '^' :: ps = site.callPieces ++ after ∧
      s.divideFrom ((site.callPieces.flatMap chars).reverse ++ before) (glyphsOf o' after) = .ok d' ∧
      d = ⟨([], site.call) :: d'.calls, d'.tail⟩ := by
  have hn : (nameText (glyphsOf (o + ('^' : Char).utf8Size) ps)).isEmpty = false := by
    rw [nameText_isEmpty, glyphText_glyphsOf, hb]
    rfl
  rw [glyphsOf, divideFrom, if_pos (by simp [ha, hn])] at h
  split at h
  · cases h
  · next r hr =>
    obtain ⟨d', hd', rfl⟩ := exists_of_map_eq_ok h
    obtain ⟨site, after, o', he, hc, hi, hre⟩ := exists_site_of_readCall hp.of_cons hn hr
    refine ⟨site, after, o', d', he, hi, ?_, by rw [hc]⟩
    obtain ⟨more, hm⟩ : ∃ more, site.callPieces = .code '^' :: more := ⟨_, rfl⟩
    obtain rfl : ps = more ++ after := by
      rw [hm, cons_append, cons.injEq] at hi
      exact hi.2
    have ht : glyphText ((glyphsOf (o + ('^' : Char).utf8Size) (more ++ after)).take
        ((glyphsOf (o + ('^' : Char).utf8Size) (more ++ after)).length - r.rest.length)) = more.flatMap chars := by
      rw [hre, length_glyphsOf, length_glyphsOf, flatMap_append, length_append, Nat.add_sub_cancel,
        glyphsOf_append, ← length_glyphsOf (o + ('^' : Char).utf8Size) more, take_left,
        glyphText_glyphsOf]
    rw [ht, hre] at hd'
    rw [← hd', hm, flatMap_cons, reverse_append, append_assoc]
    rfl

/-- **Division.** A divided body consists of the sites of its calls and a tail. -/
theorem exists_sites_of_divideFrom (hps : Begun ps) (h : s.divideFrom before (glyphsOf o ps) = .ok d) :
    ∃ sites tail, Divides before ps sites tail ∧ dividedOf sites tail = d := by
  induction hn : ps.length using Nat.strong_induction_on generalizing ps before o d with
  | _ n ih =>
    cases ps with
    | nil =>
      rw [glyphsOf, divideFrom] at h
      cases h
      exact ⟨[], [], .tail trivial, rfl⟩
    | cons p ps =>
      have hk {d : DividedBody} {o : Nat}
          (h : s.divideFrom (p.chars.reverse ++ before) (glyphsOf o ps) = .ok d)
          (hp : p = .code '^' → allowsCall before → beginsName (ps.flatMap chars) = false) :
          ∃ sites tail, Divides before (p :: ps) sites tail ∧ dividedOf sites tail = p.chars.foldr DividedBody.cons d := by
        obtain ⟨sites, tail, hi, rfl⟩ := ih ps.length (by simp [← hn]) hps.of_cons h rfl
        exact hi.cons hp
      cases p with
      | literal kind text =>
        rw [glyphsOf, divideFrom_coveredGlyphs] at h
        obtain ⟨d, hd, rfl⟩ := exists_of_map_eq_ok h
        exact hk hd (by rintro ⟨⟩)
      | code c =>
        by_cases hca : c = '^' ∧ allowsCall before ∧ beginsName (ps.flatMap chars)
        · obtain ⟨rfl, ha, hb⟩ := hca
          obtain ⟨site, after, o', d, he, hpi, hd, rfl⟩ := exists_site_of_divideFrom_call hps ha hb h
          have hl : after.length < n := by
            have hl := congrArg length hpi
            rw [hn, CallSite.callPieces, cons_append, length_cons, length_append] at hl
            omega
          have hf : Begun after := (hpi ▸ hps).of_append_right
          obtain ⟨sites, tail, hi, rfl⟩ := ih after.length hl hf hd rfl
          refine ⟨site :: sites, tail, ?_, ?_⟩
          · have hs : site.pieces = site.callPieces := by rw [CallSite.pieces, he, nil_append]
            rw [← hs] at hpi hi
            rw [hpi]
            refine .site ?_ ?_ hi
            · rw [he]
              trivial
            · rw [he]
              exact ha
          · rw [dividedOf, map_cons, CallSite.entry, he]
            rfl
        · have hpl : c = '^' → allowsCall before → beginsName (ps.flatMap chars) = false := by
            intro hc ha
            by_contra hb
            exact hca ⟨hc, ha, Bool.not_eq_false _ ▸ hb⟩
          rw [glyphsOf, divideFrom_cons (fun hc _ => by rw [glyphText_glyphsOf]; exact hpl hc)] at h
          obtain ⟨d, hd, rfl⟩ := exists_of_map_eq_ok h
          exact hk hd fun hc => hpl (Piece.code.inj hc)

end Source

/-! ### Calls behind other texts -/

/-- Behind both texts, given backwards, the same `^` begin parent calls. -/
def CallsAlike (before before' : List Char) : Prop :=
  ∀ front, allowsCall (front ++ before) = allowsCall (front ++ before')

/-- No word that follows begins in the text, given backwards. -/
def EndsWord (before : List Char) : Prop := ∀ c, before.head? = some c → isNameChar c = false

theorem allowsCall_append_of_blank (h : ∀ c ∈ front, isBlank c) (before : List Char) :
    allowsCall (front ++ before) = allowsCall before := by
  rw [allowsCall, allowsCall, dropWhile_append_of_pos h]

/-- Behind a word that is known as a whole nothing else matters. -/
theorem allowsCall_append_of_not_blank (hc : c ∈ front)
    (hb : isBlank c = false) (he : EndsWord before) : allowsCall (front ++ before) = allowsCall front := by
  have hs : before.takeWhile isNameChar = [] := by
    cases before with
    | nil => rfl
    | cons d before => simp [he d rfl]
  rw [allowsCall, allowsCall, dropWhile_append]
  cases hf : front.dropWhile isBlank with
  | nil =>
    rw [dropWhile_eq_nil_iff] at hf
    rw [hf c hc] at hb
    cases hb
  | cons d ds =>
    have hw : (d :: ds ++ before).takeWhile isNameChar = (d :: ds).takeWhile isNameChar := by
      rw [takeWhile_append, hs, append_nil]
      split
      · next ha => exact ((takeWhile_sublist _).eq_of_length ha).symm
      · rfl
    simp only [isEmpty_cons, Bool.false_eq_true, if_false, cons_append] at hw ⊢
    rw [hw]

theorem callsAlike_of_allowsCall (h : allowsCall before = allowsCall before')
    (he : EndsWord before) (he' : EndsWord before') : CallsAlike before before' := by
  intro front
  by_cases hf : ∀ c ∈ front, isBlank c
  · rw [allowsCall_append_of_blank hf, allowsCall_append_of_blank hf, h]
  · simp only [not_forall, Bool.not_eq_true] at hf
    obtain ⟨c, hc, hb⟩ := hf
    rw [allowsCall_append_of_not_blank hc hb he, allowsCall_append_of_not_blank hc hb he']

theorem CallsAlike.append (h : CallsAlike before before') (cs : List Char) : CallsAlike (cs ++ before) (cs ++ before') := by
  intro front
  rw [← append_assoc, ← append_assoc, h]

theorem callsAlike_append (hc : c ∈ cs) (hb : isBlank c = false)
    (he : EndsWord before) (he' : EndsWord before') : CallsAlike (cs ++ before) (cs ++ before') := by
  intro front
  have hm : c ∈ front ++ cs := mem_append_right front hc
  rw [← append_assoc, ← append_assoc, allowsCall_append_of_not_blank hm hb he, allowsCall_append_of_not_blank hm hb he']

theorem noCalls_of_not_caret (h : ∀ p ∈ ps, p ≠ .code '^') (before back : List Char) : NoCalls before back ps := by
  induction ps generalizing before with
  | nil => trivial
  | cons p ps ih =>
    rw [forall_mem_cons] at h
    exact ⟨fun hp => absurd hp h.1, ih h.2 _⟩

theorem noCalls_append : NoCalls before back (ps ++ qs) ↔ NoCalls before (qs.flatMap chars ++ back) ps ∧
      NoCalls ((ps.flatMap chars).reverse ++ before) back qs := by
  induction ps generalizing before with
  | nil => simp [NoCalls]
  | cons p ps ih =>
    rw [cons_append, NoCalls, NoCalls, ih, flatMap_append, flatMap_cons, reverse_append, append_assoc, append_assoc, and_assoc]

/-- Pieces without calls have none in another place where the same `^` begin calls, unless they end
with `^` and a name follows. -/
theorem NoCalls.transfer (h : NoCalls before back ps) (hs : Begun ps) (ha : CallsAlike before before')
    (hl : ps.getLast? = some (.code '^') → beginsName back' = false) : NoCalls before' back' ps := by
  induction ps generalizing before before' with
  | nil => trivial
  | cons p ps ih =>
    refine ⟨fun hp hal => ?_, ih h.2 hs.of_cons (ha.append _) fun hl' => hl ?_⟩
    · cases ps with
      | nil => exact hl (by rw [hp]; rfl)
      | cons q ps =>
        have hn := h.1 hp ((ha []).trans hal)
        cases q with
        | code c => exact hn
        | literal kind text =>
          obtain ⟨c, rest, rfl, -⟩ := hs kind text (by simp)
          exact hn
    · rw [getLast?_cons, hl']
      rfl

end Pagewright
