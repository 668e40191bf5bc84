import Pagewright.Proofs.Inheritance
import Pagewright.Proofs.ListScopes
import Pagewright.Proofs.QuotedValues
import Pagewright.Proofs.WrittenWords

/-!
# Names of parameters

The names that the parameters of a method declare are read off their texts: the name behind the
ellipses, or else nothing. Inside a body, the names of a pattern are found by a walk over its tokens
(`parameterNames`). Both ways agree on the parameters that begin with a name
(`parameterNames_of_plain`), and no occurrence of such a name in the body is written in full. All
other names of a pattern are written as if no parameter declared them (`prepare_parameters`,
`prepare_pattern`). -/

namespace Pagewright

open List

variable {args back cs out text : List Char}

/-- The names that the walk over a body reads off a parameter that stands in it; a pattern behind a
key in quotes or behind a number gives none. -/
def parameterNames (parameter : String) : List String :=
  match Source.ofText parameter.toList with
  | .ok s => (bindings s.scriptTokens.1).filterMap Binding.name?
  | .error _ => []

/-- Whether a name stands at the front of a parameter, ellipses aside. -/
def isPlainParameter (parameter : String) : Bool :=
  (dropEllipses (trim parameter.toList)).head?.any isNameStart

/-! ### Names at the front of a text -/

/-- The pattern at the front of a text is the name `x`. -/
def BeginsName (x : String) (ps : List Piece) : Prop :=
  ∀ offset gap, (bindings (scriptTokensFrom offset gap ps).1).filterMap Binding.name? = [x]

theorem isNameChar_of_isBlank {c : Char} (hc : isBlank c) : isNameChar c = false := by
  have hn : ∀ n ∈ Fragment.blankPoints, isNameChar (Char.ofNat n) = false := by decide +kernel
  exact Fragment.eq_false_of_mem_points hn (Fragment.mem_blankPoints hc)

section Fronts

variable {x parameter : String} {ps : List Piece}

theorem BeginsName.blanks (h : BeginsName x ps) {blanks : List Char}
    (hb : ∀ c ∈ blanks, isBlank c) : BeginsName x (blanks.map .code ++ ps) := by
  induction blanks with
  | nil => exact h
  | cons c blanks ih =>
    obtain ⟨hc, hb⟩ := forall_mem_cons.1 hb
    intro o gap
    rw [map_cons, cons_append, scriptTokensFrom.eq_def]
    simp only [hc, if_true]
    exact ih hb _ _

theorem BeginsName.ellipsis (h : BeginsName x ps) : BeginsName x (['.', '.', '.'].map .code ++ ps) := by
  intro o gap
  have hl : lexScript '.' (['.', '.'].map .code ++ ps) = (.spread, ['.', '.', '.'], ps) := rfl
  rw [map_cons, cons_append, Fragment.scriptTokensFrom_code (by decide) hl, bindings]
  exact h _ _

theorem beginsName_word {c : Char} (hc : isNameStart c) (hs : ∀ d ∈ cs, isNameChar d)
    (hp : ∀ d qs, ps = .code d :: qs → isNameChar d = false) : BeginsName (String.ofList (c :: cs)) ((c :: cs).map .code ++ ps) := by
  intro o gap
  rw [map_cons, cons_append, Fragment.scriptTokensFrom_code (Fragment.isBlank_of_isNameStart hc) (Fragment.lexScript_word hc hs hp), bindings]
  rfl

theorem beginsName_of_dropEllipses (h : (dropEllipses cs).head?.any isNameStart)
    (hb : ∀ c ∈ back, isBlank c) {ctx : ScanContext} {o : Nat}
    (hp : piecesFrom ctx o (cs ++ back) = .ok ps) : BeginsName (String.ofList ((dropEllipses cs).takeWhile isNameChar)) ps := by
  fun_induction dropEllipses cs generalizing ctx o ps with
  | case1 cs ih =>
    have ho := all_eq_true.1 (show ['.', '.', '.'].all Fragment.isPlainCode by decide)
    obtain ⟨ctx', o', qs, hq, rfl⟩ := exists_of_code_append ho hp
    exact (ih h hq).ellipsis
  | case2 cs =>
    have hco : ∀ c ∈ cs.takeWhile isNameChar, Fragment.isPlainCode c := fun c hc =>
      Fragment.isPlainCode_of_isNameChar (mem_takeWhile_imp hc)
    rw [← takeWhile_append_dropWhile (p := isNameChar) (l := cs), append_assoc] at hp
    obtain ⟨ctx', o', qs, hq, rfl⟩ := exists_of_code_append hco hp
    obtain ⟨c, hc, hs⟩ := (Option.any_eq_true _ _).1 h
    obtain ⟨cs, rfl⟩ := head?_eq_some_iff.1 hc
    have hn := isNameChar_of_isNameStart hs
    rw [takeWhile_cons_of_pos hn]
    refine beginsName_word hs (fun d hd => mem_takeWhile_imp hd) fun d qs' hd => ?_
    have hh := piecesFrom_chars hq
    rw [hd, dropWhile_cons_of_pos hn] at hh
    cases hr : cs.dropWhile isNameChar with
    | nil =>
      rw [hr, nil_append] at hh
      exact isNameChar_of_isBlank (hb d (hh ▸ mem_cons_self))
    | cons e es =>
      rw [hr] at hh
      have he : d = e := (cons.inj hh).1
      have ht := head_dropWhile_not isNameChar (l := cs) (by simp [hr])
      simpa [hr, he] using ht

/-- **Plain parameters.** What is read off a parameter that begins with a name is what its pattern
declares. -/
theorem parameterNames_of_plain (h : isPlainParameter parameter) {s : Source}
    (hs : Source.ofText parameter.toList = .ok s) : parameterNames parameter = (parameterName? parameter).toList := by
  obtain ⟨front, back, ht, hf, hb⟩ := exists_of_trim parameter.toList
  have hsc := Source.isScan_ofText hs
  rw [Source.IsScan, Source.text_ofText hs, ht, append_assoc] at hsc
  obtain ⟨ctx, o, ps, hp, hi⟩ := exists_of_code_append (fun c hc => isPlainCode_of_isBlank (hf c hc)) hsc
  have hn := (beginsName_of_dropEllipses h hb hp).blanks hf 0 []
  rw [← hi] at hn
  rw [parameterNames, hs, parameterName?]
  refine hn.trans ?_
  split
  · next hni =>
    obtain ⟨c, hc, hst⟩ := (Option.any_eq_true _ _).1 h
    obtain ⟨cs, hcs⟩ := head?_eq_some_iff.1 hc
    rw [hcs, takeWhile_cons_of_pos (isNameChar_of_isNameStart hst)] at hni
    cases hni
  · rfl

theorem isPlainParameter_of_name {x : Fragment.Identifier}
    (h : parameterName? parameter = some x.text) : isPlainParameter parameter := by
  unfold parameterName? at h
  split at h
  · cases h
  · have hn : _ = x.first :: x.others := String.ofList_injective (Option.some_inj.1 h)
    obtain ⟨rest, hr⟩ := takeWhile_prefix isNameChar (l := dropEllipses (trim parameter.toList))
    rw [isPlainParameter, ← hr, hn]
    exact x.isNameStart_first

end Fronts

/-! ### Bodies -/

/-- A text is written out with every occurrence of the names as it is. -/
def KeepsNames (names : List String) (text out : List Char) : Prop :=
  ∃ parts tail, IsWrittenAs text out parts tail ∧ ∀ p ∈ parts, ∀ x ∈ names, p.1.kind = .word x → p.2 = p.1.text

theorem keepsNames_of_qualify {amb : Ambient} {params : List String}
    (h : qualify amb params text = .ok out) : KeepsNames params text out := by
  obtain ⟨parts, tail, hw, ha⟩ := exists_isWrittenAs h
  refine ⟨parts, tail, hw, fun p hp x hx ho => ?_⟩
  rcases ha with hsa | ⟨s, hs, rfl⟩
  · exact hsa p hp
  obtain ⟨pre, post, hsp⟩ := append_of_mem hp
  obtain ⟨w, rest, hst, -, ht⟩ := exists_steps_of_writtenTokens hsp
  rw [ht]
  exact Surroundings.written_of_declares ho (hst.declares_of_mem_params hx)

theorem BodyContext.exists_call_of_chainArgs {ctx : BodyContext} {inCtor : Bool} {m : Method} {tail : List Char}
    {calls : List (List Char × ParentCall)} {body : ResolvedBody} (h : ctx.resolve inCtor m tail calls = .ok body) {parent : String}
    (ha : (parent, args) ∈ body.chainArgs) : ∃ call ∈ calls.map Prod.snd, call.target = parent ∧
      qualify ctx.ambient m.paramNames call.args = .ok args := by
  induction calls generalizing body with
  | nil =>
    cases h
    cases ha
  | cons first calls ih =>
    obtain ⟨pre, call⟩ := first
    obtain ⟨done, hd, h⟩ := bind_eq_ok.1 h
    have hl (ha : (parent, args) ∈ done.chainArgs) : ∃ call' ∈ call :: calls.map Prod.snd,
        call'.target = parent ∧ qualify ctx.ambient m.paramNames call'.args = .ok args := by
      obtain ⟨call', hm, hc'⟩ := ih hd ha
      exact ⟨call', mem_cons_of_mem _ hm, hc'⟩
    split at h
    · cases h
    · obtain ⟨written, hw, h⟩ := bind_eq_ok.1 h
      cases h
      rcases mem_cons.1 ha with hf | ha
      · cases hf
        exact ⟨call, mem_cons_self, rfl, hw⟩
      · exact hl ha
    · cases h
      exact hl ha

/-- **Parameters.** In a body, with its parent calls replaced, and in the arguments that it hands to
the constructors of parents, no occurrence of a name that is read off the parameters is written in
full. These are the names of the parameters that begin with a name. A body that is any other ambient
name is written in full, whatever patterns declare. -/
theorem prepare_parameters {ctx : BodyContext} {inConstructor : Bool} {m : Method}
    {body : ResolvedBody} (h : ctx.prepare inConstructor m = .ok body) :
    ∃ divided resolved, (Source.ofText m.body.toList).bind Source.divide = .ok divided ∧
      ctx.resolve inConstructor m divided.tail divided.calls = .ok resolved ∧
      KeepsNames m.paramNames resolved.text body.text ∧
      (∀ parent args, (parent, args) ∈ body.chainArgs → ∃ call ∈ divided.calls.map Prod.snd, call.target = parent ∧
        KeepsNames m.paramNames call.args args) ∧
      (∀ p ∈ m.params, isPlainParameter p = true → parameterNames p ⊆ m.paramNames) ∧
      ∀ (x : Fragment.Identifier) access, ctx.ambient.get? x.text = some access →
        (∀ p ∈ m.params, isPlainParameter p = true → parameterName? p ≠ some x.text) →
        m.body.toList = Fragment.print [.expression (.operand (.name x))] →
          body.text = (access.qualify x.text).toList ++ [';'] := by
  obtain ⟨divided, resolved, hdivided, hresolved, hqualify, hchain, -⟩ := BodyContext.exists_of_prepare h
  refine ⟨divided, resolved, hdivided, hresolved, keepsNames_of_qualify hqualify, ?_, ?_, ?_⟩
  · intro parent args hargs
    obtain ⟨call, hcall, htarget, hwritten⟩ := BodyContext.exists_call_of_chainArgs hresolved (hchain ▸ hargs)
    exact ⟨call, hcall, htarget, keepsNames_of_qualify hwritten⟩
  · intro p hp hplain x hx
    cases hs : Source.ofText p.toList with
    | error e =>
      rw [parameterNames, hs] at hx
      cases hx
    | ok s =>
      rw [parameterNames_of_plain hplain hs, Option.mem_toList] at hx
      exact mem_filterMap.2 ⟨p, hp, hx⟩
  · intro x access hx hnone hbody
    have hparams : x.text ∉ m.paramNames := fun hmem => by
      obtain ⟨p, hp, hname⟩ := mem_filterMap.1 hmem
      exact hnone p hp (isPlainParameter_of_name hname) hname
    have hwritten := (BodyContext.isWritten_of_prepare h).bare hbody hparams hx
    rwa [String.toList_ofList] at hwritten

/-- Bodies of an instance with a public member `c`. -/
def bodiesC : BodyContext := ⟨.empty, [], [], ambientC⟩

/-- A method with one parameter and the body `c;`. -/
def bareMethod (parameter : String) : Method := ⟨"m", [parameter], "c;", 0⟩

theorem prepare_parameters_rest :
    ∃ body, bodiesC.prepare false (bareMethod "...c") = .ok body ∧ body.text = "c;".toList ∧
      parameterNames "...c" ⊆ (bareMethod "...c").paramNames := by
  have heval : ∃ body, bodiesC.prepare false (bareMethod "...c") = .ok body ∧ body.text = "c;".toList := by
    decide +kernel
  obtain ⟨body, hbody, htext⟩ := heval
  obtain ⟨-, -, -, -, -, -, hplain, -⟩ := prepare_parameters hbody
  exact ⟨body, hbody, htext, hplain "...c" mem_cons_self (by decide +kernel)⟩

/-- The name in a pattern is declared by it, but written in full. -/
theorem prepare_pattern :
    parameterNames "\x7bc\x7d" = ["c"] ∧
      ∃ body, bodiesC.prepare false (bareMethod "\x7bc\x7d") = .ok body ∧ body.text = "__self.c;".toList := by
  decide +kernel

end Pagewright
