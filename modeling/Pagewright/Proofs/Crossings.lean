import Pagewright.Proofs.Excerpts
import Pagewright.Quoted

/-!
# Text that is made

Two kinds of text are passed over whatever stands around them: code without quotes and slashes, and
quoted strings. `readyAfter` and `readyBehind` tell whether a text begins behind code or pieces as
it does at its very beginning. `Crosses` is a passage that need not be strict (`crosses_iff`). -/

namespace Pagewright

open List

variable {ctx ctx' : ScanContext} {c : Char} {back cs ds front text : List Char} {ps qs : List Piece} {ready : Bool}

/-- A scan crosses the pieces from one context to another, with `back` to follow. -/
inductive Crosses (back : List Char) : ScanContext → List Piece → ScanContext → Prop where
  | nil (ctx : ScanContext) : Crosses back ctx [] ctx
  | literal {ctx ctx' : ScanContext} {kind : LiteralKind} {c : Char} {lit : List Char} {ps : List Piece}
      (hopening : opening ctx c (lit ++ (ps.flatMap Piece.chars ++ back)) = .literal kind lit.length)
      (hrest : Crosses back (ctx.afterLiteral kind) ps ctx') :
      Crosses back ctx (.literal kind (c :: lit) :: ps) ctx'
  | doubled {ctx ctx' : ScanContext} {c : Char} {ps : List Piece}
      (hopening : opening ctx c (c :: (ps.flatMap Piece.chars ++ back)) = .doubled)
      (hrest : Crosses back ctx.afterStep ps ctx') : Crosses back ctx (.code c :: .code c :: ps) ctx'
  | code {ctx ctx' : ScanContext} {c : Char} {ps : List Piece}
      (hopening : opening ctx c (ps.flatMap Piece.chars ++ back) = .plain)
      (hrest : Crosses back (ctx.afterCode c (ps.flatMap Piece.chars ++ back)) ps ctx') :
      Crosses back ctx (.code c :: ps) ctx'

theorem crosses_iff : Crosses back ctx ps ctx' ↔ Passes false back ctx ps ctx' := by
  constructor
  · intro h
    induction h with
    | nil ctx => exact .nil ctx
    | literal ho hr ih => exact .literal ho ih
    | doubled ho hr ih => exact .doubled ho ih
    | code ho hr ih => exact .code nofun ho ih
  · intro h
    induction h with
    | nil ctx => exact .nil ctx
    | literal ho hr ih => exact .literal ho ih
    | doubled ho hr ih => exact .doubled ho ih
    | code hs ho hr ih => exact .code ho ih

/-! ### Text that is passed over wherever it stands -/

/-- Whether a character can stand in code that is made: it begins no literal, escapes nothing and
ends no line. -/
def isCodeChar (c : Char) : Bool := !(c = '\'' || c = '"' || c = '`' || c = '/' || c = '\\' || c = '\n')

/-- Whether a text is code wherever it stands: no sign at its end meets another. -/
def isCodeText (cs : List Char) : Bool := cs.all isCodeChar && cs.getLast?.all fun c => c != '+' && c != '-'

theorem isCodeText_of_cons (h : isCodeText (c :: cs)) : isCodeText cs := by
  simp only [isCodeText, all_cons, getLast?_cons, Bool.and_eq_true] at h ⊢
  refine ⟨h.1.2, ?_⟩
  cases hl : cs.getLast? with
  | none => rfl
  | some d => simpa [hl] using h.2

theorem isCodeText_append (hc : isCodeText cs) (hd : isCodeText ds) : isCodeText (cs ++ ds) := by
  simp only [isCodeText, all_append, getLast?_append, Bool.and_eq_true] at hc hd ⊢
  refine ⟨⟨hc.1, hd.1⟩, ?_⟩
  cases hl : ds.getLast? with
  | none => exact hc.2
  | some d => simpa [hl] using hd.2

theorem isLiteralStart_of_isCodeChar (h : isCodeChar c) : isLiteralStart c = false := by
  simp only [isCodeChar, isLiteralStart] at h ⊢
  simp_all

theorem opening_of_isCodeChar (h : isCodeChar c) (rest : List Char) :
    opening ctx c rest = .plain ∨ opening ctx c rest = .doubled := by
  cases ho : opening ctx c rest with
  | plain => exact .inl rfl
  | doubled => exact .inr rfl
  | literal kind n =>
    have hs := (begins_of_opening ho).isLiteralStart
    rw [isLiteralStart_of_isCodeChar h] at hs
    cases hs
  | unterminated fault =>
    have hs := isLiteralStart_of_isCodeChar h
    simp only [isLiteralStart, Bool.or_eq_false_iff, decide_eq_false_iff_not] at hs
    obtain ⟨⟨⟨hi, hd⟩, ht⟩, hl⟩ := hs
    simp [opening, hi, hd, ht, hl] at ho
    split_ifs at ho

theorem exists_passes_code : ∀ {cs : List Char}, isCodeText cs → ∀ ctx, ∃ ctx', Passes false back ctx (cs.map .code) ctx'
  | [], _, ctx => ⟨ctx, .nil ctx⟩
  | [c], h, ctx => by
    have hc : isCodeChar c ∧ c ≠ '+' ∧ c ≠ '-' := by simpa [isCodeText] using h
    rcases opening_of_isCodeChar hc.1 back with ho | ho
    · exact ⟨_, .code nofun ho (.nil _)⟩
    · exact absurd (sign_of_opening ho).1 (by simpa using hc.2)
  | c :: d :: cs, h, ctx => by
    have hc : isCodeChar c := by
      rw [isCodeText] at h
      simp_all
    have ht := isCodeText_of_cons h
    rcases opening_of_isCodeChar hc (d :: (cs ++ back)) with ho | ho
    · obtain ⟨ctx', hp⟩ := exists_passes_code ht (ctx.afterCode c (d :: (cs ++ back)))
      refine ⟨ctx', .code nofun ?_ ?_⟩ <;> rw [flatMap_chars_map_code]
      · exact ho
      · exact hp
    · obtain rfl : d = c := Option.some.inj (sign_of_opening ho).2
      obtain ⟨ctx', hp⟩ := exists_passes_code (isCodeText_of_cons ht) ctx.afterStep
      refine ⟨ctx', .doubled ?_ hp⟩
      rw [flatMap_chars_map_code]
      exact ho

/-- Marks of code that is made behind which a text begins as it does at its very beginning. -/
def openMarks : List Char := ['(', ',', '=', ':', '{', '}', ';']

/-- Whether a text begins behind code as it does at its very beginning; `ready` tells whether it
does before. -/
def readyAfter (ready : Bool) (cs : List Char) : Bool :=
  cs.foldl (fun ready c => if isPlainBlank c then ready else openMarks.contains c) ready

@[simp] theorem readyAfter_nil (ready : Bool) : readyAfter ready [] = ready := rfl

@[simp] theorem readyAfter_cons (ready : Bool) (c : Char) (cs : List Char) :
    readyAfter ready (c :: cs) = readyAfter (if isPlainBlank c then ready else openMarks.contains c) cs := rfl

@[simp] theorem readyAfter_append (ready : Bool) (cs ds : List Char) :
    readyAfter ready (cs ++ ds) = readyAfter (readyAfter ready cs) ds := foldl_append

theorem isOpen_afterCode (h : openMarks.contains c) (rest : List Char) : (ctx.afterCode c rest).IsOpen := by
  have hm : (openMarks.all fun d => decide (isPlainBlank d = false ∧ IsOpenMark d)) := by decide
  obtain ⟨hb, ha⟩ := of_decide_eq_true (all_eq_true.1 hm c (contains_iff_mem.1 h))
  refine isOpen_of_last ?_ ha
  simp [ScanContext.afterCode, hb, ha.1]

/-- Whether a text begins behind pieces as it does at its very beginning; `ready` tells whether it
does before. -/
def readyBehind (ready : Bool) : List Piece → Bool
  | [] => ready
  | .code c :: ps => readyBehind (if isPlainBlank c then ready else openMarks.contains c) ps
  | .literal .lineComment _ :: ps | .literal .blockComment _ :: ps => readyBehind ready ps
  | .literal .pattern _ :: ps | .literal (.quoted _) _ :: ps => readyBehind false ps

theorem readyBehind_append (ready : Bool) (ps qs : List Piece) :
    readyBehind ready (ps ++ qs) = readyBehind (readyBehind ready ps) qs := by
  fun_induction readyBehind ready ps with
  | case1 => rfl
  | case2 _ _ _ ih | case3 _ _ _ ih | case4 _ _ _ ih | case5 _ _ _ ih | case6 _ _ _ _ ih => exact ih

/-- What stands before a text that follows pieces. -/
theorem Passes.isOpen_of_readyBehind (h : Passes false back ctx ps ctx') (hc : ready → ctx.IsOpen)
    (hr : readyBehind ready ps) : ctx'.IsOpen := by
  induction h generalizing ready with
  | nil => exact hc hr
  | @literal ctx ctx' kind c lit ps ho he ih =>
    cases kind with
    | lineComment | blockComment =>
      -- A comment leaves what stood before it in force.
      refine ih (fun hb => ?_) hr
      obtain ⟨hw, hp, hop⟩ := hc hb
      exact ⟨hw, hp, hop⟩
    | pattern | quoted =>
      have hl (ctx : ScanContext) : false → ctx.IsOpen := nofun
      exact ih (hl _) hr
  | @doubled ctx ctx' c ps ho he ih =>
    -- A sign is no mark behind which a text begins anew.
    have hm : isPlainBlank c = false ∧ openMarks.contains c = false := by
      rcases (sign_of_opening ho).1 with rfl | rfl <;> decide
    have hl : false → ctx.afterStep.IsOpen := nofun
    simp only [readyBehind, hm, Bool.false_eq_true, if_false] at hr
    exact ih hl hr
  | @code ctx ctx' c ps hs ho he ih =>
    refine ih (fun hm => ?_) hr
    split_ifs at hm with hbl
    · exact (hc hm).afterCode hbl _
    · exact isOpen_afterCode hm _

theorem readyBehind_map_code (ready : Bool) (cs : List Char) : readyBehind ready (cs.map .code) = readyAfter ready cs := by
  induction cs generalizing ready with
  | nil => rfl
  | cons c cs ih => exact ih _

theorem Passes.isOpen (h : Passes false back ctx (cs.map .code) ctx') (hc : ready → ctx.IsOpen)
    (hr : readyAfter ready cs) : ctx'.IsOpen :=
  h.isOpen_of_readyBehind hc (by rw [readyBehind_map_code, hr])

theorem endsQuote_scriptString (text : List Char) : EndsQuote '"' (text.flatMap scriptEscape ++ ['"']) := by
  induction text with
  | nil => exact .quote
  | cons c text ih =>
    have hp (d : Char) (hd : d ∈ ['0', '3', 'c']) {cs : List Char} (h : EndsQuote '"' cs) : EndsQuote '"' (d :: cs) := by
      simp only [mem_cons, not_mem_nil, or_false] at hd
      rcases hd with rfl | rfl | rfl <;> exact .cons (by decide) (by decide) (by decide) h
    rw [flatMap_cons, append_assoc, scriptEscape]
    split_ifs with hq hb hn hr ht hl
    · exact .escape _ ih
    · exact .escape _ ih
    · exact .escape _ ih
    · exact .escape _ ih
    · exact .escape _ ih
    · exact .escape 'u' (hp '0' (by simp) (hp '0' (by simp) (hp '3' (by simp) (hp 'c' (by simp) ih))))
    · exact .cons hb (by simp [hn]) hq ih

theorem passes_scriptString (text : String) (ctx : ScanContext) :
    Passes false back ctx [.literal (.quoted '"') (scriptString text).toList] (ctx.afterLiteral (.quoted '"')) := by
  have ht : (scriptString text).toList = '"' :: (text.toList.flatMap scriptEscape ++ ['"']) := by
    simp [scriptString]
  rw [ht]
  exact .literal ((endsQuote_scriptString text.toList).opening_eq (by decide) ctx _) (.nil _)

end Pagewright
