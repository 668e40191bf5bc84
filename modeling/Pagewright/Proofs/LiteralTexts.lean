import Pagewright.Proofs.Excerpts
import Pagewright.Proofs.Layout
import Pagewright.Proofs.ParentCalls
import Pagewright.Proofs.Walk

/-!
# Strings and templates on their way into a script

Where references are written in full only words are touched (`infix_of_qualify`). Blanks are taken
off the ends of a text, but no string or template begins or ends with one
(`IsQuotedText.infix_trim`). Where parent calls are replaced, whatever stays of the body keeps its
literals (`mem_rewritten_of_staying`). The layout of the last work, however, changes every literal
that has more than one line (`reindent_eq_self_iff`). -/

namespace Pagewright

open List

variable {ps : List Piece} {kind : LiteralKind} {text cs gap lit out : List Char} {amb : Ambient}

/-! ### Literals as lexemes -/

theorem literal_mem_lexScript {c : Char} (h : .literal kind text ∈ ps) : .literal kind text ∈ (lexScript c ps).2.2 := by
  have hm : .literal kind text ∈ (lexScript c ps).2.1.map .code ++ (lexScript c ps).2.2 := by
    rw [lexScript_pieces]
    exact mem_cons_of_mem _ h
  rcases mem_append.1 hm with hc | hr
  · obtain ⟨d, -, hd⟩ := mem_map.1 hc
    cases hd
  · exact hr

theorem exists_token_of_literal (hk : ¬kind.isComment) {o : Nat} (h : .literal kind text ∈ ps) :
    ∃ t ∈ (scriptTokensFrom o gap ps).1, t.kind = .literal ∧ t.text = text := by
  fun_induction scriptTokensFrom o gap ps with
  | case1 => cases h
  | case2 o gap kind' text' ps ho ih =>
    rcases mem_cons.1 h with heq | h
    · cases heq
      exact absurd ho hk
    · exact ih h
  | case3 o gap kind' text' ps ho ih =>
    rcases mem_cons.1 h with heq | h
    · cases heq
      exact ⟨_, mem_cons_self, rfl, rfl⟩
    · obtain ⟨t, ht, hs⟩ := ih h
      exact ⟨t, mem_cons_of_mem _ ht, hs⟩
  | case4 o gap c ps hc ih => exact ih (by simpa using h)
  | case5 o gap c ps hc ih =>
    obtain ⟨t, ht, hs⟩ := ih (literal_mem_lexScript (by simpa using h))
    exact ⟨t, mem_cons_of_mem _ ht, hs⟩

theorem mem_lexemesOf_of_mem_quotedTexts (h : text ∈ quotedTexts ps) : (.literal, text) ∈ lexemesOf ps := by
  obtain ⟨quote, h⟩ := mem_quotedTexts.1 h
  have hq : ¬(LiteralKind.quoted quote).isComment := Bool.false_ne_true
  obtain ⟨t, ht, hk, he⟩ := exists_token_of_literal hq h
  exact mem_map.2 ⟨t, ht, by rw [ScriptToken.lexeme, hk, he]⟩

/-! ### Literals in qualified texts -/

theorem infix_qualifyTokens {t : ScriptToken} (hk : t.kind = .literal) {s : Surroundings}
    {prev? : Option ScriptToken} {ts : List ScriptToken} (ht : t ∈ ts) : t.text <:+: qualifyTokens amb s prev? ts := by
  induction ts generalizing s prev? with
  | nil => cases ht
  | cons first ts ih =>
    rw [Fragment.qualifyTokens_cons]
    rcases mem_cons.1 ht with rfl | ht
    · have he : (s.pass amb prev? t ts).2 = t.text := by
        unfold Surroundings.pass
        rw [hk]
      rw [he]
      exact ⟨t.gap, _, rfl⟩
    · exact (ih ht).trans (suffix_append _ _).isInfix

/-- **Literals in qualified texts.** They stay as they are. -/
theorem infix_of_qualify {params : List String} {s : Source} (h : qualify amb params text = .ok out)
    (hs : Source.ofText text = .ok s)
    (hl : (.literal, lit) ∈ lexemesOf s.pieces) : lit <:+: out := by
  obtain ⟨t, ht, hle⟩ := mem_map.1 hl
  obtain ⟨hk, rfl⟩ := Prod.mk.inj hle
  rcases qualify_eq_ok h with ⟨-, rfl⟩ | ⟨s', hs', -, rfl⟩
  · have he := s.scriptTokens_text
    rw [Source.text_ofText hs] at he
    rw [← he]
    refine List.IsInfix.trans ?_ (prefix_append _ _).isInfix
    obtain ⟨front, back, hp⟩ := append_of_mem ht
    rw [Source.scriptTokens, hp]
    exact ⟨front.flatMap ScriptToken.chars ++ t.gap, back.flatMap ScriptToken.chars, by simp [ScriptToken.chars]⟩
  · cases hs.symm.trans hs'
    exact (infix_qualifyTokens hk ht).trans (prefix_append _ _).isInfix

/-! ### Strings and templates laid out -/

/-- The text is a string or a template with its quotes. -/
def IsQuotedText (text : List Char) : Prop :=
  ∃ quote inner, (quote = '\'' ∨ quote = '"' ∨ quote = '`') ∧ text = quote :: (inner ++ [quote])

theorem Scans.isQuotedText {ctx : ScanContext} (h : Scans ctx ps) (ht : text ∈ quotedTexts ps) : IsQuotedText text := by
  obtain ⟨quote, hm⟩ := mem_quotedTexts.1 ht
  obtain ⟨ctx', c, lit, back, rfl, rfl, hq, hl⟩ := h.choose_spec.isRead _ hm
  obtain ⟨inner, rfl⟩ := ((quotedLength_append_iff hq).1 hl).exists_last
  exact ⟨c, inner, hq, rfl⟩

namespace IsQuotedText

variable {lit cs : List Char}

theorem infix_trim (h : IsQuotedText lit) (hp : lit <:+: cs) : lit <:+: trim cs := by
  obtain ⟨quote, inner, hq, rfl⟩ := h
  obtain ⟨front, back, rfl⟩ := hp
  have hb : isBlank quote = false := by rcases hq with rfl | rfl | rfl <;> decide
  obtain ⟨front', hs⟩ : ∃ front', trimStart (front ++ quote :: (inner ++ [quote]) ++ back) =
      (front' ++ quote :: (inner ++ [quote])) ++ back := by
    rw [append_assoc, trimStart, dropWhile_append]
    split_ifs with he
    · exact ⟨[], by simp [hb]⟩
    · exact ⟨front.dropWhile isBlank, by simp⟩
  rw [trim, hs, trimEnd_append_of_last (c := quote) (by simp [getLast?_cons]) hb]
  exact ⟨front', trimEnd back, rfl⟩

theorem infix_reindent (h : IsQuotedText lit) (hp : lit <:+: cs) : reindent lit <:+: reindent cs := by
  obtain ⟨quote, inner, hq, rfl⟩ := h
  obtain ⟨front, back, rfl⟩ := hp
  have hne : quote ≠ '\n' ∧ quote ≠ '\r' := by rcases hq with rfl | rfl | rfl <;> decide
  rw [reindent_append (by simp [getLast?_cons, hne.2]), reindent_append (by simp [hne.1])]
  exact ⟨reindent front, reindent back, rfl⟩

end IsQuotedText

theorem length_le_reindent (cs : List Char) :
    cs.length ≤ (reindent cs).length ∧ ('\n' ∈ cs → cs.length < (reindent cs).length) := by
  have hi : (indent 1).toList.length = 4 := by decide
  fun_induction reindent cs with
  | case1 => simp
  | case2 cs ih | case3 cs ih => simp [hi]; omega
  | case4 c cs _ hc ih =>
    refine ⟨by simpa using ih.1, fun hm => ?_⟩
    rcases mem_cons.1 hm with rfl | hm
    · exact (hc rfl).elim
    · simpa using ih.2 hm

theorem reindent_eq_self_iff : reindent cs = cs ↔ '\n' ∉ cs := by
  refine ⟨fun h hm => ?_, reindent_of_not_mem⟩
  have hlt := (length_le_reindent cs).2 hm
  rw [h] at hlt
  exact Nat.lt_irrefl _ hlt

/-! ### Strings and templates of bodies -/

theorem quotedTexts_kept (chained : Bool) (ps : List Piece) : quotedTexts (kept chained ps) = quotedTexts ps := by
  cases chained with
  | false => rfl
  | true =>
    obtain ⟨blanks, rest, hb, hk, rfl | ⟨rfl, -⟩⟩ := kept_cases ps
    · rw [hk, quotedTexts_append, quotedTexts_of_isBlankCode hb]
      rfl
    · rw [hk, quotedTexts_append, quotedTexts_of_isBlankCode hb]
      rfl

/-- The pieces of a body that stay when its parent calls are replaced: all but the calls and the
arguments for constructors. -/
def stayingPieces (alias? : ParentCall → Option String) (sites : List CallSite) (tail : List Piece) : List Piece :=
  (sites.flatMap fun site => site.before ++ if (alias? site.call).isSome then site.inside else []) ++ tail

theorem mem_rewritten_of_staying {alias? : ParentCall → Option String} {sites : List CallSite} {tail : List Piece}
    (h : text ∈ quotedTexts (stayingPieces alias? sites tail)) (chained : Bool) :
    (.literal, text) ∈ rewritten alias? chained sites tail := by
  have hk {ps : List Piece} (chained : Bool) (ht : text ∈ quotedTexts ps) :
      (.literal, text) ∈ lexemesOf (kept chained ps) :=
    mem_lexemesOf_of_mem_quotedTexts (by rwa [quotedTexts_kept])
  induction sites generalizing chained with
  | nil => exact hk chained (by simpa [stayingPieces] using h)
  | cons site sites ih =>
    have hs : stayingPieces alias? (site :: sites) tail = site.before ++
        ((if (alias? site.call).isSome then site.inside else []) ++ stayingPieces alias? sites tail) := by
      simp [stayingPieces]
    rw [hs, quotedTexts_append, quotedTexts_append, mem_append, mem_append] at h
    rw [rewritten, mem_append]
    rcases h with hb | hi | hr
    · exact .inl (hk chained hb)
    · cases ha : alias? site.call with
      | none => simp [ha, quotedTexts] at hi
      | some name =>
        rw [ha, Option.isSome_some, if_pos rfl] at hi
        have hl := mem_lexemesOf_of_mem_quotedTexts hi
        exact .inr (by simp [hl])
    · cases alias? site.call with
      | none => exact .inr (ih hr true)
      | some name => exact .inr (by simp [ih hr false])

end Pagewright
