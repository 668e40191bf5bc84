import Pagewright.Proofs.Families
import Pagewright.Proofs.Layout
import Pagewright.Proofs.Lexing
import Pagewright.Proofs.Rescan

/-!
# Quoted values in scripts

An expression that is a single quoted string is written as it stands. Its scan finds blanks and one
literal, since the literal ends by the same rule by which the string is read
(`endsQuote_of_unescape`). So it has no word that could be a reference, and qualifying its names
changes nothing (`qualify_of_stringLiteral?`). -/

namespace Pagewright

open List

variable {inside cs rest blanks : List Char} {ps : List Piece} {raw text v : String} {c quote : Char} {n o : Nat}
  {ctx : ScanContext} {amb : Ambient}

/-! ### The scan of a quoted string -/

theorem endsQuote_of_unescape (h : unescape quote inside = some cs)
    (hn : quotedLength quote (inside ++ rest) ≠ none) : EndsQuote quote (inside ++ [quote]) := by
  induction inside using escape_induction generalizing cs with
  | nil => exact .quote
  | escape c inside ih =>
    obtain ⟨ds, hd, -⟩ := Option.map_eq_some_iff.1 h
    exact .escape c (ih hd fun hm => hn (Option.map_eq_none_iff.2 hm))
  | cons c inside hc ih =>
    rw [unescape] at h
    · split at h
      · cases h
      · next hp =>
        simp only [Bool.or_eq_true, decide_eq_true_eq, not_or] at hp
        obtain ⟨ds, hd, -⟩ := Option.map_eq_some_iff.1 h
        rw [cons_append, quotedLength_cons fun hb => absurd hb hp.1, if_neg hp.2] at hn
        split_ifs at hn with hf
        · exact absurd rfl hn
        · exact .cons hp.1 (Bool.not_eq_true _ ▸ hf) hp.2 (ih hd fun hm => hn (Option.map_eq_none_iff.2 hm))
    · exact hc.not_cons

/-- All code of a text is blank. -/
def BlankCode (ps : List Piece) : Prop := ∀ c, .code c ∈ ps → isBlank c = true

theorem isPlainCode_of_isBlank (hc : isBlank c) : Fragment.isPlainCode c := Fragment.isPlainCode_of (by decide) hc

theorem exists_of_code_append (hs : ∀ c ∈ cs, Fragment.isPlainCode c) (h : piecesFrom ctx o (cs ++ rest) = .ok ps) :
    ∃ ctx' o' qs, piecesFrom ctx' o' rest = .ok qs ∧ ps = cs.map .code ++ qs := by
  induction cs generalizing ctx o ps with
  | nil => exact ⟨ctx, o, ps, h, rfl⟩
  | cons c cs ih =>
    obtain ⟨hc, hs⟩ := forall_mem_cons.1 hs
    rw [cons_append, piecesFrom, Fragment.opening_of_isPlainCode ctx hc] at h
    obtain ⟨ps', hp', rfl⟩ := exists_of_map_eq_ok h
    obtain ⟨ctx', o', qs, hq, rfl⟩ := ih hs hp'
    exact ⟨ctx', o', qs, hq, rfl⟩

theorem exists_of_quoted_append (hq : quote = '\'' ∨ quote = '"') (hr : unescape quote inside = some cs)
    (h : piecesFrom ctx o (quote :: (inside ++ quote :: rest)) = .ok ps) : ∃ ctx' o' qs, piecesFrom ctx' o' rest = .ok qs ∧
      ps = .literal (.quoted quote) (quote :: (inside ++ [quote])) :: qs := by
  have hq' : quote = '\'' ∨ quote = '"' ∨ quote = '`' := hq.imp_right .inl
  have hn : quotedLength quote (inside ++ quote :: rest) ≠ none := by
    intro hn
    rw [piecesFrom, opening, if_pos (by simpa [or_assoc] using hq'), hn] at h
    cases h
  have ho := (endsQuote_of_unescape hr hn).opening_eq hq' ctx rest
  rw [append_cons inside, piecesFrom, ho] at h
  simp only [take_left, drop_left] at h
  obtain ⟨qs, hs, rfl⟩ := exists_of_map_eq_ok h
  exact ⟨_, _, qs, hs, rfl⟩

theorem BlankCode.codes_append (hb : ∀ c ∈ blanks, isBlank c) (h : BlankCode ps) : BlankCode (blanks.map .code ++ ps) := by
  intro c hc
  rcases mem_append.1 hc with hc | hc
  · obtain ⟨d, hd, heq⟩ := mem_map.1 hc
    cases heq
    exact hb c hd
  · exact h c hc

theorem blankCode_of_stringLiteral? (h : stringLiteral? raw = some text) {s : Source}
    (hs : Source.ofText raw.toList = .ok s) : BlankCode s.pieces := by
  obtain ⟨front, back, hr, hf, hb⟩ := exists_of_trim raw.toList
  have hp : piecesFrom {} 0 raw.toList = .ok s.pieces := Source.pieces_ofText hs
  unfold stringLiteral? at h
  split at h
  · next quote rest ht =>
    split at h
    · next he =>
      rw [Bool.and_eq_true, decide_eq_true_eq] at he
      obtain ⟨hq, hl⟩ := he
      obtain ⟨cs, hcs, -⟩ := Option.map_eq_some_iff.1 h
      have hre : trim raw.toList ++ back = quote :: (rest.dropLast ++ quote :: back) := by
        rw [ht, ← dropLast_append_getLast? quote hl, dropLast_concat]
        simp only [cons_append, append_assoc, nil_append]
      rw [hr, append_assoc, hre] at hp
      obtain ⟨ctx, o, ps, hps, ha⟩ := exists_of_code_append (fun c hc => isPlainCode_of_isBlank (hf c hc)) hp
      obtain ⟨ctx', o', qs, hqs, rfl⟩ := exists_of_quoted_append (by simpa using hq) hcs hps
      rw [← append_nil back] at hqs
      obtain ⟨_, _, rs, hrs, rfl⟩ := exists_of_code_append (fun c hc => isPlainCode_of_isBlank (hb c hc)) hqs
      rw [piecesFrom.eq_def] at hrs
      cases hrs
      rw [ha]
      refine .codes_append hf fun c hc => ?_
      have hc := (mem_cons.1 hc).resolve_left nofun
      exact BlankCode.codes_append hb (fun _ hn => absurd hn not_mem_nil) c hc
    · cases h
  · cases h

/-! ### Its tokens -/

theorem kind_of_mem_scriptTokensFrom (h : BlankCode ps) (o : Nat) (gap : List Char) :
    ∀ t ∈ (scriptTokensFrom o gap ps).1, t.kind = .literal := by
  fun_induction scriptTokensFrom o gap ps with
  | case1 => exact fun _ hn => absurd hn not_mem_nil
  | case2 o gap kind text ps ho ih | case4 o gap c ps hb ih => exact ih fun c hc => h c (mem_cons_of_mem _ hc)
  | case3 o gap kind text ps ho ih =>
    intro t ht
    rcases mem_cons.1 ht with rfl | ht
    · rfl
    · exact ih (fun c hc => h c (mem_cons_of_mem _ hc)) t ht
  | case5 o gap c ps hb ih => exact absurd (h c mem_cons_self) hb

theorem qualifyTokens_of_literals {ts : List ScriptToken}
    (h : ∀ t ∈ ts, t.kind = .literal) (s : Surroundings) (prev? : Option ScriptToken) :
    qualifyTokens amb s prev? ts = ts.flatMap ScriptToken.chars := by
  induction ts generalizing s prev? with
  | nil => rfl
  | cons t ts ih =>
    obtain ⟨ht, hs⟩ := forall_mem_cons.1 h
    have hp : s.pass amb prev? t ts = (s.passMark t ts, t.text) := by rw [Surroundings.pass, ht]
    rw [qualifyTokens, hp]
    show t.gap ++ t.text ++ qualifyTokens amb _ _ ts = _
    rw [ih hs]
    rfl

theorem qualify_of_stringLiteral? (h : stringLiteral? raw = some text)
    {params : List String} (hc : qualify amb params raw.toList = .ok cs) : cs = raw.toList := by
  rcases qualify_eq_ok hc with ⟨-, rfl⟩ | ⟨s, hs, -, rfl⟩
  · rfl
  · have hk : ∀ t ∈ s.scriptTokens.1, t.kind = .literal := kind_of_mem_scriptTokensFrom (blankCode_of_stringLiteral? h hs) 0 []
    rw [qualifyTokens_of_literals hk]
    exact s.scriptTokens_text.trans (Source.text_ofText hs)

theorem BodyContext.expression_of_stringLiteral?
    (h : stringLiteral? raw = some text) {ctx : BodyContext} (hv : ctx.expression raw = .ok v) : v = raw := by
  obtain ⟨cs, hc, rfl⟩ := exists_of_map_eq_ok hv
  rw [qualify_of_stringLiteral? h hc, String.ofList_toList]

end Pagewright
