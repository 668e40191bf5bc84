import Pagewright.Proofs.Places
import Pagewright.Proofs.ScopeLevels

/-!
# Words written in full

The walk over a body writes each token as it stands, unless it is a word that means an ambient name.
`writtenTokens` takes the tokens together with what is written for them. What one step can write is
said once (`Surroundings.written_cases`), and a run keeps the names of the scopes that are open
(`Steps.declares`), so a word that is written in full is none of the parameters. Words are made of
characters of code (`exists_pieces_of_word`), so no literal and no comment is touched
(`qualify_words`). -/

namespace Pagewright

open List

variable {ts before after passed rest us : List ScriptToken} {name : String} {ambient : Ambient} {s : Surroundings}
  {previous? : Option ScriptToken} {t u : ScriptToken} {gap text : List Char} {w w' : WalkPoint} {ps : List Piece}

/-! ### What is written -/

/-- The tokens, each with what is written for it. -/
def writtenTokens (ambient : Ambient) (s : Surroundings) (previous? : Option ScriptToken) :
    List ScriptToken → List (ScriptToken × List Char)
  | [] => []
  | t :: rest =>
    (t, (s.pass ambient previous? t rest).2) ::
      writtenTokens ambient ((s.pass ambient previous? t rest).1.close t.start) (some t) rest

theorem qualifyTokens_eq (ambient : Ambient) (s : Surroundings) (previous? : Option ScriptToken)
    (ts : List ScriptToken) : qualifyTokens ambient s previous? ts =
      (writtenTokens ambient s previous? ts).flatMap fun p => p.1.gap ++ p.2 := by
  induction ts generalizing s previous? with
  | nil => rfl
  | cons t ts ih => rw [qualifyTokens, writtenTokens, flatMap_cons, ← ih]

theorem map_fst_writtenTokens (ambient : Ambient) (s : Surroundings) (previous? : Option ScriptToken)
    (ts : List ScriptToken) : (writtenTokens ambient s previous? ts).map Prod.fst = ts := by
  induction ts generalizing s previous? with
  | nil => rfl
  | cons t ts ih => rw [writtenTokens, map_cons, ih]

theorem exists_steps_of_writtenTokens {before after : List (ScriptToken × List Char)}
    (h : writtenTokens ambient s previous? ts = before ++ (t, text) :: after) :
    ∃ w rest, Steps ambient false (before.map Prod.fst) ⟨s, previous?, ts⟩ w ∧ w.ahead = t :: rest ∧
      text = (w.known.pass ambient w.previous? t rest).2 := by
  induction before generalizing s previous? ts with
  | nil =>
    cases ts with
    | nil => cases h
    | cons t ts =>
      cases h
      exact ⟨_, ts, .here _, rfl, rfl⟩
  | cons q before ih =>
    cases ts with
    | nil => cases h
    | cons t ts =>
      obtain ⟨hq, hr⟩ := cons.inj h
      obtain ⟨w, rest, hs, hw⟩ := ih hr
      rw [← hq]
      exact ⟨w, rest, .step nofun hs, hw⟩

theorem Steps.exists_written {quiet : Bool} (h : Steps ambient quiet passed w w') : ∃ before, before.map Prod.fst = passed ∧
      writtenTokens ambient w.known w.previous? w.ahead = before ++ writtenTokens ambient w'.known w'.previous? w'.ahead := by
  induction h with
  | here => exact ⟨[], rfl, rfl⟩
  | @step s previous? t ts passed w _ _ ih =>
    obtain ⟨before, hb, hr⟩ := ih
    exact ⟨(t, (s.pass ambient previous? t ts).2) :: before, by rw [map_cons, hb], congrArg (cons _) hr⟩

/-- The forms of a word that is written in full: as it is reached, or so with its name as a key
before it. -/
def Access.fullForms (name : String) (access : Access) : List (List Char) :=
  [(access.qualify name).toList, (name ++ ": " ++ access.qualify name).toList]

namespace Surroundings

variable (s : Surroundings) (ambient : Ambient) (previous? : Option ScriptToken) (t : ScriptToken)
  (rest : List ScriptToken)

theorem reference_cases (name : String) : s.reference ambient previous? t name rest = t.text ∨
    ∃ access, s.declares name = false ∧ ambient.get? name = some access ∧
      s.reference ambient previous? t name rest ∈ access.fullForms name := by
  unfold reference
  split
  · exact .inl rfl
  · next hd =>
    split
    · exact .inl rfl
    · next access ha =>
      have hf {text : List Char} (ht : text ∈ access.fullForms name) : text = t.text ∨
          ∃ access, s.declares name = false ∧ ambient.get? name = some access ∧ text ∈ access.fullForms name :=
        .inr ⟨access, Bool.eq_false_iff.2 hd, ha, ht⟩
      split
      · exact .inl rfl
      · split
        · exact hf (mem_cons_of_mem _ mem_cons_self)
        · exact hf mem_cons_self

/-- **Steps.** A token is written as it is, unless it is a word that no pattern has taken, that
stands behind no point, that no open scope declares, and that is an ambient name. -/
theorem written_cases : (s.pass ambient previous? t rest).2 = t.text ∨ ∃ name access, t.kind = .word name ∧
    t.start ∉ s.taken ∧ isAmong [.dot, .optionalDot] previous? = false ∧ s.declares name = false ∧
    ambient.get? name = some access ∧ (s.pass ambient previous? t rest).2 ∈ access.fullForms name := by
  unfold pass
  split
  · next name hn =>
    unfold passWord
    split_ifs with _ _ _ _ hp
    iterate 7 exact .inl rfl
    rw [Bool.or_eq_true, not_or, Bool.not_eq_true, Bool.not_eq_true, contains_eq_mem, decide_eq_false_iff_not] at hp
    rcases s.reference_cases ambient previous? t rest name with ht | ⟨access, hf⟩
    · exact .inl ht
    · exact .inr ⟨name, access, hn, hp.1, hp.2, hf⟩
  · exact .inl rfl

variable {s ambient previous? t rest}

theorem written_of_declares (hn : t.kind = .word name) (h : s.declares name) : (s.pass ambient previous? t rest).2 = t.text := by
  refine (s.written_cases ambient previous? t rest).resolve_right ?_
  rintro ⟨name', access, hn', -, -, hne, -⟩
  cases hn.symm.trans hn'
  rw [h] at hne
  cases hne

end Surroundings

/-! ### Runs -/

section Runs

variable {ambient : Ambient} {quiet : Bool} {passed : List ScriptToken} {w w' : WalkPoint} {x : String} {sc : Scope}

/-- **Runs.** What a scope declares stays declared as long as the scope is open. -/
theorem Steps.declares (h : Steps ambient quiet passed w w') (hs : sc ∈ w.known.scopes)
    (ho : sc.isOpenAfter passed) (hx : x ∈ sc.names) : w'.known.declares x := by
  obtain ⟨k, hk⟩ := getElem?_of_mem (mem_filter.2 ⟨hs, ho⟩)
  obtain ⟨sc', hs', hg⟩ := h.growTo.exists_of_getElem? hk
  exact any_eq_true.2 ⟨sc', mem_of_getElem? hs', contains_iff_mem.2 (hg.names.subset hx)⟩

theorem Steps.written_of_scope (h : Steps ambient quiet passed (.next ambient s previous? t ts) w)
    (hs : sc ∈ (s.pass ambient previous? t ts).1.scopes) (ho : sc.isOpenAfter (t :: passed))
    (hx : x ∈ sc.names) (hu : u.kind = .word x) : (w.known.pass ambient w.previous? u us).2 = u.text := by
  rw [Scope.isOpenAfter_iff, forall_mem_cons] at ho
  exact Surroundings.written_of_declares hu
    (h.declares (mem_filter.2 ⟨hs, decide_eq_true ho.1⟩) (Scope.isOpenAfter_iff.2 ho.2) hx)

theorem Steps.declares_of_mem_params {params : List String}
    (h : Steps ambient quiet passed (.start params ts) w) (hx : x ∈ params) : w.known.declares x :=
  h.declares mem_cons_self (Scope.isOpenAfter_iff.2 fun _ _ => nofun) hx

theorem Steps.previous_eq (h : Steps ambient quiet passed w w') : w'.previous? = passed.getLast?.or w.previous? := by
  induction h with
  | here => rfl
  | @step s previous? t ts passed w _ _ ih =>
    rw [ih, getLast?_cons]
    cases passed.getLast? <;> rfl

end Runs

/-! ### Words and pieces -/

theorem text_of_lexScript_word {c : Char} (h : (lexScript c ps).1 = .word name) : (lexScript c ps).2.1 = name.toList := by
  unfold lexScript at h ⊢
  split_ifs at h ⊢
  · cases h
    exact (String.toList_ofList).symm
  · unfold lexMark at h
    split at h
    iterate 2 cases h
    · split at h <;> cases h
    · unfold markKind at h
      split at h <;> cases h

theorem exists_pieces_of_word {o : Nat} (h : (scriptTokensFrom o gap ps).1 = before ++ t :: after) (hn : t.kind = .word name) :
    ∃ front back, ps = front ++ (name.toList.map .code ++ back) ∧ t.text = name.toList ∧
      before.flatMap ScriptToken.chars ++ t.gap = gap ++ front.flatMap Piece.chars ∧ t.start = o + piecesSize front := by
  fun_induction scriptTokensFrom o gap ps generalizing before with
  | case1 => simp at h
  | case2 o gap kind text ps _ ih =>
    obtain ⟨front, back, rfl, ht, hc, hs⟩ := ih h
    exact ⟨.literal kind text :: front, back, rfl, ht, by simpa [Piece.chars] using hc, by rw [hs, piecesSize_literal, Nat.add_assoc]⟩
  | case3 o gap kind text ps _ ih =>
    cases before with
    | nil =>
      cases h
      cases hn
    | cons u before =>
      obtain ⟨rfl, hr⟩ := cons.inj h
      obtain ⟨front, back, rfl, ht, hc, hs⟩ := ih hr
      exact ⟨.literal kind text :: front, back, rfl, ht, by simpa [Piece.chars, ScriptToken.chars] using hc,
        by rw [hs, piecesSize_literal, Nat.add_assoc]⟩
  | case4 o gap c ps _ ih =>
    obtain ⟨front, back, rfl, ht, hc, hs⟩ := ih h
    exact ⟨.code c :: front, back, rfl, ht, by simpa [Piece.chars] using hc, by rw [hs, piecesSize_code, Nat.add_assoc]⟩
  | case5 o gap c ps _ ih =>
    have hp := lexScript_pieces c ps
    cases before with
    | nil =>
      obtain ⟨rfl, -⟩ := cons.inj h
      have ht := text_of_lexScript_word hn
      exact ⟨[], (lexScript c ps).2.2, by rw [← hp, ht]; rfl, ht, (append_nil _).symm, rfl⟩
    | cons u before =>
      obtain ⟨rfl, hr⟩ := cons.inj h
      obtain ⟨front, back, hps, ht, hc, hs⟩ := ih hr
      have hi : piecesSize ((lexScript c ps).2.1.map .code) = byteSize (lexScript c ps).2.1 := congrArg byteSize (flatMap_chars_map_code _)
      refine ⟨(lexScript c ps).2.1.map .code ++ front, back, by rw [← hp, hps, append_assoc], ht, ?_, ?_⟩
      · simpa [ScriptToken.chars, flatMap_chars_map_code] using hc
      · rw [hs, piecesSize_append, hi, Nat.add_assoc]

theorem Source.word_spec {s : Source} (h : s.scriptTokens.1 = before ++ t :: after) (hn : t.kind = .word name) :
    t.text = name.toList ∧ t.start = byteSize (before.flatMap ScriptToken.chars ++ t.gap) ∧
      ∀ span ∈ s.spans, span.stop ≤ t.start ∨ t.start + byteSize t.text ≤ span.start := by
  obtain ⟨front, back, hp, ht, hh, hs⟩ := exists_pieces_of_word h hn
  rw [Nat.zero_add] at hs
  refine ⟨ht, by rw [hs, hh]; rfl, fun span hsp => ?_⟩
  rw [spans, hp, spansOf_append, spansOf_append, mem_append, mem_append, Nat.zero_add] at hsp
  rcases hsp with hsp | hsp | hsp
  · have hst := stop_le_of_mem_spansOf hsp
    exact .inl (by omega)
  · obtain ⟨kind, _, text, _, hm, -⟩ := exists_cut_of_mem_spansOf hsp
    obtain ⟨c, -, hc⟩ := mem_map.1 hm
    cases hc
  · have hle := le_start_of_mem_spansOf hsp
    rw [piecesSize, piecesSize, flatMap_chars_map_code] at hle
    rw [ht, hs]
    exact .inr hle

/-! ### Bodies -/

/-- A body is made of tokens, with blanks and comments around them, and is written out token by
token: each part is a token with what is written for it. -/
structure IsWrittenAs (body out : List Char) (parts : List (ScriptToken × List Char)) (tail : List Char) : Prop where
  tokens_eq : ∀ s, Source.ofText body = .ok s → s.scriptTokens = (parts.map Prod.fst, tail)
  body_eq : body = parts.flatMap (fun p => p.1.gap ++ p.1.text) ++ tail
  out_eq : out = parts.flatMap (fun p => p.1.gap ++ p.2) ++ tail

/-- The tokens of a body are written as they are, or as the walk over them says. -/
def IsWalked (ambient : Ambient) (params : List String) (body : List Char) (parts : List (ScriptToken × List Char)) :
    Prop :=
  (∀ p ∈ parts, p.2 = p.1.text) ∨
    ∃ s, Source.ofText body = .ok s ∧ parts = writtenTokens ambient (.start params) none s.scriptTokens.1

section Parts

variable {ambient : Ambient} {params : List String} {body out : List Char}

theorem exists_isWrittenAs (h : qualify ambient params body = .ok out) :
    ∃ parts tail, IsWrittenAs body out parts tail ∧ IsWalked ambient params body parts := by
  have hb {s : Source} (hs : Source.ofText body = .ok s) {parts : List (ScriptToken × List Char)}
      (hp : parts.map Prod.fst = s.scriptTokens.1) :
      body = parts.flatMap (fun p => p.1.gap ++ p.1.text) ++ s.scriptTokens.2 := by
    rw [← Source.text_ofText hs, ← s.scriptTokens_text, ← hp, flatMap_map]
    rfl
  rcases qualify_eq_ok h with ⟨-, rfl⟩ | ⟨s, hs, -, rfl⟩
  · cases hs : Source.ofText out with
    | error e =>
      refine ⟨[], out, ⟨fun s hs' => ?_, rfl, rfl⟩, .inl nofun⟩
      cases hs.symm.trans hs'
    | ok s =>
      have hp : (s.scriptTokens.1.map fun t => (t, t.text)).map Prod.fst = s.scriptTokens.1 := by
        rw [map_map]
        exact map_id _
      refine ⟨s.scriptTokens.1.map fun t => (t, t.text), s.scriptTokens.2, ⟨?_, hb hs hp, ?_⟩, .inl ?_⟩
      · rintro _ hs'
        cases hs.symm.trans hs'
        rw [hp]
      · simpa [flatMap_map] using hb hs hp
      · exact forall_mem_map.2 fun t _ => rfl
  · have hp := map_fst_writtenTokens ambient (.start params) none s.scriptTokens.1
    refine ⟨_, s.scriptTokens.2, ⟨?_, hb hs hp, by rw [qualifyTokens_eq]⟩, .inr ⟨s, hs, rfl⟩⟩
    rintro _ hs'
    cases hs.symm.trans hs'
    rw [hp]

theorem IsWalked.kept {parts : List (ScriptToken × List Char)} {tail : List Char} (h : IsWalked ambient params body parts)
    (hw : IsWrittenAs body out parts tail) {s : Source} (hs : Source.ofText body = .ok s)
    (hst : Steps ambient false passed (.start params s.scriptTokens.1) w) (ha : w.ahead = t :: rest)
    (ht : (w.known.pass ambient w.previous? t rest).2 = t.text) : parts[passed.length]? = some (t, t.text) := by
  rcases h with hsa | ⟨s', hs', rfl⟩
  · have ho : parts.map Prod.fst = passed ++ t :: rest := by
      rw [← ha, ← hst.ahead_eq]
      exact (congrArg Prod.fst (hw.tokens_eq s hs)).symm
    have hk : (parts.map Prod.fst)[passed.length]? = some t := by
      rw [ho]
      simp
    rw [getElem?_map] at hk
    obtain ⟨p, hp, rfl⟩ := Option.map_eq_some_iff.1 hk
    rw [hp, ← hsa p (mem_of_getElem? hp)]
  · cases hs.symm.trans hs'
    obtain ⟨before, hb, hsp⟩ := hst.exists_written
    have hl : passed.length = before.length := by rw [← hb, length_map]
    rw [ha, writtenTokens, ht] at hsp
    rw [show writtenTokens ambient (.start params) none s.scriptTokens.1 = _ from hsp, hl]
    simp

end Parts

/-- A word of a body that may be written in full: it stands outside of every literal and not behind
a point, and is an ambient name and no parameter. -/
structure IsFreeWord (ambient : Ambient) (params : List String) (body : List Char) (before : List ScriptToken)
    (t : ScriptToken) (name : String) (access : Access) : Prop where
  kind_eq : t.kind = .word name
  text_eq : t.text = name.toList
  start_eq : t.start = byteSize (before.flatMap ScriptToken.chars ++ t.gap)
  outside : ∃ s, Source.ofText body = .ok s ∧ ∀ span ∈ s.spans, span.stop ≤ t.start ∨ t.start + byteSize t.text ≤ span.start
  no_member : ∀ u, before.getLast? = some u → u.kind ≠ .dot ∧ u.kind ≠ .optionalDot
  isAmbient : ambient.get? name = some access
  no_param : name ∉ params

/-- **Words in full.** What is written for a token of a body is the token itself, unless it is a
word that may be written in full and is; all else stays where it is. -/
theorem qualify_words {ambient : Ambient} {params : List String} {body out : List Char}
    (h : qualify ambient params body = .ok out) : ∃ parts tail, IsWrittenAs body out parts tail ∧
      ∀ before t text after, parts = before ++ (t, text) :: after → text = t.text ∨ ∃ name access,
        IsFreeWord ambient params body (before.map Prod.fst) t name access ∧ text ∈ access.fullForms name := by
  obtain ⟨parts, tail, hwritten, hparts⟩ := exists_isWrittenAs h
  refine ⟨parts, tail, hwritten, fun before t text after hsplit => ?_⟩
  rcases hparts with hsame | ⟨s, hs, rfl⟩
  · exact .inl (hsame (t, text) (hsplit ▸ mem_append_right _ mem_cons_self))
  obtain ⟨w, rest, hsteps, -, rfl⟩ := exists_steps_of_writtenTokens hsplit
  rcases w.known.written_cases ambient w.previous? t rest with hsame | ⟨name, access, hname, -, hpoint, hnew, hfull⟩
  · exact .inl hsame
  have htokens : s.scriptTokens.1 = before.map Prod.fst ++ t :: after.map Prod.fst := by
    rw [hwritten.tokens_eq s hs, hsplit, map_append, map_cons]
  obtain ⟨hword, hstart, houtside⟩ := Source.word_spec htokens hname
  refine .inr ⟨name, access, ⟨hname, hword, hstart, ⟨s, hs, houtside⟩, fun u hu => ?_, hfull.1, fun hparam => ?_⟩,
    hfull.2⟩
  · rw [hsteps.previous_eq, hu] at hpoint
    simpa [isAmong, not_or] using hpoint
  · rw [hsteps.declares_of_mem_params hparam] at hnew
    cases hnew

/-- The ambient names of an instance with the public member `w` and the protected member `n`. -/
def ambientWN : Ambient := (Ambient.empty.put "w" .direct).put "n" .capsule

/-- A body with words in a string, a comment, behind a point, as a key and as the short form of a
property. -/
def mixedWords : List Char := "p = { w, n, w: o.w }; n(p, 'w'); // w".toList

theorem qualify_words_mixed :
    ∃ out, qualify ambientWN ["p"] mixedWords = .ok out ∧
      out = "p = { w: __self.w, n: __self.__protected.n, w: o.w }; __self.__protected.n(p, 'w'); // w".toList ∧
      ∃ parts tail, IsWrittenAs mixedWords out parts tail ∧
        ∀ before t text after, parts = before ++ (t, text) :: after → text = t.text ∨ ∃ name access,
          IsFreeWord ambientWN ["p"] mixedWords (before.map Prod.fst) t name access ∧ text ∈ access.fullForms name := by
  have hout : qualify ambientWN ["p"] mixedWords = .ok
      "p = { w: __self.w, n: __self.__protected.n, w: o.w }; __self.__protected.n(p, 'w'); // w".toList := by
    decide +kernel
  exact ⟨_, hout, rfl, qualify_words hout⟩

end Pagewright
