import Pagewright.Proofs.Reading

/-!
# How readers move on

Readers take tokens, whole groups and whole values off the glyphs, and nothing else.
`Source.Reached` says which glyphs are left and how many braces stand open, and `Source.FaultAt`
where faults are reported: at the end, at a character that is no blank, or right behind one. Every
reader is described once, by the readers it is made of (`Source.Arrives`): what it reads is as it
should be and it leaves as many braces open as it should, or it fails with such a fault. -/

namespace Pagewright

open List

variable {c closer opener : Char} {e : CompileError} {gs rest : List Glyph} {g : Glyph} {table table' : ClassTable}
  {page : Page} {text : List Char}

theorem suffix_skipTrivia (gs : List Glyph) : skipTrivia gs <:+ gs := by
  fun_induction skipTrivia gs with
  | case1 | case4 | case5 => exact suffix_rfl
  | case2 g rest _ ih => exact ih.trans (suffix_cons g rest)
  | case3 g rest _ stop _ _ ih => exact (ih.trans (dropWhile_suffix _)).trans (suffix_cons g rest)

theorem isBlank_of_skipTrivia (h : skipTrivia gs = g :: rest) : isBlank g.char = false := by
  fun_induction skipTrivia gs with
  | case1 => cases h
  | case2 _ _ _ ih | case3 _ _ _ _ _ _ ih => exact ih h
  | case4 g' rest' hb | case5 g' rest' hb =>
    cases h
    exact Bool.eq_false_iff.2 hb

theorem suffix_lexHere (g : Glyph) (gs : List Glyph) : (lexHere g gs).2 <:+ gs := by
  unfold lexHere
  split
  · exact dropWhile_suffix _
  · split_ifs
    · exact dropWhile_suffix _
    · exact dropWhile_suffix _
    · exact suffix_rfl

theorem isBlank_of_closer? (h : closer? c = some closer) : isBlank c = false := by
  rcases closer?_cases h with ⟨rfl, -⟩ | ⟨rfl, -⟩ | ⟨rfl, -⟩ <;> decide

theorem error_of_bind_pure {ε β γ : Type} {x : Except ε β} {f : β → γ} {e : ε} (h : (x >>= fun b => pure (f b)) = .error e) :
    x = .error e := (of_bind_eq_error h).resolve_right (by rintro ⟨b, -, ⟨⟩⟩)

namespace Source

variable {s : Source} {start gs : List Glyph} {n place stop : Nat} {I : List Glyph → Prop}

theorem suffix_token (s : Source) (gs : List Glyph) : (s.token gs).rest <:+ gs := by
  cases hg : skipTrivia gs with
  | nil =>
    rw [(token_of_nil hg).2]
    exact nil_suffix
  | cons g post =>
    rw [(token_of_cons hg).2]
    refine ((suffix_lexHere g post).trans (suffix_cons g post)).trans ?_
    rw [← hg]
    exact suffix_skipTrivia gs

/-! ### Places of faults -/

/-- Where faults are reported: at the end of the text, at a character that is no blank, or right
behind one. -/
def IsPlace (s : Source) (offset : Nat) : Prop :=
  offset = s.size ∨ ∃ g gs, g :: gs <:+ s.glyphs ∧ isBlank g.char = false ∧ (offset = g.offset ∨ offset = s.offsetOf gs)

/-- A fault at such a place. -/
def FaultAt (s : Source) (e : CompileError) : Prop := ∃ offset fault, s.IsPlace offset ∧ e = s.error offset fault

theorem isPlace_token (h : gs <:+ s.glyphs) : s.IsPlace (s.token gs).token.start := by
  unfold token
  split
  · exact .inl rfl
  · next g post hg =>
    refine .inr ⟨g, post, ?_, isBlank_of_skipTrivia hg, .inl rfl⟩
    rw [← hg]
    exact (suffix_skipTrivia gs).trans h

theorem faultAt_token (h : gs <:+ s.glyphs) (fault : ParseFault) : s.FaultAt (s.error (s.token gs).token.start fault) :=
  ⟨_, fault, isPlace_token h, rfl⟩

theorem faultAt_unexpected (h : gs <:+ s.glyphs) (what : String) :
    s.FaultAt (s.unexpected (s.token gs).token what) := faultAt_token h _

theorem faultAt_bracket (h : g :: gs <:+ s.glyphs) (hp : closer? g.char = some closer)
    (fault : ParseFault) : s.FaultAt (s.error g.offset fault) :=
  ⟨g.offset, fault, .inr ⟨g, gs, h, isBlank_of_closer? hp, .inl rfl⟩, rfl⟩

theorem faultAt_of_topCommas (h : gs <:+ s.glyphs) (he : s.topCommas stop gs = .error e) : s.FaultAt e := by
  fun_induction topCommas s stop gs generalizing e with
  | case1 | case2 => cases he
  | case3 g rest _ _ ih | case7 g rest _ _ _ _ ih => exact ih ((suffix_cons g rest).trans h) he
  | case4 g rest _ _ closer _ group post hsp ih => exact ih (.trans ⟨group, splitGroup_append hsp⟩ h) he
  | case5 g rest _ _ closer hp _ =>
    cases he
    exact faultAt_bracket h hp _
  | case6 g rest _ _ _ _ ih => exact ih ((suffix_cons g rest).trans h) (error_of_bind_pure he)

/-! ### What is reached -/

/-- A reader that began at `start` and moved on by tokens, groups and values stands at the glyphs,
with so many braces open. -/
inductive Reached (s : Source) (start : List Glyph) : Nat → List Glyph → Prop
  | start : s.IsRest start → Reached s start 0 start
  | token {n : Nat} {gs : List Glyph} : Reached s start n gs → (∀ c ∈ ['{', '}', '/'], (s.token gs).token.kind ≠ .mark c) →
      Reached s start n (s.token gs).rest
  | opened {n : Nat} {gs : List Glyph} : Reached s start n gs → (s.token gs).token.kind = .mark '{' →
      Reached s start (n + 1) (s.token gs).rest
  | closed {n : Nat} {gs : List Glyph} : Reached s start (n + 1) gs → (s.token gs).token.kind = .mark '}' →
      Reached s start n (s.token gs).rest
  | group {n : Nat} {gs group rest : List Glyph} {opener closer : Char} : Reached s start n gs →
      closer? opener = some closer → (s.token gs).token.kind = .mark opener →
      splitGroup opener closer 0 (skipTrivia gs) = some (group, rest) → Reached s start n rest
  | value {n place : Nat} {gs value rest : List Glyph} : Reached s start n gs → s.CutsOff place gs value rest →
      Reached s start n rest

theorem Reached.suffix_start (h : s.Reached start n gs) : gs <:+ start := by
  induction h with
  | start => exact suffix_rfl
  | token _ _ ih | opened _ _ ih | closed _ _ ih => exact (suffix_token s _).trans ih
  | @group _ gs group _ _ _ _ _ _ hp ih => exact (.trans ⟨group, splitGroup_append hp⟩ ((suffix_skipTrivia gs).trans ih))
  | value _ hc ih => exact hc.suffix.trans ih

/-- A reader always stands between two pieces. -/
theorem Reached.isRest (hs : s.IsScan) (h : s.Reached start n gs) : s.IsRest gs := by
  induction h with
  | start h => exact h
  | token _ hk ih => exact isRest_token hs ih (hk '/' (by simp))
  | opened _ hk ih | closed _ hk ih => exact isRest_token hs ih (by rw [hk]; simp)
  | @group _ gs group rest opener closer _ hp hk hsp ih =>
    have ho := isLiteralStart_of_closer? hp
    obtain ⟨before, post, g, rest', hsk, rfl, hc⟩ := beginsCode_of_mark hs ih hk ho
    rw [hsk] at hsp
    exact hc.isRest_group hsp
  | value _ hu ih =>
    obtain ⟨before, post, hi, rfl⟩ := ih
    obtain ⟨cut, stop, post', -, rfl, -, hr | hr⟩ := hu.exists_cut
    · exact ⟨before ++ cut, .code stop :: post', by rw [hi, append_assoc], by rw [hr, piecesSize_append]⟩
    · refine ⟨before ++ (cut ++ [.code stop]), post', ?_, by rw [hr, piecesSize_append before]⟩
      rw [hi]
      simp

theorem of_take? {kind : TokenKind} {hk : kind ≠ .eof} {r : Read Token gs.length} (h : s.take? kind hk gs = some r) :
    (s.token gs).token.kind = kind ∧ r.value = (s.token gs).token ∧ r.rest = (s.token gs).rest := by
  unfold take? at h
  split at h
  · next heq =>
    cases h
    exact ⟨heq, rfl, rfl⟩
  · cases h

/-- What is said of the glyphs a reader stands at is so behind every token that is neither a brace
nor a slash. -/
structure KeptByTokens (s : Source) (I : List Glyph → Prop) : Prop where
  isRest {gs : List Glyph} : I gs → s.IsRest gs
  token {gs : List Glyph} : I gs → (∀ c ∈ ['{', '}', '/'], (s.token gs).token.kind ≠ .mark c) → I (s.token gs).rest

theorem keptByTokens_isRest (hs : s.IsScan) : s.KeptByTokens s.IsRest := ⟨id, fun h hk => isRest_token hs h (hk '/' (by simp))⟩

theorem keptByTokens_reached (hs : s.IsScan) (start : List Glyph) (n : Nat) : s.KeptByTokens (s.Reached start n) :=
  ⟨Reached.isRest hs, Reached.token⟩

theorem KeptByTokens.word (hI : s.KeptByTokens I) (h : I gs) {name : String}
    (hk : (s.token gs).token.kind = .word name) : I (s.token gs).rest :=
  hI.token h fun c _ => by rw [hk]; simp

theorem KeptByTokens.mark (hI : s.KeptByTokens I) (h : I gs) (hc : c ∉ ['{', '}', '/'])
    (hk : (s.token gs).token.kind = .mark c) : I (s.token gs).rest := by
  refine hI.token h fun d hd hm => hc ?_
  cases hk.symm.trans hm
  exact hd

theorem KeptByTokens.take? (hI : s.KeptByTokens I) (h : I gs) {kind : TokenKind} {hne : kind ≠ .eof} {r : Read Token gs.length}
    (hk : ∀ c ∈ ['{', '}', '/'], kind ≠ .mark c) (hr : s.take? kind hne gs = some r) : I r.rest := by
  obtain ⟨rfl, -, he⟩ := of_take? hr
  rw [he]
  exact hI.token h hk

/-! ### Where readers arrive -/

/-- What is read is as `P` says, or there is a fault at a place of faults. -/
def Arrives {α : Type} (s : Source) (P : α → Prop) (result : Except CompileError α) : Prop :=
  (∀ r, result = .ok r → P r) ∧ ∀ e, result = .error e → s.FaultAt e

/-- The value that is read is as `Q` says, and what is left as `I` says. -/
def Leaves {α : Type} {m : Nat} (Q : α → Prop) (I : List Glyph → Prop) (r : Read α m) : Prop := Q r.value ∧ I r.rest

/-- Nothing is said of the value. -/
def anything {α : Type} (_ : α) : Prop := True

section Arrives

variable {α β : Type} {P : α → Prop} {Q : β → Prop}

theorem arrives_pure {r : α} (h : P r) : s.Arrives P (pure r) := ⟨by rintro _ ⟨⟩; exact h, by rintro _ ⟨⟩⟩

theorem arrives_throw (h : s.FaultAt e) : s.Arrives P (throw e) := ⟨by rintro _ ⟨⟩, by rintro _ ⟨⟩; exact h⟩

theorem Arrives.imp {P' : α → Prop} {x : Except CompileError α} (hx : s.Arrives P x) (h : ∀ r, P r → P' r) : s.Arrives P' x :=
  ⟨fun r hr => h r (hx.1 r hr), hx.2⟩

theorem Arrives.bind {x : Except CompileError α} {f : α → Except CompileError β}
    (hx : s.Arrives P x) (hf : ∀ r, P r → s.Arrives Q (f r)) : s.Arrives Q (x >>= f) := by
  cases x with
  | error e => exact arrives_throw (hx.2 e rfl)
  | ok r => exact hf r (hx.1 r rfl)

end Arrives

/-! ### Tokens -/

section Readers

variable {α : Type} {P : α → Prop} {members : Members} {inner node : Node} {outer : List Node} {own : ClassDef}

theorem Arrives.bind_mark (h : s.IsRest gs) {f : Read Token gs.length → Except CompileError α}
    (hf : ∀ r, (s.token gs).token.kind = .mark c → r.value = (s.token gs).token → r.rest = (s.token gs).rest →
      s.Arrives P (f r)) : s.Arrives P (s.readMark c gs >>= f) := by
  unfold readMark
  split
  · next r hr =>
    obtain ⟨hk, hv, he⟩ := of_take? hr
    exact hf r hk hv he
  · exact arrives_throw (faultAt_unexpected h.suffix _)

section KeptByTokens

variable {I : List Glyph → Prop} (hI : s.KeptByTokens I)

include hI

theorem arrives_readWord (h : I gs) (what : String) : s.Arrives (Leaves IsWordText I) (s.readWord what gs) := by
  unfold readWord
  split
  · next name hk => exact arrives_pure ⟨isWordText_of_word hk, hI.word h hk⟩
  · exact arrives_throw (faultAt_unexpected (hI.isRest h).suffix _)

theorem arrives_readName (h : I gs) (what : String) : s.Arrives (Leaves IsNameText I) (s.readName what gs) := by
  refine (arrives_readWord hI h what).bind fun r hr => ?_
  split
  · exact arrives_throw (faultAt_token (hI.isRest h).suffix _)
  · next hd =>
    refine arrives_pure ⟨fun c hc => ?_, hr.2⟩
    rcases Bool.or_eq_true_iff.1 (hr.1 c hc) with hn | hc'
    · exact hn
    · rw [of_decide_eq_true hc'] at hc
      exact absurd (contains_iff_mem.2 hc) hd

theorem arrives_readMoreEntries {gs : List Glyph} (h : I gs) (what : String) {es : List String}
    (he : ∀ entry ∈ es, IsWordText entry) :
    s.Arrives (Leaves (fun es => ∀ entry ∈ es, IsWordText entry) I) (s.readMoreEntries what es gs) := by
  unfold readMoreEntries
  split
  · exact arrives_pure ⟨he, h⟩
  · next comma hc =>
    refine (arrives_readWord hI (hI.take? h (by simp) hc) what).bind fun entry hn => ?_
    have hlt := Nat.lt_trans entry.rest_lt comma.rest_lt
    have hm : ∀ e ∈ es ++ [entry.value], IsWordText e := by
      rw [forall_mem_append, forall_mem_singleton]
      exact ⟨he, hn.1⟩
    exact (arrives_readMoreEntries hn.2 what hm).bind fun more hm => arrives_pure hm
termination_by gs.length

theorem arrives_readEntries (h : I gs) (what : String) :
    s.Arrives (Leaves (fun es => ∀ entry ∈ es, IsWordText entry) I) (s.readEntries what gs) := by
  refine (arrives_readWord hI h what).bind fun entry he => ?_
  exact (arrives_readMoreEntries hI he.2 what (forall_mem_singleton.2 he.1)).bind fun more hm => arrives_pure hm

theorem arrives_readAlias (h : I gs) : s.Arrives (Leaves (fun name? => ∀ name ∈ name?, IsNameText name) I) (s.readAlias gs) := by
  unfold readAlias
  split
  · exact arrives_pure ⟨(fun _ h => by cases h), h⟩
  · next word hw =>
    refine (arrives_readName hI (hI.take? h (by simp) hw) _).bind fun name hn => arrives_pure ⟨?_, hn.2⟩
    rintro _ ⟨⟩
    exact hn.1

theorem arrives_readParents (h : I gs) :
    s.Arrives (Leaves (fun parents => ∀ parent ∈ parents, IsWordText parent) I) (s.readParents gs) := by
  unfold readParents
  split
  · exact arrives_pure ⟨forall_mem_nil _, h⟩
  · next word hw =>
    exact (arrives_readEntries hI (hI.take? h (by simp) hw) _).bind fun parents hp => arrives_pure hp

end KeptByTokens

/-! ### Groups and values -/

theorem faultAt_of_cutValue (hp : s.IsPlace place) (h : gs <:+ s.glyphs) (he : s.cutValue place gs = .error e) : s.FaultAt e := by
  fun_induction cutValue s place gs generalizing e with
  | case1 =>
    cases he
    exact ⟨place, _, hp, rfl⟩
  | case2 g rest _ ih | case7 g rest _ _ _ _ ih => exact ih ((suffix_cons g rest).trans h) (error_of_bind_pure he)
  | case3 g rest _ closer _ group post hsp ih =>
    exact ih (.trans ⟨group, splitGroup_append hsp⟩ h) (error_of_bind_pure he)
  | case4 g rest _ closer ha _ =>
    cases he
    exact faultAt_bracket h ha _
  | case5 | case6 => cases he

variable (hs : s.IsScan)

include hs

theorem arrives_readGroup (h : s.Reached start n gs) (hp : closer? opener = some closer) :
    s.Arrives (Leaves (s.IsGroupGlyphs opener closer) (s.Reached start n)) (s.readGroup opener closer gs) := by
  have ho := isLiteralStart_of_closer? hp
  refine Arrives.bind_mark (h.isRest hs) fun first hk hv _ => ?_
  split
  · next group rest hsp =>
    refine arrives_pure ⟨?_, h.group hp hk hsp⟩
    obtain ⟨pre, post, g, rest', hsk, rfl, hc⟩ := beginsCode_of_mark hs (h.isRest hs) hk ho
    rw [hsk] at hsp
    obtain ⟨body, -, -, hg, hl, -⟩ := hc.group hsp
    rw [(utf8Size_of_closer? hp).1] at hl
    refine ⟨pre, body, hg, hl.trans (by rw [← hc.glyph_eq]), ?_⟩
    rw [hl, glyphsOf_append] at hsp
    exact (nesting_inside (ne_of_closer? hp) ⟨congrArg Glyph.cover hc.glyph_eq, rfl⟩ hsp).1
  · rw [hv]
    exact arrives_throw (faultAt_token (h.isRest hs).suffix _)

theorem arrives_readBlock (h : s.Reached start n gs) :
    s.Arrives (Leaves (fun block => ∀ name params, s.IsBody ⟨name, params, block.1, block.2⟩) (s.Reached start n)) (s.readBlock gs) := by
  refine (arrives_readGroup hs h rfl).bind fun r hr => arrives_pure ⟨fun name params => ?_, hr.2⟩
  obtain ⟨pre, body, hg, hl, hn⟩ := hr.1
  refine ⟨pre, body, hg, ?_, ?_, hn⟩
  · simp only [Read.map, hl, insideGroup, drop_succ_cons, drop_zero, String.toList_ofList]
    rw [glyphsOf_append, glyphsOf, glyphsOf, dropLast_concat, glyphText_glyphsOf]
  · simp only [Read.map, hl, take_succ_cons, take_zero, offsetOf]

theorem arrives_readParams (h : s.Reached start n gs) : s.Arrives (Leaves anything (s.Reached start n)) (s.readParams gs) := by
  refine (arrives_readGroup hs h rfl).bind fun r hr => ?_
  dsimp only
  have hi : (skipTrivia gs).drop 1 <:+ s.glyphs := (drop_suffix 1 _).trans ((suffix_skipTrivia gs).trans (h.isRest hs).suffix)
  cases hc : s.topCommas (s.offsetOf (r.value.drop (r.value.length - 1))) ((skipTrivia gs).drop 1) with
  | error e => exact arrives_throw (faultAt_of_topCommas hi hc)
  | ok commas => exact arrives_pure ⟨trivial, hr.2⟩

theorem arrives_readValue {mark : Char} (h : s.Reached start n gs) (hf : s.Follows mark gs)
    (hm : mark = '=' ∨ mark = ':') : s.Arrives (Leaves s.IsValue (s.Reached start n)) (s.readValue gs) := by
  obtain ⟨pre, post, g, hc, rfl⟩ := hf
  have hb : isBlank g.char = false := by
    rcases hm with h | h <;>
    · rw [h]
      decide
  unfold readValue
  cases hu : s.cutValue (s.offsetOf gs) gs with
  | error e =>
    have hp : s.IsPlace (s.offsetOf gs) := .inr ⟨g, gs, hc.isRest_cons.suffix, hb, .inr rfl⟩
    exact arrives_throw (faultAt_of_cutValue hp (h.isRest hs).suffix hu)
  | ok r =>
    have ht : s.CutsOff (s.offsetOf gs) gs r.value r.rest := ⟨r, hu, rfl, rfl⟩
    exact arrives_pure ⟨ht.isValue hc hm, h.value ht⟩

theorem Arrives.bind_value (hc : c = '=' ∨ c = ':') (h : s.Reached start n gs)
    {f : (r : Read Token gs.length) → Read String (r.rest.length + 1) → Except CompileError α}
    (hf : ∀ r v, s.IsValue v.value → s.Reached start n v.rest → s.Arrives P (f r v)) :
    s.Arrives P (s.readMark c gs >>= fun r => s.readValue r.rest >>= f r) := by
  have hm : c ∉ ['{', '}', '/'] ∧ isLiteralStart c = false := by rcases hc with rfl | rfl <;> decide
  refine Arrives.bind_mark (h.isRest hs) fun r hk _ hr => ?_
  have ho := follows_of_mark hs (h.isRest hs) hm.2 hk
  have hb := (keptByTokens_reached hs start n).mark h hm.1 hk
  rw [← hr] at ho hb
  exact (arrives_readValue hs hb ho hc).bind fun v hv => hf r v hv.1 hv.2

/-! ### Sections -/

omit hs in
theorem not_mark_of_key? {t : Token} {key : String} (h : t.key? = some key) : ∀ c ∈ ['{', '}', '/'], t.kind ≠ .mark c := by
  intro c _ hm
  simp [Token.key?, hm] at h

theorem arrives_readDeclarations {gs : List Glyph} (h : s.Reached start (n + 1) gs) (unquote : Bool) {map : PropertyMap}
    (hm : map.HasKeys) : s.Arrives (Leaves PropertyMap.HasKeys (s.Reached start n)) (s.readDeclarations unquote map gs) := by
  unfold readDeclarations
  split
  · next r hr =>
    obtain ⟨hk, -, he⟩ := of_take? hr
    exact arrives_pure ⟨hm, he ▸ h.closed hk⟩
  · dsimp only
    split
    · exact arrives_throw (faultAt_unexpected (h.isRest hs).suffix _)
    · next key hke =>
      split
      · exact arrives_throw (faultAt_token (h.isRest hs).suffix _)
      · next hp =>
        refine Arrives.bind_value hs (.inr rfl) (h.token (not_mark_of_key? hke)) fun colon v _ hv => ?_
        have hlt : v.rest.length < gs.length := by
          have h₁ := colon.rest_lt
          have h₂ := v.rest_lt
          have h₃ := (s.token gs).rest_le
          omega
        have hy (text : String) : (map.insert key text).HasKeys := hm.insert (by simpa using hp)
        exact (arrives_readDeclarations hv unquote (hy _)).bind fun more ho => arrives_pure ho
termination_by gs.length

theorem arrives_readSection (h : s.Reached start n gs) (unquote : Bool) {map : PropertyMap} (hm : map.HasKeys) :
    s.Arrives (Leaves PropertyMap.HasKeys (s.Reached start n)) (s.readSection unquote map gs) := by
  refine Arrives.bind_mark (h.isRest hs) fun brace hk _ he => ?_
  exact (arrives_readDeclarations hs (he ▸ h.opened hk) unquote hm).bind fun r hr => arrives_pure hr

theorem arrives_readMethod (h : s.Reached start n gs) (name : String) :
    s.Arrives (Leaves (fun m => s.IsBody m ∧ m.name = name) (s.Reached start n)) (s.readMethod name gs) := by
  refine (arrives_readParams hs h).bind fun params hp => ?_
  exact (arrives_readBlock hs hp.2).bind fun block hb => arrives_pure ⟨⟨hb.1 name params.value, rfl⟩, hb.2⟩

theorem arrives_readVariable (h : s.Reached start n gs) :
    s.Arrives (Leaves s.IsVariable (s.Reached start n)) (s.readVariable gs) := by
  have hk := keptByTokens_reached hs start n
  refine (arrives_readName hk h _).bind fun name hn => ?_
  split
  · next equals he =>
    obtain ⟨hi, -, hr⟩ := of_take? he
    have hf := follows_of_mark hs (hn.2.isRest hs) (by decide) hi
    rw [← hr] at hf
    refine (arrives_readValue hs (hk.take? hn.2 (by simp) he) hf (.inl rfl)).bind fun v hv => ?_
    refine arrives_pure ⟨⟨hn.1, ?_⟩, hv.2⟩
    rintro raw ⟨⟩
    exact hv.1
  · split
    · next stop ht => exact arrives_pure ⟨⟨hn.1, nofun⟩, hk.take? hn.2 (by simp) ht⟩
    · exact arrives_pure ⟨⟨hn.1, nofun⟩, hn.2⟩

theorem arrives_readMember (h : s.Reached start n gs) (v : Visibility) (he : members.CutFrom s) :
    s.Arrives (Leaves (Members.CutFrom s) (s.Reached start n)) (s.readMember v members gs) := by
  have hk := keptByTokens_reached hs start n
  have hu := (h.isRest hs).suffix
  unfold readMember
  dsimp only
  split
  · next word hi =>
    have hr := hk.word h hi
    split
    · exact (arrives_readVariable hs hr).bind fun x hx => arrives_pure ⟨he.addVariable v hx.1, hx.2⟩
    split
    · split
      · exact arrives_throw (faultAt_token hu _)
      split
      · exact arrives_throw (faultAt_token hu _)
      exact (arrives_readMethod hs hr _).bind fun m hm => arrives_pure ⟨he.setConstructor hm.1.1, hm.2⟩
    split
    · split
      · next ho =>
        refine (arrives_readWord hk hr _).bind fun name hn => ?_
        refine (arrives_readMethod hs hn.2 _).bind fun m hm => arrives_pure ⟨he.addPart hm.1.1 ?_, hm.2⟩
        rintro (hw | hw) <;> exact absurd (hw.symm.trans ho) (by decide)
      · refine (arrives_readName hk hr _).bind fun name hn => ?_
        exact (arrives_readMethod hs hn.2 _).bind fun m hm =>
          arrives_pure ⟨he.addPart hm.1.1 fun _ => hm.1.2 ▸ hn.1, hm.2⟩
    split
    · refine (arrives_readName hk hr _).bind fun name hn => ?_
      exact (arrives_readMethod hs hn.2 _).bind fun m hm =>
        arrives_pure ⟨he.addMethod v hm.1.1 (hm.1.2 ▸ hn.1), hm.2⟩
    split
    · refine (arrives_readName hk h _).bind fun name hn => ?_
      exact (arrives_readMethod hs hn.2 _).bind fun m hm =>
        arrives_pure ⟨he.addMethod v hm.1.1 (hm.1.2 ▸ hn.1), hm.2⟩
    · exact arrives_throw (faultAt_unexpected hu _)
  · exact arrives_throw (faultAt_unexpected hu _)

theorem arrives_readMembers {gs : List Glyph} (h : s.Reached start (n + 1) gs) (v : Visibility) {members : Members}
    (hm : members.CutFrom s) : s.Arrives (Leaves (Members.CutFrom s) (s.Reached start n)) (s.readMembers v members gs) := by
  unfold readMembers
  split
  · next r hr =>
    obtain ⟨hk, -, he⟩ := of_take? hr
    exact arrives_pure ⟨hm, he ▸ h.closed hk⟩
  · refine (arrives_readMember hs h v hm).bind fun r hr => ?_
    have hlt := r.rest_lt
    exact (arrives_readMembers hr.2 v hr.1).bind fun more ho => arrives_pure ho
termination_by gs.length

theorem arrives_readTier (h : s.Reached start n gs) (v : Visibility) (hm : members.CutFrom s) :
    s.Arrives (Leaves (Members.CutFrom s) (s.Reached start n)) (s.readTier v members gs) := by
  refine Arrives.bind_mark (h.isRest hs) fun brace hk _ he => ?_
  exact (arrives_readMembers hs (he ▸ h.opened hk) v hm).bind fun r hr => arrives_pure hr

/-! ### Instances -/

/-- The instance is as read, and where it begins a fault can be reported. -/
def Standing (s : Source) (own : Instance) : Prop := own.ReadFrom s ∧ s.IsPlace own.offset

theorem arrives_readHead (h : s.Reached start n gs) :
    s.Arrives (Leaves s.Standing (s.Reached start (n + 1))) (s.readHead gs) := by
  have hk := keptByTokens_reached hs start n
  refine (arrives_readEntries hk h _).bind fun entries he => ?_
  refine (arrives_readAlias hk he.2).bind fun name hn => ?_
  refine Arrives.bind_mark (hn.2.isRest hs) fun brace hi _ hr => ?_
  have hre : Instance.ReadFrom s { entries := entries.value, name? := name.value, offset := (s.token gs).token.start } :=
    ⟨he.1, hn.1, .empty, .empty, .empty s, .empty s⟩
  exact arrives_pure ⟨⟨hre, isPlace_token (h.isRest hs).suffix⟩, hr ▸ hn.2.opened hi⟩

/-- What an item of a body makes or opens, and how many braces are open behind it, if it stands
inside `n` braces and its own. -/
def ItemAt (s : Source) (start : List Glyph) (n : Nat) : NodeItem → List Glyph → Prop
  | .close, rest => s.Reached start n rest
  | .change own, rest => s.Standing own ∧ s.Reached start (n + 1) rest
  | .child head, rest => s.Standing head ∧ s.Reached start (n + 2) rest

theorem arrives_readNodeItem (h : s.Reached start (n + 1) gs) {own : Instance} (ho : s.Standing own) :
    s.Arrives (fun r => s.ItemAt start n r.value r.rest) (s.readNodeItem own gs) := by
  have hk := keptByTokens_reached hs start (n + 1)
  obtain ⟨ho, hp⟩ := ho
  unfold readNodeItem
  dsimp only
  split
  · exact arrives_throw ⟨_, _, hp, rfl⟩
  · next hi => exact arrives_pure (h.closed hi)
  · next word hi =>
    have he := hk.word h hi
    split
    · exact (arrives_readSection hs he false ho.style).bind fun r hr =>
        arrives_pure ⟨⟨{ ho with style := hr.1 }, hp⟩, hr.2⟩
    split
    · exact (arrives_readSection hs he true ho.attributes).bind fun r hr =>
        arrives_pure ⟨⟨{ ho with attributes := hr.1 }, hp⟩, hr.2⟩
    split
    · next v _ =>
      exact (arrives_readTier hs he v ho.members).bind fun r hr =>
        arrives_pure ⟨⟨{ ho with members := hr.1 }, hp⟩, hr.2⟩
    split
    · refine (arrives_readName hk h _).bind fun name hn => ?_
      refine Arrives.bind_value hs (.inl rfl) hn.2 fun equals val hc hv => ?_
      exact arrives_pure ⟨⟨{ ho with assignments := ho.assignments.insert hn.1 hc }, hp⟩, hv⟩
    · exact (arrives_readHead hs h).bind fun head hh => arrives_pure hh
  · exact arrives_throw (faultAt_unexpected (h.isRest hs).suffix _)

/-- An instance that is still open, with the instances in it that were read. -/
def OpenNode (s : Source) (node : Node) : Prop := s.ReadNode node ∧ s.IsPlace node.label.offset

/-- As many braces stand open as instances, besides those that were open before, and all these
instances are as read. -/
def OpenNodes (s : Source) (start : List Glyph) (n : Nat) (inner : Node) (outer : List Node) (gs : List Glyph) : Prop :=
  s.OpenNode inner ∧ (∀ node ∈ outer, s.OpenNode node) ∧ s.Reached start (n + outer.length + 1) gs

/-- What is open behind an item. -/
def OpenBehind (s : Source) (start : List Glyph) (n : Nat) (inner : Node) (outer : List Node) (rest : List Glyph) :
    NodeItem → Prop
  | .close =>
    match outer with
    | [] => s.ReadNode inner ∧ s.Reached start n rest
    | parent :: outer => s.OpenNodes start n (parent.addChild inner) outer rest
  | .change own => s.OpenNodes start n (.node own inner.children) outer rest
  | .child head => s.OpenNodes start n (.node head []) (inner :: outer) rest

omit hs in
theorem OpenNode.standing (h : s.OpenNode node) : s.Standing node.label := by
  obtain ⟨own, children⟩ := node
  exact ⟨(readNode_node.1 h.1).1, h.2⟩

theorem OpenNodes.item (h : s.OpenNodes start n inner outer gs) :
    s.Arrives (fun r => s.OpenBehind start n inner outer r.rest r.value) (s.readNodeItem inner.label gs) := by
  obtain ⟨hi, ho, h⟩ := h
  refine (arrives_readNodeItem hs h hi.standing).imp fun r hr => ?_
  obtain ⟨v, rest, hlt⟩ := r
  obtain ⟨own, children⟩ := inner
  obtain ⟨-, hc⟩ := readNode_node.1 hi.1
  cases v with
  | close =>
    cases outer with
    | nil => exact ⟨hi.1, hr⟩
    | cons parent outer =>
      obtain ⟨hp, ht⟩ := forall_mem_cons.1 ho
      refine ⟨⟨readNode_addChild hp.1 hi.1, ?_⟩, ht, hr⟩
      exact hp.2
  | change own' => exact ⟨⟨readNode_node.2 ⟨hr.1.1, hc⟩, hr.1.2⟩, ho, hr.2⟩
  | child head => exact ⟨⟨readNode_node.2 ⟨hr.1.1, forall_mem_nil _⟩, hr.1.2⟩, forall_mem_cons.2 ⟨hi, ho⟩, hr.2⟩

theorem arrives_readBody {gs : List Glyph} {inner : Node} {outer : List Node} (h : s.OpenNodes start n inner outer gs) :
    s.Arrives (Leaves s.ReadNode (s.Reached start n)) (s.readBody inner outer gs) := by
  unfold readBody
  refine (h.item hs).bind fun item hi => ?_
  have hlt := item.rest_lt
  split
  · next hc =>
    rw [hc] at hi
    split
    · exact arrives_pure hi
    · exact (arrives_readBody hi).bind fun r hr => arrives_pure hr
  · next own hh =>
    rw [hh] at hi
    exact (arrives_readBody hi).bind fun r hr => arrives_pure hr
  · next head hci =>
    rw [hci] at hi
    exact (arrives_readBody hi).bind fun r hr => arrives_pure hr
termination_by gs.length

omit hs in
theorem openNodes_of_head {head : Instance} (h : s.Standing head)
    (hr : s.Reached start (n + 1) gs) : s.OpenNodes start n (.node head []) [] gs :=
  ⟨⟨readNode_node.2 ⟨h.1, forall_mem_nil _⟩, h.2⟩, forall_mem_nil _, hr⟩

theorem arrives_readNode (h : s.Reached start n gs) : s.Arrives (Leaves s.ReadNode (s.Reached start n)) (s.readNode gs) := by
  refine (arrives_readHead hs h).bind fun head hh => ?_
  exact (arrives_readBody hs (openNodes_of_head hh.1 hh.2)).bind fun r hr => arrives_pure hr

/-! ### Classes -/

omit hs in
/-- The glyphs stand right behind the mark `c`, which was come to in the way of `I`. -/
def Behind (s : Source) (c : Char) (I : List Glyph → Prop) (rest : List Glyph) : Prop :=
  ∃ gs, I gs ∧ (s.token gs).token.kind = .mark c ∧ rest = (s.token gs).rest

/-- The class is as read, and where it begins a fault can be reported. -/
def OpenClass (s : Source) (own : ClassDef) : Prop := own.ReadFrom s ∧ s.IsPlace own.offset

omit hs in
theorem arrives_readClassHead (hI : s.KeptByTokens I) (h : I gs) :
    s.Arrives (Leaves s.OpenClass (s.Behind '{' I)) (s.readClassHead gs) := by
  unfold readClassHead
  split
  · exact arrives_throw (faultAt_unexpected (hI.isRest h).suffix _)
  · next word hw =>
    have hp := isPlace_token (hI.isRest h).suffix
    rw [← (of_take? hw).2.1] at hp
    refine (arrives_readName hI (hI.take? h (by simp) hw) _).bind fun name hn => ?_
    refine (arrives_readParents hI hn.2).bind fun parents ha => ?_
    refine Arrives.bind_mark (hI.isRest ha.2) fun brace hk _ hr => ?_
    have he : ClassDef.ReadFrom s { name := name.value, parents := parents.value, offset := word.value.start } :=
      ⟨hn.1, ha.1, .empty, .empty, forall_mem_nil _, .empty s, forall_mem_nil _⟩
    exact arrives_pure ⟨⟨he, hp⟩, _, ha.2, hk, hr⟩

/-- What an item of the body of a class makes of it and where reading goes on behind it, or behind
the brace that ends the body. -/
def ClassItemAt (s : Source) (start : List Glyph) (n : Nat) (gs : List Glyph) : Option ClassDef → List Glyph → Prop
  | none, rest => (s.token gs).token.kind = .mark '}' ∧ rest = (s.token gs).rest
  | some own, rest => s.OpenClass own ∧ s.Reached start n rest

theorem arrives_readClassItem (h : s.Reached start n gs) (ho : s.OpenClass own) :
    s.Arrives (fun r => s.ClassItemAt start n gs r.value r.rest) (s.readClassItem own gs) := by
  have hk := keptByTokens_reached hs start n
  obtain ⟨ho, hp⟩ := ho
  unfold readClassItem
  dsimp only
  split
  · exact arrives_throw ⟨_, _, hp, rfl⟩
  · next hi => exact arrives_pure ⟨hi, rfl⟩
  · next word hi =>
    have he := hk.word h hi
    split
    · exact (arrives_readSection hs he false ho.style).bind fun r hr =>
        arrives_pure ⟨⟨{ ho with style := hr.1 }, hp⟩, hr.2⟩
    split
    · exact (arrives_readSection hs he true ho.attributes).bind fun r hr =>
        arrives_pure ⟨⟨{ ho with attributes := hr.1 }, hp⟩, hr.2⟩
    split
    · refine Arrives.bind_mark (he.isRest hs) fun colon hi _ hc => ?_
      have hb := hk.mark he (by decide) hi
      rw [← hc] at hb
      refine (arrives_readWord hk hb _).bind fun state ht => ?_
      refine (arrives_readBlock hs ht.2).bind fun block hl => arrives_pure ⟨⟨{ ho with states := ?_ }, hp⟩, hl.2⟩
      rw [forall_mem_append, forall_mem_singleton]
      exact ⟨ho.states, ht.1⟩
    split
    · next v _ =>
      exact (arrives_readTier hs he v ho.members).bind fun r hr =>
        arrives_pure ⟨⟨{ ho with members := hr.1 }, hp⟩, hr.2⟩
    · refine (arrives_readNode hs h).bind fun child hh => arrives_pure ⟨⟨{ ho with children := ?_ }, hp⟩, hh.2⟩
      rw [forall_mem_append, forall_mem_singleton]
      exact ⟨ho.children, hh.1⟩
  · exact arrives_throw (faultAt_unexpected (h.isRest hs).suffix _)

theorem arrives_readClassBody {gs : List Glyph} (h : s.Reached start n gs) {own : ClassDef} (ho : s.OpenClass own) :
    s.Arrives (Leaves (ClassDef.ReadFrom s) (s.Behind '}' (s.Reached start n))) (s.readClassBody own gs) := by
  unfold readClassBody
  refine (arrives_readClassItem hs h ho).bind fun item hi => ?_
  have hlt := item.rest_lt
  split
  · next hn =>
    rw [hn] at hi
    exact arrives_pure ⟨ho.1, gs, h, hi⟩
  · next own' hso =>
    rw [hso] at hi
    exact (arrives_readClassBody hi.2 hi.1).bind fun r hr => arrives_pure hr
termination_by gs.length

theorem arrives_readClass (hI : s.KeptByTokens I) (h : I gs) :
    s.Arrives (Leaves (ClassDef.ReadFrom s) fun rest => ∃ inside, s.Behind '{' I inside ∧ s.Behind '}' (s.Reached inside 0) rest)
      (s.readClass gs) := by
  refine (arrives_readClassHead hI h).bind fun head hh => ?_
  have hi : s.IsRest head.rest := by
    obtain ⟨mid, hm, hk, he⟩ := hh.2
    rw [he]
    exact isRest_token hs (hI.isRest hm) (by rw [hk]; simp)
  exact (arrives_readClassBody hs (.start hi) hh.1).bind fun r hr => arrives_pure ⟨hr.1, _, hh.2, hr.2⟩

theorem readFrom_of_readClasses {starts : List Nat} (hst : ∀ start ∈ starts, s.IsRest (s.glyphsFrom start))
    (ht : ∀ c ∈ table.classes, ClassDef.ReadFrom s c) (h : s.readClasses table starts = .ok table') :
    ∀ c ∈ table'.classes, ClassDef.ReadFrom s c := by
  induction starts generalizing table with
  | nil =>
    cases h
    exact ht
  | cons start starts ih =>
    obtain ⟨ha, hst⟩ := forall_mem_cons.1 hst
    obtain ⟨c, hc, h⟩ := bind_eq_ok.1 h
    obtain ⟨hr, -⟩ := (arrives_readClass hs (keptByTokens_isRest hs) ha).1 c hc
    split at h
    · next table'' hi =>
      refine ih hst ?_ h
      unfold ClassTable.insert? at hi
      split at hi
      · cases hi
      · cases hi
        rw [forall_mem_append, forall_mem_singleton]
        exact ⟨ht, hr⟩
    · cases h

/-! ### Pages -/

theorem arrives_readDataFile (h : s.Reached start n gs) :
    s.Arrives (Leaves anything (s.Reached start n)) (s.readDataFile gs) := by
  have hk := keptByTokens_reached hs start n
  refine (arrives_readName hk h _).bind fun label hl => ?_
  refine Arrives.bind_mark (hl.2.isRest hs) fun colon hi _ hr => ?_
  have hc := hk.mark hl.2 (by decide) hi
  rw [← hr] at hc
  dsimp only
  split
  · exact arrives_throw (faultAt_unexpected (hc.isRest hs).suffix _)
  · next path hp =>
    have hq : ∀ c ∈ ['{', '}', '/'], (s.token colon.rest).token.kind ≠ .mark c := by
      intro c _ hm
      rw [hm] at hp
      cases hp
    have hb := hc.token hq
    refine Arrives.bind_mark (hb.isRest hs) fun stop hi _ hr => ?_
    exact arrives_pure ⟨trivial, hr ▸ hk.mark hb (by decide) hi⟩

theorem arrives_readPageFrom {gs : List Glyph} (h : s.IsRest gs) {page : Page} (hp : ∀ node ∈ page.nodes, s.ReadNode node) :
    s.Arrives (fun page => ∀ node ∈ page.nodes, s.ReadNode node) (s.readPageFrom page gs) := by
  unfold readPageFrom
  dsimp only
  split
  · exact arrives_pure hp
  · next name hk =>
    split
    · have hf : s.Reached gs 0 (s.token gs).rest := (Reached.start h).token fun c _ => by rw [hk]; simp
      refine (arrives_readDataFile hs hf).bind fun file hi => ?_
      have hlt := Nat.lt_trans file.rest_lt ((s.token gs).rest_lt_of_directive hk)
      exact arrives_readPageFrom (hi.2.isRest hs) hp
    · split <;> exact arrives_throw (faultAt_token h.suffix _)
  · split
    · exact arrives_throw (faultAt_token h.suffix _)
    · refine (arrives_readNode hs (.start h)).bind fun node hn => ?_
      have hlt := node.rest_lt
      refine arrives_readPageFrom (hn.2.isRest hs) ?_
      rw [forall_mem_append, forall_mem_singleton]
      exact ⟨hp, hn.1⟩
  · exact arrives_throw (faultAt_unexpected h.suffix _)
termination_by gs.length

end Readers

end Source

theorem ClassTable.readFrom_of_ofText (h : ofText text = .ok table) :
    ∃ s, Source.ofText text = .ok s ∧ ∀ c ∈ table.classes, c.ReadFrom s := by
  obtain ⟨s, hs, h⟩ := bind_eq_ok.1 h
  obtain ⟨blocks, hb, h⟩ := bind_eq_ok.1 h
  refine ⟨s, hs, Source.readFrom_of_readClasses (Source.isScan_ofText hs) (fun start ht => ?_) ?_ h⟩
  · obtain ⟨block, hl, rfl⟩ := mem_map.1 ht
    exact Source.isRest_of_mem_classBlocksFrom suffix_rfl hb hl
  · rintro c ⟨⟩

theorem Page.readFrom_of_ofText (h : ofText text = .ok page) :
    ∃ s, Source.ofText text = .ok s ∧ ∀ own ∈ Tree.labelsAll page.nodes, own.ReadFrom s := by
  obtain ⟨s, hs, h⟩ := bind_eq_ok.1 h
  have hn := (Source.arrives_readPageFrom (Source.isScan_ofText hs) s.isRest_glyphs (by rintro node ⟨⟩)).1 page h
  refine ⟨s, hs, fun own ho => ?_⟩
  obtain ⟨node, hno, ho⟩ := Tree.mem_labelsAll.1 ho
  exact hn node hno own ho

end Pagewright
