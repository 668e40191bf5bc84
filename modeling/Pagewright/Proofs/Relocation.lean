import Pagewright.Proofs.CallSites
import Pagewright.Proofs.MethodOffsets
import Pagewright.Proofs.PagePositions

/-!
# Relocation

A fault inside a body is found at an offset of the body. Its position is counted on from where the
body begins, which is the position of the same byte in the whole text
(`Position.relativeTo_ofOffset`) if the body stands there as it was read. So it is for all that is
found in the body itself (`BodyContext.prepare_relocates`), but not for what is found when the body
is scanned again with its parent calls replaced. -/

namespace Pagewright

open List

/-! ### Positions -/

namespace Position

variable {p base : Position} {cs ds : List Char} {n : Nat}

theorem advance_append_of_le (h : n ≤ byteSize cs) : p.advance (cs ++ ds) n = p.advance cs n := by
  fun_induction advance p cs n with
  | case1 cs p => cases cs <;> cases ds <;> rfl
  | case2 p n hn => exact absurd (Nat.le_zero.1 h) hn
  | case3 p c cs n ih =>
    exact ih (by rw [byteSize] at h; omega)

theorem relativeTo_next (hl : 1 ≤ p.line) (hc : 1 ≤ p.column) (c : Char) :
    (p.next c).relativeTo base = (p.relativeTo base).next c := by
  unfold next relativeTo
  split_ifs <;> simp_all <;> omega

theorem relativeTo_advance (hl : 1 ≤ p.line) (hc : 1 ≤ p.column) :
    (p.advance cs n).relativeTo base = (p.relativeTo base).advance cs n := by
  fun_induction advance p cs n with
  | case1 cs p => cases cs <;> rfl
  | case2 p n hn => cases n <;> rfl
  | case3 p c cs n ih =>
    have hnext : 1 ≤ (p.next c).line ∧ 1 ≤ (p.next c).column := by
      unfold next
      split_ifs <;> simp [hl]
    rw [ih hnext.1 hnext.2, relativeTo_next hl hc, advance]

theorem relativeTo_ofOffset (front back : List Char) (offset : Nat) :
    (ofOffset back offset).relativeTo (ofOffset (front ++ back) (byteSize front)) =
      ofOffset (front ++ back) (byteSize front + offset) := by
  rw [ofOffset, relativeTo_advance (Nat.le_refl 1) (Nat.le_refl 1), ofOffset, ofOffset, advance_append, advance_byteSize]
  rfl

end Position

/-- The body of the method stands in the text where its offset says. -/
def Method.StandsIn (m : Method) (text : List Char) : Prop :=
  ∃ front back, text = front ++ (m.body.toList ++ back) ∧ m.offset = byteSize front

theorem Method.StandsIn.relocate {m : Method} {text : List Char} (h : m.StandsIn text) {place : Nat}
    (hp : place ≤ byteSize m.body.toList) (fault : ParseFault) :
    (CompileError.atOffset m.body.toList place fault).relocate (.ofOffset text m.offset) = .atOffset text (m.offset + place) fault := by
  obtain ⟨front, back, rfl, ho⟩ := h
  have hb : Position.ofOffset (m.body.toList ++ back) place = .ofOffset m.body.toList place := Position.advance_append_of_le hp
  rw [CompileError.atOffset, CompileError.relocate, CompileError.atOffset, ho, ← hb, Position.relativeTo_ofOffset]

theorem Source.HasBody.standsIn {s : Source} {m : Method} (h : s.HasBody m) : m.StandsIn s.text := by
  obtain ⟨front, back, ht, ho⟩ := h.text
  exact ⟨front ++ ['{'], '}' :: back, by rw [ht]; simp, by rw [ho, byteSize_append]; rfl⟩

/-! ### Faults found in a body -/

/-- The error is found at an offset of the text. -/
def CompileError.IsFoundIn (text : List Char) (e : CompileError) : Prop :=
  ∃ place fault, place ≤ byteSize text ∧ e = .atOffset text place fault

namespace Source

variable {s : Source} {gs : List Glyph} {e : CompileError} {text : List Char}

theorem isFoundIn_of_ofText (h : ofText text = .error e) : e.IsFoundIn text := by
  unfold ofText at h
  split at h
  · cases h
  · next unterminated hp =>
    cases h
    obtain ⟨front, c, back, rfl, -, ho⟩ := exists_start_of_unterminated hp
    exact ⟨_, _, by rw [ho, Nat.zero_add, byteSize_append]; exact Nat.le_add_right _ _, rfl⟩

theorem offsetOf_le (h : gs <:+ s.glyphs) : s.offsetOf gs ≤ byteSize s.text := by
  obtain ⟨front, ht, ho⟩ := text_of_suffix h
  rw [ho, ht, byteSize_append]
  exact Nat.le_add_right _ _

theorem callArguments_suffix (gs : List Glyph) : callArguments gs <:+ gs := by
  have hp : afterPointedName (afterName gs) <:+ afterName gs := by
    unfold afterPointedName
    split_ifs
    · exact suffix_rfl
    · exact drop_suffix _ _
  exact (dropWhile_suffix _).trans (hp.trans (drop_suffix _ _))

theorem readCall_cases {g : Glyph} (h : g :: gs <:+ s.glyphs) : (∃ e, s.readCall g.offset gs = .error e ∧ e.IsFoundIn s.text) ∨
      ∃ r, s.readCall g.offset gs = .ok r ∧ r.rest <:+ gs := by
  unfold readCall
  dsimp only
  split
  · exact .inl ⟨_, rfl, _, _, offsetOf_le h, rfl⟩
  · split
    · next hg => exact .inr ⟨_, rfl, .trans ⟨_, splitGroup_append hg⟩ (callArguments_suffix gs)⟩
    · exact .inl ⟨_, rfl, _, _, offsetOf_le ((callArguments_suffix gs).trans ((suffix_cons g gs).trans h)), rfl⟩

theorem isFoundIn_of_divideFrom {before : List Char} (hs : gs <:+ s.glyphs)
    (h : s.divideFrom before gs = .error e) : e.IsFoundIn s.text := by
  fun_induction divideFrom s before gs with
  | case1 => cases h
  | case2 before g rest hg e' hc =>
    cases h
    rcases readCall_cases hs with ⟨e', he, hf⟩ | ⟨r, hr, -⟩
    · cases hc.symm.trans he
      exact hf
    · cases hc.symm.trans hr
  | case3 before g rest hg r hc ih =>
    rcases readCall_cases hs with ⟨e', he, -⟩ | ⟨r', hr, hsuffix⟩
    · cases hc.symm.trans he
    · cases hc.symm.trans hr
      exact ih (hsuffix.trans ((suffix_cons g rest).trans hs)) (eq_error_of_map_eq_error h)
  | case4 before g rest hg ih => exact ih ((suffix_cons g rest).trans hs) (eq_error_of_map_eq_error h)

theorem tail_of_divideFrom {before : List Char} {d : DividedBody}
    (h : s.divideFrom before gs = .ok d) (hc : d.calls = []) : d.tail = glyphText gs := by
  fun_induction divideFrom s before gs generalizing d with
  | case1 => cases h; rfl
  | case2 => cases h
  | case3 =>
    obtain ⟨d', -, rfl⟩ := exists_of_map_eq_ok h
    cases hc
  | case4 before g rest hg ih =>
    obtain ⟨⟨calls, tail⟩, hd, rfl⟩ := exists_of_map_eq_ok h
    cases calls with
    | nil => exact congrArg (g.char :: ·) (ih hd rfl)
    | cons entry calls => cases hc

theorem isFoundIn_of_divide (h : (ofText text).bind divide = .error e) : e.IsFoundIn text := by
  rcases of_bind_eq_error h with hs | ⟨s, hs, h⟩
  · exact isFoundIn_of_ofText hs
  · exact text_ofText hs ▸ isFoundIn_of_divideFrom suffix_rfl h

end Source

theorem qualify_eq_error {ambient : Ambient} {params : List String} {text : List Char} {e : CompileError}
    (h : qualify ambient params text = .error e) : Source.ofText text = .error e ∨ e = .closedScope := by
  cases ha : ambient.isEmpty with
  | true =>
    rw [qualify, if_pos ha] at h
    cases h
  | false =>
    cases hs : Source.ofText text with
    | error e' =>
      rw [qualify, ha, hs] at h
      cases h
      exact .inl rfl
    | ok s =>
      rw [qualify_of_source ha hs] at h
      split_ifs at h
      cases h
      exact .inr rfl

namespace BodyContext

variable {ctx : BodyContext} {inCtor : Bool} {m : Method} {e : CompileError}

theorem resolve_eq_error {tail : List Char} {calls : List (List Char × ParentCall)}
    (h : ctx.resolve inCtor m tail calls = .error e) : ∃ call ∈ calls.map Prod.snd, ctx.table.meaning? ctx.entries inCtor call = none ∧
          e = .atOffset ctx.text (m.offset + call.start) (.unresolvedCall call.display) ∨
        ctx.table.meaning? ctx.entries inCtor call = some .chain ∧ qualify ctx.ambient m.paramNames call.args = .error e := by
  induction calls with
  | nil => cases h
  | cons entry calls ih =>
    obtain ⟨before, call⟩ := entry
    rcases of_bind_eq_error h with hd | ⟨done, -, h⟩
    · obtain ⟨call, hc, hw⟩ := ih hd
      exact ⟨call, mem_cons_of_mem _ hc, hw⟩
    · refine ⟨call, mem_cons_self, ?_⟩
      cases hm : ctx.table.meaning? ctx.entries inCtor call with
      | none =>
        rw [hm] at h
        cases h
        exact .inl ⟨rfl, rfl⟩
      | some meaning =>
        rw [hm] at h
        cases meaning with
        | inherited owner method => cases h
        | chain => exact .inr ⟨rfl, error_of_bind_pure h⟩

theorem prepare_of_error (ctx : BodyContext) (inCtor : Bool) (h : (Source.ofText m.body.toList).bind Source.divide = .error e) :
    ctx.prepare inCtor m = .error (e.relocate (.ofOffset ctx.text m.offset)) := by
  rw [prepare, h]
  rfl

theorem prepare_of_ok (ctx : BodyContext) (inCtor : Bool) {divided : DividedBody}
    (h : (Source.ofText m.body.toList).bind Source.divide = .ok divided) :
    ctx.prepare inCtor m = (ctx.resolve inCtor m divided.tail divided.calls).bind fun body =>
      ((qualify ctx.ambient m.paramNames body.text).mapError (·.relocate (.ofOffset ctx.text m.offset))).bind fun text =>
        .ok { body with text } := by
  rw [prepare, h]
  rfl

theorem prepare_eq_error {divided : DividedBody} (hd : (Source.ofText m.body.toList).bind Source.divide = .ok divided)
    (h : ctx.prepare inCtor m = .error e) : ctx.resolve inCtor m divided.tail divided.calls = .error e ∨
      ∃ resolved e', ctx.resolve inCtor m divided.tail divided.calls = .ok resolved ∧
        qualify ctx.ambient m.paramNames resolved.text = .error e' ∧ e = e'.relocate (.ofOffset ctx.text m.offset) := by
  rw [ctx.prepare_of_ok inCtor hd] at h
  rcases of_bind_eq_error h with hr | ⟨resolved, hr, h⟩
  · exact .inl hr
  · cases hq : qualify ctx.ambient m.paramNames resolved.text with
    | error e' =>
      rw [hq] at h
      exact .inr ⟨resolved, e', hr, hq, (Except.error.inj h).symm⟩
    | ok text =>
      rw [hq] at h
      cases h

/-- **Relocation.** A position in a part of a text that begins at a boundary, counted on from there,
is the position of the same byte in the text. The bodies of the methods of classes stand in the
text, those of the page in the text with the classes blanked out. What is wrong with a body that
stands in the text is reported at the position that the same byte has there: literals and calls that
do not end, and calls that mean nothing. What is found only in the arguments for a parent, or in the
body with its parent calls replaced, is not. -/
theorem prepare_relocates (text : List Char) :
    (∀ front back offset, text = front ++ back → (Position.ofOffset back offset).relativeTo (.ofOffset text (byteSize front)) =
      .ofOffset text (byteSize front + offset)) ∧
    (∀ source, PageSource.read text = .ok source → ∃ pageText, classlessText text = .ok pageText ∧
      (∀ c ∈ source.table.classes, ∀ m ∈ c.methods, m.StandsIn text) ∧
      ∀ own ∈ Tree.labelsAll source.page.nodes, ∀ m ∈ own.members.methods, m.StandsIn pageText) ∧
    ∀ (ctx : BodyContext) (inCtor : Bool) (m : Method), ctx.text = text → m.StandsIn text →
      (∀ e, (Source.ofText m.body.toList).bind Source.divide = .error e → ∃ place fault,
        place ≤ byteSize m.body.toList ∧ e = .atOffset m.body.toList place fault ∧
        ctx.prepare inCtor m = .error (.atOffset text (m.offset + place) fault)) ∧
      ∀ divided, (Source.ofText m.body.toList).bind Source.divide = .ok divided →
        ∀ e, ctx.prepare inCtor m = .error e → e = .closedScope ∨
          (∃ call ∈ divided.calls.map Prod.snd,
            ctx.table.meaning? ctx.entries inCtor call = none ∧
                e = .atOffset text (m.offset + call.start) (.unresolvedCall call.display) ∨
              ctx.table.meaning? ctx.entries inCtor call = some .chain ∧
                qualify ctx.ambient m.paramNames call.args = .error e) ∨
          divided.calls ≠ [] ∧ ∃ resolved place fault,
            ctx.resolve inCtor m divided.tail divided.calls = .ok resolved ∧
            Source.ofText resolved.text = .error (.atOffset resolved.text place fault) ∧
            e = .parse fault (some ((Position.ofOffset resolved.text place).relativeTo (.ofOffset text m.offset))) := by
  refine ⟨?_, fun source hread => ?_, ?_⟩
  · rintro front back offset rfl
    exact Position.relativeTo_ofOffset front back offset
  · obtain ⟨s, blocks, page, hs, -, hclassless, hpage, hclass, hown⟩ := PageSource.hasBody_of_read hread
    refine ⟨_, hclassless, fun c hc m hm => ?_, fun own ho m hm => ?_⟩
    · exact Source.text_ofText hs ▸ (hclass c hc m hm).standsIn
    · exact Source.text_ofText hpage ▸ (hown own ho m hm).standsIn
  · rintro ctx inCtor m rfl hm
    refine ⟨fun e he => ?_, fun divided hd e he => ?_⟩
    · obtain ⟨place, fault, hp, rfl⟩ := Source.isFoundIn_of_divide he
      exact ⟨place, fault, hp, rfl, by rw [prepare_of_error ctx inCtor he, hm.relocate hp]⟩
    · rcases prepare_eq_error hd he with hr | ⟨resolved, e', hr, hq, rfl⟩
      · exact .inr (.inl (resolve_eq_error hr))
      · rcases qualify_eq_error hq with ho | rfl
        · obtain ⟨place, fault, -, rfl⟩ := Source.isFoundIn_of_ofText ho
          refine .inr (.inr ⟨fun hc => ?_, resolved, place, fault, hr, ho, rfl⟩)
          -- A body without calls is scanned again as it is, which went well before.
          obtain ⟨s, hs, hdivide⟩ := bind_eq_ok.1 hd
          have htext : divided.tail = m.body.toList := by
            rw [Source.tail_of_divideFrom hdivide hc, ← Source.text_eq_glyphText, Source.text_ofText hs]
          rw [hc, htext] at hr
          cases hr
          cases hs.symm.trans ho
        · exact .inl rfl

/-- A body on the second line of a text, with a parent call in it that is not closed. -/
def unclosedCall : Method := ⟨"m", [], " é;^n(", 7⟩

def aroundUnclosedCall : BodyContext := ⟨.empty, "é\nm()\x7b é;^n(".toList, [], .empty⟩

/-- The parenthesis is the sixth character of the body and the tenth of its line. -/
theorem prepare_relocates_unclosedCall :
    ∃ e place fault, (Source.ofText unclosedCall.body.toList).bind Source.divide = .error e ∧ e.position? = some ⟨1, 6⟩ ∧
      e = .atOffset unclosedCall.body.toList place fault ∧
      aroundUnclosedCall.prepare false unclosedCall = .error (.atOffset aroundUnclosedCall.text (7 + place) fault) ∧
      faultPosition? (aroundUnclosedCall.prepare false unclosedCall) = some ⟨2, 10⟩ := by
  have hm : unclosedCall.StandsIn aroundUnclosedCall.text := ⟨"é\nm()\x7b".toList, [], by decide, by decide⟩
  have hf : faultPosition? ((Source.ofText unclosedCall.body.toList).bind Source.divide) = some ⟨1, 6⟩ := by decide +kernel
  obtain ⟨e, he, hp⟩ := exists_error_of_faultPosition? hf
  obtain ⟨place, fault, -, hplace, hprepare⟩ :=
    ((prepare_relocates aroundUnclosedCall.text).2.2 aroundUnclosedCall false unclosedCall rfl hm).1 e he
  exact ⟨e, place, fault, he, hp, hplace, hprepare, by decide +kernel⟩

/-- A constructor with a division behind the call of another, and a string with a slash in it. -/
def dividedCall : List Char :=
  "class A extends div\x7b\x7dclass B extends A\x7bpublic\x7bn()\x7b\x7dconstructor()\x7b^A()/'/ x'\x7d\x7d\x7d".toList

/-- Without the call the first slash begins a pattern. The last quote is reported four columns
before its place. -/
theorem compileText_dividedCall :
    ∃ e, compileText dividedCall ⟨"", ""⟩ = .error e ∧ e.position? = some ⟨1, 71⟩ ∧
      dividedCall.drop 74 = "'\x7d\x7d\x7d".toList ∧ Position.ofOffset dividedCall 74 = ⟨1, 75⟩ := by
  have heval : faultPosition? (compileText dividedCall ⟨"", ""⟩) = some ⟨1, 71⟩ := by decide +kernel
  obtain ⟨e, he, hp⟩ := exists_error_of_faultPosition? heval
  exact ⟨e, he, hp, by decide +kernel, by decide +kernel⟩

end BodyContext

end Pagewright
