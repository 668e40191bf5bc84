import Pagewright.Proofs.Crossings
import Pagewright.Proofs.Segments

/-!
# What is made behind texts of the source

A text of the source that is written into a script or a stylesheet may end inside a comment or with
a slash that has not begun a pattern. What is made behind it on its line (`exposed`) then belongs to
a literal. In a text that is well set (`wellSet`) all that is made is clear (`IsClear`) exactly if
every text of the source ends where it ends, scanned with the rest of its line and nothing else
(`isClear_iff`). Where no slash follows on the line, it is enough that it is scanned by itself and
does not end with a comment up to the end of its line (`endsBefore_iff`). -/

namespace Pagewright

open List
open Piece (chars)

variable {start offset : Nat} {ps qs pre ws : List Piece} {ctx ctx' : ScanContext} {cs text body later : List Char}
  {d c : Char}

/-! ### Offsets behind texts of the source -/

namespace Segment

/-- Whether a segment is a text of the source. -/
def isSpliced : Segment → Bool
  | spliced _ => true
  | _ => false

/-- Whether a text of the source stands before the end of a segment on its line. -/
def leaves (behind : Bool) : Segment → Bool
  | spliced _ => true
  | feed => false
  | _ => behind

/-- The offsets of the characters of a text that begins at `start`. -/
def offsetsFrom (start : Nat) : List Char → List Nat
  | [] => []
  | c :: cs => start :: offsetsFrom (start + c.utf8Size) cs

/-- The offsets of the characters that are made behind a text of the source on its line, the end of
the line included. The segments begin at `start`, and `behind` tells whether such a text stands
before them. -/
def exposedFrom (behind : Bool) (start : Nat) : List Segment → List Nat
  | [] => []
  | segment :: rest =>
    (if behind && !segment.isSpliced then offsetsFrom start segment.text else []) ++
      exposedFrom (segment.leaves behind) (start + byteSize segment.text) rest

/-- The offsets of what is made behind texts of the source. -/
def exposed (segments : List Segment) : List Nat := exposedFrom false 0 segments

/-- The text of the segments is scanned to its end, and no literal of it covers what is made behind
a text of the source. -/
def IsClear (segments : List Segment) : Prop :=
  ∃ s, Source.ofText (textOf segments) = .ok s ∧ ∀ offset ∈ exposed segments, s.isCovered offset = false

theorem bounds_of_mem_offsetsFrom (h : offset ∈ offsetsFrom start cs) : start ≤ offset ∧ offset < start + byteSize cs := by
  induction cs generalizing start with
  | nil => cases h
  | cons c cs ih =>
    have hp := c.utf8Size_pos
    rw [byteSize]
    rcases mem_cons.1 h with rfl | h
    · omega
    · have hb := ih h
      omega

theorem le_of_mem_exposedFrom {segments : List Segment} {behind : Bool}
    (h : offset ∈ exposedFrom behind start segments) : start ≤ offset := by
  induction segments generalizing start behind with
  | nil => cases h
  | cons segment rest ih =>
    rcases mem_append.1 h with h | h
    · split_ifs at h
      · exact (bounds_of_mem_offsetsFrom h).1
      · cases h
    · exact (Nat.le_add_right _ _).trans (ih h)

/-! ### Texts that are well set -/

/-- Whether a segment that is made is passed over wherever it stands. -/
def isSound : Segment → Bool
  | code text => isCodeText text.toList
  | property holder name => isCodeText (holder.toList ++ '.' :: name.toList)
  | feed | quoted _ | defined _ => true
  | spliced _ => false

/-- Whether a text begins behind a segment as it does at its very beginning; `ready` tells whether
it does before. -/
def readies (ready : Bool) : Segment → Bool
  | code text => readyAfter ready text.toList
  | property holder name => readyAfter ready (holder.toList ++ '.' :: name.toList)
  | feed => ready
  | quoted _ | defined _ | spliced _ => false

/-- The segments up to the end of the line. -/
def lineOf : List Segment → List Segment
  | [] => []
  | feed :: _ => [feed]
  | segment :: rest => segment :: lineOf rest

/-- Whether the segments go on to the end of the line with nothing but code and texts of the
source. -/
def endsLine : List Segment → Bool
  | feed :: _ => true
  | code _ :: rest => endsLine rest
  | spliced _ :: rest => endsLine rest
  | _ => false

/-- Whether the segments begin with a line of code. -/
def isCodeLine : List Segment → Bool
  | feed :: _ => true
  | code _ :: rest => isCodeLine rest
  | _ => false

/-- Whether a character does not go on with what a text ends with, unless that is a comment. -/
def standsApart (c : Char) : Bool := !(c.isAlpha || c = '+' || c = '-' || c = '*' || c = '/')

/-- Whether the segments can follow a text of the source: on its line with a character that does not
go on with it, or with a line of code below. -/
def followsText : List Segment → Bool
  | feed :: rest => isCodeLine rest
  | code text :: rest => text.toList.head?.any standsApart && endsLine rest
  | _ => false

/-- Whether all that is made is passed over wherever it stands, every text of the source begins as
at the very beginning of a text, and what follows does not go on with it. -/
def wellSet (ready : Bool) : List Segment → Bool
  | [] => true
  | segment :: rest =>
    (if segment.isSpliced then ready && followsText rest else segment.isSound) && wellSet (segment.readies ready) rest

/-! ### Lines -/

variable {ready behind : Bool} {segment : Segment} {segments rest : List Segment} {back : List Char}

theorem patternLength_of_not_mem (h : '/' ∉ cs) (bracketed : Bool) : patternLength bracketed cs = none := by
  induction cs using escape_induction generalizing bracketed with
  | nil => rfl
  | escape d cs ih =>
    rw [patternLength, ih (fun hm => h (by simp [hm]))]
    rfl
  | cons d cs he ih =>
    have hd : d ≠ '/' := fun hd => h (by simp [hd])
    rw [patternLength_cons he, ih (fun hm => h (by simp [hm]))]
    simp [hd]

theorem isCodeChar_of_mem (h : isCodeText cs) (hc : c ∈ cs) : isCodeChar c := by
  simp only [isCodeText, Bool.and_eq_true, all_eq_true] at h
  exact h.1 c hc

theorem patternLength_code_append (h : isCodeText cs) (hb : ∀ bracketed, patternLength bracketed back = none) (bracketed : Bool) :
    patternLength bracketed (cs ++ back) = none := by
  have hs : '/' ∉ cs := fun hm => absurd (isCodeChar_of_mem h hm) (by decide)
  refine patternLength_append_eq_none (patternLength_of_not_mem hs bracketed) ⟨hb, fun hl => ?_⟩
  have hm := isCodeChar_of_mem h (mem_of_getLast? hl)
  simp [isCodeChar] at hm

theorem patternLength_of_isCodeLine (hs : wellSet ready segments) (h : isCodeLine segments)
    (bracketed : Bool) : patternLength bracketed (textOf segments) = none := by
  fun_induction isCodeLine segments generalizing ready bracketed with
  | case1 rest => rfl
  | case2 text rest ih =>
    simp only [wellSet, isSpliced, isSound, Bool.false_eq_true, if_false, Bool.and_eq_true] at hs
    exact patternLength_code_append hs.1 (fun b => ih hs.2 h b) bracketed
  | case3 => cases h

theorem endsLine_of_followsText (h : followsText rest) : endsLine rest := by
  unfold followsText at h
  split at h
  · rfl
  · exact (Bool.and_eq_true_iff.1 h).2
  · cases h

/-- What follows a text of the source begins with a character that does not go on with it. -/
theorem exists_next (hs : wellSet ready rest) (h : followsText rest) (start : Nat) :
    ∃ d cs cs', textOf rest = d :: cs ∧ textOf (lineOf rest) = d :: cs' ∧ start ∈ exposedFrom true start rest ∧
      standsApart d ∧ (d = '\n' → ∃ rest', rest = feed :: rest' ∧ isCodeLine rest') := by
  unfold followsText at h
  split at h
  case h_1 rest =>
    exact ⟨'\n', textOf rest, [], rfl, rfl, mem_append_left _ (mem_singleton_self _), by decide, fun _ => ⟨rest, rfl, h⟩⟩
  case h_2 text rest =>
    obtain ⟨d, hd, ht⟩ := (Option.any_eq_true _ _).1 (Bool.and_eq_true_iff.1 h).1
    obtain ⟨cs, hc⟩ := head?_eq_some_iff.1 hd
    simp only [wellSet, isSpliced, isSound, Bool.false_eq_true, if_false, Bool.and_eq_true] at hs
    refine ⟨d, cs ++ textOf rest, cs ++ textOf (lineOf rest), by simp [hc], by simp [lineOf, hc], ?_, ht, ?_⟩
    · simp [exposedFrom, isSpliced, hc, offsetsFrom]
    · rintro rfl
      exact absurd (isCodeChar_of_mem hs.1 (mem_of_mem_head? hd)) (by decide)
  case h_3 => cases h

theorem keepsSlashes_of_followsText (hs : wellSet ready rest) (h : followsText rest) (hr : textOf rest = body ++ '\n' :: later)
    (hl : body.getLast? = some '\\' → ∀ bracketed, patternLength bracketed later = none) (text : List Char) :
    KeepsSlashes (text ++ body) ('\n' :: later) := by
  refine ⟨fun _ => rfl, fun he => ?_⟩
  cases body with
  | cons c body =>
    refine hl ?_
    rwa [getLast?_append_of_ne_nil _ (cons_ne_nil c body)] at he
  | nil =>
    obtain ⟨d, cs, -, ht, -, -, -, hf⟩ := exists_next hs h 0
    obtain ⟨rest', rfl, hi⟩ := hf (by rw [ht] at hr; exact (cons.inj hr).1)
    have ha : later = textOf rest' := (cons.inj hr).2.symm
    simp only [wellSet, isSpliced, isSound, Bool.false_eq_true, if_false, Bool.true_and] at hs
    exact fun bracketed => ha ▸ patternLength_of_isCodeLine hs hi bracketed

theorem exists_line (hs : wellSet ready segments) (h : endsLine segments) (start : Nat) :
    ∃ body later, textOf (lineOf segments) = body ++ ['\n'] ∧ textOf segments = body ++ '\n' :: later ∧
      start + byteSize body ∈ exposedFrom true start segments ∧
      (body.getLast? = some '\\' → ∀ bracketed, patternLength bracketed later = none) := by
  fun_induction endsLine segments generalizing ready start with
  | case1 rest => exact ⟨[], textOf rest, rfl, rfl, mem_append_left _ (mem_singleton_self _), nofun⟩
  | case2 text rest ih =>
    simp only [wellSet, isSpliced, isSound, Bool.false_eq_true, if_false, Bool.and_eq_true] at hs
    obtain ⟨body, later, hl, ht, hm, ha⟩ := ih hs.2 h (start + byteSize text.toList)
    refine ⟨text.toList ++ body, later, by simp [lineOf, hl], by simp [ht], ?_, fun he => ?_⟩
    · rw [byteSize_append, ← Nat.add_assoc]
      exact mem_append_right _ hm
    · refine ha ?_
      cases hb : body.getLast? with
      | some d => rwa [getLast?_append, hb] at he
      | none =>
        rw [getLast?_append, hb] at he
        have hm := isCodeChar_of_mem hs.1 (mem_of_getLast? he)
        simp [isCodeChar] at hm
  | case3 text rest ih =>
    simp only [wellSet, isSpliced, if_true, Bool.and_eq_true] at hs
    obtain ⟨⟨-, hf⟩, hr⟩ := hs
    obtain ⟨body, later, hl, ht, hm, ha⟩ := ih hr h (start + byteSize text.toList)
    refine ⟨text.toList ++ body, later, by simp [lineOf, hl], by simp [ht], ?_,
      (keepsSlashes_of_followsText hr hf ht ha text.toList).escaped⟩
    rw [byteSize_append, ← Nat.add_assoc]
    exact mem_append_right _ hm
  | case4 => cases h

/-! ### One segment -/

/-- The segments begin at `start`, are scanned in the context to their end, and what is made behind
texts of the source is clear. -/
def ClearIn (behind : Bool) (ctx : ScanContext) (start : Nat) (segments : List Segment) : Prop :=
  ∃ ps, Scans ctx ps ∧ ps.flatMap chars = textOf segments ∧
    ∀ offset ∈ exposedFrom behind start segments, ¬Covers start ps offset

theorem isClear_iff_clearIn : IsClear segments ↔ ClearIn false {} 0 segments := by
  constructor
  · rintro ⟨s, hs, hc⟩
    have hp := Source.pieces_ofText hs
    exact ⟨s.pieces, scans_of_piecesFrom hp, pieces_chars hp, fun offset hm hv =>
      Bool.eq_false_iff.1 (hc offset hm) ((Source.isCovered_iff _ offset).2 hv)⟩
  · rintro ⟨ps, hsc, hh, hc⟩
    have hp : pieces (textOf segments) = .ok ps := hh ▸ hsc.piecesFrom_eq 0
    have hs := Source.ofText_of_pieces hp
    exact ⟨_, hs, fun offset hm => Bool.eq_false_iff.2 fun hv => hc offset hm ((Source.isCovered_iff _ offset).1 hv)⟩

theorem exists_passes_of_isSound (h : segment.isSound) (hc : ready → ctx.IsOpen) (rest : List Segment) :
    ∃ ws ctx', Passes false back ctx ws ctx' ∧ ws.flatMap chars = segment.text ∧ (segment.readies ready → ctx'.IsOpen) ∧
      (endsLine (segment :: rest) → ws = segment.text.map .code) := by
  cases segment with
  | code | property =>
    obtain ⟨ctx', hp⟩ := exists_passes_code h ctx
    exact ⟨_, ctx', hp, flatMap_chars_map_code _, hp.isOpen hc, fun _ => rfl⟩
  | feed =>
    refine ⟨[.code '\n'], _, .code nofun ?_ (.nil _), rfl, fun hr => (hc hr).afterCode (by decide) _, fun _ => rfl⟩
    simp [opening]
  | quoted text | defined text => exact ⟨_, _, passes_scriptString text ctx, append_nil _, (fun h => by cases h), fun h => by cases h⟩
  | spliced text => cases h

theorem clearIn_cons (hp : Passes false (textOf rest) ctx ws ctx') (hc : ws.flatMap chars = segment.text)
    (ho : behind → segment.isSpliced = false → ws = segment.text.map .code) : ClearIn behind ctx start (segment :: rest) ↔
      ClearIn (segment.leaves behind) ctx' (start + byteSize segment.text) rest := by
  have hs : piecesSize ws = byteSize segment.text := by rw [piecesSize, hc]
  constructor
  · rintro ⟨ps, hsc, hps, hl⟩
    obtain ⟨qs, rfl, hq, hr⟩ := hp.exists_rest hsc (by rw [hps, textOf_cons, hc])
    refine ⟨qs, hr, hq, fun offset hm hv => hl offset (mem_append_right _ hm) ?_⟩
    exact covers_append.2 (.inr (hs ▸ hv))
  · rintro ⟨qs, hr, hq, hl⟩
    refine ⟨ws ++ qs, (hq ▸ hp : Passes false (qs.flatMap chars) ctx ws ctx').scans_append hr,
      by rw [flatMap_append, hc, hq, textOf_cons], fun offset hm hv => ?_⟩
    rw [covers_append, hs] at hv
    rcases mem_append.1 hm with hm | hm
    · split_ifs at hm with hb
      · have hlt := (bounds_of_mem_offsetsFrom hm).2
        rcases hv with hv | hv
        · simp only [Bool.and_eq_true, Bool.not_eq_true'] at hb
          rw [ho hb.1 hb.2] at hv
          exact not_covers_code _ _ _ hv
        · exact absurd hv.bounds.1 (Nat.not_le.2 hlt)
      · cases hm
    · rcases hv with hv | hv
      · have hlt := hv.bounds.2
        rw [hs] at hlt
        exact absurd (le_of_mem_exposedFrom hm) (Nat.not_le.2 hlt)
      · exact hl offset hm hv

/-! ### Texts of the source -/

/-- A text ends where it ends with `back` behind it: a scan that begins with it finds the end of a
piece there. -/
def EndsBefore (back text : List Char) : Prop := ∃ ps ctx, Crosses back {} ps ctx ∧ ps.flatMap chars = text

/-- The texts of the source, each with the rest of its line. -/
def splices : List Segment → List (List Char × List Char)
  | [] => []
  | spliced text :: rest => (text.toList, textOf (lineOf rest)) :: splices rest
  | _ :: rest => splices rest

theorem signApart_of_standsApart (hd : standsApart d) (hq : (qs.flatMap chars).head? = some d) : SignApart pre qs := by
  intro c hc _ hh
  obtain ⟨qs, rfl⟩ := head?_eq_some_iff.1 hh
  obtain rfl : c = d := Option.some.inj hq
  rcases hc with rfl | rfl <;> cases hd

theorem meets_of_standsApart {p : Piece} (hd : standsApart d)
    (hc : ∀ comment, p = .literal .lineComment comment → d = '\n') : p.Meets (some d) := by
  simp only [standsApart, Bool.not_eq_true', Bool.or_eq_false_iff, decide_eq_false_iff_not] at hd
  obtain ⟨⟨⟨⟨ha, hp⟩, hm⟩, hs⟩, hl⟩ := hd
  exact p.meets_of_ne ha (by simp [hp, hm, hs, hl]) hc

theorem ClearIn.endsBefore {text : String} (h : ClearIn behind ctx start (spliced text :: rest)) (hc : ctx.IsOpen)
    (hs : wellSet ready rest) (hf : followsText rest) : EndsBefore (textOf (lineOf rest)) text.toList := by
  obtain ⟨ps, hsc, hp, hcl⟩ := h
  have hcl' : ∀ offset ∈ exposedFrom true (start + byteSize text.toList) rest, ¬Covers start ps offset :=
    fun offset hm => hcl offset (mem_append_right _ hm)
  obtain ⟨body, later, hl, ht, he, -⟩ := exists_line hs (endsLine_of_followsText hf) (start + byteSize text.toList)
  obtain ⟨d, cs, cs', -, hn, hm, hst, -⟩ := exists_next hs hf (start + byteSize text.toList)
  -- The line ends with a character of code, so that it has the same pieces by itself.
  have hw : ps.flatMap chars = (text.toList ++ body) ++ '\n' :: later := by
    rw [hp, textOf_cons, ht, Segment.text, append_assoc]
  obtain ⟨front, post, rfl, hfr⟩ := exists_code_of_not_covers hw
    (by rw [byteSize_append, ← Nat.add_assoc]; exact hcl' _ he)
  rw [append_cons] at hsc
  have hr : Scans {} (front ++ [.code '\n']) := hsc.front (isFront_append _ post) (hc.alike isOpen_start _ _)
  have hh : (front ++ [Piece.code '\n']).flatMap chars = text.toList ++ d :: cs' := by
    rw [← hn, hl, flatMap_append, hfr]
    simp [chars]
  have ho : ¬Covers start (front ++ [.code '\n']) (start + byteSize text.toList) := by
    intro hco
    refine hcl' _ hm ?_
    rw [append_cons, covers_append]
    exact .inl hco
  obtain ⟨pre, qs, hsp, hb⟩ := exists_code_of_not_covers hh ho
  rw [hsp] at hr hh
  obtain ⟨ctx', ha, -⟩ := hr.exists_passes (signApart_of_standsApart hst rfl)
  refine ⟨pre, ctx', ?_, hb⟩
  rw [flatMap_append, hb] at hh
  rw [hn, ← append_cancel_left hh]
  exact crosses_iff.2 ha

theorem EndsBefore.exists_passes (h : EndsBefore (textOf (lineOf rest)) text) (hc : ctx.IsOpen)
    (hs : wellSet ready rest) (hf : followsText rest) :
    ∃ ws ctx', Passes false (textOf rest) ctx ws ctx' ∧ ws.flatMap chars = text := by
  obtain ⟨ps, mid, ha, rfl⟩ := h
  rw [crosses_iff] at ha
  obtain ⟨body, later, hl, ht, -, hla⟩ := exists_line hs (endsLine_of_followsText hf) 0
  obtain ⟨d, cs, cs', hn, hne, -, hst, -⟩ := exists_next hs hf 0
  have hm : ∀ p ∈ ps.getLast?, p.Meets (body ++ '\n' :: later).head? := by
    intro p hp
    rw [← ht, hn]
    refine meets_of_standsApart hst ?_
    rintro comment rfl
    have ho := ha.meets_literal hp
    rw [hne] at ho
    simpa using ho d rfl
  rw [hl] at ha
  obtain ⟨ctx', ha', -⟩ := ha.resume (isOpen_start.alike hc _ _) (.inr hm) fun _ =>
    keepsSlashes_of_followsText hs hf ht hla _
  exact ⟨ps, ctx', ht ▸ ha', rfl⟩

theorem clearIn_iff (hs : wellSet ready segments = true) (hc : ready = true → ctx.IsOpen)
    (hbe : behind = true → endsLine segments = true) :
    ClearIn behind ctx start segments ↔ ∀ splice ∈ splices segments, EndsBefore splice.2 splice.1 := by
  induction segments generalizing ready behind ctx start with
  | nil => exact ⟨nofun, fun _ => ⟨[], .nil ctx, rfl, nofun⟩⟩
  | cons segment rest ih =>
    by_cases hsp : ∃ text, segment = spliced text
    · obtain ⟨text, rfl⟩ := hsp
      simp only [wellSet, isSpliced, if_true, Bool.and_eq_true] at hs
      obtain ⟨⟨hr, hf⟩, hre⟩ := hs
      have ho := hc hr
      have ht {ws : List Piece} {ctx' : ScanContext} (hp : Passes false (textOf rest) ctx ws ctx')
          (hh : ws.flatMap chars = (spliced text).text) : ClearIn behind ctx start (spliced text :: rest) ↔
            ∀ splice ∈ splices rest, EndsBefore splice.2 splice.1 :=
        (clearIn_cons hp hh fun _ => nofun).trans (ih hre nofun fun _ => endsLine_of_followsText hf)
      rw [splices, forall_mem_cons]
      constructor
      · intro h
        have he := h.endsBefore ho hre hf
        obtain ⟨ws, ctx', hp, hh⟩ := he.exists_passes ho hre hf
        exact ⟨he, (ht hp hh).1 h⟩
      · rintro ⟨he, hsl⟩
        obtain ⟨ws, ctx', hp, hh⟩ := EndsBefore.exists_passes he ho hre hf
        exact (ht hp hh).2 hsl
    · have hm : segment.isSpliced = false ∧ splices (segment :: rest) = splices rest := by
        cases segment <;> simp_all [isSpliced, splices]
      simp only [wellSet, hm.1, Bool.false_eq_true, if_false, Bool.and_eq_true] at hs
      obtain ⟨ws, ctx', hp, hh, ho, hco⟩ := exists_passes_of_isSound hs.1 hc rest
      rw [hm.2, clearIn_cons hp hh fun hb _ => hco (hbe hb)]
      refine ih hs.2 ho fun hl => ?_
      cases segment with
      | code text => exact hbe hl
      | feed => cases hl
      | property | quoted | defined => cases hbe hl
      | spliced text => exact absurd ⟨text, rfl⟩ hsp

/-- **Clear texts.** In a text that is well set all that is made is clear exactly if every text of
the source ends where it ends with the rest of its line. -/
theorem isClear_iff (h : wellSet true segments) : IsClear segments ↔ ∀ splice ∈ splices segments, EndsBefore splice.2 splice.1 :=
  isClear_iff_clearIn.trans (clearIn_iff h (fun _ => isOpen_start) nofun)

theorem exists_next_of_mem_splices (hs : wellSet ready segments) {splice : List Char × List Char}
    (h : splice ∈ splices segments) : ∃ d cs, splice.2 = d :: cs ∧ standsApart d := by
  induction segments generalizing ready with
  | nil => cases h
  | cons segment rest ih =>
    rw [wellSet, Bool.and_eq_true] at hs
    cases segment with
    | spliced text =>
      simp only [isSpliced, if_true, Bool.and_eq_true] at hs
      rcases mem_cons.1 h with rfl | h
      · obtain ⟨d, -, cs, -, hn, -, ht, -⟩ := exists_next hs.2 hs.1.2 0
        exact ⟨d, cs, hn, ht⟩
      · exact ih hs.2 h
    | code | feed | quoted | property | defined => exact ih hs.2 h

theorem endsBefore_iff (hb : back = d :: cs) (hs : standsApart d) (hsl : '/' ∉ back) :
    EndsBefore back text ↔ ∃ ps, pieces text = .ok ps ∧
      ∀ comment, ps.getLast? = some (.literal .lineComment comment) → back.head? = some '\n' := by
  constructor
  · rintro ⟨ps, mid, hpa, rfl⟩
    rw [crosses_iff] at hpa
    refine ⟨ps, (hpa.scans isOpen_start isOpen_start).piecesFrom_eq 0, fun comment hl => ?_⟩
    have hc := hpa.meets_literal hl
    rw [hb] at hc ⊢
    simpa using hc d rfl
  · rintro ⟨ps, hi, hc⟩
    obtain ⟨mid, ho⟩ := scans_of_piecesFrom hi
    have hm : ∀ p ∈ ps.getLast?, p.Meets ([] ++ back).head? := by
      intro p hp
      rw [hb]
      refine meets_of_standsApart hs ?_
      rintro comment rfl
      have hf := hc comment hp
      rw [hb] at hf
      exact Option.some.inj hf
    have hk : KeepsSlashes (ps.flatMap chars ++ []) back :=
      ⟨patternLength_of_not_mem hsl, fun _ => patternLength_of_not_mem fun he => hsl (mem_of_mem_drop he)⟩
    have ha : Passes false ([] ++ []) {} ps mid := ho
    obtain ⟨ctx', hpa, -⟩ := ha.resume (isOpen_start.alike isOpen_start _ _) (.inr hm) fun _ => hk
    exact ⟨ps, ctx', crosses_iff.2 hpa, pieces_chars hi⟩

end Segment

end Pagewright
