import Pagewright.Proofs.CodeNames
import Pagewright.Proofs.EffectiveStyle

/-!
# What is written behind texts of the source

Behind the texts of the source in its lines, a script or a stylesheet has code. It is clear of the
literals and comments of the whole exactly if every text of the source ends before the rest of its
line, which for most of them says that it is scanned by itself to its end and does not end with a
line comment (`compileText_spliced_clear_iff`). A value that does takes the semicolon with it
(`compileText_semicolon_in_comment`). -/

namespace Pagewright

open List

variable {back front rest segs : List Segment} {text : List Char} {src : PageSource} {script : Script}
  {m other : PropertyMap} {written : String}

/-! ### Lines with nothing of the source -/

namespace Segment

/-- The parts of a line that is split at its quotes: every other one is a string. -/
def quotedParts : List (List Char) → List Segment
  | [] => []
  | [text] => [code (String.ofList text)]
  | text :: inner :: rest => code (String.ofList text) :: quoted (String.ofList inner) :: quotedParts rest

/-- A line of code with strings in it. -/
def plainLine (level : Nat) (text : String) : List Segment := line level (quotedParts (splitAll '"' text.toList))

/-- Whether the parts of a line are code and strings without escapes, and a text begins anew behind
them. -/
def isPlain (ready : Bool) : List (List Char) → Bool
  | [] => false
  | [text] => isCodeText text && readyAfter ready text
  | text :: inner :: rest => isCodeText text && inner.all (fun c => scriptEscape c = [c]) && isPlain false rest

variable {ready : Bool} {parts : List (List Char)} {level : Nat} {text : String}

theorem textOf_quotedParts (h : isPlain ready parts) : textOf (quotedParts parts) = joinWith ['"'] parts := by
  fun_induction isPlain ready parts with
  | case1 => cases h
  | case2 ready text => simp [quotedParts, joinWith]
  | case3 ready text inner rest ih =>
    simp only [Bool.and_eq_true, all_eq_true, decide_eq_true_eq] at h
    obtain ⟨⟨-, hi⟩, hr⟩ := h
    have he : inner.flatMap scriptEscape = inner := by rw [flatMap_congr hi, flatMap_singleton']
    cases rest with
    | nil => cases hr
    | cons part rest => simp [quotedParts, joinWith, ih hr, scriptString, he]

theorem wellSet_quotedParts (h : isPlain ready parts) (hr : wellSet true rest) :
    wellSet ready (quotedParts parts ++ feed :: rest) := by
  fun_induction isPlain ready parts with
  | case1 => cases h
  | case2 ready text =>
    obtain ⟨ht, he⟩ := Bool.and_eq_true_iff.1 h
    rw [quotedParts, singleton_append, wellSet, readies, String.toList_ofList, he, Bool.and_eq_true]
    exact ⟨by simpa [isSpliced, isSound] using ht, hr⟩
  | case3 ready text inner parts ih =>
    simp only [Bool.and_eq_true] at h
    obtain ⟨⟨ht, -⟩, hp⟩ := h
    exact wellSet_code (by rwa [String.toList_ofList]) (wellSet_quoted (ih hp))

theorem textOf_plainLine (h : isPlain true (splitAll '"' text.toList)) :
    textOf (plainLine level text) = (Pagewright.line level text).toList := by
  rw [plainLine, textOf_line, textOf_quotedParts h, joinWith_splitAll, toList_line]

theorem sets_plainLine (h : isPlain true (splitAll '"' text.toList)) : Sets (plainLine level text) :=
  sets_line fun _ hr => wellSet_quotedParts h hr

/-- What is written one after the other. -/
theorem textOf_flatMap_join {α : Type} {f : α → List Segment} {g : α → String} (xs : List α)
    (h : ∀ x ∈ xs, textOf (f x) = (g x).toList) : textOf (xs.flatMap f) = (String.join (xs.map g)).toList := by
  rw [String.toList_join, flatMap_map, textOf_flatMap]
  exact flatMap_congr h

end Segment

open Segment

/-! ### Scripts -/

/-- What every script begins with, in segments. -/
def preludeSegments : List Segment := preludeLines.flatMap (plainLine 0)

theorem isPlain_preludeLines : ∀ text ∈ preludeLines, isPlain true (splitAll '"' text.toList) = true := by
  -- The texts are turned into their characters once, before they are read.
  simp only [preludeLines, forall_mem_cons, String.reduceToList, toString, String.toList_append, pendingName,
    childApiName, selfName, elementText, elementName]
  decide +kernel

namespace ChildHandle

/-- Where the script of a page keeps an instance that the page begins with. -/
def rootPlace (root : ChildHandle) : String :=
  match root.name? with
  | some name => "window." ++ name
  | none => "const " ++ root.localName

end ChildHandle

namespace Script

variable (s : Script)

/-- What runs when the document has loaded, in segments. -/
def bootstrapSegments : List Segment :=
  plainLine 0 "document.addEventListener(\"DOMContentLoaded\", function () \x7b" ++
    s.roots.flatMap (fun root =>
      Segment.line 1 [.code (root.rootPlace ++ " = new " ++ root.anchor.function ++ "();")]) ++
    Segment.line 1 [.code (pendingName ++ ".forEach(function (instance) \x7b")] ++
    Segment.block 2 [.code ("if (instance." ++ postBindName ++ ")")]
      (Segment.line 3 [.code ("instance." ++ postBindName ++ "();")]) ++
    Segment.line 1 [.code "\x7d);"] ++
    Segment.line 0 [.code "\x7d);"]

/-- A script as it is written, in segments. -/
def segments : List Segment :=
  preludeSegments ++ s.units.flatMap (fun u => .feed :: u.segments) ++ .feed :: s.bootstrapSegments

theorem isPlain_loadLine : isPlain true (splitAll '"' "document.addEventListener(\"DOMContentLoaded\", function () \x7b".toList) := by
  decide

theorem textOf_bootstrapSegments : textOf s.bootstrapSegments = s.bootstrap.toList := by
  have hr : textOf (s.roots.flatMap fun root =>
      Segment.line 1 [.code (root.rootPlace ++ " = new " ++ root.anchor.function ++ "();")]) =
      (String.join (s.roots.map fun root =>
        line 1 (root.rootPlace ++ " = new " ++ root.anchor.function ++ "();"))).toList :=
    textOf_flatMap_join _ fun root _ => by simp
  have hb : s.bootstrap = line 0 "document.addEventListener(\"DOMContentLoaded\", function () \x7b" ++ String.join (s.roots.map fun root =>
        line 1 (root.rootPlace ++ " = new " ++ root.anchor.function ++ "();")) ++
      line 1 (pendingName ++ ".forEach(function (instance) \x7b") ++
      block 2 ("if (instance." ++ postBindName ++ ")") (line 3 ("instance." ++ postBindName ++ "();")) ++
      line 1 "\x7d);" ++ line 0 "\x7d);" := rfl
  rw [hb]
  simp only [bootstrapSegments, textOf_append, hr, textOf_plainLine isPlain_loadLine, String.toList_append, toList_block, textOf_block]
  simp

theorem textOf_segments (h : ∀ u ∈ s.units, textOf u.segments = u.render.toList) : textOf s.segments = s.render.toList := by
  have hn : textOf (s.units.flatMap fun u => .feed :: u.segments) = (String.join (s.units.map fun u => "\n" ++ u.render)).toList :=
    textOf_flatMap_join _ fun u hu => by simp [h u hu]
  have hp : textOf preludeSegments = prelude.toList := textOf_flatMap_join _ fun text ht => textOf_plainLine (isPlain_preludeLines text ht)
  simp [segments, render, hp, textOf_bootstrapSegments, hn]

variable {s}

theorem sets_bootstrapSegments (h : ∀ root ∈ s.roots, IsPlainName root.anchor.function ∧
    IsPlainName root.localName ∧ ∀ name ∈ root.name?, IsPlainName name) : Sets s.bootstrapSegments := by
  refine (((((sets_plainLine isPlain_loadLine).append (sets_flatMap fun root hr => sets_codeLine ?_)).append
    (sets_codeLine (by decide))).append
    (sets_block (fun _ he => wellSet_code (by decide) he) (sets_codeLine (by decide)))).append
    (sets_codeLine (by decide))).append (sets_codeLine (by decide))
  obtain ⟨hf, hl, hn⟩ := h root hr
  have hp : isCode root.rootPlace := by
    unfold ChildHandle.rootPlace
    split
    · next name heq =>
      rw [isCode_append, isCode_of_isCodeText (hn name heq).isCodeText]
      decide
    · rw [isCode_append, isCode_of_isCodeText hl.isCodeText]
      decide
  refine opensText_append ?_ (by decide)
  simp only [isCode_append, hp, isCode_of_isCodeText hf.isCodeText]
  decide

end Script

theorem PageSource.sets_script (hr : readChecked text = .ok src) (hs : src.script = .ok script) : Sets script.segments := by
  have hp : Sets preludeSegments := sets_flatMap fun text ht => sets_plainLine (isPlain_preludeLines text ht)
  have hf {segments : List Segment} (h : Sets segments) : Sets (.feed :: segments) := fun rest he =>
    wellSet_feed (h rest he)
  exact (hp.append (sets_flatMap fun u hu => hf (ScriptUnit.sets_segments (hasCodeNames hr hs hu)))).append
    (hf (Script.sets_bootstrapSegments fun root => isPlainName_of_mem_roots hr hs))

/-! ### Stylesheets -/

theorem PropertyMap.HasKeys.merge (h : m.HasKeys) (ho : other.HasKeys) : (m.merge other).HasKeys :=
  foldlRecOn other.entries _ h fun _ hm _ he => hm.insert (ho _ (mem_map_of_mem he))

namespace ClassTable

variable {t : ClassTable} {styles : String → PropertyMap}

theorem IsCascade.hasKeys (ha : t.IsCascade styles) (hw : WellFounded t.IsParent)
    (h : ∀ c ∈ t.classes, c.style.HasKeys) : ∀ c ∈ t.classes, (styles c.name).HasKeys := by
  intro c
  -- The parents of a class come before it, and what has no class has no style.
  induction c using hw.induction with
  | _ c ih =>
    intro hc
    have hp : ∀ parent ∈ c.parents, (styles parent).HasKeys := by
      intro parent hpa
      cases hg : t.get? parent with
      | none => exact ha.eq_empty parent hg ▸ .empty
      | some d =>
        have hd := mem_of_get? hg
        have hn := name_of_get? hg
        exact hn ▸ ih d ⟨hc, hd, hn ▸ hpa⟩ hd
    have hi : (inheritedStyle styles .empty c.parents).HasKeys :=
      foldlRecOn c.parents _ .empty fun _ hs parent hpa => hs.merge (hp parent hpa)
    rw [ha.eq_merge c hc]
    exact hi.merge (h c hc)

/-- The stylesheet of the classes, in segments. -/
def sheetSegments (t : ClassTable) : List Segment := (t.rules t.resolveStyles).flatMap Rule.segments

theorem textOf_sheetSegments (t : ClassTable) : textOf t.sheetSegments = t.stylesheet.toList :=
  textOf_flatMap_join _ fun rule _ => rule.textOf_segments

end ClassTable

/-- The names in a rule are code. -/
def Rule.HasCodeNames : Rule → Prop
  | classRule name declarations => isCode name = true ∧ ∀ entry ∈ declarations, isCode entry.1 = true
  | stateRule name state _ => isCode name = true ∧ isCode state = true

theorem Rule.sets_segments {rule : Rule} (h : rule.HasCodeNames) : Sets rule.segments := by
  cases rule with
  | classRule name declarations =>
    obtain ⟨hn, hk⟩ := h
    have hh : opensText ("." ++ name ++ " \x7b") := by
      refine opensText_append ?_ (by decide)
      rw [isCode_append, hn]
      decide
    have hd : Sets (declarations.flatMap fun e =>
        [.code (indent 1 ++ e.1 ++ ": "), .spliced e.2, .code ";", .feed]) := by
      refine sets_flatMap fun e he rest hr => wellSet_opens (opensText_append ?_ (by decide))
        (wellSet_spliced rfl (wellSet_lineEnd (by decide) hr))
      rw [isCode_append, isCode_of_isCodeText (isCodeText_indent 1), hk _ he]
      rfl
    have hen : Sets [.code "\x7d", .feed, .feed] := fun rest hr =>
      wellSet_lineEnd (by decide) (wellSet_feed hr)
    exact fun rest hr => wellSet_opens hh (wellSet_feed ((hd.append hen) rest hr))
  | stateRule name state body =>
    obtain ⟨hn, hs⟩ := h
    have hh : opensText ("." ++ name ++ ":" ++ state ++ " \x7b ") := by
      refine opensText_append ?_ (by decide)
      simp only [isCode_append, hn, hs]
      decide
    exact fun rest hr => wellSet_opens hh (wellSet_spliced rfl (wellSet_lineEnd (by decide) hr))

theorem PageSource.sets_sheet (hr : readChecked text = .ok src) : Sets src.table.sheetSegments := by
  obtain ⟨s, page, -, -, hl, -⟩ := exists_sources hr
  have hw := (isSound hr).wellFounded
  obtain ⟨styles, ha⟩ := ClassTable.exists_isCascade hw
  have hk := ha.hasKeys hw fun c hc => (hl c hc).style
  refine sets_flatMap fun rule hu => Rule.sets_segments ?_
  rcases mem_append.1 hu with hu | hu
  · obtain ⟨c, hc, hu⟩ := mem_filterMap.1 hu
    rw [ClassTable.lookup_resolveStyles hw ha hc] at hu
    split at hu
    · next style hs =>
      obtain ⟨hs, -⟩ := Option.filter_eq_some_iff.1 hs
      cases hs
      cases hu
      exact ⟨(hl c hc).name.isWordText.isCode, fun e he =>
        isCode_of_isPropertyKey (hk c hc _ (mem_map_of_mem he))⟩
    · cases hu
  · obtain ⟨c, hc, hu⟩ := mem_flatMap.1 hu
    obtain ⟨⟨state, body⟩, ht, rfl⟩ := mem_map.1 hu
    exact ⟨(hl c hc).name.isWordText.isCode, ((hl c hc).states _ ht).isCode⟩

/-! ### Whole outputs -/

/-- The segments make up what is written. What is made behind the texts of the source is clear
exactly if these end before the rest of their lines; without a slash behind it, a text does so if it
is scanned to its end and no line comment at its end takes in what follows. -/
structure Segment.SpelledOut (segments : List Segment) (written : String) : Prop where
  textOf_eq : textOf segments = written.toList
  isClear_iff : IsClear segments ↔ ∀ splice ∈ splices segments, EndsBefore splice.2 splice.1
  endsBefore_iff : ∀ splice ∈ splices segments, '/' ∉ splice.2 →
    (EndsBefore splice.2 splice.1 ↔ ∃ ps, pieces splice.1 = .ok ps ∧
      ∀ comment, ps.getLast? = some (.literal .lineComment comment) → splice.2.head? = some '\n')

theorem Segment.Sets.spelledOut (h : Sets segs) (ht : textOf segs = written.toList) : SpelledOut segs written := by
  have hs : wellSet true segs := by simpa using h [] rfl
  refine ⟨ht, isClear_iff hs, fun splice hp hl => ?_⟩
  obtain ⟨d, cs, hn, hst⟩ := exists_next_of_mem_splices hs hp
  exact endsBefore_iff hn hst hl

/-- Whether a piece is a line comment. -/
def Piece.isLineComment : Piece → Bool
  | literal .lineComment _ => true
  | _ => false

/-- A text is seen to end before the rest of its line. -/
def Segment.SeenToEnd (splice : List Char × List Char) : Prop :=
  '/' ∉ splice.2 ∧ ∃ ps, pieces splice.1 = .ok ps ∧
    (splice.2.head? = some '\n' ∨ ps.getLast?.all (!·.isLineComment) = true)

instance : DecidablePred Segment.SeenToEnd := fun _ => inferInstanceAs (Decidable (_ ∧ ∃ _, _ ∧ _))

theorem Segment.SpelledOut.isClear {segments : List Segment} (h : SpelledOut segments written)
    (he : ∀ splice ∈ splices segments, SeenToEnd splice) : IsClear segments := by
  refine h.isClear_iff.2 fun splice hs => ?_
  obtain ⟨hn, ps, hp, hl⟩ := he splice hs
  refine (h.endsBefore_iff splice hs hn).2 ⟨ps, hp, fun comment hc => ?_⟩
  rw [hc] at hl
  simpa [Piece.isLineComment] using hl

theorem Segment.splices_append_of_made (h : ∀ seg ∈ front, seg.isSpliced = false) : splices (front ++ back) = splices back := by
  induction front with
  | nil => rfl
  | cons seg front ih =>
    obtain ⟨hs, hf⟩ := forall_mem_cons.1 h
    cases seg with
    | spliced text => cases hs
    | code | feed | quoted | property | defined => exact ih hf

theorem Segment.isSpliced_of_mem_quotedParts {parts : List (List Char)} {seg : Segment}
    (h : seg ∈ quotedParts parts) : seg.isSpliced = false := by
  fun_induction quotedParts parts with
  | case1 => cases h
  | case2 text =>
    cases mem_singleton.1 h
    rfl
  | case3 text inner rest ih =>
    rcases mem_cons.1 h with rfl | h
    · rfl
    rcases mem_cons.1 h with rfl | h
    · rfl
    · exact ih h

theorem Script.splices_segments (s : Script) : splices s.segments =
    splices (s.units.flatMap (fun u => .feed :: u.segments) ++ .feed :: s.bootstrapSegments) := by
  rw [segments, append_assoc]
  refine splices_append_of_made fun seg hs => ?_
  obtain ⟨text, -, hs⟩ := mem_flatMap.1 hs
  rcases mem_cons.1 hs with rfl | hs
  · rfl
  rcases mem_append.1 hs with hs | hs
  · exact isSpliced_of_mem_quotedParts hs
  · cases mem_singleton.1 hs
    rfl

theorem PageSource.spelledOut_script (hr : readChecked text = .ok src)
    (hs : src.script = .ok script) : SpelledOut script.segments script.render := by
  obtain ⟨called, hf⟩ := exists_family hs
  refine (sets_script hr hs).spelledOut (script.textOf_segments fun u hu => u.textOf_segments fun e he => ?_)
  obtain ⟨plan, plans, ha, hn⟩ := hf u hu
  obtain ⟨s, -, hp⟩ := ha.exists_readFrom hr
  exact (hn.isNameText_of_mem_assignments hp e he).isWordText.newline_not_mem

/-- **Texts of the source in what is written.** The script and the stylesheet of a page are made up
of segments, and what is made behind the texts of the source is clear of the literals of the whole
exactly if these end before it. -/
theorem compileText_spliced_clear_iff {text : List Char} {links : HeadLinks} {out : PageOutput}
    (h : compileText text links = .ok out) :
    ∃ source script, PageSource.readChecked text = .ok source ∧ source.script = .ok script ∧
      SpelledOut script.segments out.behavior ∧ SpelledOut source.table.sheetSegments out.stylesheet := by
  obtain ⟨source, script, hread, hscript, rfl⟩ := compileText_eq_ok_iff.1 h
  refine ⟨source, script, hread, hscript, PageSource.spelledOut_script hread hscript, ?_⟩
  exact (PageSource.sets_sheet hread).spelledOut source.table.textOf_sheetSegments

/-- A class with an argument for its parent, a variable and a style. -/
def argumentValueAndStyle : List Char :=
  ("class P extends div\x7bpublic\x7bconstructor(a)\x7b\x7d\x7d\x7d" ++
    "class C extends P\x7bstyle\x7bcolor:red/*;*/;\x7dpublic\x7bconstructor()\x7b^P(1/2);\x7dvar w=';';\x7d\x7d").toList

/-- All of its texts end before what is made behind them. -/
theorem compileText_spliced_clear_argument :
    ∃ out source script, compileText argumentValueAndStyle ⟨"page.js", "page.css"⟩ = .ok out ∧
      PageSource.readChecked argumentValueAndStyle = .ok source ∧ source.script = .ok script ∧
      splices source.table.sheetSegments = [("red/*;*/".toList, ";\n".toList)] ∧
      SpelledOut script.segments out.behavior ∧ SpelledOut source.table.sheetSegments out.stylesheet ∧
      IsClear script.segments ∧ IsClear source.table.sheetSegments := by
  have heval : CompilesWith argumentValueAndStyle fun source script =>
      splices source.table.sheetSegments = [("red/*;*/".toList, ";\n".toList)] ∧
        (∀ splice ∈ splices (script.units.flatMap (fun u => .feed :: u.segments) ++ .feed :: script.bootstrapSegments),
          SeenToEnd splice) ∧ ∀ splice ∈ splices source.table.sheetSegments, SeenToEnd splice := by
    decide +kernel
  obtain ⟨source, script, out, hread, hscript, hout, ⟨hsplices, hscripts, hsheets⟩, hbehavior, hsheet⟩ :=
    heval.exists_and ⟨"page.js", "page.css"⟩ fun _ => compileText_spliced_clear_iff
  rw [← Script.splices_segments] at hscripts
  exact ⟨out, source, script, hout, hread, hscript, hsplices, hbehavior, hsheet, hbehavior.isClear hscripts,
    hsheet.isClear hsheets⟩

/-- A class with a style that has a comment behind it. -/
def commentBehindStyle : List Char := "class C extends div\x7bstyle\x7bcolor: red // c\n;\x7d\x7d".toList

/-- The semicolon that is made behind the style belongs to its comment. -/
theorem compileText_semicolon_in_comment : ∃ out source sheet,
    compileText commentBehindStyle ⟨"page.js", "page.css"⟩ = .ok out ∧
      PageSource.readChecked commentBehindStyle = .ok source ∧
      out.stylesheet = ".C \x7b\n    color: red // c;\n\x7d\n\n" ∧
      textOf source.table.sheetSegments = out.stylesheet.toList ∧
      splices source.table.sheetSegments = [("red // c".toList, ";\n".toList)] ∧
      Source.ofText out.stylesheet.toList = .ok sheet ∧
      ∃ offset ∈ exposed source.table.sheetSegments, sheet.isCovered offset = true := by
  have heval : CompilesWith commentBehindStyle fun source _ =>
      source.table.stylesheet = ".C \x7b\n    color: red // c;\n\x7d\n\n" ∧
        splices source.table.sheetSegments = [("red // c".toList, ";\n".toList)] ∧
        ∃ sheet, Source.ofText source.table.stylesheet.toList = .ok sheet ∧
          ∃ offset ∈ exposed source.table.sheetSegments, sheet.isCovered offset = true := by
    decide +kernel
  obtain ⟨source, script, hread, -, hout, hsheet, hsplices, sheet, hscanned, hcovered⟩ :=
    heval.exists_output ⟨"page.js", "page.css"⟩
  exact ⟨_, source, sheet, hout, hread, hsheet, source.table.textOf_sheetSegments, hsplices, hscanned, hcovered⟩

end Pagewright
