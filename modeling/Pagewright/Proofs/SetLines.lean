import Pagewright.Proofs.Exposure
import Pagewright.Proofs.LocalNames

/-!
# Units are well set

What a unit writes around the texts of the source is code without quotes and slashes, and strings. A
mark stands before each such text behind which a text begins anew, and what follows on its line
begins with a comma, a bracket or a semicolon; a body that ends its line has a line of code below
it. So the segments of a unit are well set (`ScriptUnit.sets_segments`), if the names in it are code
(`ScriptUnit.HasCodeNames`). Parts of a text are put together by `Sets`. -/

namespace Pagewright

open List

variable {front back holder name v key label text : String} {level : Nat} {ready ready' : Bool}

/-! ### Code that is put together -/

/-- Whether a text is code behind which a text begins anew. -/
def opensText (text : String) : Bool := isCodeText text.toList && readyAfter false text.toList

theorem readyAfter_mono {cs : List Char} (h : readyAfter ready cs) (hr : ready → ready') : readyAfter ready' cs := by
  induction cs generalizing ready ready' with
  | nil => exact hr h
  | cons c cs ih =>
    rw [readyAfter_cons] at h ⊢
    refine ih h fun hm => ?_
    split_ifs at hm ⊢
    · exact hr hm
    · exact hm

/-- Whether all characters of a text are those of code. -/
def isCode (text : String) : Bool := text.toList.all isCodeChar

theorem isCode_append : isCode (front ++ back) = (isCode front && isCode back) := by
  rw [isCode, String.toList_append, all_append]
  rfl

theorem isCode_of_isCodeText (h : isCodeText text.toList) : isCode text := (Bool.and_eq_true_iff.1 h).1

theorem isCodeText_append_of_isCode (hf : isCode front)
    (hb : isCodeText back.toList) (hne : back.toList ≠ []) : isCodeText (front ++ back).toList := by
  rw [isCodeText, Bool.and_eq_true] at hb ⊢
  rw [String.toList_append, all_append, getLast?_append_of_ne_nil _ hne, Bool.and_eq_true]
  exact ⟨⟨hf, hb.1⟩, hb.2⟩

theorem opensText_append (hf : isCode front) (h : opensText back) : opensText (front ++ back) := by
  rw [opensText, Bool.and_eq_true] at h ⊢
  refine ⟨isCodeText_append_of_isCode hf h.1 fun hn => ?_, ?_⟩
  · rw [hn] at h
    cases h.2
  · rw [String.toList_append, readyAfter_append]
    exact readyAfter_mono h.2 nofun

namespace Segment

variable {ready ready' : Bool} {segments rest lines read segs' write : List Segment} {text : String}
  {key seg : Segment} {function? getter? setter? : Option (List Segment)}

theorem wellSet_mono (h : wellSet ready segments) (hr : ready → ready') : wellSet ready' segments := by
  induction segments generalizing ready ready' with
  | nil => rfl
  | cons seg rest ih =>
    rw [wellSet, Bool.and_eq_true] at h ⊢
    refine ⟨?_, ih h.2 ?_⟩
    · have hf := h.1
      split_ifs at hf ⊢
      · rw [Bool.and_eq_true] at hf ⊢
        exact ⟨hr hf.1, hf.2⟩
      · exact hf
    · cases seg with
      | code | property => exact fun ha => readyAfter_mono ha hr
      | feed => exact hr
      | quoted | defined | spliced => exact id

theorem wellSet_sound (h : seg.isSound) (hr : wellSet false rest) : wellSet ready (seg :: rest) := by
  have hs : seg.isSpliced = false := by cases seg <;> first | rfl | cases h
  rw [wellSet, hs, h]
  exact wellSet_mono hr fun h => by cases h

theorem wellSet_code (h : isCodeText text.toList) (hr : wellSet false rest) :
    wellSet ready (code text :: rest) := wellSet_sound h hr

theorem wellSet_opens (h : opensText text) (hr : wellSet true rest) : wellSet ready (code text :: rest) := by
  rw [opensText, Bool.and_eq_true] at h
  rw [wellSet, Bool.and_eq_true]
  exact ⟨h.1, wellSet_mono hr fun _ => readyAfter_mono h.2 fun h => by cases h⟩

theorem wellSet_property (hh : isCodeText holder.toList) (hn : isCodeText name.toList)
    (hr : wellSet false rest) : wellSet ready (property holder name :: rest) := by
  have hd : isCodeText ['.'] := by decide
  exact wellSet_sound (isCodeText_append hh (isCodeText_append hd hn)) hr

theorem wellSet_quoted (hr : wellSet false rest) : wellSet ready (quoted text :: rest) := hr

theorem wellSet_feed (hr : wellSet ready rest) : wellSet ready (feed :: rest) := hr

theorem wellSet_lineEnd (h : opensText text) (hr : wellSet true rest) : wellSet ready (code text :: feed :: rest) :=
  wellSet_opens h (wellSet_feed hr)

theorem wellSet_spliced (hf : followsText rest) (hr : wellSet false rest) : wellSet true (spliced text :: rest) := by
  rw [wellSet, Bool.and_eq_true]
  exact ⟨hf, hr⟩

theorem readyAfter_indent (ready : Bool) (level : Nat) : readyAfter ready (indent level).toList = ready := by
  rw [indent, String.toList_ofList]
  induction 4 * level with
  | zero => rfl
  | succ n ih => exact ih

theorem isCodeText_indent (level : Nat) : isCodeText (indent level).toList := by
  have hb : ∀ c ∈ (indent level).toList, c = ' ' := by
    intro c hc
    rw [indent, String.toList_ofList] at hc
    exact eq_of_mem_replicate hc
  rw [isCodeText, Bool.and_eq_true, all_eq_true, Option.all_eq_true]
  refine ⟨fun c hc => ?_, fun c hc => ?_⟩
  · rw [hb c hc]
    decide
  · rw [hb c (mem_of_getLast? hc)]
    decide

theorem opensText_indent (level : Nat) (h : opensText text) : opensText (indent level ++ text) :=
  opensText_append (isCode_of_isCodeText (isCodeText_indent level)) h

theorem wellSet_indent (level : Nat) (hr : wellSet ready rest) : wellSet ready (code (indent level) :: rest) := by
  rw [wellSet, Bool.and_eq_true]
  refine ⟨isCodeText_indent level, ?_⟩
  rw [readies, readyAfter_indent]
  exact hr

/-! ### Parts of a text -/

/-- The segments can stand before others that are well set: they begin and end where a text begins
anew. -/
def Sets (segments : List Segment) : Prop :=
  ∀ rest, wellSet true rest = true → wellSet true (segments ++ rest) = true

theorem sets_nil : Sets [] := fun _ h => h

theorem Sets.append (h : Sets segments) (h' : Sets segs') : Sets (segments ++ segs') := by
  intro rest hr
  rw [append_assoc]
  exact h _ (h' rest hr)

theorem sets_flatMap {α : Type} {f : α → List Segment} {xs : List α} (h : ∀ x ∈ xs, Sets (f x)) : Sets (xs.flatMap f) := by
  induction xs with
  | nil => exact sets_nil
  | cons x xs ih =>
    obtain ⟨hx, hs⟩ := forall_mem_cons.1 h
    exact hx.append (ih hs)

theorem sets_line (h : ∀ rest, wellSet true rest → wellSet true (segments ++ feed :: rest)) : Sets (line level segments) := by
  intro rest hr
  rw [line, cons_append, append_assoc]
  exact wellSet_indent level (h rest hr)

theorem sets_codeLine (h : opensText text) : Sets (line level [code text]) := sets_line fun _ hr => wellSet_lineEnd h hr

theorem sets_quotedLine (hf : isCodeText front.toList) (hb : opensText back) :
    Sets (line level [code front, quoted text, code back]) :=
  sets_line fun _ hr => wellSet_code hf (wellSet_quoted (wellSet_lineEnd hb hr))

theorem sets_block {head : List Segment} (hh : ∀ rest, wellSet false rest → wellSet true (head ++ rest)) (hl : Sets lines) :
    Sets (block level head lines) := by
  refine (Sets.append (sets_line fun rest hr => ?_) hl).append (sets_codeLine (by decide))
  rw [append_assoc]
  exact hh _ (wellSet_lineEnd (by decide) hr)

theorem endsLine_of_isCodeLine (h : isCodeLine rest) : endsLine rest := by
  fun_induction isCodeLine rest with
  | case1 => rfl
  | case2 text rest ih => exact ih h
  | case3 => cases h

theorem wellSet_params (hr : wellSet true rest) (hl : endsLine rest) :
    ∀ ps : List String, wellSet true (params ps ++ code ") \x7b" :: rest) ∧ endsLine (params ps ++ code ") \x7b" :: rest)
  | [] => ⟨wellSet_opens (by decide) hr, hl⟩
  | [_] => ⟨wellSet_spliced (Bool.and_eq_true_iff.2 ⟨rfl, hl⟩) (wellSet_opens (by decide) hr), hl⟩
  | _ :: q :: ps =>
    have ⟨hs, he⟩ := wellSet_params hr hl (q :: ps)
    ⟨wellSet_spliced (Bool.and_eq_true_iff.2 ⟨rfl, he⟩) (wellSet_opens (by decide) hs), he⟩

theorem wellSet_function (level : Nat) (ps : List String) (body : String) (hr : wellSet true rest)
    (hl : isCodeLine rest) : wellSet ready (function level ps body ++ rest) := by
  have hb : opensText (indent level ++ "\x7d") := opensText_indent level (by decide)
  have ho : wellSet true (spliced (trimString body) :: feed :: code (indent level ++ "\x7d") :: rest) :=
    wellSet_spliced hl (wellSet_feed (wellSet_opens hb hr))
  rw [function, cons_append, append_assoc]
  split
  · exact (wellSet_params (wellSet_opens (by decide) hr) (endsLine_of_isCodeLine hl) ps).1
  · exact (wellSet_params (wellSet_feed (wellSet_indent _ ho)) rfl ps).1

theorem sets_declaration (level : Nat) {f : ScriptFunction} (hn : isCodeText f.name.toList) : Sets (declaration level f) := by
  intro rest hr
  have hb : opensText (indent level ++ "\x7d") := opensText_indent level (by decide)
  have hh : opensText (indent level ++ "function " ++ f.name ++ "(") := by
    refine opensText_append ?_ (by decide)
    simp only [isCode_append, isCode_of_isCodeText (isCodeText_indent level), isCode_of_isCodeText hn]
    decide
  have ho : wellSet true
      (spliced (trimString f.body) :: feed :: code (indent level ++ "\x7d") :: feed :: rest) :=
    wellSet_spliced rfl (wellSet_feed (wellSet_lineEnd hb hr))
  rw [declaration, cons_append, append_assoc]
  refine wellSet_opens hh ?_
  split
  · exact (wellSet_params (wellSet_lineEnd (by decide) hr) rfl f.params).1
  · exact (wellSet_params (wellSet_feed (wellSet_indent _ ho)) rfl f.params).1

theorem sets_propertyPart (level : Nat) (hl : isCodeText label.toList) (h : ∀ function ∈ function?, ∀ rest, wellSet true rest →
      isCodeLine rest → wellSet true (function ++ rest)) : Sets (propertyPart level label function?) := by
  cases function? with
  | none => exact sets_nil
  | some function =>
    refine sets_line fun rest hr => ?_
    rw [cons_append, append_assoc]
    exact wellSet_opens (opensText_append (isCode_of_isCodeText hl) (by decide))
      (h function rfl _ (wellSet_lineEnd (by decide) hr) rfl)

theorem sets_defineProperty (level : Nat) (hk : key.isSound)
    (hg : ∀ function ∈ getter?, ∀ rest, wellSet true rest → isCodeLine rest →
      wellSet true (function ++ rest)) (hs : ∀ function ∈ setter?, ∀ rest, wellSet true rest → isCodeLine rest →
      wellSet true (function ++ rest)) : Sets (defineProperty level key getter? setter?) := by
  refine ((((Sets.append (sets_line fun rest hr => ?_) (sets_propertyPart level (by decide) hg)).append
    (sets_propertyPart level (by decide) hs)).append (sets_codeLine (by decide))).append
    (sets_codeLine (by decide))).append (sets_codeLine (by decide))
  exact wellSet_opens (by decide) (wellSet_sound hk (wellSet_lineEnd (by decide) hr))

theorem sets_elementProperty (hk : key.isSound) (hr : ∀ rest, wellSet false rest → wellSet false (read ++ rest))
    (hw : ∀ rest, wellSet false rest → wellSet false (write ++ rest)) : Sets (elementProperty key read write) := by
  refine sets_defineProperty 2 hk ?_ ?_
  · rintro function ⟨⟩ rest he -
    rw [cons_append, append_assoc]
    exact wellSet_code (by decide) (hr _ (wellSet_opens (by decide) he))
  · rintro function ⟨⟩ rest he -
    rw [cons_append, append_assoc]
    exact wellSet_code (by decide) (hw _ (wellSet_opens (by decide) he))

end Segment

/-! ### The parts of a unit -/

namespace ScriptUnit

open Segment

variable (u : ScriptUnit)

/-- The names that a unit writes as they are have only characters of code, and but for those of the
classes applied no sign at their end. -/
structure HasCodeNames : Prop where
  function : isCodeText u.anchor.function.toList = true
  parents : ∀ entry ∈ u.chain, isCode entry.1 = true
  aliases : ∀ name ∈ u.aliasNames, isCodeText name.toList = true
  privates : ∀ name ∈ u.privateNames, isCodeText name.toList = true
  values : ∀ entry ∈ u.protectedVariables ++ u.publicVariables ++ u.defaults ++ u.assignments,
    isCodeText entry.1.toList = true
  methods : ∀ f ∈ u.protectedMethods ++ u.publicMethods, isCodeText f.name.toList = true
  published : ∀ entry ∈ u.published, isCodeText entry.1.toList = true ∧
    isCodeText (aliasName (u.anchor.className?.getD "") entry.1).toList = true
  styleNames : ∀ name ∈ u.styleNames, isCodeText name.toList = true
  children : ∀ child ∈ u.children, isCodeText child.anchor.function.toList = true ∧
    isCodeText child.localName.toList = true ∧ ∀ name ∈ child.name?, isCodeText name.toList = true

variable {u}

theorem sets_headSegments (h : u.HasCodeNames) : Sets u.headSegments := by
  intro rest hr
  rw [headSegments, cons_append, append_assoc]
  refine wellSet_opens (opensText_append ?_ (by decide)) (wellSet_params (wellSet_feed hr) rfl u.params).1
  simp only [isCode_append, isCode_of_isCodeText h.function]
  decide

theorem sets_openingSegments (u : ScriptUnit) : Sets u.openingSegments := by
  unfold openingSegments
  cases u.anchor.markupId? with
  | none =>
    exact (((Sets.append (sets_codeLine (by decide)) sets_nil).append (sets_codeLine (by decide))).append
      (sets_codeLine (by decide))).append sets_nil
  | some id =>
    exact (((Sets.append (sets_codeLine (by decide)) (sets_codeLine (by decide))).append
      (sets_codeLine (by decide))).append (sets_codeLine (by decide))).append (sets_quotedLine (by decide) (by decide))

theorem sets_chainSegments (h : u.HasCodeNames) : Sets u.chainSegments := by
  refine sets_flatMap fun (parent, args) he => sets_line fun rest hr => ?_
  have hc : isCodeText (parent ++ ".call(" ++ selfName).toList := by
    rw [String.append_assoc]
    exact isCodeText_append_of_isCode (h.parents _ he) (by decide) (by decide)
  refine wellSet_code hc ?_
  split
  · exact wellSet_lineEnd (by decide) hr
  · exact wellSet_opens (by decide) (wellSet_spliced rfl (wellSet_lineEnd (by decide) hr))

theorem sets_creationSegments (u : ScriptUnit) : Sets u.creationSegments :=
  sets_flatMap fun _ _ => sets_block (fun _ hr => wellSet_code (by decide) hr)
    (sets_quotedLine (by decide) (by decide))

theorem sets_aliasSegments (h : u.HasCodeNames) : Sets u.aliasSegments := by
  refine sets_flatMap fun (owner, method) he => sets_codeLine (opensText_append ?_ (by decide))
  have hn := isCode_of_isCodeText (h.aliases (aliasName owner method) (mem_map_of_mem he))
  simp only [isCode_append, hn]
  decide

theorem wellSet_assignment (hh : isCodeText holder.toList) (hn : isCodeText name.toList) (hr : wellSet true rest) :
    wellSet true ([.property holder name, .code " = ", .spliced v, .code ";"] ++ .feed :: rest) :=
  wellSet_property hh hn (wellSet_opens (by decide) (wellSet_spliced rfl (wellSet_lineEnd (by decide) hr)))

theorem sets_assignment (hh : isCodeText holder.toList) (hn : isCodeText name.toList) :
    Sets (Segment.line level [.property holder name, .code " = ", .spliced v, .code ";"]) :=
  sets_line fun _ hr => wellSet_assignment hh hn hr

theorem sets_methodSegments {methods : List ScriptFunction} (hh : isCodeText holder.toList)
    (hn : ∀ f ∈ methods, isCodeText f.name.toList) : Sets (methodSegments holder methods) := by
  refine sets_flatMap fun f hf => sets_line fun rest hr => ?_
  rw [cons_append, cons_append, append_assoc]
  exact wellSet_property hh (hn f hf) (wellSet_code (by decide)
    (wellSet_function 1 f.params f.body (wellSet_lineEnd (by decide) hr) rfl))

theorem sets_memberSegments (h : u.HasCodeNames) : Sets u.memberSegments := by
  have hv {e : String × String} (he : e ∈ u.protectedVariables ∨ e ∈ u.publicVariables) :
      isCodeText e.1.toList := by
    refine h.values e ?_
    simp only [mem_append]
    exact .inl (.inl he)
  have hm {f : ScriptFunction} (hf : f ∈ u.protectedMethods ∨ f ∈ u.publicMethods) :
      isCodeText f.name.toList := h.methods f (mem_append.2 hf)
  have hp {name : String} {value? : Option String} (he : (name, value?) ∈ u.privateVariables) :
      Sets (Segment.line 1 (.code ("let " ++ name) :: ((value?.map fun v => [.code " = ", .spliced v]).getD [] ++ [.code ";"]))) := by
    have hn := h.privates name (mem_append_left _ (mem_map_of_mem he))
    have hl : isCodeText ("let " ++ name).toList := by
      rw [String.toList_append]
      exact isCodeText_append (by decide) hn
    refine sets_line fun rest hr => wellSet_code hl ?_
    cases value? with
    | none => exact wellSet_lineEnd (by decide) hr
    | some v =>
      exact wellSet_opens (by decide) (wellSet_spliced rfl (wellSet_lineEnd (by decide) hr))
  have hd (f : ScriptFunction) (hf : f ∈ u.privateMethods) : Sets (declaration 1 f) :=
    sets_declaration 1 (h.privates f.name (mem_append_right _ (mem_map_of_mem hf)))
  exact (((((sets_flatMap fun _ he => hp he).append (sets_flatMap hd)).append
    (sets_flatMap fun _ he => sets_assignment (by decide) (hv (.inl he)))).append
    (sets_methodSegments (by decide) fun f hf => hm (.inl hf))).append
    (sets_flatMap fun _ he => sets_assignment (by decide) (hv (.inr he)))).append
    (sets_methodSegments (by decide) fun f hf => hm (.inr hf))

theorem sets_publishedSegments (h : u.HasCodeNames) : Sets u.publishedSegments := by
  refine sets_flatMap fun (name, isPublic) he => sets_line fun rest hr => ?_
  obtain ⟨hn, ha⟩ := h.published _ he
  refine wellSet_property (by decide) ha (wellSet_lineEnd (opensText_append ?_ (by decide)) hr)
  simp only [isCode_append, isCode_of_isCodeText hn]
  cases isPublic <;> decide

theorem sets_attributeSegments (u : ScriptUnit) (key v : String) : Sets (u.attributeSegments key v) := by
  refine Sets.append (sets_elementProperty rfl ?_ ?_) ?_
  · exact fun rest hr => wellSet_code (by decide) (wellSet_quoted (wellSet_code (by decide) hr))
  · exact fun rest hr => wellSet_code (by decide) (wellSet_quoted (wellSet_code (by decide) hr))
  · split
    · exact sets_nil
    · refine sets_block (fun rest hr => ?_) (sets_line fun rest hr => ?_)
      · exact wellSet_code (by decide) (wellSet_quoted (wellSet_code (by decide) hr))
      · exact wellSet_code (by decide) (wellSet_quoted (wellSet_code (by decide) (wellSet_quoted
          (wellSet_lineEnd (by decide) hr))))

theorem sets_surfaceSegments (h : u.HasCodeNames) : Sets u.surfaceSegments := by
  have hp {key : Segment} (hk : key.isSound = true) {read write : String}
      (hr : isCodeText read.toList = true) (hw : isCodeText write.toList = true) :
      Sets (Segment.elementProperty key [.code read] [.code write]) :=
    sets_elementProperty hk (fun _ he => wellSet_code hr he) fun _ he => wellSet_code hw he
  refine sets_block (fun _ he => wellSet_code (by decide) he) ?_
  have ha : Sets (u.attributes.entries.flatMap fun e => u.attributeSegments e.1 e.2) :=
    sets_flatMap fun e _ => u.sets_attributeSegments e.1 e.2
  refine (((Sets.append ?_ ha).append (sets_flatMap fun name hn => ?_)).append ?_).append ?_
  · cases u.anchor.className? with
    | none => exact sets_nil
    | some name => exact sets_quotedLine (by decide) (by decide)
  · have hc := h.styleNames name hn
    have hr : isCodeText (elementText ++ ".style." ++ name).toList = true := by
      rw [String.toList_append]
      exact isCodeText_append (by decide) hc
    refine hp rfl hr (isCodeText_append_of_isCode (isCode_of_isCodeText hr) (by decide) (by decide))
  · exact hp rfl (by decide) (by decide)
  · split
    · exact hp rfl (by decide) (by decide)
    · exact sets_nil

theorem sets_accessorSegments (u : ScriptUnit) : Sets u.accessorSegments := by
  refine sets_flatMap fun a _ => sets_defineProperty 1 rfl ?_ ?_
  · intro function hf rest hr hl
    obtain ⟨body, -, rfl⟩ := Option.map_eq_some_iff.1 hf
    exact wellSet_function 2 [] body hr hl
  · intro function hf rest hr hl
    obtain ⟨f, -, rfl⟩ := Option.map_eq_some_iff.1 hf
    exact wellSet_function 2 f.params f.body hr hl

theorem sets_handlerSegments (u : ScriptUnit) : Sets u.handlerSegments := by
  unfold handlerSegments
  split
  · exact sets_nil
  · refine sets_block (fun _ hr => wellSet_code (by decide) hr) (sets_flatMap fun f _ => sets_line fun rest hr => ?_)
    rw [cons_append, cons_append, cons_append, append_assoc]
    exact wellSet_code (by decide) (wellSet_quoted (wellSet_code (by decide)
      (wellSet_function 2 f.params f.body (wellSet_lineEnd (by decide) hr) rfl)))

theorem sets_childSegments (h : u.HasCodeNames) : Sets u.childSegments := by
  refine sets_flatMap fun child hc => ?_
  obtain ⟨hf, hl, hn⟩ := h.children child hc
  have hm : opensText (" = new " ++ child.anchor.function ++ "();") := by
    refine opensText_append ?_ (by decide)
    simp only [isCode_append, isCode_of_isCodeText hf]
    decide
  have hp {handle : String} (hh : isCode handle) :
      Sets (if u.anchor.markupId?.isSome then Segment.line 1 [.code (childListText ++ ".push(" ++ handle ++ ");")]
        else Segment.line 1 [.code (selfName ++ "." ++ childrenName ++ ".add(" ++ handle ++ ");")]) := by
    split <;> refine sets_codeLine (opensText_append ?_ (by decide)) <;> simp only [isCode_append, hh] <;> decide
  cases hname? : child.name? with
  | none =>
    have hpl : isCodeText ("const " ++ child.localName).toList := by
      rw [String.toList_append]
      exact isCodeText_append (by decide) hl
    exact Sets.append (sets_line fun rest hr => wellSet_code hpl (wellSet_lineEnd hm hr))
      (hp (isCode_of_isCodeText hl))
  | some name =>
    have hn' := hn name hname?
    refine Sets.append (sets_line fun rest hr => wellSet_property (by decide) hn' (wellSet_lineEnd hm hr)) (hp ?_)
    simp only [isCode_append, isCode_of_isCodeText hn']
    decide

theorem sets_defaultSegments (h : u.HasCodeNames) : Sets u.defaultSegments := by
  refine sets_flatMap fun (name, v) he => ?_
  have hn : isCodeText name.toList := by
    refine h.values (name, v) ?_
    simp only [mem_append]
    exact .inl (.inr he)
  dsimp only
  split
  · exact sets_block (fun _ hr => wellSet_code (by decide) hr) (sets_assignment (by decide) hn)
  · exact sets_assignment (by decide) hn

theorem sets_ownStyleSegments (u : ScriptUnit) : Sets u.ownStyleSegments :=
  sets_flatMap fun _ _ => sets_line fun _ hr => wellSet_code (by decide) (wellSet_quoted (wellSet_code (by decide)
    (wellSet_quoted (wellSet_lineEnd (by decide) hr))))

variable {rest : List Segment}

theorem isCodeText_assignment (h : u.HasCodeNames) {e : String × String} (he : e ∈ u.assignments) : isCodeText e.1.toList := by
  refine h.values e ?_
  simp only [mem_append]
  exact .inr he

theorem wellSet_joinLines (hr : wellSet false rest) (hl : isCodeLine rest)
    (bodies : List (List Segment)) (hb : ∀ item ∈ bodies, ∃ body, item = [.spliced body]) :
    ∀ items : List (List Segment), (∀ item ∈ items, ∃ key v, isCodeText key.toList ∧
      item = [.property selfName key, .code " = ", .spliced v, .code ";"]) →
      bodies.length ≤ 1 → wellSet true (joinLines (items ++ bodies) ++ .feed :: rest)
  | [], _, ho => by
    match bodies, ho with
    | [], _ => exact wellSet_feed (wellSet_mono hr fun h => by cases h)
    | [item], _ =>
      obtain ⟨body, rfl⟩ := hb item (mem_singleton_self item)
      exact wellSet_spliced hl (wellSet_feed hr)
  | item :: items, h, ho => by
    obtain ⟨⟨key, v, hk, rfl⟩, hi⟩ := forall_mem_cons.1 h
    have hm := wellSet_joinLines hr hl bodies hb items hi ho
    cases hn : items ++ bodies with
    | nil =>
      rw [cons_append, hn]
      exact wellSet_assignment (by decide) hk (wellSet_mono hr fun h => by cases h)
    | cons next more =>
      rw [hn] at hm
      rw [cons_append, hn]
      exact wellSet_assignment (by decide) hk hm

theorem wellSet_lastWorkSegments (h : u.HasCodeNames) (hr : wellSet false rest)
    (hl : isCodeLine rest) : wellSet true (u.lastWorkSegments ++ rest) := by
  have ha (layout : String → String) : ∀ item ∈ u.assignments.map (fun e =>
      [property selfName e.1, .code " = ", .spliced (layout e.2), .code ";"]), ∃ key v : String,
      isCodeText key.toList ∧ item = [.property selfName key, .code " = ", .spliced v, .code ";"] := by
    intro item hi
    obtain ⟨⟨key, v⟩, he, rfl⟩ := mem_map.1 hi
    exact ⟨key, layout v, isCodeText_assignment h he, rfl⟩
  have hb (layout : String → String) : ∀ item ∈ u.workBody?.toList.map fun body => [spliced (layout body)],
      ∃ body, item = [.spliced body] := by
    intro item hi
    obtain ⟨body, -, rfl⟩ := mem_map.1 hi
    exact ⟨_, rfl⟩
  have ho (layout : String → String) :
      (u.workBody?.toList.map fun body => [spliced (layout body)]).length ≤ 1 := by
    cases u.workBody? <;> simp
  unfold lastWorkSegments
  split_ifs with hbo hm
  · exact wellSet_mono hr fun h => by cases h
  · have hn : wellSet false (Segment.line 1 [.code "\x7d;"] ++ rest) :=
      wellSet_indent 1 (wellSet_lineEnd (by decide) (wellSet_mono hr fun h => by cases h))
    have hw : wellSet true (Segment.line 2 (joinLines (u.workItems id)) ++ (Segment.line 1 [.code "\x7d;"] ++ rest)) := by
      rw [Segment.line, cons_append, append_assoc]
      exact wellSet_indent 2 (wellSet_joinLines hn rfl _ (hb id) _ (ha id) (ho id))
    rw [append_assoc]
    exact sets_codeLine (by decide) _ hw
  · rw [workItems, flatMap_append, append_assoc]
    refine sets_flatMap (fun item hi => ?_) _ ?_
    · obtain ⟨key, v, hk, rfl⟩ := ha (fun text => String.ofList (reindent text.toList)) item hi
      exact sets_assignment (by decide) hk
    · cases u.workBody? with
      | none => exact wellSet_mono hr fun h => by cases h
      | some body => exact wellSet_indent 1 (wellSet_spliced hl (wellSet_feed hr))

/-- **Units are well set.** A unit whose names are code can stand before whatever is well set. -/
theorem sets_segments (h : u.HasCodeNames) : Sets u.segments := by
  intro rest hr
  have hc : Sets childrenSegments := sets_codeLine (by decide)
  have he : wellSet false ([.code "\x7d", .feed] ++ rest) := wellSet_lineEnd (by decide) hr
  have hf := ((((((((((((((sets_headSegments h).append (sets_openingSegments u)).append (sets_chainSegments h)).append
    (sets_creationSegments u)).append (sets_aliasSegments h)).append (sets_memberSegments h)).append
    (sets_publishedSegments h)).append (sets_surfaceSegments h)).append (sets_accessorSegments u)).append
    (sets_handlerSegments u)).append hc).append (sets_childSegments h)).append
    (sets_defaultSegments h)).append (sets_ownStyleSegments u)) _ (wellSet_lastWorkSegments h he rfl)
  rw [segments, append_assoc, append_assoc]
  exact hf

end ScriptUnit

end Pagewright
