import Mathlib.Data.List.TakeWhile
import Pagewright.Proofs.Layout
import Pagewright.Stylesheet

/-!
# Segments

What is written into a script or a stylesheet is made here, or taken from the source as it stands:
bodies, expressions, arguments, parameters and values. `Segment` tells the two apart, and which
names of the source become properties of an instance or of its capsule. Every part of a unit is the
text of its segments (`ScriptUnit.textOf_segments`), and so is every rule
(`Rule.textOf_segments`). -/

namespace Pagewright

open List
open String (join ofList toList toList_append toList_join)

/-- A part of a text that is written. -/
inductive Segment where
  /-- Code that is made here, within a line. -/
  | code (text : String)
  /-- The end of a line. -/
  | feed
  /-- A string, quoted. -/
  | quoted (text : String)
  /-- A property that is named by the source, of the instance or its capsule. -/
  | property (holder name : String)
  /-- The name, quoted, under which a property of the instance is defined; the source gives it. -/
  | defined (name : String)
  /-- A text of the source. -/
  | spliced (text : String)
deriving DecidableEq

namespace Segment

/-- A segment as it is written. -/
def text : Segment → List Char
  | code text => text.toList
  | feed => ['\n']
  | quoted text => (scriptString text).toList
  | property holder name => holder.toList ++ '.' :: name.toList
  | defined name => (scriptString name).toList
  | spliced text => text.toList

/-- The text of some segments. -/
def textOf (segments : List Segment) : List Char := segments.flatMap text

@[simp] theorem textOf_nil : textOf [] = [] := rfl

@[simp] theorem textOf_cons (seg : Segment) (segments : List Segment) :
    textOf (seg :: segments) = seg.text ++ textOf segments := rfl

@[simp] theorem textOf_append (segs segments' : List Segment) :
    textOf (segs ++ segments') = textOf segs ++ textOf segments' := flatMap_append

attribute [simp] text

@[simp] theorem textOf_flatMap {α : Type} (f : α → List Segment) (xs : List α) :
    textOf (xs.flatMap f) = xs.flatMap fun x => textOf (f x) :=
  flatMap_assoc

@[simp] theorem textOf_getD {α : Type} (f : α → List Segment) (x? : Option α) :
    textOf ((x?.map f).getD []) = (x?.map fun x => textOf (f x)).getD [] := by
  cases x? <;> rfl

/-! ### Lines, blocks and functions -/

/-- A line at a level. -/
def line (level : Nat) (segments : List Segment) : List Segment :=
  code (indent level) :: (segments ++ [feed])

/-- What stands in braces behind a head, itself written in lines. -/
def block (level : Nat) (head lines : List Segment) : List Segment :=
  line level (head ++ [code " \x7b"]) ++ lines ++ line level [code "\x7d"]

/-- Parameters with commas between them. -/
def params : List String → List Segment
  | [] => []
  | [p] => [spliced p]
  | p :: q :: rest => spliced p :: code ", " :: params (q :: rest)

/-- A function expression that ends at a level. -/
def function (level : Nat) (ps : List String) (body : String) : List Segment :=
  code "function (" :: (params ps ++ code ") \x7b" ::
    if (trimString body).isEmpty then [code "\x7d"]
    else [feed, code (indent (level + 1)), spliced (trimString body), feed, code (indent level ++ "\x7d")])

/-- A function declaration at a level. -/
def declaration (level : Nat) (f : ScriptFunction) : List Segment :=
  code (indent level ++ "function " ++ f.name ++ "(") :: (params f.params ++ code ") \x7b" ::
    if (trimString f.body).isEmpty then [code "\x7d", feed]
    else [feed, code (indent (level + 1)), spliced (trimString f.body), feed, code (indent level ++ "\x7d"), feed])

/-- The getter or the setter of a property. -/
def propertyPart (level : Nat) (label : String) : Option (List Segment) → List Segment
  | some function => line (level + 1) (code (label ++ ": ") :: (function ++ [code ","]))
  | none => []

/-- A property of the instance that is read and written through functions. -/
def defineProperty (level : Nat) (key : Segment) (getter? setter? : Option (List Segment)) : List Segment :=
  line level [code ("Object.defineProperty(" ++ selfName ++ ", "), key, code ", \x7b"] ++
    propertyPart level "get" getter? ++ propertyPart level "set" setter? ++
    line (level + 1) [code "configurable: true,"] ++
    line (level + 1) [code "enumerable: true,"] ++
    line level [code "\x7d);"]

/-- A property of the instance that stands for a part of its element. -/
def elementProperty (key : Segment) (read write : List Segment) : List Segment :=
  defineProperty 2 key (some (code "function () \x7b return " :: (read ++ [code "; \x7d"])))
    (some (code "function (value) \x7b " :: (write ++ [code "; \x7d"])))

@[simp] theorem textOf_line (level : Nat) (segs : List Segment) :
    textOf (line level segs) = (indent level).toList ++ textOf segs ++ ['\n'] := by simp [line]

@[simp] theorem textOf_params : ∀ ps : List String, textOf (params ps) = (joinNames ", " ps).toList
  | [] => rfl
  | [p] => by simp [params, joinNames]
  | p :: q :: rest => by
    rw [params, textOf_cons, textOf_cons, textOf_params (q :: rest)]
    simp [joinNames]

@[simp] theorem textOf_function (level : Nat) (ps : List String) (body : String) :
    textOf (function level ps body) = (functionText level ps body).toList := by
  unfold function functionText
  split <;> simp_all

@[simp] theorem textOf_declaration (level : Nat) (f : ScriptFunction) :
    textOf (declaration level f) = (functionDeclaration level f).toList := by
  unfold declaration functionDeclaration Pagewright.line
  split <;> simp_all

end Segment

@[simp] theorem toList_getD {α : Type} (f : α → String) (x? : Option α) :
    ((x?.map f).getD "").toList = (x?.map fun x => (f x).toList).getD [] := by
  cases x? <;> rfl

@[simp] theorem toList_line (level : Nat) (text : String) :
    (line level text).toList = (indent level).toList ++ text.toList ++ ['\n'] := by simp [line]

@[simp] theorem toList_block (level : Nat) (head lines : String) :
    (block level head lines).toList = (indent level).toList ++ head.toList ++ [' ', '\x7b', '\n'] ++ lines.toList ++
      (indent level).toList ++ ['\x7d', '\n'] := by simp [block]

namespace Segment

variable {name readText writeText : String} {getterText? setterText? : Option String}

@[simp] theorem textOf_block (level : Nat) (head lines : List Segment) :
    textOf (block level head lines) = (indent level).toList ++ textOf head ++ [' ', '\x7b', '\n'] ++ textOf lines ++
      (indent level).toList ++ ['\x7d', '\n'] := by simp [block]

theorem textOf_defineProperty (level : Nat) {key : Segment}
    (hk : key.text = (scriptString name).toList) {getter? setter? : Option (List Segment)}
    (hg : getter?.map textOf = getterText?.map toList) (hs : setter?.map textOf = setterText?.map toList) :
    textOf (defineProperty level key getter? setter?) = (Pagewright.defineProperty level name getterText? setterText?).toList := by
  have hp (label : String) {function? : Option (List Segment)} {text? : Option String}
      (h : function?.map textOf = text?.map toList) :
      textOf (propertyPart level label function?) =
        (text?.elim "" fun text => Pagewright.line (level + 1) (label ++ ": " ++ text ++ ",")).toList := by
    cases function? <;> cases text? <;> simp_all [propertyPart]
  have hh : textOf (line level [code ("Object.defineProperty(" ++ selfName ++ ", "), key, code ", \x7b"]) = (Pagewright.line level
        ("Object.defineProperty(" ++ selfName ++ ", " ++ scriptString name ++ ", \x7b")).toList := by
    rw [textOf_line, textOf_cons, textOf_cons, hk]
    simp
  have he (level : Nat) (text : String) : textOf (line level [code text]) = (Pagewright.line level text).toList := by
    simp
  rw [defineProperty, Pagewright.defineProperty]
  simp only [textOf_append, toList_append, hh, he, hp "get" hg, hp "set" hs]
  cases getterText? <;> cases setterText? <;> rfl

theorem textOf_elementProperty {key : Segment} (hk : key.text = (scriptString name).toList)
    {read write : List Segment} (hr : textOf read = readText.toList) (hw : textOf write = writeText.toList) :
    textOf (elementProperty key read write) = (Pagewright.elementProperty name readText writeText).toList :=
  textOf_defineProperty 2 hk (by simp [hr]) (by simp [hw])

/-- Statements one below the other. -/
def joinLines : List (List Segment) → List Segment
  | [] => []
  | [item] => item
  | item :: next :: rest => item ++ feed :: joinLines (next :: rest)

theorem textOf_joinLines : ∀ items : List (List Segment), textOf (joinLines items) = joinWith ['\n'] (items.map textOf)
  | [] => rfl
  | [item] => rfl
  | item :: next :: rest => by
    rw [joinLines, textOf_append, textOf_cons, textOf_joinLines (next :: rest)]
    simp [joinWith]

end Segment

/-! ### The parts of a unit -/

namespace ScriptUnit

open Segment (textOf textOf_flatMap)

variable (u : ScriptUnit)

/-- The beginning. -/
def openingSegments : List Segment :=
  let bound (segments : Nat → List Segment) : List Segment := (u.anchor.markupId?.map segments).getD []
  Segment.line 1 [.code ("const " ++ selfName ++ " = this;")] ++
    bound (fun _ => Segment.line 1 [.code (pendingName ++ ".push(" ++ selfName ++ ");")]) ++
    Segment.line 1 [.code (capsuleText ++ " = " ++ capsuleText ++ " || \x7b\x7d;")] ++
    Segment.line 1 [.code (childListText ++ " = " ++ childListText ++ " || [];")] ++
    bound fun id => Segment.line 1
      [.code (elementText ++ " = document.getElementById("), .quoted (idText id), .code ");"]

/-- The calls of the units of the classes applied. -/
def chainSegments : List Segment :=
  u.chain.flatMap fun (parent, args) =>
    Segment.line 1 (.code (parent ++ ".call(" ++ selfName) ::
      ((if args.isEmpty then [] else [.code ", ", .spliced args]) ++ [.code ");"]))

/-- The creation of an element. -/
def creationSegments : List Segment :=
  u.created.flatMap fun tag =>
    Segment.block 1 [.code ("if (!" ++ elementText ++ ")")]
      (Segment.line 2 [.code (elementText ++ " = document.createElement("), .quoted tag, .code ");"])

/-- The constants for the methods of ancestors. -/
def aliasSegments : List Segment :=
  u.aliases.flatMap fun (owner, method) => Segment.line 1
    [.code ("const " ++ aliasName owner method ++ " = " ++ capsuleText ++ "." ++ aliasName owner method ++ ";")]

/-- Variables of an object. -/
def variableSegments (holder : String) (values : List (String × String)) : List Segment :=
  values.flatMap fun (name, value) =>
    Segment.line 1 [.property holder name, .code " = ", .spliced value, .code ";"]

/-- Methods of an object. -/
def methodSegments (holder : String) (methods : List ScriptFunction) : List Segment :=
  methods.flatMap fun f => Segment.line 1
    (.property holder f.name :: .code " = " :: (Segment.function 1 f.params f.body ++ [.code ";"]))

/-- The members. -/
def memberSegments : List Segment :=
  (u.privateVariables.flatMap fun (name, value?) => Segment.line 1
    (.code ("let " ++ name) :: ((value?.map fun value => [.code " = ", .spliced value]).getD [] ++ [.code ";"]))) ++
    u.privateMethods.flatMap (Segment.declaration 1) ++
    variableSegments capsuleText u.protectedVariables ++
    methodSegments capsuleText u.protectedMethods ++
    variableSegments selfName u.publicVariables ++
    methodSegments selfName u.publicMethods

/-- The methods kept for descendants. -/
def publishedSegments : List Segment :=
  let owner := u.anchor.className?.getD ""
  u.published.flatMap fun (name, isPublic) =>
    let holder := if isPublic then selfName else capsuleText
    Segment.line 1 [.property capsuleText (aliasName owner name), .code (" = " ++ holder ++ "." ++ name ++ ";")]

/-- An attribute. -/
def attributeSegments (key value : String) : List Segment :=
  Segment.elementProperty (.defined (accessorName key))
      [.code (elementText ++ ".getAttribute("), .quoted key, .code ")"]
      [.code (elementText ++ ".setAttribute("), .quoted key, .code ", value)"] ++
    if u.anchor.markupId?.isSome then []
    else Segment.block 2 [.code ("if (!" ++ elementText ++ ".hasAttribute("), .quoted key, .code "))"]
      (Segment.line 3
        [.code (elementText ++ ".setAttribute("), .quoted key, .code ", ", .quoted value, .code ");"])

/-- What an instance shows of its element. -/
def surfaceSegments : List Segment :=
  Segment.block 1 [.code ("if (" ++ elementText ++ ")")]
    (((u.anchor.className?.map fun name =>
        Segment.line 2 [.code (elementText ++ ".classList.add("), .quoted name, .code ");"]).getD []) ++
      u.attributes.entries.flatMap (fun (key, value) => u.attributeSegments key value) ++
      u.styleNames.flatMap (fun name =>
        Segment.elementProperty (.defined name) [.code (elementText ++ ".style." ++ name)]
          [.code (elementText ++ ".style." ++ name ++ " = value")]) ++
      Segment.elementProperty (.quoted "text") [.code (elementText ++ ".textContent")]
        [.code (elementText ++ ".textContent = value")] ++
      if u.hasValue then
        Segment.elementProperty (.quoted "value") [.code (elementText ++ ".value")]
          [.code (elementText ++ ".value = value")]
      else [])

/-- The accessors. -/
def accessorSegments : List Segment :=
  u.accessors.flatMap fun a =>
    Segment.defineProperty 1 (.defined a.name) (a.getter?.map (Segment.function 2 [] ·))
      (a.setter?.map fun f => Segment.function 2 f.params f.body)

/-- The event handlers. -/
def handlerSegments : List Segment :=
  if u.handlers.isEmpty then []
  else Segment.block 1 [.code ("if (" ++ elementText ++ ")")] (u.handlers.flatMap fun f =>
    Segment.line 2 (.code (elementText ++ ".addEventListener(") :: .quoted f.name :: .code ", " ::
      (Segment.function 2 f.params f.body ++ [.code ");"])))

/-- The making of the child instances. -/
def childSegments : List Segment :=
  u.children.flatMap fun child =>
    let made : Segment := .code (" = new " ++ child.anchor.function ++ "();")
    let (place, handle) : List Segment × String := match child.name? with
      | some name => ([.property capsuleText name], capsuleText ++ "." ++ name)
      | none => ([.code ("const " ++ child.localName)], child.localName)
    Segment.line 1 (place ++ [made]) ++
      if u.anchor.markupId?.isSome then Segment.line 1 [.code (childListText ++ ".push(" ++ handle ++ ");")]
      else Segment.line 1 [.code (selfName ++ "." ++ childrenName ++ ".add(" ++ handle ++ ");")]

/-- The text and value it begins with. -/
def defaultSegments : List Segment :=
  u.defaults.flatMap fun (name, value) =>
    let assigned : List Segment := [.property selfName name, .code " = ", .spliced value, .code ";"]
    if name = "text" then
      Segment.block 1 [.code ("if (!" ++ elementText ++ " || !" ++ elementText ++ ".textContent)")]
        (Segment.line 2 assigned)
    else Segment.line 1 assigned

/-- The style of an element that it creates. -/
def ownStyleSegments : List Segment :=
  u.ownStyle.flatMap fun (key, value) => Segment.line 1
    [.code (elementText ++ ".style.setProperty("), .quoted key, .code ", ", .quoted value, .code ");"]

theorem textOf_openingSegments : textOf u.openingSegments = u.opening.toList := by
  unfold openingSegments opening
  cases u.anchor.markupId? <;> simp

theorem textOf_chainSegments : textOf u.chainSegments = u.chainText.toList := by
  rw [chainSegments, textOf_flatMap, chainText, toList_join, flatMap_map]
  refine flatMap_congr fun (parent, args) _ => ?_
  dsimp only
  split <;> simp

theorem textOf_creationSegments : textOf u.creationSegments = u.creationText.toList := by
  simp [creationSegments, creationText, toList_join, flatMap_map]

theorem textOf_aliasSegments : textOf u.aliasSegments = u.aliasText.toList := by
  simp [aliasSegments, aliasText, toList_join, flatMap_map]

theorem textOf_memberSegments : textOf u.memberSegments = u.memberText.toList := by
  simp [memberSegments, memberText, variableSegments, variableText, methodSegments, methodText, toList_join, flatMap_map]

theorem textOf_publishedSegments : textOf u.publishedSegments = u.publishedText.toList := by
  simp [publishedSegments, publishedText, toList_join, flatMap_map]

theorem textOf_attributeSegments (key v : String) : textOf (u.attributeSegments key v) = (u.attributeText key v).toList := by
  have hp : textOf (Segment.elementProperty (.defined (accessorName key)) [.code (elementText ++ ".getAttribute("), .quoted key, .code ")"]
      [.code (elementText ++ ".setAttribute("), .quoted key, .code ", value)"]) =
      (elementProperty (accessorName key) (elementText ++ ".getAttribute(" ++ scriptString key ++ ")")
        (elementText ++ ".setAttribute(" ++ scriptString key ++ ", value)")).toList :=
    Segment.textOf_elementProperty rfl (by simp) (by simp)
  unfold attributeSegments attributeText
  rw [Segment.textOf_append, hp]
  split <;> simp

theorem textOf_surfaceSegments : textOf u.surfaceSegments = u.surfaceText.toList := by
  have hs (name read write : String) : textOf (Segment.elementProperty (.defined name) [.code read] [.code write]) =
      (elementProperty name read write).toList :=
    Segment.textOf_elementProperty rfl (by simp) (by simp)
  have hf (name read write : String) : textOf (Segment.elementProperty (.quoted name) [.code read] [.code write]) =
      (elementProperty name read write).toList :=
    Segment.textOf_elementProperty rfl (by simp) (by simp)
  rw [surfaceSegments, surfaceText, Segment.textOf_block]
  simp only [Segment.textOf_append, textOf_flatMap, textOf_attributeSegments, hs, hf]
  split <;> simp [hf, toList_join, flatMap_map]

theorem textOf_accessorSegments : textOf u.accessorSegments = u.accessorText.toList := by
  rw [accessorSegments, textOf_flatMap, accessorText, toList_join, flatMap_map]
  refine flatMap_congr fun a _ => Segment.textOf_defineProperty 1 rfl ?_ ?_
  · cases a.getter? <;> simp
  · cases a.setter? <;> simp

theorem textOf_handlerSegments : textOf u.handlerSegments = u.handlerText.toList := by
  unfold handlerSegments handlerText
  split <;> simp [toList_join, flatMap_map]

theorem textOf_childSegments : textOf u.childSegments = u.childText.toList := by
  rw [childSegments, textOf_flatMap, childText, toList_join, flatMap_map]
  refine flatMap_congr fun child _ => ?_
  cases child.name? <;> cases u.anchor.markupId? <;> simp

theorem textOf_defaultSegments : textOf u.defaultSegments = u.defaultText.toList := by
  rw [defaultSegments, textOf_flatMap, defaultText, toList_join, flatMap_map]
  refine flatMap_congr fun (name, v) _ => ?_
  dsimp only
  split <;> simp_all

theorem textOf_ownStyleSegments : textOf u.ownStyleSegments = u.ownStyleText.toList := by
  simp [ownStyleSegments, ownStyleText, toList_join, flatMap_map]

/-- The body of the constructor, if there is something in it. -/
def workBody? : Option String := (u.constructor?.map trimString).filter (!·.isEmpty)

/-- The statements of the last work, with every text of the source laid out. -/
def workItems (layout : String → String) : List (List Segment) :=
  u.assignments.map (fun (key, value) =>
    [.property selfName key, .code " = ", .spliced (layout value), .code ";"]) ++
  u.workBody?.toList.map fun body => [.spliced (layout body)]

/-- The last work: as it stands, or line by line. -/
def lastWorkSegments : List Segment :=
  if u.anchor.markupId?.isSome then
    if (u.workItems id).isEmpty then []
    else Segment.line 1 [.code (selfName ++ "." ++ postBindName ++ " = function () \x7b")] ++
      Segment.line 2 (Segment.joinLines (u.workItems id)) ++ Segment.line 1 [.code "\x7d;"]
  else (u.workItems fun text => ofList (reindent text.toList)).flatMap (Segment.line 1)

theorem isSolid_workItems : ∀ part ∈ (u.workItems id).map textOf, IsSolid part := by
  refine forall_mem_map.2 fun item h => ?_
  rcases mem_append.1 h with h | h
  · obtain ⟨⟨key, v⟩, -, rfl⟩ := mem_map.1 h
    exact ⟨⟨'_', by simp [selfName], by decide⟩, ⟨';', by simp [getLast?_cons], by decide⟩⟩
  · obtain ⟨body, hb, rfl⟩ := mem_map.1 h
    rw [Option.mem_toList, workBody?, Option.filter_eq_some_iff] at hb
    obtain ⟨hb, hne⟩ := hb
    obtain ⟨raw, -, rfl⟩ := Option.map_eq_some_iff.1 hb
    simp only [Segment.textOf_cons, Segment.text, Segment.textOf_nil, append_nil, id, trimString, String.toList_ofList]
    refine isSolid_trim fun hn => ?_
    simp [trimString, hn] at hne

theorem exists_lastWork_eq : ∃ blanks, (∀ c ∈ blanks, isBlank c) ∧
    u.lastWork.toList = ((u.workItems id).map textOf).flatMap (· ++ ['\n']) ++ blanks := by
  have ha : (join (u.assignments.map fun (key, v) =>
      selfName ++ "." ++ key ++ " = " ++ v ++ ";\n")).toList =
      ((u.assignments.map fun (key, v) => [.property selfName key, .code " = ", .spliced (id v),
        .code ";"]).map textOf).flatMap (· ++ ['\n']) := by
    rw [toList_join, flatMap_map, map_map, flatMap_map]
    exact flatMap_congr fun (key, v) _ => by simp
  rw [lastWork, toList_append, ha, workItems]
  cases hb : u.constructor? with
  | none => exact ⟨[], nofun, by simp [workBody?, hb]⟩
  | some body =>
    by_cases he : (trimString body).isEmpty
    · have hn : trimString body = "" := by simpa using he
      exact ⟨['\n'], forall_mem_singleton.2 (by decide), by simp [workBody?, hb, hn]⟩
    · exact ⟨[], nofun, by simp [workBody?, hb, Option.filter_some, he]⟩

theorem trimEnd_lastWork : trimEnd u.lastWork.toList = joinWith ['\n'] ((u.workItems id).map textOf) ∧
    trim u.lastWork.toList = joinWith ['\n'] ((u.workItems id).map textOf) := by
  obtain ⟨blanks, hb, heq⟩ := u.exists_lastWork_eq
  rw [heq]
  rcases eq_nil_or_concat ((u.workItems id).map textOf) with hn | ⟨init, last, hc⟩
  · rw [hn]
    constructor
    · simpa [trimEnd, dropEndWhile, joinWith] using hb
    · simp [trim, trimStart, dropWhile_eq_nil_iff.2 hb, trimEnd, dropEndWhile, joinWith]
  · have hs : IsSolid (joinWith ['\n'] ((u.workItems id).map textOf)) :=
      IsSolid.joinWith _ (by rw [hc]; simp) u.isSolid_workItems
    have hw : ((u.workItems id).map textOf).flatMap (· ++ ['\n']) ++ blanks =
        joinWith ['\n'] ((u.workItems id).map textOf) ++ '\n' :: blanks := by
      rw [hc, concat_eq_append, joinWith_append_singleton]
      simp
    have ha : ∀ c ∈ '\n' :: blanks, isBlank c := forall_mem_cons.2 ⟨by decide, hb⟩
    rw [hw]
    exact ⟨trimEnd_append ha hs.last, by
      rw [trim, trimStart_append_of_isSolid hs, trimEnd_append ha hs.last]⟩

theorem textOf_reindented (key v : String) (h : '\n' ∉ key.toList) :
    textOf [.property selfName key, .code " = ", .spliced (ofList (reindent v.toList)), .code ";"] =
      reindent (textOf [.property selfName key, .code " = ", .spliced v, .code ";"]) := by
  have hf : '\n' ∉ (selfName ++ "." ++ key ++ " = ").toList := by simp [selfName, h]
  have hs : textOf [.property selfName key, .code " = ", .spliced v, .code ";"] =
      (selfName ++ "." ++ key ++ " = ").toList ++ (v.toList ++ [';']) := by simp
  rw [hs, reindent_append (by simp [getLast?_cons]), reindent_append (by simp), reindent_of_not_mem hf]
  simp [reindent]

theorem map_textOf_workItems (h : ∀ e ∈ u.assignments, '\n' ∉ e.1.toList) :
    (u.workItems fun text => ofList (reindent text.toList)).map textOf = ((u.workItems id).map textOf).map reindent := by
  rw [workItems, workItems]
  simp only [map_append, map_map]
  congr 1
  · exact map_congr_left fun (key, v) he => textOf_reindented key v (h _ he)
  · exact map_congr_left fun body _ => by simp

theorem reindent_joinWith : ∀ {parts : List (List Char)}, (∀ part ∈ parts, IsSolid part) →
    parts ≠ [] → (indent 1).toList ++ (reindent (joinWith ['\n'] parts) ++ ['\n']) =
      (parts.map reindent).flatMap fun part => (indent 1).toList ++ (part ++ ['\n'])
  | [part], h, _ => by simp [joinWith]
  | part :: next :: rest, h, _ => by
    obtain ⟨hp, hr⟩ := forall_mem_cons.1 h
    obtain ⟨c, hc, hb⟩ := hp.last
    have he : part.getLast? = some '\r' → (['\n'] ++ joinWith ['\n'] (next :: rest)).head? ≠ some '\n' := by
      rw [hc]
      rintro ⟨⟩
      cases hb
    rw [joinWith, append_assoc, reindent_append he, map_cons, flatMap_cons, ← reindent_joinWith hr (cons_ne_nil next rest)]
    · simp [reindent]
    · simp

theorem textOf_lastWorkSegments (h : ∀ e ∈ u.assignments, '\n' ∉ e.1.toList) :
    textOf u.lastWorkSegments = u.lastWorkText.toList := by
  obtain ⟨ht, hr⟩ := u.trimEnd_lastWork
  have hs := u.isSolid_workItems
  rw [lastWorkSegments, lastWorkText, hr, ht]
  have hn : joinWith ['\n'] ((u.workItems id).map textOf) = [] ↔ u.workItems id = [] := by
    constructor
    · intro hn
      by_contra hne
      obtain ⟨c, hc, -⟩ := (IsSolid.joinWith ['\n'] (by simpa using hne) hs).first
      rw [hn] at hc
      cases hc
    · intro hn
      rw [hn]
      rfl
  by_cases he : u.workItems id = []
  · have hit := u.map_textOf_workItems h
    rw [he, map_nil, map_nil, map_eq_nil_iff] at hit
    simp [he, hit, joinWith]
  · have hw : (joinWith ['\n'] ((u.workItems id).map textOf)).isEmpty = false := by
      simpa using fun hw => he (hn.1 hw)
    have he' : (u.workItems id).isEmpty = false := by simpa using he
    rw [hw, he']
    cases u.anchor.markupId? with
    | some id => simp [Segment.textOf_joinLines]
    | none =>
      obtain ⟨c, hc, hb⟩ := (IsSolid.joinWith ['\n'] (by simpa using he) hs).last
      have hf : c ≠ '\n' := by
        rintro rfl
        cases hb
      have hl := flatMap_breakLines hc hf
      rw [reindent_joinWith hs (by simpa using he), ← u.map_textOf_workItems h] at hl
      simp only [Option.isSome_none, Bool.false_eq_true, if_false, toList_join, flatMap_map, toList_line,
        String.toList_ofList, append_assoc, hl, textOf, flatMap_assoc, Segment.line]
      simp

/-- The head of the function of a unit. -/
def headSegments : List Segment :=
  .code ("function " ++ u.anchor.function ++ "(") :: (Segment.params u.params ++ [.code ") \x7b", .feed])

/-- The child operations of the instance. -/
def childrenSegments : List Segment :=
  Segment.line 1 [.code (selfName ++ "." ++ childrenName ++ " = " ++ childApiName ++ "(" ++ selfName ++ ");")]

/-- A unit as it is written, in segments. -/
def segments : List Segment :=
  u.headSegments ++ u.openingSegments ++ u.chainSegments ++ u.creationSegments ++ u.aliasSegments ++
    u.memberSegments ++ u.publishedSegments ++ u.surfaceSegments ++ u.accessorSegments ++ u.handlerSegments ++
    childrenSegments ++ u.childSegments ++ u.defaultSegments ++ u.ownStyleSegments ++ u.lastWorkSegments ++
    [.code "\x7d", .feed]

theorem textOf_headSegments : textOf u.headSegments =
    ("function " ++ u.anchor.function ++ "(" ++ joinNames ", " u.params ++ ") \x7b\n").toList := by
  simp [headSegments, Segment.textOf_params]

/-- **Units in segments.** A unit is the text of its segments. -/
theorem textOf_segments (h : ∀ e ∈ u.assignments, '\n' ∉ e.1.toList) : textOf u.segments = u.render.toList := by
  have hc : textOf childrenSegments =
      (line 1 (selfName ++ "." ++ childrenName ++ " = " ++ childApiName ++ "(" ++ selfName ++ ");")).toList := by
    simp [childrenSegments]
  have he : textOf [.code "\x7d", .feed] = "\x7d\n".toList := by simp
  unfold segments render
  simp only [Segment.textOf_append, textOf_headSegments, textOf_openingSegments, textOf_chainSegments,
    textOf_creationSegments, textOf_aliasSegments, textOf_memberSegments, textOf_publishedSegments,
    textOf_surfaceSegments, textOf_accessorSegments, textOf_handlerSegments, textOf_childSegments,
    textOf_defaultSegments, textOf_ownStyleSegments, textOf_lastWorkSegments u h, hc, he,
    toList_append]

end ScriptUnit

/-! ### Rules -/

/-- A rule as it is written, in segments. -/
def Rule.segments : Rule → List Segment
  | classRule name declarations =>
    .code ("." ++ name ++ " \x7b") :: .feed ::
      (declarations.flatMap (fun (key, value) =>
        [.code (indent 1 ++ key ++ ": "), .spliced value, .code ";", .feed]) ++ [.code "\x7d", .feed, .feed])
  | stateRule name state body =>
    [.code ("." ++ name ++ ":" ++ state ++ " \x7b "), .spliced body, .code " \x7d", .feed]

/-- **Rules in segments.** A rule is the text of its segments. -/
theorem Rule.textOf_segments (rule : Rule) : Segment.textOf rule.segments = rule.render.toList := by
  cases rule with
  | classRule name declarations => simp [segments, render, toList_join, flatMap_map]
  | stateRule name state body => simp [segments, render]

end Pagewright
