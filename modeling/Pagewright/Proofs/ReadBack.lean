import Pagewright.Proofs.Bodies
import Pagewright.Proofs.Join

/-!
# Markup read back

Markup is read by splitting it at its angle brackets, every other piece being the inside of a tag
(`readMarkup`), which is split at its quotes in the same way. On the other side stand the tags that
a page ought to have (`ClassTable.nodesTags`): one start tag for each instance, with its classes,
style, attributes and number, and an end tag unless the element has no content, in which case the
instances inside are left out too. The two agree (`compileText_markup_read`), since no escaped text
has a bracket or, in a value, a quote (`escapeMarkup_ne`), nor have names of tags and attributes
(`ElementHead.IsReadable`). -/

namespace Pagewright

open List

variable {c d m : Char} {cs key name text : List Char} {inAttribute : Bool}

/-! ### Reading markup -/

/-- A text split at its marks: what stands before the first one, and each with what stands behind
it. -/
def splitMarks (isMark : Char → Bool) : List Char → List Char × List (Char × List Char)
  | [] => ([], [])
  | c :: cs =>
    if isMark c then ([], (c, (splitMarks isMark cs).1) :: (splitMarks isMark cs).2)
    else (c :: (splitMarks isMark cs).1, (splitMarks isMark cs).2)

/-- The characters around tags. -/
def isBracket (c : Char) : Bool := c = '<' || c = '>'

theorem isBracket_eq_false_iff : isBracket c = false ↔ c ≠ '<' ∧ c ≠ '>' := by
  simp [isBracket]

/-- A text with its entities replaced. -/
def unescapeMarkup : List Char → List Char
  | '&' :: 'a' :: 'm' :: 'p' :: ';' :: cs => '&' :: unescapeMarkup cs
  | '&' :: 'l' :: 't' :: ';' :: cs => '<' :: unescapeMarkup cs
  | '&' :: 'g' :: 't' :: ';' :: cs => '>' :: unescapeMarkup cs
  | '&' :: 'q' :: 'u' :: 'o' :: 't' :: ';' :: cs => '"' :: unescapeMarkup cs
  | c :: cs => c :: unescapeMarkup cs
  | [] => []

/-- A tag. -/
inductive MarkupTag where
  | start (name : String) (attributes : List (String × String))
  | stop (name : String)
deriving DecidableEq, Repr

/-- Whether a text can be the name of a tag. -/
def isTagName (name : List Char) : Bool := !name.isEmpty && name.all Char.isAlphanum

/-- Whether a text can be the name of an attribute. -/
def isAttributeName (name : List Char) : Bool :=
  !name.isEmpty && name.all fun c => c.isAlphanum || c = '_' || c = '.' || c = ':' || c = '-'

/-- Reads attributes from the inside of a tag that is split at its quotes: a blank, a name and `=`
before each opening quote, the value behind it. -/
def readAttributes : List Char → List (Char × List Char) → Option (List (String × String))
  | [], [] => some []
  | ' ' :: name, (_, value) :: (_, next) :: rest =>
    if name.getLast? = some '=' && isAttributeName name.dropLast then
      (readAttributes next rest).map
        ((String.ofList name.dropLast, String.ofList (unescapeMarkup value)) :: ·)
    else none
  | _, _ => none

/-- Reads the inside of a tag. -/
def readTag : List Char → Option MarkupTag
  | '/' :: name => if isTagName name then some (.stop (String.ofList name)) else none
  | inside =>
    let (first, quoted) := splitMarks (· = '"') inside
    let name := first.takeWhile Char.isAlphanum
    if isTagName name then
      (readAttributes (first.dropWhile Char.isAlphanum) quoted).map (.start (String.ofList name))
    else none

/-- Reads tags, each with the text behind it, from a text that is split at its brackets. -/
def readTags : List (Char × List Char) → Option (List (MarkupTag × String))
  | [] => some []
  | ('<', inside) :: ('>', text) :: rest =>
    match readTag inside, readTags rest with
    | some tag, some tags => some ((tag, String.ofList (unescapeMarkup text)) :: tags)
    | _, _ => none
  | _ => none

/-- Reads markup: the text before the first tag, and the tags, each with the text behind it. -/
def readMarkup (markup : String) : Option (String × List (MarkupTag × String)) :=
  let (first, brackets) := splitMarks isBracket markup.toList
  (readTags brackets).map (String.ofList (unescapeMarkup first), ·)

/-! ### The tags of a page -/

/-- The attributes in the start tag of an instance with a number: classes, own style, own attributes
except `id`, then the id. -/
def Instance.shownAttributes (own : Instance) (id : Nat) : List (String × String) :=
  classAttribute own.entries ++ styleAttribute own.style ++
    own.attributes.entries.filter (·.1 != "id") ++ [("id", idText id)]

namespace ClassTable

mutual
/-- The tags of an instance at a level, each with the text behind it, and how many numbers are given
out then. Behind its last line break stands `after`. -/
def nodeTags (t : ClassTable) (level issued : Nat) (after : String) :
    Node → List (MarkupTag × String) × Nat
  | .node own children =>
    let tag := t.resolveTag own.entries
    let start := MarkupTag.start tag (own.shownAttributes (issued + 1))
    let text := (t.staticText? own).getD ""
    if isVoid tag then ([(start, "\n" ++ after)], issued + 1)
    else if children.isEmpty then ([(start, text), (.stop tag, "\n" ++ after)], issued + 1)
    else
      let (inner, issued') := t.nodesTags (level + 1) (issued + 1) (indent level) children
      ((start, text ++ "\n" ++ indent (level + 1)) :: inner ++ [(.stop tag, "\n" ++ after)], issued')
/-- The tags of instances one after the other. -/
def nodesTags (t : ClassTable) (level issued : Nat) (after : String) :
    List Node → List (MarkupTag × String) × Nat
  | [] => ([], issued)
  | node :: nodes =>
    let (first, issued') := t.nodeTags level issued (if nodes.isEmpty then after else indent level) node
    let (rest, issued'') := t.nodesTags level issued' after nodes
    (first ++ rest, issued'')
end

end ClassTable

/-! ### Splitting -/

section Splitting

variable {isMark : Char → Bool} {cs ds : List Char}

theorem splitMarks_append (h : ∀ c ∈ cs, isMark c = false) :
    splitMarks isMark (cs ++ ds) = (cs ++ (splitMarks isMark ds).1, (splitMarks isMark ds).2) := by
  induction cs with
  | nil => rfl
  | cons c cs ih =>
    obtain ⟨hc, hs⟩ := forall_mem_cons.1 h
    rw [cons_append, splitMarks, ih hs, hc]
    rfl

theorem splitMarks_append_cons (h : ∀ c ∈ cs, isMark c = false) (hm : isMark m) :
    splitMarks isMark (cs ++ m :: ds) = (cs, (m, (splitMarks isMark ds).1) :: (splitMarks isMark ds).2) := by
  rw [splitMarks_append h, splitMarks, if_pos hm, append_nil]

end Splitting

/-! ### Entities -/

theorem unescapeMarkup_cons (h : c ≠ '&') (cs : List Char) : unescapeMarkup (c :: cs) = c :: unescapeMarkup cs := by
  rw [unescapeMarkup] <;> simp [h]

theorem unescapeMarkup_of_plain (h : '&' ∉ cs) : unescapeMarkup cs = cs := by
  induction cs with
  | nil => rfl
  | cons c cs ih =>
    obtain ⟨hc, hs⟩ := not_or.1 (fun ho => h (mem_cons.2 ho))
    rw [unescapeMarkup_cons (Ne.symm hc), ih hs]

theorem unescapeMarkup_markupEscape (inAttribute : Bool) (c : Char) (cs : List Char) :
    unescapeMarkup (markupEscape inAttribute c ++ cs) = c :: unescapeMarkup cs := by
  unfold markupEscape
  split_ifs with ha hl hg hq
  · rw [ha]
    rfl
  · rw [hl]
    rfl
  · rw [hg]
    rfl
  · rw [Bool.and_eq_true, decide_eq_true_eq] at hq
    rw [hq.1]
    rfl
  · exact unescapeMarkup_cons ha cs

theorem unescapeMarkup_escapeMarkup (inAttribute : Bool) (text : String) (cs : List Char) :
    unescapeMarkup ((escapeMarkup inAttribute text).toList ++ cs) = text.toList ++ unescapeMarkup cs := by
  rw [escapeMarkup, String.toList_ofList]
  generalize text.toList = chars
  induction chars with
  | nil => rfl
  | cons c chars ih =>
    rw [flatMap_cons, append_assoc, unescapeMarkup_markupEscape, ih]
    rfl

theorem markupEscape_ne (h : d ∈ markupEscape inAttribute c) : isBracket d = false ∧ (inAttribute → d ≠ '"') := by
  have he {entity : List Char} (hd : d ∈ entity) (ha : ∀ e ∈ entity, isBracket e = false ∧ e ≠ '"') :
      isBracket d = false ∧ (inAttribute → d ≠ '"') :=
    ⟨(ha d hd).1, fun _ => (ha d hd).2⟩
  unfold markupEscape at h
  split_ifs at h with ha hl hg hq
  case neg =>
    cases mem_singleton.1 h
    refine ⟨isBracket_eq_false_iff.2 ⟨hl, hg⟩, ?_⟩
    rintro rfl rfl
    exact hq rfl
  all_goals exact he h (by simp [isBracket])

theorem escapeMarkup_ne {text : String} (h : d ∈ (escapeMarkup inAttribute text).toList) :
    isBracket d = false ∧ (inAttribute → d ≠ '"') := by
  rw [escapeMarkup, String.toList_ofList] at h
  obtain ⟨c, -, hd⟩ := mem_flatMap.1 h
  exact markupEscape_ne hd

/-! ### Attributes and tags -/

/-- Attributes as they are written. -/
def attributeText (pairs : List (String × String)) : List Char :=
  (String.join (pairs.map renderAttribute)).toList

theorem attributeText_cons (pair : String × String) (pairs : List (String × String)) :
    attributeText (pair :: pairs) = (' ' :: (pair.1.toList ++ ['='])) ++
      '"' :: ((escapeMarkup true pair.2).toList ++ '"' :: attributeText pairs) := by
  rw [attributeText, map_cons, renderAttribute]
  simp [attributeText]

theorem ne_of_isAttributeName (h : isAttributeName name) (hc : c ∈ name) : isBracket c = false ∧ c ≠ '"' := by
  have ha := all_eq_true.1 (Bool.and_eq_true_iff.1 h).2 c hc
  rw [isBracket_eq_false_iff]
  refine ⟨⟨?_, ?_⟩, ?_⟩ <;>
    · rintro rfl
      exact absurd ha (by decide)

theorem readAttributes_attributeText {pairs : List (String × String)} (h : ∀ pair ∈ pairs, isAttributeName pair.1.toList) :
    readAttributes (splitMarks (· = '"') (attributeText pairs)).1 (splitMarks (· = '"') (attributeText pairs)).2 = some pairs := by
  induction pairs with
  | nil => rfl
  | cons pair pairs ih =>
    obtain ⟨hn, hp⟩ := forall_mem_cons.1 h
    have hf : ∀ c ∈ ' ' :: (pair.1.toList ++ ['=']), decide (c = '"') = false := by
      intro c hc
      rw [decide_eq_false_iff_not]
      rcases mem_cons.1 hc with rfl | hc
      · decide
      · rcases mem_append.1 hc with hc | hc
        · exact (ne_of_isAttributeName hn hc).2
        · rw [mem_singleton.1 hc]
          decide
    have hv : ∀ c ∈ (escapeMarkup true pair.2).toList, decide (c = '"') = false := fun c hc =>
      decide_eq_false ((escapeMarkup_ne hc).2 rfl)
    have hu := unescapeMarkup_escapeMarkup true pair.2 []
    rw [append_nil] at hu
    rw [attributeText_cons, splitMarks_append_cons hf (by decide), splitMarks_append_cons hv (by decide)]
    simp only [readAttributes, getLast?_append, getLast?_singleton, dropLast_concat, hn, ih hp, hu]
    simp [unescapeMarkup]

theorem takeWhile_attributeText (pairs : List (String × String)) :
    (splitMarks (· = '"') (attributeText pairs)).1.takeWhile Char.isAlphanum = [] ∧
      (splitMarks (· = '"') (attributeText pairs)).1.dropWhile Char.isAlphanum = (splitMarks (· = '"') (attributeText pairs)).1 := by
  cases pairs with
  | nil => exact ⟨rfl, rfl⟩
  | cons pair pairs =>
    rw [attributeText_cons]
    exact ⟨rfl, rfl⟩

/-- An element whose tags can be read. -/
structure ElementHead.IsReadable (head : ElementHead) : Prop where
  tag : head.tag ∈ tags
  names : ∀ pair ∈ head.attributes, isAttributeName pair.1.toList = true

theorem isTagName_of_mem_tags {tag : String} (h : tag ∈ tags) : isTagName tag.toList := by
  have ha : ∀ tag ∈ tags, isTagName tag.toList := by decide +kernel
  exact ha tag h

theorem ne_of_isTagName (h : isTagName name) (hc : c ∈ name) : isBracket c = false ∧ c ≠ '"' := by
  have ha := all_eq_true.1 (Bool.and_eq_true_iff.1 h).2 c hc
  have hn : isAttributeName [c] := by simp [isAttributeName, ha]
  exact ne_of_isAttributeName hn mem_cons_self

theorem readTag_stop {tag : String} (h : tag ∈ tags) : readTag ('/' :: tag.toList) = some (.stop tag) := by
  rw [readTag, if_pos (isTagName_of_mem_tags h), String.ofList_toList]

namespace ElementHead

variable {head : ElementHead}

/-- The inside of the start tag. -/
def inside (head : ElementHead) : List Char := head.tag.toList ++ attributeText head.attributes

theorem toList_startTag (head : ElementHead) : head.startTag.toList = '<' :: (head.inside ++ ['>']) := by
  simp [startTag, inside, attributeText]

/-- The start tag of an element is read back. -/
theorem IsReadable.readTag_inside (h : head.IsReadable) : readTag head.inside = some (.start head.tag head.attributes) := by
  have hn := isTagName_of_mem_tags h.tag
  have ha : ∀ c ∈ head.tag.toList, c.isAlphanum := all_eq_true.1 (Bool.and_eq_true_iff.1 hn).2
  have hs : ∀ name, head.inside ≠ '/' :: name := by
    intro name heq
    cases ht : head.tag.toList with
    | nil => rw [ht] at hn; cases hn
    | cons c cs =>
      rw [inside, ht] at heq
      have hc := ha c (ht ▸ mem_cons_self)
      rw [(cons.inj heq).1] at hc
      exact absurd hc (by decide)
  obtain ⟨hta, hd⟩ := takeWhile_attributeText head.attributes
  rw [readTag.eq_2 _ hs, inside, splitMarks_append fun c hc => decide_eq_false (ne_of_isTagName hn hc).2]
  simp only [takeWhile_append_of_pos ha, dropWhile_append_of_pos ha, hta, hd,
    append_nil, hn, readAttributes_attributeText h.names, String.ofList_toList, if_true,
    Option.map_some]

theorem IsReadable.isBracket_inside (h : head.IsReadable) : ∀ c ∈ head.inside, isBracket c = false := by
  intro c hc
  rcases mem_append.1 hc with hc | hc
  · exact (ne_of_isTagName (isTagName_of_mem_tags h.tag) hc).1
  · have hn := h.names
    generalize head.attributes = pairs at hc hn
    induction pairs with
    | nil => cases hc
    | cons pair pairs ih =>
      obtain ⟨ha, hp⟩ := forall_mem_cons.1 hn
      simp only [attributeText_cons, mem_append, mem_cons, not_mem_nil, or_false] at hc
      rcases hc with (rfl | hc | rfl) | rfl | hc | rfl | hc
      · decide
      · exact (ne_of_isAttributeName ha hc).1
      · decide
      · decide
      · exact (escapeMarkup_ne hc).1
      · decide
      · exact ih hc hp

end ElementHead

/-! ### Elements -/

/-- A text is read as some tags, with a text before the first that has no entities. -/
structure ReadsAs (cs : List Char) (first : String) (tags : List (MarkupTag × String)) : Prop where
  first_eq : (splitMarks isBracket cs).1 = first.toList
  plain : '&' ∉ first.toList
  tags_eq : readTags (splitMarks isBracket cs).2 = some tags

namespace ReadsAs

variable {cs : List Char} {first blanks markup : String} {tags : List (MarkupTag × String)}

theorem nil : ReadsAs [] "" [] := ⟨rfl, not_mem_nil, rfl⟩

theorem readMarkup_eq (h : ReadsAs markup.toList first tags) : readMarkup markup = some (first, tags) := by
  rw [readMarkup]
  simp only [h.tags_eq, Option.map_some, h.first_eq, unescapeMarkup_of_plain h.plain, String.ofList_toList]

/-- Blanks in front of markup. -/
theorem layout (h : ReadsAs cs first tags) (hb : ∀ c ∈ blanks.toList, isBlank c) :
    ReadsAs (blanks.toList ++ cs) (blanks ++ first) tags := by
  have hr : ∀ c ∈ blanks.toList, isBracket c = false := by
    intro c hc
    rw [isBracket_eq_false_iff]
    constructor <;>
      · rintro rfl
        exact absurd (hb _ hc) (by decide)
  have hs : splitMarks isBracket (blanks.toList ++ cs) = _ := splitMarks_append hr
  refine ⟨by rw [hs, h.first_eq, String.toList_append], ?_, by rw [hs]; exact h.tags_eq⟩
  rw [String.toList_append, mem_append, not_or]
  exact ⟨fun hc => absurd (hb _ hc) (by decide), h.plain⟩

/-- A tag in front of markup, with a text behind it. -/
theorem tag (h : ReadsAs cs first tags) {inside : List Char} {tag : MarkupTag} (text : List Char)
    (shown : String) (hi : ∀ c ∈ inside, isBracket c = false) (ht : readTag inside = some tag) (he : ∀ c ∈ text, isBracket c = false)
    (hs : unescapeMarkup (text ++ first.toList) = shown.toList) :
    ReadsAs ('<' :: (inside ++ '>' :: (text ++ cs))) "" ((tag, shown) :: tags) := by
  have hp : splitMarks isBracket ('<' :: (inside ++ '>' :: (text ++ cs))) =
      ([], ('<', inside) :: ('>', text ++ first.toList) :: (splitMarks isBracket cs).2) := by
    rw [splitMarks, if_pos (by decide), splitMarks_append_cons hi (by decide), splitMarks_append he, h.first_eq]
  refine ⟨by rfl, not_mem_nil, ?_⟩
  rw [hp]
  simp only [readTags, ht, h.tags_eq, hs, String.ofList_toList]

theorem unescape_lineBreak (h : ReadsAs cs first tags) : unescapeMarkup (['\n'] ++ first.toList) = ("\n" ++ first).toList := by
  rw [singleton_append, unescapeMarkup_cons (by decide), unescapeMarkup_of_plain h.plain, String.toList_append]
  rfl

end ReadsAs

theorem isBracket_lineBreak : ∀ c ∈ ['\n'], isBracket c = false := by
  simp [isBracket]

theorem isBlank_indent (level : Nat) : ∀ c ∈ (indent level).toList, isBlank c := by
  intro c hc
  rw [indent, String.toList_ofList] at hc
  rw [eq_of_mem_replicate hc]
  decide

section Elements

variable {head : ElementHead} {children : List Element} {rest : List Char} {first : String}
variable {tags inner : List (MarkupTag × String)}

/-- The end tag of an element as it is written, with the line break behind it. -/
def ElementHead.stopText (head : ElementHead) : List Char := '<' :: ('/' :: head.tag.toList ++ '>' :: ['\n'])

theorem ReadsAs.stop (h : ReadsAs rest first tags) (hh : head.IsReadable) :
    ReadsAs (head.stopText ++ rest) "" ((.stop head.tag, "\n" ++ first) :: tags) := by
  have ht := isTagName_of_mem_tags hh.tag
  have hi : ∀ c ∈ '/' :: head.tag.toList, isBracket c = false := forall_mem_cons.2 ⟨by decide, fun c hc => (ne_of_isTagName ht hc).1⟩
  have hr := h.tag ['\n'] ("\n" ++ first) hi (readTag_stop hh.tag) isBracket_lineBreak h.unescape_lineBreak
  simpa [ElementHead.stopText] using hr

theorem ReadsAs.void (h : ReadsAs rest first tags) (hh : head.IsReadable) (hv : isVoid head.tag)
    (level : Nat) (children : List Element) :
    ReadsAs ((renderElement level (.node head children)).toList ++ rest) (indent level)
      ((.start head.tag head.attributes, "\n" ++ first) :: tags) := by
  have hr := h.tag ['\n'] ("\n" ++ first) hh.isBracket_inside hh.readTag_inside isBracket_lineBreak h.unescape_lineBreak
  have hl := hr.layout (isBlank_indent level)
  rw [renderElement, if_pos hv]
  simpa [ElementHead.toList_startTag] using hl

theorem ReadsAs.leaf (h : ReadsAs rest first tags) (hh : head.IsReadable) (hv : isVoid head.tag = false) (level : Nat) :
    ReadsAs ((renderElement level (.node head [])).toList ++ rest) (indent level)
      ((.start head.tag head.attributes, head.text) :: (.stop head.tag, "\n" ++ first) :: tags) := by
  have hr := (h.stop hh).tag (escapeMarkup false head.text).toList head.text hh.isBracket_inside
    hh.readTag_inside (fun c hc => (escapeMarkup_ne hc).1) ?_
  · have hl := hr.layout (isBlank_indent level)
    rw [renderElement, if_neg (by rw [hv]; exact Bool.false_ne_true)]
    simpa [ElementHead.toList_startTag, ElementHead.stopText] using hl
  · rw [unescapeMarkup_escapeMarkup]
    exact append_nil _

theorem ReadsAs.parent {level : Nat} (hh : head.IsReadable) (hv : isVoid head.tag = false)
    (hch : children ≠ []) (hi : ReadsAs ((renderElements (level + 1) children).toList ++
      ((indent level).toList ++ (head.stopText ++ rest))) (indent (level + 1)) inner) :
    ReadsAs ((renderElement level (.node head children)).toList ++ rest) (indent level)
      ((.start head.tag head.attributes, head.text ++ "\n" ++ indent (level + 1)) :: inner) := by
  have hr := hi.tag ((escapeMarkup false head.text).toList ++ ['\n'])
    (head.text ++ "\n" ++ indent (level + 1)) hh.isBracket_inside hh.readTag_inside ?_ ?_
  · have hl := hr.layout (isBlank_indent level)
    rw [renderElement, if_neg (by rw [hv]; exact Bool.false_ne_true), if_neg (by rwa [List.isEmpty_iff])]
    simpa [ElementHead.toList_startTag, ElementHead.stopText] using hl
  · rw [forall_mem_append]
    exact ⟨fun c hc => (escapeMarkup_ne hc).1, isBracket_lineBreak⟩
  · rw [append_assoc, unescapeMarkup_escapeMarkup, singleton_append, unescapeMarkup_cons (by decide), unescapeMarkup_of_plain hi.plain]
    simp

end Elements

/-! ### Pages -/

theorem isAttributeName_of_dropDashes (n : Nat) (key : List Char)
    (h : isAttributeName (dropDashes n key)) : isAttributeName key := by
  fun_induction dropDashes n key with
  | case1 n cs ih =>
    have hc := (Bool.and_eq_true_iff.1 (ih h)).2
    simpa [isAttributeName] using hc
  | case2 => exact h

theorem isAttributeName_of_isPropertyKey (h : isPropertyKey key) : isAttributeName key := by
  apply isAttributeName_of_dropDashes 2
  unfold isPropertyKey at h
  split at h
  · cases h
  · next c cs hk =>
    rw [Bool.and_eq_true] at h
    rw [hk, isAttributeName, all_cons, h.2]
    have hf : c.isAlphanum ∨ c = '_' := by
      simpa [Char.isAlphanum] using Or.imp_left (Or.inl (b := c.isDigit)) (by simpa using h.1)
    rcases hf with hc | rfl
    · simp [hc]
    · rfl

namespace ClassTable

variable (t : ClassTable) {own : Instance}

theorem resolveTag_mem_tags (es : List String) : t.resolveTag es ∈ tags := by
  have ht {name : String} (h : isTag name) : name ∈ tags := by simpa [isTag] using h
  unfold resolveTag
  split
  · next tag hf =>
    have ho := find?_some hf
    exact ht ho
  · cases hc : es.findSome? t.tag? with
    | none => exact ht (by decide)
    | some tag =>
      obtain ⟨e, -, he⟩ := exists_of_findSome?_eq_some hc
      have ho := find?_some he
      exact ht ho

theorem isReadable_elementHead (h : own.attributes.HasKeys) (id : Nat) :
    (t.elementHead { own with id? := some id }).IsReadable where
  tag := t.resolveTag_mem_tags own.entries
  names pair hp := by
    have hp : pair ∈ own.shownAttributes id := hp
    simp only [Instance.shownAttributes, mem_append, mem_singleton] at hp
    rcases hp with ((hp | hp) | hp) | rfl
    · unfold classAttribute at hp
      split at hp
      · cases hp
      · rw [mem_singleton.1 hp]
        exact (by decide : isAttributeName "class".toList)
    · unfold styleAttribute at hp
      split at hp
      · cases hp
      · rw [mem_singleton.1 hp]
        exact (by decide : isAttributeName "style".toList)
    · exact isAttributeName_of_isPropertyKey (h pair.1 (mem_map_of_mem (mem_of_mem_filter hp)))
    · exact (by decide : isAttributeName "id".toList)

theorem text_elementHead (hv : isVoid (t.resolveTag own.entries) = false) (id : Nat) :
    (t.elementHead { own with id? := some id }).text = (t.staticText? own).getD "" := by
  simp only [elementHead, hv, Bool.false_eq_true, if_false]

mutual
theorem nodeTags_snd (level issued : Nat) (post : String) : ∀ node : Node,
    (t.nodeTags level issued post node).2 = (t.numberNode issued node).2
  | .node own children => by
    cases hv : isVoid (t.resolveTag own.entries) with
    | true => simp only [nodeTags, hv, t.numberNode_of_void hv, if_true]
    | false =>
      rw [t.numberNode_of_not_void hv]
      cases children with
      | nil => simp [nodeTags, hv, numberNodes]
      | cons first rest =>
        simp only [nodeTags, hv, Bool.false_eq_true, if_false, isEmpty_cons]
        exact nodesTags_snd (level + 1) (issued + 1) (indent level) (first :: rest)
theorem nodesTags_snd (level issued : Nat) (post : String) : ∀ nodes : List Node,
    (t.nodesTags level issued post nodes).2 = (t.numberNodes issued nodes).2
  | [] => rfl
  | first :: rest => by simp only [nodesTags, numberNodes, nodeTags_snd, nodesTags_snd]
end

mutual
theorem readsAs_node (level issued : Nat) : ∀ (node : Node),
    (∀ own ∈ node.labels, own.attributes.HasKeys) → ∀ {rest : List Char} {first : String}
      {tags : List (MarkupTag × String)}, ReadsAs rest first tags →
      ReadsAs ((renderElement level (t.element (t.numberNode issued node).1)).toList ++ rest) (indent level)
        ((t.nodeTags level issued first node).1 ++ tags)
  | .node own children, hk, rest, first, tags, h => by
    have hh := t.isReadable_elementHead (hk own (Tree.mem_labels_node.2 (.inl rfl))) (issued + 1)
    have hi : ∀ own ∈ Tree.labelsAll children, own.attributes.HasKeys := fun own ho =>
      hk own (Tree.mem_labels_node.2 (.inr (Tree.mem_labelsAll.1 ho)))
    cases hv : isVoid (t.resolveTag own.entries) with
    | true =>
      rw [t.numberNode_of_void hv, element]
      simp only [nodeTags, hv, if_true, singleton_append]
      exact h.void hh hv level _
    | false =>
      cases children with
      | nil =>
        have hr := h.leaf hh hv level
        rw [t.text_elementHead hv] at hr
        rw [t.numberNode_of_not_void hv, element]
        simp only [numberNodes, elements, ite_self, nodeTags, hv, Bool.false_eq_true, if_false,
          isEmpty_nil, if_true, cons_append, nil_append]
        exact hr
      | cons child children =>
        have hr := readsAs_nodes (level + 1) (issued + 1) (child :: children) hi
          ((h.stop hh).layout (isBlank_indent level))
        rw [String.append_empty] at hr
        have hp := ReadsAs.parent hh hv (by simp [numberNodes, elements]) hr
        rw [t.text_elementHead hv] at hp
        have hn : ¬ isVoid (t.elementHead { own with id? := some (issued + 1) }).tag = true := Bool.eq_false_iff.1 hv
        rw [t.numberNode_of_not_void hv, element, if_neg hn]
        simp only [nodeTags, hv, Bool.false_eq_true, if_false, isEmpty_cons, cons_append, append_assoc, nil_append]
        exact hp
theorem readsAs_nodes (level issued : Nat) : ∀ (nodes : List Node),
    (∀ own ∈ Tree.labelsAll nodes, own.attributes.HasKeys) → ∀ {rest : List Char} {first : String}
      {tags : List (MarkupTag × String)}, ReadsAs rest first tags →
      ReadsAs ((renderElements level (t.elements (t.numberNodes issued nodes).1)).toList ++ rest)
        (if nodes.isEmpty then first else indent level) ((t.nodesTags level issued first nodes).1 ++ tags)
  | [], _, rest, first, tags, h => h
  | node :: nodes, hk, rest, first, tags, h => by
    have hr := readsAs_nodes level (t.numberNode issued node).2 nodes (fun own ho => hk own (mem_append_right _ ho)) h
    have hn := readsAs_node level issued node (fun own ho => hk own (mem_append_left _ ho)) hr
    simp only [numberNodes, elements, renderElements, nodesTags, nodeTags_snd, String.toList_append,
      append_assoc, isEmpty_cons, Bool.false_eq_true, if_false]
    exact hn
end

end ClassTable

theorem PageSource.hasKeys {src : PageSource} (h : readChecked text = .ok src) :
    ∀ own ∈ Tree.labelsAll src.page.nodes, own.attributes.HasKeys := by
  obtain ⟨-, _, -, page, -, -, -, -, -, hn⟩ := exists_of_read (read_of_readChecked h)
  exact fun own ho => (hn own ho).attributes

/-- What is written for the nodes of a page is read as their tags. -/
theorem PageSource.readMarkup_body {source : PageSource} (h : readChecked text = .ok source) :
    readMarkup (renderElements 0 source.elements) = some ("", (source.table.nodesTags 0 0 "" source.page.nodes).1) := by
  have hreads := source.table.readsAs_nodes 0 0 source.page.nodes (hasKeys h) ReadsAs.nil
  have hfirst : (if source.page.nodes.isEmpty then "" else indent 0) = "" := ite_self _
  rw [append_nil, append_nil, hfirst] at hreads
  exact hreads.readMarkup_eq

/-- **Markup read back.** In the markup of a compiled page, what stands between `<` and `>` are the
tags of the page in the order of the source, with their attributes as they were meant, and what
stands between the tags are the texts as they were meant and the layout. A text or value is never
taken for a tag. -/
theorem compileText_markup_read {text : List Char} {links : HeadLinks} {out : PageOutput}
    (h : compileText text links = .ok out) :
    ∃ source, PageSource.readChecked text = .ok source ∧
      out.markup = renderDocument (renderElements 0 source.elements) links source.page.dataFiles ∧
      readMarkup (renderElements 0 source.elements) =
        some ("", (source.table.nodesTags 0 0 "" source.page.nodes).1) := by
  obtain ⟨source, -, hread, -, rfl⟩ := compileText_eq_ok_iff.1 h
  exact ⟨source, hread, rfl, PageSource.readMarkup_body hread⟩

/-- A page whose values and texts look like tags, with an instance inside an element without
content. -/
def tagsInValues : List Char :=
  ("class N\x7b\x7ddiv\x7bp,N\x7bstyle\x7bcolor:red;\x7dattributes\x7btitle:'\"><b>';id:'x';\x7d" ++
    "text='</p>&amp;';\x7dinput\x7bi\x7b\x7d\x7d\x7d").toList

/-- What is read from its markup. -/
def readFromTagsInValues : List (MarkupTag × String) :=
  [(.start "div" [("id", "t1")], "\n    "),
    (.start "p" [("class", "N"), ("style", "color: red"), ("title", "\"><b>"), ("id", "t2")], "</p>&amp;"),
    (.stop "p", "\n    "), (.start "input" [("id", "t3")], "\n"), (.stop "div", "\n")]

/-- Values that look like tags are read as values. -/
theorem compileText_markup_read_tagsInValues :
    ∃ out source, compileText tagsInValues ⟨"page.js", "page.css"⟩ = .ok out ∧
      PageSource.readChecked tagsInValues = .ok source ∧
      out.markup = renderDocument (renderElements 0 source.elements) ⟨"page.js", "page.css"⟩ source.page.dataFiles ∧
      readMarkup (renderElements 0 source.elements) = some ("", readFromTagsInValues) := by
  have heval : CompilesWith tagsInValues fun source _ =>
        (source.table.nodesTags 0 0 "" source.page.nodes).1 = readFromTagsInValues := by
    decide +kernel
  obtain ⟨source, script, hread, -, hout, htags⟩ := heval.exists_output ⟨"page.js", "page.css"⟩
  obtain ⟨source', hread', hmarkup, hbody⟩ := compileText_markup_read hout
  cases hread.symm.trans hread'
  rw [htags] at hbody
  exact ⟨_, source, hout, hread, hmarkup, hbody⟩

end Pagewright
