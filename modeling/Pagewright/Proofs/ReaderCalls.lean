import Pagewright.Proofs.Directives
import Pagewright.Proofs.Matching
import Pagewright.Proofs.Routes

/-!
# Where readers are set to work

A reader sets others to work: on the glyphs it was given itself, or on what those before have left.
`Source.Uses` lists who uses whom and where, also if what is read later turns out to be wrong. From
the classes of a source and from its beginning on, no reader is ever set to work inside a literal,
and every group is cut off from a bracket outside them (`Source.readers_outside_literals`). -/

namespace Pagewright

open List

/-- A reader with what it is given. A `token` is any reader of a single token. -/
inductive Reader where
  | token (gs : List Glyph)
  | group (opener closer : Char) (gs : List Glyph)
  | block (gs : List Glyph)
  | params (gs : List Glyph)
  | value (gs : List Glyph)
  | declarations (unquote : Bool) (map : PropertyMap) (gs : List Glyph)
  | declarationBlock (unquote : Bool) (map : PropertyMap) (gs : List Glyph)
  | method (name : String) (gs : List Glyph)
  | variableRest (gs : List Glyph)
  | member (v : Visibility) (members : Members) (gs : List Glyph)
  | members (v : Visibility) (members : Members) (gs : List Glyph)
  | tier (v : Visibility) (members : Members) (gs : List Glyph)
  | moreEntries (what : String) (entries : List String) (gs : List Glyph)
  | entries (what : String) (gs : List Glyph)
  | aliasName (gs : List Glyph)
  | head (gs : List Glyph)
  | nodeItem (own : Instance) (gs : List Glyph)
  | body (inner : Node) (outer : List Node) (gs : List Glyph)
  | node (gs : List Glyph)
  | parents (gs : List Glyph)
  | classHead (gs : List Glyph)
  | classItem (own : ClassDef) (gs : List Glyph)
  | classBody (own : ClassDef) (gs : List Glyph)
  | classDef (gs : List Glyph)
  | dataFile (gs : List Glyph)
  | page (page : Page) (gs : List Glyph)

/-- The glyphs that a reader is given. -/
def Reader.glyphs : Reader → List Glyph
  | token gs | group _ _ gs | block gs | params gs | value gs | declarations _ _ gs | declarationBlock _ _ gs | method _ gs
  | variableRest gs | member _ _ gs | members _ _ gs | tier _ _ gs | moreEntries _ _ gs | entries _ gs | aliasName gs | head gs
  | nodeItem _ gs | body _ _ gs | node gs | parents gs | classHead gs | classItem _ gs | classBody _ gs | classDef gs | dataFile gs
  | page _ gs => gs

namespace Source

variable {c closer opener : Char} {text : List Char} {after before : List Piece}

/-- The first reader sets the second one to work, if those it used before have read what the
hypotheses say. -/
inductive Uses (s : Source) : Reader → Reader → Prop where
  | block {gs} : Uses s (.block gs) (.group '{' '}' gs)
  | params {gs} : Uses s (.params gs) (.group '(' ')' gs)
  | declarations_colon {u map gs key} : (s.token gs).token.key? = some key →
      Uses s (.declarations u map gs) (.token (s.token gs).rest)
  | declarations_value {u map gs key r} : (s.token gs).token.key? = some key → s.readMark ':' (s.token gs).rest = .ok r →
      Uses s (.declarations u map gs) (.value r.rest)
  | declarations_more {u map gs key r text} {value : Read String (r.rest.length + 1)} : (s.token gs).token.key? = some key →
      isPropertyKey key.toList = true → s.readMark ':' (s.token gs).rest = .ok r → s.readValue r.rest = .ok value →
      Uses s (.declarations u map gs) (.declarations u (map.insert key text) value.rest)
  | declarationBlock {u map gs r} : s.readMark '{' gs = .ok r → Uses s (.declarationBlock u map gs) (.declarations u map r.rest)
  | method_params {name gs} : Uses s (.method name gs) (.params gs)
  | method_block {name gs r} : s.readParams gs = .ok r → Uses s (.method name gs) (.block r.rest)
  | variable_equals {gs what r} : s.readName what gs = .ok r → Uses s (.variableRest gs) (.token r.rest)
  | variable_value {gs what r equals} : s.readName what gs = .ok r → s.takeMark? '=' r.rest = some equals →
      Uses s (.variableRest gs) (.value equals.rest)
  | member_variable {v members gs word} : (s.token gs).token.kind = .word word →
      Uses s (.member v members gs) (.variableRest (s.token gs).rest)
  | member_constructor {v members gs word name} : (s.token gs).token.kind = .word word →
      Uses s (.member v members gs) (.method name (s.token gs).rest)
  | member_name {v members gs word} : (s.token gs).token.kind = .word word →
      Uses s (.member v members gs) (.token (s.token gs).rest)
  | member_handler {v members gs word what r} : (s.token gs).token.kind = .word word →
      s.readWord what (s.token gs).rest = .ok r → Uses s (.member v members gs) (.method r.value r.rest)
  | member_accessor {v members gs word what r} : (s.token gs).token.kind = .word word →
      s.readName what (s.token gs).rest = .ok r → Uses s (.member v members gs) (.method r.value r.rest)
  | member_method {v members gs what r} : s.readName what gs = .ok r → Uses s (.member v members gs) (.method r.value r.rest)
  | members_first {v members gs} : Uses s (.members v members gs) (.member v members gs)
  | members_more {v members gs r} : s.readMember v members gs = .ok r →
      Uses s (.members v members gs) (.members v r.value r.rest)
  | tier {v members gs r} : s.readMark '{' gs = .ok r → Uses s (.tier v members gs) (.members v members r.rest)
  | moreEntries_word {what entries gs comma} : s.takeMark? ',' gs = some comma →
      Uses s (.moreEntries what entries gs) (.token comma.rest)
  | moreEntries_more {what entries gs comma r} : s.takeMark? ',' gs = some comma → s.readWord what comma.rest = .ok r →
      Uses s (.moreEntries what entries gs) (.moreEntries what (entries ++ [r.value]) r.rest)
  | entries {what gs r} : s.readWord what gs = .ok r → Uses s (.entries what gs) (.moreEntries what [r.value] r.rest)
  | alias_name {gs r} : s.takeWord? "as" gs = some r → Uses s (.aliasName gs) (.token r.rest)
  | head_entries {gs what} : Uses s (.head gs) (.entries what gs)
  | head_alias {gs what r} : s.readEntries what gs = .ok r → Uses s (.head gs) (.aliasName r.rest)
  | head_brace {gs what r} {name : Read (Option String) (r.rest.length + 1)} : s.readEntries what gs = .ok r →
      s.readAlias r.rest = .ok name → Uses s (.head gs) (.token name.rest)
  | nodeItem_style {own gs word} : (s.token gs).token.kind = .word word →
      Uses s (.nodeItem own gs) (.declarationBlock false own.style (s.token gs).rest)
  | nodeItem_attributes {own gs word} : (s.token gs).token.kind = .word word →
      Uses s (.nodeItem own gs) (.declarationBlock true own.attributes (s.token gs).rest)
  | nodeItem_tier {own gs word v} : (s.token gs).token.kind = .word word →
      Uses s (.nodeItem own gs) (.tier v own.members (s.token gs).rest)
  | nodeItem_equals {own gs what r} : s.readName what gs = .ok r → Uses s (.nodeItem own gs) (.token r.rest)
  | nodeItem_value {own gs what r equals} : s.readName what gs = .ok r → s.readMark '=' r.rest = .ok equals →
      Uses s (.nodeItem own gs) (.value equals.rest)
  | nodeItem_child {own gs} : Uses s (.nodeItem own gs) (.head gs)
  | body_item {inner outer gs} : Uses s (.body inner outer gs) (.nodeItem inner.label gs)
  | body_close {inner parent outer gs r} : s.readNodeItem inner.label gs = .ok r → r.value = .close →
      Uses s (.body inner (parent :: outer) gs) (.body (parent.addChild inner) outer r.rest)
  | body_change {inner outer gs r own} : s.readNodeItem inner.label gs = .ok r → r.value = .change own →
      Uses s (.body inner outer gs) (.body (.node own inner.children) outer r.rest)
  | body_child {inner outer gs r head} : s.readNodeItem inner.label gs = .ok r → r.value = .child head →
      Uses s (.body inner outer gs) (.body (.node head []) (inner :: outer) r.rest)
  | node_head {gs} : Uses s (.node gs) (.head gs)
  | node_body {gs r} : s.readHead gs = .ok r → Uses s (.node gs) (.body (.node r.value []) [] r.rest)
  | parents {gs what r} : s.takeWord? "extends" gs = some r → Uses s (.parents gs) (.entries what r.rest)
  | classHead_name {gs r} : s.takeWord? "class" gs = some r → Uses s (.classHead gs) (.token r.rest)
  | classHead_parents {gs what r name} : s.takeWord? "class" gs = some r → s.readName what r.rest = .ok name →
      Uses s (.classHead gs) (.parents name.rest)
  | classHead_brace {gs what r name} {parents : Read (List String) (name.rest.length + 1)} : s.takeWord? "class" gs = some r →
      s.readName what r.rest = .ok name → s.readParents name.rest = .ok parents → Uses s (.classHead gs) (.token parents.rest)
  | classItem_style {own gs word} : (s.token gs).token.kind = .word word →
      Uses s (.classItem own gs) (.declarationBlock false own.style (s.token gs).rest)
  | classItem_attributes {own gs word} : (s.token gs).token.kind = .word word →
      Uses s (.classItem own gs) (.declarationBlock true own.attributes (s.token gs).rest)
  | classItem_colon {own gs word} : (s.token gs).token.kind = .word word →
      Uses s (.classItem own gs) (.token (s.token gs).rest)
  | classItem_state {own gs word colon} : (s.token gs).token.kind = .word word →
      s.readMark ':' (s.token gs).rest = .ok colon → Uses s (.classItem own gs) (.token colon.rest)
  | classItem_block {own gs word colon what r} : (s.token gs).token.kind = .word word →
      s.readMark ':' (s.token gs).rest = .ok colon → s.readWord what colon.rest = .ok r →
      Uses s (.classItem own gs) (.block r.rest)
  | classItem_tier {own gs word v} : (s.token gs).token.kind = .word word →
      Uses s (.classItem own gs) (.tier v own.members (s.token gs).rest)
  | classItem_child {own gs} : Uses s (.classItem own gs) (.node gs)
  | classBody_item {own gs} : Uses s (.classBody own gs) (.classItem own gs)
  | classBody_more {own gs r own'} : s.readClassItem own gs = .ok r → r.value = some own' →
      Uses s (.classBody own gs) (.classBody own' r.rest)
  | class_head {gs} : Uses s (.classDef gs) (.classHead gs)
  | class_body {gs r} : s.readClassHead gs = .ok r → Uses s (.classDef gs) (.classBody r.value r.rest)
  | dataFile_colon {gs what label} : s.readName what gs = .ok label → Uses s (.dataFile gs) (.token label.rest)
  | dataFile_path {gs what label colon} : s.readName what gs = .ok label → s.readMark ':' label.rest = .ok colon →
      Uses s (.dataFile gs) (.token colon.rest)
  | dataFile_stop {gs what label colon raw} : s.readName what gs = .ok label → s.readMark ':' label.rest = .ok colon →
      (s.token colon.rest).token.kind = .quoted raw → Uses s (.dataFile gs) (.token (s.token colon.rest).rest)
  | page_file {page gs name} : (s.token gs).token.kind = .directive name →
      Uses s (.page page gs) (.dataFile (s.token gs).rest)
  | page_behindFile {page page' gs name r} : (s.token gs).token.kind = .directive name →
      s.readDataFile (s.token gs).rest = .ok r → page'.nodes = page.nodes → Uses s (.page page gs) (.page page' r.rest)
  | page_node {page gs} : Uses s (.page page gs) (.node gs)
  | page_behindNode {page gs r} : s.readNode gs = .ok r →
      Uses s (.page page gs) (.page { page with nodes := page.nodes ++ [r.value] } r.rest)

/-- The reader stands between two pieces of the source, behind open braces if it waits for their
ends, and what it was given is as read. -/
def Stands (s : Source) : Reader → Prop
  | .group opener closer gs => closer? opener = some closer ∧ s.IsRest gs
  | .declarations _ map gs => map.HasKeys ∧ ∃ start n, s.Reached start (n + 1) gs
  | .declarationBlock _ map gs => map.HasKeys ∧ s.IsRest gs
  | .member _ members gs | .tier _ members gs => members.CutFrom s ∧ s.IsRest gs
  | .members _ members gs => members.CutFrom s ∧ ∃ start n, s.Reached start (n + 1) gs
  | .moreEntries _ entries gs => (∀ entry ∈ entries, IsWordText entry) ∧ s.IsRest gs
  | .nodeItem own gs => s.Standing own ∧ ∃ start n, s.Reached start (n + 1) gs
  | .body inner outer gs => ∃ start n, s.OpenNodes start n inner outer gs
  | .classItem own gs | .classBody own gs => s.OpenClass own ∧ s.IsRest gs
  | .page page gs => (∀ node ∈ page.nodes, s.ReadNode node) ∧ s.IsRest gs
  | .token gs | .block gs | .params gs | .value gs | .method _ gs | .variableRest gs | .entries _ gs | .aliasName gs | .head gs
  | .node gs | .parents gs | .classHead gs | .classDef gs | .dataFile gs => s.IsRest gs

variable {s : Source} {gs start : List Glyph} {n : Nat}

theorem Stands.isRest (hs : s.IsScan) {reader : Reader} (h : s.Stands reader) : s.IsRest reader.glyphs := by
  cases reader with
  | declarations | members | nodeItem =>
    obtain ⟨-, _, _, h⟩ := h
    exact h.isRest hs
  | body =>
    obtain ⟨_, _, -, -, h⟩ := h
    exact h.isRest hs
  | group | declarationBlock | member | tier | moreEntries | classItem | classBody | page => exact h.2
  | token | block | params | value | method | variableRest | entries | aliasName | head | node | parents | classHead | classDef
  | dataFile => exact h

theorem rest_of_readMark {r : Read Token gs.length} (h : s.readMark c gs = .ok r) :
    (s.token gs).token.kind = .mark c ∧ r.rest = (s.token gs).rest := by
  unfold readMark at h
  split at h
  · next hr =>
    cases h
    obtain ⟨hk, -, he⟩ := of_take? hr
    exact ⟨hk, he⟩
  · cases h

theorem Reached.readValue (h : s.Reached start n gs) {r : Read String (gs.length + 1)}
    (hr : s.readValue gs = .ok r) : s.Reached start n r.rest := by
  obtain ⟨cut, hc, hr⟩ := bind_eq_ok.1 hr
  cases hr
  exact h.value ⟨cut, hc, rfl, rfl⟩

theorem IsRest.readMark (hs : s.IsScan) (h : s.IsRest gs) {r : Read Token gs.length}
    (hr : s.readMark c gs = .ok r) (hc : c ≠ '/') : s.IsRest r.rest := by
  obtain ⟨hk, he⟩ := rest_of_readMark hr
  rw [he]
  exact isRest_token hs h (by rw [hk]; simpa using hc)

theorem IsRest.readName (hs : s.IsScan) (h : s.IsRest gs) {what : String}
    {r : Read String gs.length} (hr : s.readName what gs = .ok r) : s.IsRest r.rest :=
  ((arrives_readName (keptByTokens_isRest hs) h what).1 r hr).2

theorem IsRest.reached_readMark (h : s.IsRest gs) {r : Read Token gs.length}
    (hr : s.readMark '{' gs = .ok r) : s.Reached gs 1 r.rest := by
  obtain ⟨hk, he⟩ := rest_of_readMark hr
  exact he ▸ (Reached.start h).opened hk

theorem Reached.declaration (hs : s.IsScan) (h : s.Reached start n gs) {key : String}
    {r : Read Token (s.token gs).rest.length} {value : Read String (r.rest.length + 1)}
    (hk : (s.token gs).token.key? = some key) (hr : s.readMark ':' (s.token gs).rest = .ok r)
    (hv : s.readValue r.rest = .ok value) : s.Reached start n value.rest := by
  obtain ⟨hm, he⟩ := rest_of_readMark hr
  have hb := (keptByTokens_reached hs start n).mark (h.token (not_mark_of_key? hk)) (by decide) hm
  rw [← he] at hb
  exact hb.readValue hv

/-- **Steps of readers.** A reader that stands between two pieces sets others to work only where
they do. -/
theorem Uses.stands (hs : s.IsScan) {reader reader' : Reader} (h : s.Uses reader reader')
    (hre : s.Stands reader) : s.Stands reader' := by
  have hk := keptByTokens_isRest hs
  have hrs := hre.isRest hs
  cases h with
  | block | params => exact ⟨rfl, hre⟩
  | declarations_colon hke => exact hk.token hrs (not_mark_of_key? hke)
  | declarations_value hke hco => exact (hk.token hrs (not_mark_of_key? hke)).readMark hs hco (by decide)
  | declarations_more hke hp hco hv =>
    obtain ⟨ha, start, n, hra⟩ := hre
    exact ⟨ha.insert hp, start, n, hra.declaration hs hke hco hv⟩
  | declarationBlock hr | tier hr => exact ⟨hre.1, _, 0, hrs.reached_readMark hr⟩
  | method_params | head_entries | node_head | classBody_item | class_head => exact hre
  | method_block hr => exact ((arrives_readParams hs (.start hre)).1 _ hr).2.isRest hs
  | variable_equals hr => exact hrs.readName hs hr
  | variable_value hr he => exact hk.take? (hrs.readName hs hr) (by simp) he
  | member_variable hki | member_constructor hki | member_name hki | classItem_colon hki => exact hk.word hrs hki
  | member_handler hki hr => exact ((arrives_readWord hk (hk.word hrs hki) _).1 _ hr).2
  | member_accessor hki hr => exact (hk.word hrs hki).readName hs hr
  | member_method hr | nodeItem_equals hr | dataFile_colon hr => exact hrs.readName hs hr
  | members_first => exact ⟨hre.1, hrs⟩
  | members_more hr =>
    obtain ⟨hme, start, n, hra⟩ := hre
    obtain ⟨hme', hra'⟩ := (arrives_readMember hs hra _ hme).1 _ hr
    exact ⟨hme', start, n, hra'⟩
  | moreEntries_more hcm hr =>
    obtain ⟨hen, hb⟩ := (arrives_readWord hk (hk.take? hrs (by simp) hcm) _).1 _ hr
    refine ⟨?_, hb⟩
    rw [forall_mem_append, forall_mem_singleton]
    exact ⟨hre.1, hen⟩
  | entries hr =>
    obtain ⟨hen, hb⟩ := (arrives_readWord hk hrs _).1 _ hr
    exact ⟨forall_mem_singleton.2 hen, hb⟩
  | moreEntries_word hr | alias_name hr | parents hr | classHead_name hr => exact hk.take? hrs (by simp) hr
  | head_alias hr => exact ((arrives_readEntries hk hrs _).1 _ hr).2
  | head_brace hr hn => exact ((arrives_readAlias hk ((arrives_readEntries hk hrs _).1 _ hr).2).1 _ hn).2
  | nodeItem_style hki | classItem_style hki => exact ⟨hre.1.1.style, hk.word hrs hki⟩
  | nodeItem_attributes hki | classItem_attributes hki => exact ⟨hre.1.1.attributes, hk.word hrs hki⟩
  | nodeItem_tier hki | classItem_tier hki => exact ⟨hre.1.1.members, hk.word hrs hki⟩
  | nodeItem_child | classItem_child | page_node => exact hrs
  | body_item =>
    obtain ⟨start, n, hi, -, hra⟩ := hre
    exact ⟨hi.standing, start, _, hra⟩
  | body_close hr hit | body_change hr hit | body_child hr hit =>
    obtain ⟨start, n, hop⟩ := hre
    have hb := (hop.item hs).1 _ hr
    dsimp only at hb
    rw [hit] at hb
    exact ⟨start, n, hb⟩
  | node_body hr =>
    obtain ⟨hh, hra⟩ := (arrives_readHead hs (.start hrs)).1 _ hr
    exact ⟨_, 0, openNodes_of_head hh hra⟩
  | classHead_parents hr hn => exact (hk.take? hrs (by simp) hr).readName hs hn
  | classHead_brace hr hn hpa => exact ((arrives_readParents hk ((hk.take? hrs (by simp) hr).readName hs hn)).1 _ hpa).2
  | classItem_state hki hco => exact (hk.word hrs hki).readMark hs hco (by decide)
  | classItem_block hki hco hr => exact ((arrives_readWord hk ((hk.word hrs hki).readMark hs hco (by decide)) _).1 _ hr).2
  | classBody_more hr hmo =>
    have hit := (arrives_readClassItem hs (.start hrs) hre.1).1 _ hr
    dsimp only at hit
    rw [hmo] at hit
    exact ⟨hit.1, hit.2.isRest hs⟩
  | class_body hr =>
    obtain ⟨how, mid, hmi, hki, hb⟩ := (arrives_readClassHead hk hrs).1 _ hr
    refine ⟨how, ?_⟩
    rw [hb]
    exact isRest_token hs hmi (by rw [hki]; simp)
  | nodeItem_value hr hco | dataFile_path hr hco => exact (hrs.readName hs hr).readMark hs hco (by decide)
  | dataFile_stop hr hco hq => exact isRest_token hs ((hrs.readName hs hr).readMark hs hco (by decide)) (by rw [hq]; simp)
  | page_file hki => exact isRest_token hs hre.2 (by rw [hki]; simp)
  | page_behindFile hki hr hno =>
    have hf := isRest_token hs hre.2 (by rw [hki]; simp)
    exact ⟨hno ▸ hre.1, ((arrives_readDataFile hs (.start hf)).1 _ hr).2.isRest hs⟩
  | page_behindNode hr =>
    obtain ⟨hd, hb⟩ := (arrives_readNode hs (.start hrs)).1 _ hr
    refine ⟨?_, hb.isRest hs⟩
    rw [forall_mem_append, forall_mem_singleton]
    exact ⟨hre.1, hd⟩

/-- The readers that are set to work to read the classes of a source, or a page. -/
inductive Works (s : Source) : Reader → Prop where
  | classDef {blocks : List Span} {block : Span} : s.classBlocks = .ok blocks → block ∈ blocks →
      Works s (.classDef (s.glyphsFrom block.start))
  | page : Works s (.page {} s.glyphs)
  | uses {reader reader' : Reader} : Works s reader → s.Uses reader reader' → Works s reader'

theorem Works.stands (hs : s.IsScan) {reader : Reader} (h : s.Works reader) : s.Stands reader := by
  induction h with
  | classDef hb hl => exact isRest_of_mem_classBlocksFrom suffix_rfl hb hl
  | page => exact ⟨forall_mem_nil _, isRest_glyphs s⟩
  | uses _ hu ih => exact hu.stands hs ih

/-! ### Brackets -/

/-- Groups are cut off from the glyphs: by readers, in parameter lists and values, in the search for
classes, and behind the `^` of a parent call. -/
inductive Cuts (s : Source) : Char → Char → List Glyph → Prop where
  | group {opener closer : Char} {gs : List Glyph} {r : Read Token gs.length} : s.Works (.group opener closer gs) →
      s.readMark opener gs = .ok r → Cuts s opener closer (skipTrivia gs)
  | bracket {g : Glyph} {gs : List Glyph} {closer : Char} : g :: gs <:+ s.glyphs → g.cover = none →
      closer? g.char = some closer → Cuts s g.char closer (g :: gs)
  | braces {gs brace : List Glyph} : gs <:+ s.glyphs → findGlyphs ['{'] gs = some brace → Cuts s '{' '}' brace
  | arguments {g : Glyph} {gs : List Glyph} : g :: gs <:+ s.glyphs → g.char = '^' → g.cover = none →
      (callArguments gs).head?.any (·.char = '(') = true → Cuts s '(' ')' (callArguments gs)

theorem IsRest.afterName (hs : s.IsScan) (h : s.IsRest gs) : s.IsRest (afterName gs) := by
  unfold Pagewright.afterName nameText
  split_ifs
  · have hd : gs.drop (gs.takeWhile (isNameChar ·.char)).length = gs.dropWhile (isNameChar ·.char) := by
      have hu : gs.takeWhile (isNameChar ·.char) ++ gs.dropWhile (isNameChar ·.char) = gs := takeWhile_append_dropWhile
      exact (congrArg (drop _) hu).symm.trans drop_left
    rw [glyphText, length_map, hd]
    exact h.dropWhile hs fun c => isNameChar_of_isLiteralStart
  · exact h

theorem IsRest.callArguments (hs : s.IsScan) (h : s.IsRest gs) : s.IsRest (callArguments gs) := by
  have hp {gs : List Glyph} (h : s.IsRest gs) : s.IsRest (afterPointedName gs) := by
    unfold afterPointedName
    split_ifs with he
    · exact h
    · unfold pointedName at he ⊢
      split
      · obtain ⟨_, _, ho⟩ := h.tail_of_code hs rfl
        exact ho.isRest.afterName hs
      · simp_all
  exact (hp (h.afterName hs)).dropWhile hs fun c => isBlank_of_isLiteralStart

/-- The glyphs begin with a bracket outside the literals. -/
def OpensOutside (s : Source) (opener : Char) (gs : List Glyph) : Prop :=
  ∃ g rest, gs = g :: rest ∧ g.char = opener ∧ g.cover = none ∧ s.isCovered g.offset = false

theorem BeginsCode.opensOutside {g : Glyph} (hc : s.BeginsCode before after g gs) : s.OpensOutside g.char (g :: gs) := by
  refine ⟨g, gs, rfl, rfl, congrArg Glyph.cover hc.glyph_eq, ?_⟩
  rw [congrArg Glyph.offset hc.glyph_eq]
  exact isCovered_of_code hc.pieces_eq

theorem Cuts.opensOutside (h : ofText text = .ok s) (hc : s.Cuts opener closer gs) : s.OpensOutside opener gs := by
  have hs := isScan_ofText h
  cases hc with
  | group hw hr =>
    obtain ⟨hp, he⟩ := hw.stands hs
    have ho := isLiteralStart_of_closer? hp
    obtain ⟨before, after, g, rest, hk, rfl, hco⟩ := beginsCode_of_mark hs he (rest_of_readMark hr).1 ho
    rw [hk]
    exact hco.opensOutside
  | bracket hu hv _ =>
    obtain ⟨_, _, hco⟩ := beginsCode_of_suffix hu hv
    exact hco.opensOutside
  | braces hu hf =>
    obtain ⟨g, rest, rfl, hv, -⟩ := findGlyphs_spec (by simp) hf
    obtain ⟨_, _, hco⟩ := beginsCode_of_suffix ((suffix_of_findGlyphs hf).trans hu) hv
    rw [← char_of_findGlyphs hf]
    exact hco.opensOutside
  | arguments hu hch hv hh =>
    obtain ⟨_, _, ha⟩ := beginsCode_of_suffix hu hv
    have he := ha.isRest.callArguments hs
    generalize callArguments _ = arguments at hh he
    cases arguments with
    | nil => cases hh
    | cons g rest =>
      have ho : g.char = '(' := by simpa using hh
      obtain ⟨_, _, hco⟩ := he.tail_of_code hs (by rw [ho]; rfl)
      rw [← ho]
      exact hco.opensOutside

/-- A reader that has come to the glyphs stands at the beginning of a character or at the end, and
not inside a literal. -/
def Outside (s : Source) (gs : List Glyph) : Prop :=
  s.isBoundary (s.offsetOf gs) = true ∧ ∀ span ∈ s.spans, ¬(span.start < s.offsetOf gs ∧ s.offsetOf gs < span.stop)

theorem IsRest.outside (h : s.IsRest gs) : s.Outside gs := by
  refine ⟨?_, fun span hsp => ?_⟩
  · rw [isBoundary, glyphsFrom_offsetOf h.suffix]
    exact decide_eq_true rfl
  · obtain ⟨before, after, hp, rfl⟩ := h
    rw [offsetOf_glyphsOf hp]
    rw [spans, hp, spansOf_append, mem_append] at hsp
    rcases hsp with hsp | hsp
    · have := stop_le_of_mem_spansOf hsp
      omega
    · have := le_start_of_mem_spansOf hsp
      omega

/-- **Readers stay outside the literals.** Whatever stands in a source, no reader of its classes or
of its page is set to work inside a character or a literal, and none that reads a class leaves off
there. Every group that is cut off begins with a bracket outside the literals, so that no closer is
met where no group is open. -/
theorem readers_outside_literals {text : List Char} (h : ofText text = .ok s) :
    (∀ reader, s.Works reader → s.Outside reader.glyphs) ∧
    (∀ gs r, s.Works (.classDef gs) → s.readClass gs = .ok r → s.Outside r.rest) ∧
    ∀ opener closer gs, s.Cuts opener closer gs → s.OpensOutside opener gs ∧
      ∀ underflow, splitGroupOr underflow opener closer 0 gs = splitGroup opener closer 0 gs := by
  have hs := isScan_ofText h
  refine ⟨fun reader hw => ((hw.stands hs).isRest hs).outside, fun gs r hw hr => ?_, fun opener closer gs hc => ?_⟩
  · obtain ⟨-, inside, -, mid, hm, hk, he⟩ := (arrives_readClass hs (keptByTokens_isRest hs) (hw.stands hs)).1 r hr
    rw [he]
    exact (isRest_token hs (hm.isRest hs) (by rw [hk]; simp)).outside
  · have ho := hc.opensOutside h
    refine ⟨ho, fun underflow => ?_⟩
    obtain ⟨g, rest, rfl, hh, hv, -⟩ := ho
    exact splitGroupOr_opener underflow ⟨hv, hh⟩

/-- In `{'}'}` a page is read from the beginning, and the group that begins there is cut off. -/
theorem readers_outside_quote : ∃ s, ofText ['{', '\'', '}', '\'', '}'] = .ok s ∧ s.Works (.page {} s.glyphs) ∧ s.Outside s.glyphs ∧
    s.Cuts '{' '}' s.glyphs ∧ s.OpensOutside '{' s.glyphs := by
  have hp : Pagewright.pieces ['{', '\'', '}', '\'', '}'] =
      .ok [.code '{', .literal (.quoted '\'') ['\'', '}', '\''], .code '}'] := by decide +kernel
  have hs := ofText_of_pieces hp
  obtain ⟨hw, -, hc⟩ := readers_outside_literals hs
  have hu := Cuts.bracket (suffix_refl (glyphs ⟨_, _, pieces_chars hp⟩)) rfl rfl
  exact ⟨_, hs, .page, hw _ .page, hu, (hc _ _ _ hu).1⟩

end Source

end Pagewright
