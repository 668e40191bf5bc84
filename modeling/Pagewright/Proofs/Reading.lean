import Mathlib.Tactic.Tauto
import Pagewright.Proofs.Nesting
import Pagewright.Reader.Blocks

/-!
# What readers give

What reading gives is cut out of the source: the body of a method between two braces
(`Source.IsBody`), the value of a variable or an assignment behind a mark (`Source.IsValue`).
`ClassDef.ReadFrom` and `Instance.ReadFrom` say so of all that a class or an instance holds. -/

namespace Pagewright

open List

variable {s : Source} {m m' : Members} {value rest brace found group keyword : List Glyph} {start o stop : Nat}
  {name key word : String} {x : Method} {block : Span}

/-! ### What is read -/

/-- All methods of a class or instance, with the constructor, the accessors and the handlers. -/
def Members.methods (m : Members) : List Method :=
  m.privateTier.methods ++ m.protectedTier.methods ++ m.publicTier.methods ++ m.constructor?.toList ++
    m.getters ++ m.setters ++ m.handlers

/-- The body of the method stands in the source between two braces, where its offset says, and
closes all braces that it opens. -/
def Source.IsBody (s : Source) (m : Method) : Prop :=
  ∃ before body, s.IsGroup '{' '}' before body ∧ m.body.toList = body.flatMap Piece.chars ∧
    m.offset = piecesSize before + 1 ∧ nesting '{' '}' 0 (glyphsOf (piecesSize before + 1) body) = some 0

/-- The value stands in the source between a mark and the character of code that ends it, with
blanks around it. -/
def Source.IsValue (s : Source) (value : String) : Prop :=
  ∃ before mark cut stop after, (mark = '=' ∨ mark = ':') ∧ (stop = ';' ∨ isCloser stop = true) ∧
    s.pieces = before ++ .code mark :: (cut ++ .code stop :: after) ∧
    value.toList = trim (cut.flatMap Piece.chars)

/-- All variables of a class or instance. -/
def Members.variables (m : Members) : List Variable :=
  m.privateTier.vars ++ m.protectedTier.vars ++ m.publicTier.vars

/-- The methods and accessors of a class or instance, which scripts call by their names. -/
def Members.named (m : Members) : List Method :=
  m.privateTier.methods ++ m.protectedTier.methods ++ m.publicTier.methods ++ m.getters ++ m.setters

/-- The text has only characters of words. -/
def IsWordText (name : String) : Prop := ∀ c ∈ name.toList, isWordPart c = true

/-- The text has only characters of names. -/
def IsNameText (name : String) : Prop := ∀ c ∈ name.toList, isNameChar c = true

theorem IsNameText.isWordText (h : IsNameText name) : IsWordText name := by
  intro c hc
  rw [isWordPart, h c hc, Bool.true_or]

/-- The variable has a name, and its value, if any, is cut out of the source. -/
structure Source.IsVariable (s : Source) (v : Variable) : Prop where
  name : IsNameText v.name
  value : ∀ raw ∈ v.initializer, s.IsValue raw

/-- The methods and variables have names, and their bodies and values are cut out of the source. -/
structure Members.CutFrom (s : Source) (m : Members) : Prop where
  bodies : ∀ x ∈ m.methods, s.IsBody x
  names : ∀ x ∈ m.named, IsNameText x.name
  declared : ∀ v ∈ m.variables, s.IsVariable v

/-- The keys are names, and the values are cut out of the source. -/
def PropertyMap.AssignsFrom (s : Source) (m : PropertyMap) : Prop :=
  ∀ entry ∈ m.entries, IsNameText entry.1 ∧ s.IsValue entry.2

/-- The keys can be names of attributes. -/
def PropertyMap.HasKeys (m : PropertyMap) : Prop := ∀ key ∈ m.keys, isPropertyKey key.toList = true

/-- The instance has the entries, name, style, attributes, members and assignments that reading it
can give. -/
structure Instance.ReadFrom (s : Source) (own : Instance) : Prop where
  entries : ∀ entry ∈ own.entries, IsWordText entry
  name : ∀ name ∈ own.name?, IsNameText name
  style : own.style.HasKeys
  attributes : own.attributes.HasKeys
  members : own.members.CutFrom s
  assignments : own.assignments.AssignsFrom s

/-- All instances of the tree are as read. -/
def Source.ReadNode (s : Source) (node : Node) : Prop := ∀ own ∈ node.labels, own.ReadFrom s

/-- The class and the instances in it are as read. -/
structure ClassDef.ReadFrom (s : Source) (c : ClassDef) : Prop where
  name : IsNameText c.name
  parents : ∀ parent ∈ c.parents, IsWordText parent
  style : c.style.HasKeys
  attributes : c.attributes.HasKeys
  states : ∀ entry ∈ c.states, IsWordText entry.1
  members : c.members.CutFrom s
  children : ∀ node ∈ c.children, s.ReadNode node

theorem Members.CutFrom.empty (s : Source) : Members.CutFrom s {} := by
  constructor <;> rintro x ⟨⟩

theorem Members.CutFrom.of_mem (h : m.CutFrom s)
    (hx : s.IsBody x) (hn : x ∈ m'.named → IsNameText x.name) (hv : m'.variables = m.variables)
    (hs : ∀ y ∈ m'.methods, y ∈ m.methods ∨ y = x) (ha : ∀ y ∈ m'.named, y ∈ m.named ∨ y = x) : m'.CutFrom s := by
  refine ⟨fun y hy => ?_, fun y hy => ?_, hv ▸ h.declared⟩
  · rcases hs y hy with hy | rfl
    · exact h.bodies y hy
    · exact hx
  · rcases ha y hy with hy' | rfl
    · exact h.names y hy'
    · exact hn hy

theorem Members.CutFrom.addVariable (h : m.CutFrom s) (v : Visibility)
    {x : Variable} (hx : s.IsVariable x) : (m.addVariable v x).CutFrom s := by
  refine ⟨by cases v <;> exact h.bodies, by cases v <;> exact h.names, fun y hy => ?_⟩
  have hs : y ∈ m.variables ∨ y = x := by
    simp only [Members.variables, mem_append] at hy ⊢
    cases v <;> simp only [Members.addVariable, modifyTier, mem_append, mem_singleton] at hy <;> tauto
  rcases hs with hy | rfl
  · exact h.declared y hy
  · exact hx

theorem Members.CutFrom.addMethod (h : m.CutFrom s) (v : Visibility)
    (hx : s.IsBody x) (hn : IsNameText x.name) : (m.addMethod v x).CutFrom s := by
  refine h.of_mem hx (fun _ => hn) (by cases v <;> rfl) (fun y hy => ?_) fun y hy => ?_
  · simp only [methods, mem_append] at hy ⊢
    cases v <;> simp only [Members.addMethod, modifyTier, mem_append, mem_singleton] at hy <;> tauto
  · simp only [named, mem_append] at hy ⊢
    cases v <;> simp only [Members.addMethod, modifyTier, mem_append, mem_singleton] at hy <;> tauto

theorem Members.CutFrom.setConstructor (h : m.CutFrom s) (hx : s.IsBody x) :
    Members.CutFrom s { m with constructor? := some x } := by
  refine h.of_mem hx (h.names x) rfl (fun y hy => ?_) fun y hy => .inl hy
  simp only [methods, mem_append, Option.toList_some, mem_singleton] at hy ⊢
  tauto

theorem Members.CutFrom.addPart (h : m.CutFrom s) (hx : s.IsBody x) (hn : word = "get" ∨ word = "set" → IsNameText x.name) :
    Members.CutFrom s (if word = "get" then { m with getters := m.getters ++ [x] }
      else if word = "set" then { m with setters := m.setters ++ [x] }
      else { m with handlers := m.handlers ++ [x] }) := by
  split_ifs with hg hs
  · refine h.of_mem hx (fun _ => hn (.inl hg)) rfl (fun y hy => ?_) fun y hy => ?_
    · simp only [methods, mem_append, mem_singleton] at hy ⊢
      tauto
    · simp only [named, mem_append, mem_singleton] at hy ⊢
      tauto
  · refine h.of_mem hx (fun _ => hn (.inr hs)) rfl (fun y hy => ?_) fun y hy => ?_
    · simp only [methods, mem_append, mem_singleton] at hy ⊢
      tauto
    · simp only [named, mem_append, mem_singleton] at hy ⊢
      tauto
  · refine h.of_mem hx (h.names x) rfl (fun y hy => ?_) fun y hy => .inl hy
    simp only [methods, mem_append, mem_singleton] at hy ⊢
    tauto

theorem mem_putEntry {value : String} {es : List (String × String)} {e : String × String}
    (h : e ∈ putEntry key value es) : e ∈ es ∨ e = (key, value) := by
  induction es with
  | nil => exact .inr (mem_singleton.1 h)
  | cons first rest ih =>
    rw [putEntry] at h
    split at h
    · next hk =>
      rcases mem_cons.1 h with rfl | h
      · exact .inr (by rw [hk])
      · exact .inl (mem_cons_of_mem _ h)
    · rcases mem_cons.1 h with rfl | h
      · exact .inl mem_cons_self
      · exact (ih h).imp_left (mem_cons_of_mem _)

theorem PropertyMap.AssignsFrom.empty (s : Source) : PropertyMap.AssignsFrom s .empty := by
  rintro e ⟨⟩

theorem PropertyMap.AssignsFrom.insert {m : PropertyMap} {value : String}
    (h : m.AssignsFrom s) (hk : IsNameText key) (hv : s.IsValue value) : (m.insert key value).AssignsFrom s := by
  intro e he
  rcases mem_putEntry he with he | rfl
  · exact h e he
  · exact ⟨hk, hv⟩

theorem PropertyMap.HasKeys.empty : PropertyMap.HasKeys .empty := by
  rintro key ⟨⟩

theorem PropertyMap.HasKeys.insert {m : PropertyMap} {value : String} (h : m.HasKeys)
    (he : isPropertyKey key.toList) : (m.insert key value).HasKeys := by
  intro k hk
  rw [keys, PropertyMap.insert, keys_putEntry] at hk
  split at hk
  · exact h k hk
  · rcases mem_append.1 hk with hk | hk
    · exact h k hk
    · rw [mem_singleton.1 hk]
      exact he

namespace Source

variable {s : Source} {gs : List Glyph} {c : Char} {g : Glyph} {needle text word : List Char}
  {post pre ps : List Piece} {child parent : Node} {blocks : List Span}

/-! ### Tokens -/

theorem isWordText_of_word (hk : (s.token gs).token.kind = .word name) : IsWordText name := by
  cases hg : skipTrivia gs with
  | nil =>
    rw [(token_of_nil hg).1] at hk
    cases hk
  | cons g post =>
    rw [(token_of_cons hg).1] at hk
    unfold lexHere at hk
    split at hk
    · cases hk
    · split_ifs at hk with hs
      cases hk
      rw [IsWordText, String.toList_ofList, glyphText, map_cons, forall_mem_cons]
      refine ⟨by simp [isWordPart, isNameChar_of_isNameStart hs], fun c hc => ?_⟩
      obtain ⟨g', hg', rfl⟩ := mem_map.1 hc
      have hp := mem_takeWhile_imp hg'
      exact hp

/-- The glyphs stand right behind the mark. -/
def Follows (s : Source) (mark : Char) (gs : List Glyph) : Prop :=
  ∃ before after g, s.BeginsCode before after g gs ∧ g.char = mark

theorem token_of_mark (h : (s.token gs).token.kind = .mark c) : ∃ g, skipTrivia gs = g :: (s.token gs).rest ∧ g.char = c := by
  cases hg : skipTrivia gs with
  | nil =>
    rw [(token_of_nil hg).1] at h
    cases h
  | cons g post =>
    obtain ⟨hf, hs⟩ := token_of_cons (s := s) hg
    rw [hf] at h
    refine ⟨g, ?_, char_of_lexHere_mark h⟩
    rw [hs]
    unfold lexHere at h ⊢
    split at h
    · cases h
    · split_ifs at h with hn hd
      rw [if_neg hn, if_neg hd]

theorem follows_of_mark (hs : s.IsScan) (h : s.IsRest gs) (hc : isLiteralStart c = false)
    (hk : (s.token gs).token.kind = .mark c) : s.Follows c (s.token gs).rest := by
  obtain ⟨pre, post, g, rest, hsk, rfl, ho⟩ := beginsCode_of_mark hs h hk hc
  obtain ⟨g', hsk', -⟩ := token_of_mark hk
  obtain ⟨rfl, rfl⟩ := cons.inj (hsk.symm.trans hsk')
  exact ⟨pre, post, g, ho, rfl⟩

/-! ### Groups and values -/

/-- The glyphs are those of a group with its brackets, and what is opened inside is closed there. -/
def IsGroupGlyphs (s : Source) (opener closer : Char) (group : List Glyph) : Prop :=
  ∃ before body, s.IsGroup opener closer before body ∧
    group = ⟨opener, piecesSize before, none⟩ :: glyphsOf (piecesSize before + 1) (body ++ [.code closer]) ∧
    nesting opener closer 0 (glyphsOf (piecesSize before + 1) body) = some 0

/-- A value is cut off the glyphs, and `rest` is left. -/
def CutsOff (s : Source) (start : Nat) (gs value rest : List Glyph) : Prop :=
  ∃ r, s.cutValue start gs = .ok r ∧ r.value = value ∧ r.rest = rest

theorem not_cutsOff_nil : ¬s.CutsOff start [] value rest := by
  rintro ⟨r, hr, -⟩
  unfold cutValue at hr
  cases hr

/-- What can be cut off at a glyph: nothing, if it ends the value; else the glyph, if it is covered
or no bracket, or a whole group, and then more. -/
theorem CutsOff.cases (h : s.CutsOff start (g :: gs) value rest) :
    (g.cover = none ∧ value = [] ∧ (g.char = ';' ∧ rest = gs ∨ isCloser g.char ∧ rest = g :: gs)) ∨
      (∃ more, value = g :: more ∧ (g.cover.isSome ∨ closer? g.char = none ∧ isCloser g.char = false) ∧ s.CutsOff start gs more rest) ∨
      ∃ closer group post more, g.cover = none ∧ closer? g.char = some closer ∧ splitGroup g.char closer 0 (g :: gs) = some (group, post) ∧
        value = group ++ more ∧ s.CutsOff start post more rest := by
  obtain ⟨r, hr, rfl, rfl⟩ := h
  unfold cutValue at hr
  split at hr
  · next hc =>
    obtain ⟨inner, hi, hr⟩ := bind_eq_ok.1 hr
    cases hr
    exact .inr (.inl ⟨inner.value, rfl, .inl hc, inner, hi, rfl, rfl⟩)
  · next hc =>
    have hc : g.cover = none := by simpa using hc
    split at hr
    · next closer hp =>
      split at hr
      · next group post hs =>
        obtain ⟨inner, hi, hr⟩ := bind_eq_ok.1 hr
        cases hr
        exact .inr (.inr ⟨closer, group, post, inner.value, hc, hp, hs, rfl, inner, hi, rfl, rfl⟩)
      · cases hr
    · next hp =>
      split at hr
      · next he =>
        cases hr
        exact .inl ⟨hc, rfl, .inl ⟨he, rfl⟩⟩
      · split at hr
        · next hl =>
          cases hr
          exact .inl ⟨hc, rfl, .inr ⟨hl, rfl⟩⟩
        · next hl =>
          obtain ⟨inner, hi, hr⟩ := bind_eq_ok.1 hr
          cases hr
          exact .inr (.inl ⟨inner.value, rfl, .inr ⟨hp, Bool.eq_false_iff.2 hl⟩, inner, hi, rfl, rfl⟩)

theorem CutsOff.of_covered (h : s.CutsOff start (coveredGlyphs stop o text ++ gs) value rest) :
    ∃ more, value = coveredGlyphs stop o text ++ more ∧ s.CutsOff start gs more rest := by
  induction text generalizing o value with
  | nil => exact ⟨value, rfl, h⟩
  | cons c text ih =>
    obtain ⟨hc, -⟩ | ⟨_, rfl, -, hm⟩ | ⟨_, _, _, _, hc, -⟩ := h.cases
    · cases hc
    · obtain ⟨more, rfl, hr⟩ := ih hm
      exact ⟨more, rfl, hr⟩
    · cases hc

theorem CutsOff.exists_cut (h : s.CutsOff start (glyphsOf o ps) value rest) :
    ∃ cut stop post, (stop = ';' ∨ isCloser stop) ∧ ps = cut ++ .code stop :: post ∧ value = glyphsOf o cut ∧
      (rest = glyphsOf (o + piecesSize cut) (.code stop :: post) ∨ rest = glyphsOf (o + piecesSize (cut ++ [.code stop])) post) := by
  induction hn : ps.length using Nat.strong_induction_on generalizing ps o value with
  | h n ih =>
    subst hn
    -- What is cut off behind some pieces is cut off together with them.
    have onward {front qs : List Piece} {more : List Glyph} (hp : ps = front ++ qs) (hlt : qs.length < ps.length)
        (hm : s.CutsOff start (glyphsOf (o + piecesSize front) qs) more rest)
        (hv : value = glyphsOf o front ++ more) :
        ∃ cut stop post, (stop = ';' ∨ isCloser stop) ∧ ps = cut ++ .code stop :: post ∧ value = glyphsOf o cut ∧
          (rest = glyphsOf (o + piecesSize cut) (.code stop :: post) ∨ rest = glyphsOf (o + piecesSize (cut ++ [.code stop])) post) := by
      obtain ⟨cut, stop, post, hs, rfl, rfl, hg⟩ := ih _ hlt hm rfl
      refine ⟨front ++ cut, stop, post, hs, by rw [hp, append_assoc], ?_, ?_⟩
      · rw [hv, glyphsOf_append]
      · rw [append_assoc, piecesSize_append, piecesSize_append, ← Nat.add_assoc, ← Nat.add_assoc]
        exact hg
    cases ps with
    | nil => exact absurd h not_cutsOff_nil
    | cons p ps =>
      cases p with
      | literal kind text =>
        obtain ⟨more, rfl, hm⟩ := CutsOff.of_covered h
        have hi : byteSize text = piecesSize [.literal kind text] := by simp
        rw [hi] at hm
        refine onward rfl (by simp) hm ?_
        rw [glyphsOf, glyphsOf, append_nil]
      | code c =>
        obtain ⟨-, rfl, ⟨hs, rfl⟩ | ⟨hs, rfl⟩⟩ | ⟨more, rfl, -, hm⟩ |
            ⟨closer, group, post, more, -, -, hsp, rfl, hm⟩ := CutsOff.cases h
        · exact ⟨[], c, ps, .inl hs, rfl, rfl, .inr (by simp)⟩
        · exact ⟨[], c, ps, .inr hs, rfl, rfl, .inl (by simp [glyphsOf])⟩
        · have hi : c.utf8Size = piecesSize [.code c] := by simp
          rw [hi] at hm
          exact onward rfl (by simp) hm rfl
        · have hl : (⟨c, o, none⟩ : Glyph) :: glyphsOf (o + c.utf8Size) ps = glyphsOf o (.code c :: ps) := rfl
          rw [hl] at hsp
          obtain ⟨body, post', hp, rfl, rfl⟩ := exists_cut_of_splitGroup hsp
          refine onward (by rw [hp, ← append_cons]) ?_ hm rfl
          rw [hp]
          simp only [length_append, length_cons]
          omega

theorem CutsOff.suffix {gs value rest : List Glyph} (h : s.CutsOff start gs value rest) : rest <:+ gs := by
  cases gs with
  | nil => exact absurd h not_cutsOff_nil
  | cons g gs =>
    obtain ⟨-, -, ⟨-, rfl⟩ | ⟨-, rfl⟩⟩ | ⟨more, -, -, hm⟩ | ⟨closer, group, post, more, -, -, hs, -, hm⟩ := h.cases
    · exact suffix_cons g rest
    · exact suffix_rfl
    · exact hm.suffix.trans (suffix_cons g gs)
    · have hlt := splitGroup_length hs
      exact hm.suffix.trans ⟨group, splitGroup_append hs⟩
termination_by gs.length

theorem CutsOff.isValue (h : s.CutsOff start gs value rest) (hc : s.BeginsCode pre post g gs)
    (hm : g.char = '=' ∨ g.char = ':') : s.IsValue (String.ofList (trim (glyphText value))) := by
  have hp := hc.pieces_eq
  rw [hc.rest_eq] at h
  obtain ⟨body, stop, post', hs, rfl, rfl, -⟩ := h.exists_cut
  exact ⟨pre, g.char, body, stop, post', hm, hs, hp, by rw [glyphText_glyphsOf, String.toList_ofList]⟩

/-! ### Instances -/

theorem readNode_node {own : Instance} {children : List Node} :
    s.ReadNode (.node own children) ↔ own.ReadFrom s ∧ ∀ child ∈ children, s.ReadNode child := by
  simp only [ReadNode, Tree.mem_labels_node]
  constructor
  · exact fun h => ⟨h own (.inl rfl), fun child hc x hx => h x (.inr ⟨child, hc, hx⟩)⟩
  · rintro ⟨ho, hh⟩ x (rfl | ⟨child, hc, hx⟩)
    · exact ho
    · exact hh child hc x hx

theorem readNode_addChild (hp : s.ReadNode parent) (hc : s.ReadNode child) : s.ReadNode (parent.addChild child) := by
  obtain ⟨own, children⟩ := parent
  obtain ⟨ho, hh⟩ := readNode_node.1 hp
  refine readNode_node.2 ⟨ho, fun node hn => ?_⟩
  rcases mem_append.1 hn with hn | hn
  · exact hh node hn
  · rw [mem_singleton.1 hn]
    exact hc

/-! ### Class tables -/

theorem suffix_of_findKeyword {pre : Option Char} (h : findKeyword word pre gs = some found) :
    found <:+ gs ∧ ∃ g rest, found = g :: rest ∧ g.cover = none := by
  induction gs generalizing pre with
  | nil => cases h
  | cons g gs ih =>
    unfold findKeyword at h
    split at h
    · next hf =>
      cases h
      simp only [Bool.and_eq_true, Option.isNone_iff_eq_none] at hf
      exact ⟨suffix_rfl, g, gs, rfl, hf.1.1.1⟩
    · obtain ⟨hs, hf⟩ := ih h
      exact ⟨hs.trans (suffix_cons g gs), hf⟩

theorem startsWith_iff : startsWith needle gs ↔ needle <+: glyphText gs := by
  fun_induction startsWith needle gs with
  | case1 => simp
  | case2 => simp [glyphText]
  | case3 c needle g gs ih => simp [ih, glyphText, cons_prefix_cons]

/-- The needle stands where the glyphs begin, outside the literals. -/
def Begins (needle : List Char) (gs : List Glyph) : Prop := (∀ g ∈ gs.head?, g.cover = none) ∧ needle <+: glyphText gs

theorem begins_nil : Begins needle [] ↔ needle.isEmpty := by
  simp [Begins, glyphText]

theorem begins_cons : Begins needle (g :: gs) ↔ g.cover.isNone && startsWith needle (g :: gs) := by
  rw [Bool.and_eq_true, startsWith_iff]
  simp [Begins]

theorem begins_of_findGlyphs (h : findGlyphs needle gs = some found) : Begins needle found := by
  fun_induction findGlyphs needle gs with
  | case1 hn =>
    cases h
    exact begins_nil.2 hn
  | case2 => cases h
  | case3 g gs hg =>
    cases h
    exact begins_cons.2 hg
  | case4 g gs _ ih => exact ih h

/-- Where the needle stands at some place, the search ends there or before. -/
theorem exists_found_of_begins {hs : List Glyph} (hs' : hs <:+ gs) (hb : Begins needle hs) :
    ∃ found, findGlyphs needle gs = some found ∧ hs <:+ found := by
  induction gs with
  | nil =>
    obtain rfl := suffix_nil.1 hs'
    exact ⟨[], if_pos (begins_nil.1 hb), suffix_rfl⟩
  | cons g gs ih =>
    by_cases hg : Begins needle (g :: gs)
    · exact ⟨g :: gs, if_pos (begins_cons.1 hg), hs'⟩
    · rcases suffix_cons_iff.1 hs' with rfl | hs'
      · exact absurd hb hg
      · obtain ⟨found, hf, hl⟩ := ih hs'
        exact ⟨found, (if_neg (mt begins_cons.2 hg)).trans hf, hl⟩

theorem findGlyphs_spec (hn : needle ≠ []) (h : findGlyphs needle gs = some found) :
    ∃ g rest, found = g :: rest ∧ g.cover = none ∧ needle <+: glyphText found := by
  obtain ⟨hc, hp⟩ := begins_of_findGlyphs h
  cases found with
  | nil => exact absurd (prefix_nil.1 hp) hn
  | cons g rest => exact ⟨g, rest, rfl, hc g rfl, hp⟩

/-- The block of a class runs from its keyword, a character of code, to the end of the group that
the first brace behind it opens. -/
structure IsClassBlock (s : Source) (keyword brace group rest : List Glyph) (block : Span) : Prop where
  suffix : keyword <:+ s.glyphs
  code : ∃ g after, keyword = g :: after ∧ g.cover = none
  find_brace : findGlyphs ['{'] keyword = some brace
  cut : splitGroup '{' '}' 0 brace = some (group, rest)
  block_eq : block = ⟨s.offsetOf keyword, s.offsetOf rest⟩

theorem splitGroup_of_skipBraces {rest : { rest : List Glyph // rest.length < gs.length }}
    (h : s.skipBraces gs = .ok rest) : ∃ group, splitGroup '{' '}' 0 gs = some (group, rest.1) := by
  unfold skipBraces at h
  split at h
  · next group rest' hs =>
    cases h
    exact ⟨group, hs⟩
  · cases h

theorem suffix_of_skipBraces {rest : { rest : List Glyph // rest.length < gs.length }}
    (h : s.skipBraces gs = .ok rest) : rest.1 <:+ gs := by
  obtain ⟨group, hs⟩ := splitGroup_of_skipBraces h
  exact ⟨group, splitGroup_append hs⟩

theorem exists_of_mem_classBlocksFrom {gs : List Glyph} (h : gs <:+ s.glyphs) {blocks : List Span}
    (hb : s.classBlocksFrom gs = .ok blocks) (hbl : block ∈ blocks) :
    ∃ keyword brace group rest, s.IsClassBlock keyword brace group rest block := by
  unfold classBlocksFrom at hb
  split at hb
  · cases hb
    cases hbl
  · next keyword hk =>
    obtain ⟨hs, hc⟩ := suffix_of_findKeyword hk
    dsimp only at hb
    split at hb
    · cases hb
    · next brace hbr =>
      split at hb
      · obtain ⟨rest, hr, hb⟩ := bind_eq_ok.1 hb
        have hl := findGlyphs_length_le hbr
        have hr := (suffix_of_skipBraces hr).trans (suffix_of_findGlyphs hbr)
        exact exists_of_mem_classBlocksFrom (hr.trans h) hb hbl
      · split at hb
        · cases hb
        · next body hbo =>
          obtain ⟨rest, hr, hb⟩ := bind_eq_ok.1 hb
          obtain ⟨others, ho, hb⟩ := bind_eq_ok.1 hb
          cases hb
          rcases mem_cons.1 hbl with rfl | hbl
          · obtain ⟨group, hg⟩ := splitGroup_of_skipBraces hr
            exact ⟨keyword, body, group, rest.1, hs.trans h, hc, hbo, hg, rfl⟩
          · have hl := Nat.le_trans (findGlyphs_length_le hbo) (findKeyword_length_le hk)
            have hr := ((suffix_of_skipBraces hr).trans (suffix_of_findGlyphs hbo)).trans hs
            exact exists_of_mem_classBlocksFrom (hr.trans h) ho hbl
termination_by gs.length

theorem IsClassBlock.glyphsFrom (h : s.IsClassBlock keyword brace group rest block) :
    s.glyphsFrom block.start = keyword ∧ s.IsRest keyword := by
  obtain ⟨g, post, rfl, hc⟩ := h.code
  obtain ⟨pre, behind, ho⟩ := beginsCode_of_suffix h.suffix hc
  rw [h.block_eq]
  exact ⟨ho.glyphsFrom, ho.isRest_cons⟩

theorem isRest_of_mem_classBlocksFrom (h : gs <:+ s.glyphs) (hb : s.classBlocksFrom gs = .ok blocks)
    (hl : block ∈ blocks) : s.IsRest (s.glyphsFrom block.start) := by
  obtain ⟨keyword, brace, group, rest, hc⟩ := exists_of_mem_classBlocksFrom h hb hl
  obtain ⟨heq, hr⟩ := hc.glyphsFrom
  rw [heq]
  exact hr

end Source

end Pagewright
