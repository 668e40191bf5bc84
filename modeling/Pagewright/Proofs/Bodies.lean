import Pagewright.Compile
import Pagewright.Proofs.Routes

/-!
# Bodies scanned once more

The body of a method is scanned with the whole text when it is read, and by itself when its parent
calls are looked for. Both scans see the same literals, for every group that is cut out at its
brackets (`bodies_rescan`). -/

namespace Pagewright

variable {back front text : List Char} {s : Source} {source src : PageSource}

/-- All methods of a class and of the instances inside it. -/
def ClassDef.methods (c : ClassDef) : List Method :=
  c.members.methods ++ (Tree.labelsAll c.children).flatMap (·.members.methods)

namespace Source

variable {closer opener : Char} {body pre : List Piece}

/-- The body of the method stands where its offset says, and scanned by itself it has the literals
that the text has there. -/
def Rescans (s : Source) (m : Method) : Prop :=
  (∃ front back, s.text = front ++ m.body.toList ++ back ∧ m.offset = byteSize front) ∧
    ∃ b, ofText m.body.toList = .ok b ∧
      b.spans = s.spansWithin m.offset (m.offset + byteSize m.body.toList)

variable {s : Source}

theorem text_of_isGroup (h : s.IsGroup opener closer pre body) :
    ∃ rest, s.text = pre.flatMap Piece.chars ++ opener :: (body.flatMap Piece.chars ++ closer :: rest) := by
  obtain ⟨post, hp⟩ := h
  rw [← s.chars_pieces, hp]
  simp [Piece.chars]

theorem IsBody.rescans (hs : s.IsScan) {m : Method} (h : s.IsBody m) : s.Rescans m := by
  obtain ⟨pre, body, hg, hb, ho, -⟩ := h
  obtain ⟨rest, ht⟩ := text_of_isGroup hg
  rw [Rescans, hb, ho]
  refine ⟨⟨pre.flatMap Piece.chars ++ ['{'], '}' :: rest, ?_, ?_⟩, hg.rescan hs rfl⟩
  · rw [ht]
    simp
  · simp only [byteSize_append, byteSize]
    rfl

theorem rescan_of_matchBracket {stop : Nat} (h : ofText text = .ok s) (ht : text = front ++ opener :: back)
    (hc : s.isCovered (byteSize front) = false) (hp : closer? opener = some closer) (hm : s.matchBracket (byteSize front) = .ok stop) :
    ∃ body rest b, back = body ++ closer :: rest ∧ stop = byteSize front + 1 + byteSize body + 1 ∧
      ofText body = .ok b ∧ b.spans = s.spansWithin (byteSize front + 1) (stop - 1) := by
  obtain ⟨pre, body, rfl, hg, hs⟩ := exists_group_of_matchBracket h ht hc hp hm
  obtain ⟨rest, ha⟩ := text_of_isGroup hg
  obtain ⟨b, hb, hsp⟩ := hg.rescan (isScan_ofText h) hp
  rw [text_ofText h, ht] at ha
  refine ⟨body.flatMap Piece.chars, rest, b, (List.cons.inj (List.append_cancel_left ha)).2, hs, hb, ?_⟩
  rw [hsp, hs]
  rfl

end Source

theorem Instance.ReadFrom.rescans (hs : s.IsScan) {own : Instance} (h : own.ReadFrom s) : ∀ m ∈ own.members.methods, s.Rescans m :=
  fun m hm => (h.members.bodies m hm).rescans hs

theorem ClassDef.ReadFrom.rescans (hs : s.IsScan) {c : ClassDef} (h : c.ReadFrom s) : ∀ m ∈ c.methods, s.Rescans m := by
  intro m hm
  rcases List.mem_append.1 hm with hm | hm
  · exact (h.members.bodies m hm).rescans hs
  · obtain ⟨own, ho, hm⟩ := List.mem_flatMap.1 hm
    obtain ⟨node, hn, ho⟩ := Tree.mem_labelsAll.1 ho
    exact (h.children node hn own ho).rescans hs m hm

/-- What a source was read from: the classes from the text, the page from the text without its
classes. -/
theorem PageSource.exists_of_read (h : read text = .ok src) :
    src.text = text ∧ ∃ s blocks page, Source.ofText text = .ok s ∧ s.classBlocks = .ok blocks ∧
      classlessText text = .ok (blankOut blocks s.glyphs) ∧ Source.ofText (blankOut blocks s.glyphs) = .ok page ∧
      (∀ c ∈ src.table.classes, c.ReadFrom s) ∧ ∀ own ∈ Tree.labelsAll src.page.nodes, own.ReadFrom page := by
  obtain ⟨table, ht, h⟩ := bind_eq_ok.1 h
  obtain ⟨pageText, hc, h⟩ := bind_eq_ok.1 h
  obtain ⟨page, ha, h⟩ := bind_eq_ok.1 h
  cases h
  obtain ⟨s, hs, hl⟩ := ClassTable.readFrom_of_ofText ht
  obtain ⟨p, hp, hn⟩ := Page.readFrom_of_ofText ha
  have hb := hc
  obtain ⟨s', hs', hb⟩ := bind_eq_ok.1 hb
  cases hs.symm.trans hs'
  obtain ⟨blocks, hbl, hb⟩ := bind_eq_ok.1 hb
  cases hb
  exact ⟨rfl, s, blocks, p, hs, hbl, hc, hp, hl, hn⟩

theorem PageSource.read_of_readChecked (h : readChecked text = .ok source) : read text = .ok source := by
  obtain ⟨_, hr, h⟩ := bind_eq_ok.1 h
  obtain ⟨-, -, h⟩ := bind_eq_ok.1 h
  cases h
  exact hr

/-- **Bodies scanned once more.** In a text whose literals all end, what stands between a bracket
outside the literals and its match is a text whose literals all end, with the literals that lie
there. So every body that is read, of a class from the text and of the page from the text without
its classes, has the literals that were seen when it was read. -/
theorem bodies_rescan {text : List Char} {s : Source} (h : Source.ofText text = .ok s) :
    (∀ front opener closer back stop, text = front ++ opener :: back →
      s.isCovered (byteSize front) = false → closer? opener = some closer →
      s.matchBracket (byteSize front) = .ok stop →
      ∃ body rest b, back = body ++ closer :: rest ∧ stop = byteSize front + 1 + byteSize body + 1 ∧
        Source.ofText body = .ok b ∧ b.spans = s.spansWithin (byteSize front + 1) (stop - 1)) ∧
    ∀ source, PageSource.read text = .ok source →
      (∀ c ∈ source.table.classes, ∀ m ∈ c.methods, s.Rescans m) ∧
      ∃ pageText page, classlessText text = .ok pageText ∧ Source.ofText pageText = .ok page ∧
        ∀ own ∈ Tree.labelsAll source.page.nodes, ∀ m ∈ own.members.methods, page.Rescans m := by
  refine ⟨fun front opener closer back stop htext hcovered hpair hmatch =>
    Source.rescan_of_matchBracket h htext hcovered hpair hmatch, fun source hread => ?_⟩
  obtain ⟨-, s', blocks, p, hs', -, hclassless, hp, hclasses, hnodes⟩ := PageSource.exists_of_read hread
  cases h.symm.trans hs'
  refine ⟨fun c hc => (hclasses c hc).rescans (Source.isScan_ofText h), _, p, hclassless, hp, ?_⟩
  exact fun own hown => (hnodes own hown).rescans (Source.isScan_ofText hp)

/-- A class and an instance, each with a method in which a brace stands inside a literal. -/
def bracesInLiterals : List Char :=
  "class A\x7bpublic\x7bm()\x7bf(/[/\x7d]/)\x7d\x7d\x7dp\x7bpublic\x7bn()\x7b'\x7d'\x7d\x7d\x7d".toList

/-- The pattern in the method of the class and the string in the method of the page are literals of
the bodies. -/
theorem bodies_rescan_braces_in_literals :
    ∃ s source, Source.ofText bracesInLiterals = .ok s ∧ PageSource.read bracesInLiterals = .ok source ∧
      s.spans = [⟨21, 27⟩, ⟨44, 47⟩] ∧
      (∃ body rest b, bracesInLiterals.drop 19 = body ++ '}' :: rest ∧ byteSize body = 9 ∧
        Source.ofText body = .ok b ∧ b.spans = [⟨2, 8⟩]) ∧
      source.table.classes.map (·.methods.length) = [1] ∧
      (∀ c ∈ source.table.classes, ∀ m ∈ c.methods, s.Rescans m) ∧
      ∃ pageText page, classlessText bracesInLiterals = .ok pageText ∧ Source.ofText pageText = .ok page ∧
        ∀ own ∈ Tree.labelsAll source.page.nodes, ∀ m ∈ own.members.methods, page.Rescans m := by
  have heval : ∃ s, Source.ofText bracesInLiterals = .ok s ∧
      s.spans = [⟨21, 27⟩, ⟨44, 47⟩] ∧ s.isCovered 18 = false ∧
      s.matchBracket 18 = .ok 29 ∧ s.spansWithin 19 28 = [⟨2, 8⟩] := by
    decide +kernel
  have hsource : ∃ source, PageSource.read bracesInLiterals = .ok source ∧
      source.table.classes.map (·.methods.length) = [1] := by
    decide +kernel
  obtain ⟨s, hs, hspans, hcovered, hmatch, hwithin⟩ := heval
  obtain ⟨source, hread, hmethods⟩ := hsource
  obtain ⟨hgroups, hbodies⟩ := bodies_rescan hs
  obtain ⟨hclasses, hpage⟩ := hbodies source hread
  obtain ⟨body, rest, b, hback, hstop, hb, hb'⟩ := hgroups (bracesInLiterals.take 18) '{' '}'
    (bracesInLiterals.drop 19) 29 (by decide +kernel) hcovered rfl hmatch
  have hsize : byteSize (bracesInLiterals.take 18) = 18 := by decide +kernel
  rw [hsize] at hstop hb'
  exact ⟨s, source, hs, hread, hspans, ⟨body, rest, b, hback, by omega, hb, hb'.trans hwithin⟩,
    hmethods, hclasses, hpage⟩

end Pagewright
