import Pagewright.Proofs.Blanking
import Pagewright.Proofs.Bodies

/-!
# Offsets of methods

Classes are read from the text, the page from the text with the classes blanked out, and a method
keeps the offset of its body in the text that it was read from. The two texts agree byte by byte
outside the classes and in all line feeds, and in both of them the body of a method stands at its
offset, between the two braces that belong together (`read_offsets_exact`). -/

namespace Pagewright

namespace Source

variable {s : Source}

/-- The body of the method stands where its offset says, between two braces of code, and every brace
opened inside is closed and no other. -/
structure HasBody (s : Source) (m : Method) : Prop where
  text : ∃ front back, s.text = front ++ '{' :: (m.body.toList ++ '}' :: back) ∧ m.offset = byteSize front + 1
  opened : s.isCovered (m.offset - 1) = false
  closed : s.isCovered (m.offset + byteSize m.body.toList) = false
  nested : nesting '{' '}' 0 (s.glyphsBetween m.offset (m.offset + byteSize m.body.toList)) = some 0

theorem IsBody.hasBody {m : Method} (hm : s.IsBody m) : s.HasBody m := by
  obtain ⟨pre, body, hg, hb, ho, hn⟩ := hm
  obtain ⟨rest, ht⟩ := text_of_isGroup hg
  obtain ⟨post, hp⟩ := hg
  have hs : byteSize m.body.toList = piecesSize body := by rw [hb]; rfl
  have he : s.pieces = (pre ++ [.code '{']) ++ (body ++ .code '}' :: post) := by
    rw [hp, List.append_assoc]
    rfl
  have hst : piecesSize (pre ++ [.code '{']) = m.offset := by
    rw [piecesSize_append, ho]
    rfl
  constructor
  · exact ⟨pre.flatMap Piece.chars, rest, by rw [hb]; exact ht, ho⟩
  · rw [ho]
    exact isCovered_of_code hp
  · rw [hs, ← hst, ← piecesSize_append]
    exact isCovered_of_code (he.trans (List.append_assoc _ _ _).symm)
  · have hbt := glyphsBetween_eq he
    rw [hst] at hbt
    rw [hs, hbt, ho]
    exact hn

end Source

theorem PageSource.hasBody_of_read {text : List Char} {source : PageSource} (h : read text = .ok source) :
    ∃ s blocks page, Source.ofText text = .ok s ∧ s.classBlocks = .ok blocks ∧
      classlessText text = .ok (blankOut blocks s.glyphs) ∧ Source.ofText (blankOut blocks s.glyphs) = .ok page ∧
      (∀ c ∈ source.table.classes, ∀ m ∈ c.methods, s.HasBody m) ∧
      ∀ own ∈ Tree.labelsAll source.page.nodes, ∀ m ∈ own.members.methods, page.HasBody m := by
  obtain ⟨-, s, blocks, p, hs, hblocks, hclassless, hp, hclasses, hnodes⟩ := exists_of_read h
  refine ⟨s, blocks, p, hs, hblocks, hclassless, hp, fun c hc m hm => ?_, fun own hown m hm => ?_⟩
  · refine Source.IsBody.hasBody ?_
    rcases List.mem_append.1 hm with hm | hm
    · exact (hclasses c hc).members.bodies m hm
    · obtain ⟨own, hown, hm⟩ := List.mem_flatMap.1 hm
      obtain ⟨node, hnode, hown⟩ := Tree.mem_labelsAll.1 hown
      exact ((hclasses c hc).children node hnode own hown).members.bodies m hm
  · exact Source.IsBody.hasBody ((hnodes own hown).members.bodies m hm)

/-- **Offsets of a reading.** Where a source is read, its page is read from a text that has, byte by
byte, a space in place of what stands in the blocks of the classes and is no line feed, and agrees
with the source elsewhere. Every method of a class is found by its offset in the source, every
method of the page in that text. -/
theorem read_offsets_exact {text : List Char} {source : PageSource} (h : PageSource.read text = .ok source) :
    ∃ s blocks pageText page, Source.ofText text = .ok s ∧ s.classBlocks = .ok blocks ∧
      classlessText text = .ok pageText ∧ Source.ofText pageText = .ok page ∧
      bytesOf pageText = (bytesOf text).mapIdx (fun i b => if b ≠ 10 ∧ blocks.any (·.contains i) then 32 else b) ∧
      (∀ c ∈ source.table.classes, ∀ m ∈ c.methods, s.HasBody m) ∧
      ∀ own ∈ Tree.labelsAll source.page.nodes, ∀ m ∈ own.members.methods, page.HasBody m := by
  obtain ⟨s, blocks, p, hs, hblocks, hclassless, hp, hclasses, hnodes⟩ := PageSource.hasBody_of_read h
  refine ⟨s, blocks, _, p, hs, hblocks, hclassless, hp, ?_, hclasses, hnodes⟩
  rw [← Source.text_ofText hs]
  exact Source.bytesOf_blankOut fun block hblock => Source.boundaries_of_mem_classBlocks hblocks hblock

/-- A class with a method that has a character of two bytes and a brace in a string, and behind it
an instance with a handler. -/
def accentedClass : List Char :=
  "class A\x7bpublic\x7bm()\x7b'é\x7d'\x7d\x7d\x7d\np\x7bpublic\x7bon x()\x7b\x7by\x7d\x7d\x7d\x7d".toList

/-- The string takes five bytes, and the handler is found behind it by its offset in the blanked
text. -/
theorem read_offsets_exact_accentedClass :
    ∃ source, PageSource.read accentedClass = .ok source ∧
      (source.table.classes.flatMap ClassDef.methods).map (fun m => (m.offset, m.body)) = [(19, "'é\x7d'")] ∧
      ((Tree.labelsAll source.page.nodes).flatMap (·.members.methods)).map (fun m => (m.offset, m.body)) =
        [(44, "\x7by\x7d")] ∧
      ∃ s blocks pageText page, Source.ofText accentedClass = .ok s ∧ s.classBlocks = .ok blocks ∧
        classlessText accentedClass = .ok pageText ∧ Source.ofText pageText = .ok page ∧
        bytesOf pageText =
          (bytesOf accentedClass).mapIdx (fun i b => if b ≠ 10 ∧ blocks.any (·.contains i) then 32 else b) ∧
        (∀ c ∈ source.table.classes, ∀ m ∈ c.methods, s.HasBody m) ∧
        ∀ own ∈ Tree.labelsAll source.page.nodes, ∀ m ∈ own.members.methods, page.HasBody m := by
  have heval : ∃ source, PageSource.read accentedClass = .ok source ∧
      (source.table.classes.flatMap ClassDef.methods).map (fun m => (m.offset, m.body)) = [(19, "'é\x7d'")] ∧
      ((Tree.labelsAll source.page.nodes).flatMap (·.members.methods)).map (fun m => (m.offset, m.body)) =
        [(44, "\x7by\x7d")] := by
    decide +kernel
  obtain ⟨source, hread, hclass, hpage⟩ := heval
  exact ⟨source, hread, hclass, hpage, read_offsets_exact hread⟩

end Pagewright
