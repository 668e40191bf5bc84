import Mathlib.Data.List.DropRight
import Pagewright.Behavior.Script

/-!
# Layout of the last work

The last work of a unit is one text: the assignments and the body of the constructor, each ended by
a line feed, without blanks at either end. Where the work is done at once every line of it is
indented, also inside a literal (`reindent`, `flatMap_breakLines`). -/

namespace Pagewright

open List

variable {cs front back part : List Char} {c d : Char} {parts : List (List Char)}

/-! ### Lines laid out anew -/

/-- The text with every line but the first moved to the right by one level; a carriage return before
a line feed is dropped. -/
def reindent : List Char → List Char
  | [] => []
  | '\r' :: '\n' :: cs => '\n' :: ((indent 1).toList ++ reindent cs)
  | '\n' :: cs => '\n' :: ((indent 1).toList ++ reindent cs)
  | c :: cs => c :: reindent cs

/-- A line without a carriage return at its end. -/
def dropReturn (line : List Char) : List Char :=
  if line.getLast? = some '\r' then line.dropLast else line

theorem dropReturn_cons (c : Char) (h : cs ≠ []) : dropReturn (c :: cs) = c :: dropReturn cs := by
  obtain ⟨d, cs, rfl⟩ := exists_cons_of_ne_nil h
  rw [dropReturn, dropReturn, getLast?_cons_cons]
  split <;> rfl

theorem exists_feed_of_splitAll (h : splitAll '\n' cs = [] :: part :: parts) : ∃ rest, cs = '\n' :: rest := by
  cases cs with
  | nil => cases h
  | cons c cs =>
    rw [splitAll] at h
    split at h
    · exact ⟨cs, by rw [‹c = '\n'›]⟩
    · split at h <;> cases h

theorem reindent_eq (cs : List Char) : ∃ lines last, splitAll '\n' cs = lines ++ [last] ∧
    reindent cs = ((lines.map dropReturn).flatMap fun line => line ++ '\n' :: (indent 1).toList) ++ last := by
  fun_induction reindent cs with
  | case1 => exact ⟨[], [], rfl, rfl⟩
  | case2 cs ih =>
    obtain ⟨lines, last, hs, heq⟩ := ih
    refine ⟨['\r'] :: lines, last, ?_, ?_⟩
    · simp [splitAll, hs]
    · simp [heq, dropReturn]
  | case3 cs ih =>
    obtain ⟨lines, last, hs, heq⟩ := ih
    refine ⟨[] :: lines, last, ?_, ?_⟩
    · simp [splitAll, hs]
    · simp [heq, dropReturn]
  | case4 c cs hr hf ih =>
    obtain ⟨lines, last, hs, heq⟩ := ih
    have hc : c ≠ '\n' := hf
    cases lines with
    | nil =>
      refine ⟨[], c :: last, ?_, by simp [heq]⟩
      simp [splitAll, hs, hc]
    | cons line lines =>
      refine ⟨(c :: line) :: lines, last, by simp [splitAll, hs, hc], ?_⟩
      have hd : dropReturn (c :: line) = c :: dropReturn line := by
        cases line with
        | nil =>
          -- the line is empty, so a line feed follows `c`, which is then no carriage return
          obtain ⟨part, parts, hp⟩ := exists_cons_of_ne_nil (l := lines ++ [last]) (by simp)
          rw [cons_append, hp] at hs
          obtain ⟨rest, rfl⟩ := exists_feed_of_splitAll hs
          have hne : c ≠ '\r' := fun hc => hr rest hc rfl
          simp [dropReturn, hne]
        | cons d line => exact dropReturn_cons c (cons_ne_nil d line)
      simp [heq, hd]

theorem reindent_cons (hf : c ≠ '\n') (hr : c = '\r' → cs.head? ≠ some '\n') : reindent (c :: cs) = c :: reindent cs := by
  rw [reindent]
  · rintro rest rfl rfl
    exact hr rfl rfl
  · exact hf

/-- Texts put together are laid out one by one, if no line break is cut. -/
theorem reindent_append (h : front.getLast? = some '\r' → back.head? ≠ some '\n') :
    reindent (front ++ back) = reindent front ++ reindent back := by
  fun_induction reindent front with
  | case1 => rfl
  | case2 cs ih =>
    rw [cons_append, cons_append, reindent, ih fun hl => h (by simp [getLast?_cons, hl])]
    simp
  | case3 cs ih =>
    rw [cons_append, reindent, ih fun hl => h (by simp [getLast?_cons, hl])]
    simp
  | case4 c cs hr hf ih =>
    rw [cons_append, reindent_cons hf, ih fun hl => h (by simp [getLast?_cons, hl])]
    · rfl
    · rintro rfl
      cases cs with
      | nil => exact h rfl
      | cons d cs =>
        rintro ⟨⟩
        exact hr cs rfl rfl

theorem reindent_of_not_mem (h : '\n' ∉ cs) : reindent cs = cs := by
  fun_induction reindent cs <;> simp_all

theorem joinWith_append_singleton (sep : List Char) (parts : List (List Char)) (last : List Char) :
    joinWith sep (parts ++ [last]) = parts.flatMap (· ++ sep) ++ last := by
  induction parts with
  | nil => rfl
  | cons part parts ih =>
    obtain ⟨next, rest, hr⟩ := exists_cons_of_ne_nil (l := parts ++ [last]) (by simp)
    rw [cons_append, hr, joinWith, ← hr, ih]
    · simp
    · simp

theorem getLast?_flatMap_append (h : (parts.flatMap (· ++ [c])).getLast? = some d) : d = c := by
  rcases eq_nil_or_concat parts with rfl | ⟨init, last, rfl⟩
  · cases h
  · simpa using h.symm

theorem flatMap_shift (front : List Char) (lines : List (List Char)) :
    (lines.flatMap fun l => front ++ (l ++ ['\n'])) ++ front = front ++ lines.flatMap fun l => l ++ '\n' :: front := by
  induction lines with
  | nil => simp
  | cons l lines ih => simp [ih]

theorem flatMap_breakLines (h : cs.getLast? = some c) (hc : c ≠ '\n') :
    ((breakLines cs).flatMap fun l => (indent 1).toList ++ (l ++ ['\n'])) = (indent 1).toList ++ (reindent cs ++ ['\n']) := by
  obtain ⟨lines, last, hs, heq⟩ := reindent_eq cs
  have hcs := joinWith_splitAll '\n' cs
  rw [hs, joinWith_append_singleton] at hcs
  have hl : last ≠ [] := by
    rintro rfl
    rw [append_nil] at hcs
    rw [← hcs] at h
    exact hc (getLast?_flatMap_append h)
  have hi : breakLines cs = lines.map dropReturn ++ [last] := by
    rw [breakLines, hs]
    simp only [dropLast_concat, getLast?_concat]
    rfl
  rw [hi, heq, append_assoc, ← append_assoc, ← flatMap_shift]
  simp

/-! ### Texts without blanks at either end -/

/-- A text with no blank at either end, and not empty. -/
structure IsSolid (cs : List Char) : Prop where
  first : ∃ c, cs.head? = some c ∧ isBlank c = false
  last : ∃ c, cs.getLast? = some c ∧ isBlank c = false

theorem trimStart_append {blanks : List Char} (h : ∀ c ∈ blanks, isBlank c) (cs : List Char) :
    trimStart (blanks ++ cs) = trimStart cs :=
  dropWhile_append_of_pos h

theorem trimStart_of_head? (h : ∀ c, cs.head? = some c → isBlank c = false) : trimStart cs = cs := by
  cases cs with
  | nil => rfl
  | cons c cs => simp [trimStart, h c rfl]

theorem trimEnd_append_of_last (hl : front.getLast? = some c) (hc : isBlank c = false)
    (cs : List Char) : trimEnd (front ++ cs) = front ++ trimEnd cs := by
  obtain ⟨init, rfl⟩ := getLast?_eq_some_iff.1 hl
  have hf : (init ++ [c]).reverse.dropWhile isBlank = (init ++ [c]).reverse := by simp [hc]
  rw [trimEnd, dropEndWhile, reverse_append, dropWhile_append]
  split_ifs with he
  · rw [hf, trimEnd, dropEndWhile, isEmpty_iff.1 he]
    simp
  · rw [reverse_append, reverse_reverse]
    rfl

theorem trimEnd_append (hb : ∀ c ∈ back, isBlank c)
    (hl : ∃ c, cs.getLast? = some c ∧ isBlank c = false) : trimEnd (cs ++ back) = cs := by
  obtain ⟨c, hc, hbl⟩ := hl
  have hn : trimEnd back = [] := rdropWhile_eq_nil_iff.2 hb
  rw [trimEnd_append_of_last hc hbl, hn, append_nil]

theorem trim_append (hf : ∀ c ∈ front, isBlank c) (hb : ∀ c ∈ back, isBlank c) (hi : ∀ c, cs.head? = some c → isBlank c = false)
    (hl : ∀ c, cs.getLast? = some c → isBlank c = false) : trim (front ++ (cs ++ back)) = cs := by
  rw [trim, trimStart_append hf]
  cases cs with
  | nil =>
    rw [nil_append, trimStart, dropWhile_eq_nil_iff.2 hb]
    rfl
  | cons c cs =>
    have hc := getLast?_eq_some_getLast (cons_ne_nil c cs)
    rw [trimStart_of_head? (by simpa using hi c rfl), trimEnd_append hb ⟨_, hc, hl _ hc⟩]

theorem exists_of_trim (cs : List Char) : ∃ front back, cs = front ++ trim cs ++ back ∧
    (∀ c ∈ front, isBlank c) ∧ ∀ c ∈ back, isBlank c := by
  have hb : trim cs ++ (trimStart cs).rtakeWhile isBlank = trimStart cs := rdropWhile_append_rtakeWhile
  refine ⟨cs.takeWhile isBlank, (trimStart cs).rtakeWhile isBlank, ?_, fun c => mem_takeWhile_imp, fun c => mem_rtakeWhile_imp⟩
  rw [append_assoc, hb, trimStart, takeWhile_append_dropWhile]

theorem trimStart_append_of_isSolid (h : IsSolid cs) (back : List Char) : trimStart (cs ++ back) = cs ++ back := by
  obtain ⟨c, hc, hb⟩ := h.first
  obtain ⟨rest, rfl⟩ := head?_eq_some_iff.1 hc
  simp [trimStart, hb]

theorem isSolid_trim (h : trim cs ≠ []) : IsSolid (trim cs) := by
  constructor
  · -- the text without blanks at its end begins as the text does
    obtain ⟨c, rest, hc⟩ := exists_cons_of_ne_nil h
    obtain ⟨back, hb⟩ : trim cs <+: trimStart cs := rdropWhile_prefix isBlank (trimStart cs)
    have hh := head?_dropWhile_not isBlank cs
    rw [← trimStart, ← hb, hc] at hh
    exact ⟨c, by rw [hc]; rfl, hh⟩
  · exact ⟨_, getLast?_eq_some_getLast h, Bool.eq_false_iff.2 (rdropWhile_last_not isBlank (trimStart cs) h)⟩

theorem IsSolid.append (mid : List Char) (hf : IsSolid front) (hb : IsSolid back) : IsSolid (front ++ mid ++ back) := by
  obtain ⟨c, hc, hl⟩ := hf.first
  obtain ⟨d, hd, hl'⟩ := hb.last
  exact ⟨⟨c, by simp [hc], hl⟩, ⟨d, by simp [hd], hl'⟩⟩

theorem IsSolid.joinWith (sep : List Char) : ∀ {parts : List (List Char)}, parts ≠ [] →
    (∀ part ∈ parts, IsSolid part) → IsSolid (joinWith sep parts)
  | [part], _, h => h part (mem_singleton_self part)
  | part :: next :: rest, _, h => by
    obtain ⟨hp, hr⟩ := forall_mem_cons.1 h
    rw [Pagewright.joinWith]
    · exact hp.append sep (IsSolid.joinWith sep (cons_ne_nil next rest) hr)
    · simp

end Pagewright
