import Pagewright.Proofs.Places

/-!
# How deep glyphs are nested

`nesting` counts the groups of one kind that are open behind some glyphs, and has no answer where
one more is closed than is open. A group ends at the first bracket that closes more than was opened
since (`splitGroup_eq_some_iff`), and glyphs that close all that they open can be put in front of it
(`splitGroup_append_of_nesting`). -/

namespace Pagewright

open List

variable {front back mid body : List Glyph}

/-- How many groups are open behind the glyphs, `depth` being open before; none if more are closed
than are open. Brackets of other kinds and covered glyphs do not count. -/
def nesting (opener closer : Char) : Nat → List Glyph → Option Nat
  | depth, [] => some depth
  | depth, g :: gs =>
    if g.cover.isSome then nesting opener closer depth gs
    else if g.char = opener then nesting opener closer (depth + 1) gs
    else if g.char = closer then
      if depth = 0 then none else nesting opener closer (depth - 1) gs
    else nesting opener closer depth gs

/-- The glyph is a character of code, and which one. -/
def Glyph.IsCode (g : Glyph) (c : Char) : Prop := g.cover = none ∧ g.char = c

variable {opener closer : Char} {depth d' stop : Nat} {g : Glyph} {gs hs group rest : List Glyph}

/-! ### Counting -/

theorem nesting_opener (h : g.IsCode opener) : nesting opener closer depth (g :: gs) = nesting opener closer (depth + 1) gs := by
  simp [nesting, h.1, h.2]

theorem nesting_closer (hne : opener ≠ closer) (h : g.IsCode closer) :
    nesting opener closer (depth + 1) (g :: gs) = nesting opener closer depth gs := by
  simp [nesting, h.1, h.2, hne.symm]

/-- A glyph that does not count. -/
def Glyph.IsIdle (opener closer : Char) (g : Glyph) : Prop := g.cover.isSome = true ∨ g.char ≠ opener ∧ g.char ≠ closer

theorem nesting_idle (h : g.IsIdle opener closer) : nesting opener closer depth (g :: gs) = nesting opener closer depth gs := by
  rcases h with hc | ⟨ho, hl⟩
  · simp [nesting, hc]
  · simp [nesting, ho, hl]

theorem nesting_of_idle (h : ∀ g ∈ gs, g.IsIdle opener closer) : nesting opener closer depth gs = some depth := by
  induction gs with
  | nil => rfl
  | cons g gs ih =>
    rw [forall_mem_cons] at h
    rw [nesting_idle h.1, ih h.2]

/-- A glyph opens a group, closes one, or does not count. -/
theorem Glyph.cases_nesting (opener closer : Char) (g : Glyph) :
    g.IsCode opener ∨ g.IsCode closer ∧ g.char ≠ opener ∨ g.IsIdle opener closer := by
  unfold IsCode IsIdle
  cases g.cover with
  | some stop => exact .inr (.inr (.inl rfl))
  | none =>
    by_cases ho : g.char = opener
    · exact .inl ⟨rfl, ho⟩
    · by_cases hc : g.char = closer
      · exact .inr (.inl ⟨⟨rfl, hc⟩, ho⟩)
      · exact .inr (.inr (.inr ⟨ho, hc⟩))

theorem nesting_append : nesting opener closer depth (gs ++ hs) =
    (nesting opener closer depth gs).bind fun depth => nesting opener closer depth hs := by
  induction gs generalizing depth with
  | nil => rfl
  | cons g gs ih =>
    rw [cons_append, nesting, nesting]
    split_ifs
    · exact ih
    · exact ih
    · rfl
    · exact ih
    · exact ih

theorem nesting_add (h : nesting opener closer depth gs = some d') (more : Nat) :
    nesting opener closer (depth + more) gs = some (d' + more) := by
  induction gs generalizing depth with
  | nil => cases h; rfl
  | cons g gs ih =>
    rw [nesting] at h ⊢
    split_ifs at h ⊢
    · exact ih h
    · rw [Nat.add_right_comm]
      exact ih h
    · omega
    · rw [Nat.sub_add_comm (by omega)]
      exact ih h
    · exact ih h

/-! ### Groups that are cut off -/

theorem splitGroup_opener (h : g.IsCode opener) : splitGroup opener closer depth (g :: gs) =
    (splitGroup opener closer (depth + 1) gs).map fun (group, rest) => (g :: group, rest) := by
  simp [splitGroup, h.1, h.2]

theorem splitGroup_closer (hne : opener ≠ closer) (h : g.IsCode closer) : splitGroup opener closer (depth + 2) (g :: gs) =
    (splitGroup opener closer (depth + 1) gs).map fun (group, rest) => (g :: group, rest) := by
  simp [splitGroup, h.1, h.2, hne.symm]

theorem splitGroup_last (hne : opener ≠ closer) (h : g.IsCode closer) :
    splitGroup opener closer 1 (g :: gs) = some ([g], gs) := by
  simp [splitGroup, h.1, h.2, hne.symm]

theorem splitGroup_idle (h : g.IsIdle opener closer) : splitGroup opener closer depth (g :: gs) =
    (splitGroup opener closer depth gs).map fun (group, rest) => (g :: group, rest) := by
  rcases h with hc | ⟨ho, hl⟩
  · simp [splitGroup, hc]
  · simp [splitGroup, ho, hl]

theorem splitGroup_append_of_nesting (hne : opener ≠ closer) (h : nesting opener closer depth gs = some d')
    (rest : List Glyph) : splitGroup opener closer (depth + 1) (gs ++ rest) =
      (splitGroup opener closer (d' + 1) rest).map fun (group, rest) => (gs ++ group, rest) := by
  induction gs generalizing depth with
  | nil =>
    cases h
    exact (congrFun Option.map_id _).symm
  | cons g gs ih =>
    rw [cons_append]
    rcases g.cases_nesting opener closer with hg | ⟨hg, -⟩ | hg
    · rw [nesting_opener hg] at h
      rw [splitGroup_opener hg, ih h, Option.map_map]
      rfl
    · cases depth with
      | zero => simp [nesting, hg.1, hg.2, hne.symm] at h
      | succ depth =>
        rw [nesting_closer hne hg] at h
        rw [splitGroup_closer hne hg, ih h, Option.map_map]
        rfl
    · rw [nesting_idle hg] at h
      rw [splitGroup_idle hg, ih h, Option.map_map]
      rfl

/-- **Groups.** A group ends at the first bracket that closes more than was opened since. -/
theorem splitGroup_eq_some_iff (hne : opener ≠ closer) : splitGroup opener closer (depth + 1) gs = some (group, rest) ↔
    ∃ body last, group = body ++ [last] ∧ gs = group ++ rest ∧ last.IsCode closer ∧ nesting opener closer depth body = some 0 := by
  constructor
  · intro h
    induction gs generalizing depth group with
    | nil => cases h
    | cons g gs ih =>
      -- What is cut off behind `g` is cut off together with it.
      have onward {d' : Nat} (h : (splitGroup opener closer (d' + 1) gs).map
          (fun (group, rest) => (g :: group, rest)) = some (group, rest))
          (hg : ∀ body, nesting opener closer depth (g :: body) = nesting opener closer d' body) :
          ∃ body last, group = body ++ [last] ∧ g :: gs = group ++ rest ∧ last.IsCode closer ∧
            nesting opener closer depth body = some 0 := by
        obtain ⟨⟨group', rest'⟩, hp, heq⟩ := Option.map_eq_some_iff.1 h
        obtain ⟨rfl, rfl⟩ := Prod.mk.inj heq
        obtain ⟨body, last, rfl, rfl, hl, hn⟩ := ih hp
        exact ⟨g :: body, last, rfl, rfl, hl, (hg body).trans hn⟩
      rcases g.cases_nesting opener closer with hg | ⟨hg, -⟩ | hg
      · rw [splitGroup_opener hg] at h
        exact onward h fun _ => nesting_opener hg
      · cases depth with
        | zero =>
          rw [splitGroup_last hne hg] at h
          cases h
          exact ⟨[], g, rfl, rfl, hg, rfl⟩
        | succ depth =>
          rw [splitGroup_closer hne hg] at h
          exact onward h fun _ => nesting_closer hne hg
      · rw [splitGroup_idle hg] at h
        exact onward h fun _ => nesting_idle hg
  · rintro ⟨body, last, rfl, rfl, hl, hn⟩
    rw [append_assoc, splitGroup_append_of_nesting hne hn, singleton_append, splitGroup_last hne hl]
    rfl

theorem nesting_inside (hne : opener ≠ closer) (hg : g.IsCode opener) {last : Glyph}
    (h : splitGroup opener closer 0 (g :: gs) = some (g :: (body ++ [last]), rest)) :
    nesting opener closer 0 body = some 0 ∧ last.IsCode closer := by
  rw [splitGroup_opener hg] at h
  obtain ⟨⟨group', rest'⟩, hp, heq⟩ := Option.map_eq_some_iff.1 h
  obtain ⟨hr, rfl⟩ := Prod.mk.inj heq
  obtain ⟨body', last', rfl, -, hl, hn⟩ := (splitGroup_eq_some_iff hne).1 hp
  obtain ⟨rfl, hl'⟩ := append_inj' (cons.inj hr).2 rfl
  cases hl'
  exact ⟨hn, hl⟩

theorem ne_of_closer? (h : closer? opener = some closer) : opener ≠ closer := by
  rcases closer?_cases h with ⟨rfl, rfl⟩ | ⟨rfl, rfl⟩ | ⟨rfl, rfl⟩ <;> decide

theorem isLiteralStart_of_closer? (h : closer? opener = some closer) : isLiteralStart opener = false := by
  rcases closer?_cases h with ⟨rfl, -⟩ | ⟨rfl, -⟩ | ⟨rfl, -⟩ <;> rfl

namespace Source

variable {s : Source} {part post pre : List Piece}

/-- The glyphs between two offsets. -/
def glyphsBetween (s : Source) (start stop : Nat) : List Glyph :=
  s.glyphs.filter fun g => start ≤ g.offset && g.offset < stop

theorem glyphsBetween_of_stop (h : s.glyphs = front ++ (mid ++ back))
    (hm : ∀ g ∈ mid, g.offset < stop) (hb : ∀ g ∈ back, stop ≤ g.offset) : s.glyphsBetween (byteSize (glyphText front)) stop = mid := by
  rw [glyphsBetween, h, filter_append, filter_append, (filter_eq_nil_iff (l := front)).2,
    (filter_eq_self (l := mid)).2, (filter_eq_nil_iff (l := back)).2, nil_append, append_nil]
  all_goals
    intro g hg
    simp only [Bool.and_eq_true, decide_eq_true_eq]
  · have := hb g hg
    omega
  · exact ⟨le_offset_of_append h (mem_append_left back hg), hm g hg⟩
  · have := offset_lt_of_append h hg
    omega

theorem glyphsBetween_of_append (h : s.glyphs = front ++ (mid ++ back)) :
    s.glyphsBetween (byteSize (glyphText front)) (byteSize (glyphText front) + byteSize (glyphText mid)) = mid := by
  have hc : s.glyphs = (front ++ mid) ++ back := by rw [h, append_assoc]
  rw [← byteSize_append, ← glyphText_append]
  exact glyphsBetween_of_stop h (fun g hg => offset_lt_of_append hc (mem_append_right front hg))
    fun g hg => le_offset_of_append hc hg

theorem glyphsBetween_eq (h : s.pieces = pre ++ (part ++ post)) :
    s.glyphsBetween (piecesSize pre) (piecesSize pre + piecesSize part) = glyphsOf (piecesSize pre) part := by
  have hg : s.glyphs = glyphsOf 0 pre ++ (glyphsOf (piecesSize pre) part ++ glyphsOf (piecesSize pre + piecesSize part) post) := by
    rw [glyphs, h, glyphsOf_append, glyphsOf_append, Nat.zero_add]
  have hb := glyphsBetween_of_append hg
  rw [glyphText_glyphsOf, glyphText_glyphsOf] at hb
  exact hb

end Source

end Pagewright
