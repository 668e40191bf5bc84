import Mathlib.Order.Bounds.Basic
import Pagewright.Proofs.Crossings
import Pagewright.Proofs.Nesting

/-!
# Where a bracket is matched

A group that is opened outside the literals ends at the first place behind its bracket up to which
as many brackets of its kind are closed as are opened, both counted outside the literals. If there
is no such place the bracket is not matched. On the way at least one group is open all the time, so
it does not matter what would be done about a closer where none is (`splitGroupOr`). -/

namespace Pagewright

open List

variable {opener closer c : Char} {depth d' place start stop : Nat} {g : Glyph} {gs group rest front : List Glyph}

/-! ### Counting brackets -/

/-- How many of the glyphs are the character of code `c`. -/
def tally (c : Char) (gs : List Glyph) : Nat := gs.countP fun g => g.cover.isNone && g.char = c

theorem tally_append (c : Char) (gs hs : List Glyph) : tally c (gs ++ hs) = tally c gs + tally c hs := countP_append

theorem tally_cons_code (h : g.IsCode c) (gs : List Glyph) :
    tally c (g :: gs) = tally c gs + 1 := countP_cons_of_pos (by simp [h.1, h.2])

theorem tally_cons_other (h : ¬g.IsCode c) (gs : List Glyph) : tally c (g :: gs) = tally c gs := by
  refine countP_cons_of_neg fun hg => h ?_
  simpa [Glyph.IsCode] using hg

theorem tally_of_nesting (hne : opener ≠ closer) (h : nesting opener closer depth gs = some d') :
    tally closer gs + d' = tally opener gs + depth := by
  induction gs generalizing depth with
  | nil =>
    cases h
    rfl
  | cons g gs ih =>
    rcases g.cases_nesting opener closer with hg | ⟨hg, ho⟩ | hg
    · rw [nesting_opener hg] at h
      rw [tally_cons_code hg, tally_cons_other fun hg' => hne (hg.2.symm.trans hg'.2)]
      have := ih h
      omega
    · cases depth with
      | zero => simp [nesting, hg.1, hg.2, hne.symm] at h
      | succ depth =>
        rw [nesting_closer hne hg] at h
        rw [tally_cons_code hg, tally_cons_other fun hg' => ho hg'.2]
        have := ih h
        omega
    · rw [nesting_idle hg] at h
      have hi (c : Char) (hc : c = opener ∨ c = closer) : ¬g.IsCode c := by
        rintro ⟨hco, rfl⟩
        rw [Glyph.IsIdle, hco] at hg
        rcases hc with hc | hc <;> simp [hc] at hg
      rw [tally_cons_other (hi opener (.inl rfl)), tally_cons_other (hi closer (.inr rfl))]
      exact ih h

theorem tally_of_prefix (hne : opener ≠ closer) (h : nesting opener closer depth gs = some d')
    (hf : front <+: gs) : tally closer front ≤ tally opener front + depth := by
  obtain ⟨back, rfl⟩ := hf
  rw [nesting_append] at h
  obtain ⟨mid, hm, -⟩ := Option.bind_eq_some_iff.1 h
  have := tally_of_nesting hne hm
  omega

theorem exists_nesting_of_splitGroup (hne : opener ≠ closer) (h : splitGroup opener closer (depth + 1) gs = none) :
    ∃ d', nesting opener closer depth gs = some d' := by
  induction gs generalizing depth with
  | nil => exact ⟨depth, rfl⟩
  | cons g gs ih =>
    rcases g.cases_nesting opener closer with hg | ⟨hg, -⟩ | hg
    · rw [splitGroup_opener hg] at h
      rw [nesting_opener hg]
      exact ih (Option.map_eq_none_iff.1 h)
    · cases depth with
      | zero =>
        rw [splitGroup_last hne hg] at h
        cases h
      | succ depth =>
        rw [splitGroup_closer hne hg] at h
        rw [nesting_closer hne hg]
        exact ih (Option.map_eq_none_iff.1 h)
    · rw [splitGroup_idle hg] at h
      rw [nesting_idle hg]
      exact ih (Option.map_eq_none_iff.1 h)

/-! ### Closers where nothing is open -/

/-- Cuts off a group as `splitGroup` does, but gives `underflow` where a group is closed and none is
open. -/
def splitGroupOr (underflow : Option (List Glyph × List Glyph)) (opener closer : Char) :
    Nat → List Glyph → Option (List Glyph × List Glyph)
  | _, [] => none
  | depth, g :: gs =>
    let onward (depth : Nat) :=
      (splitGroupOr underflow opener closer depth gs).map fun (group, rest) => (g :: group, rest)
    if g.cover.isSome then onward depth
    else if g.char = opener then onward (depth + 1)
    else if g.char = closer then
      if depth = 0 then underflow else if depth = 1 then some ([g], gs) else onward (depth - 1)
    else onward depth

theorem splitGroupOr_of_pos (underflow : Option (List Glyph × List Glyph)) (opener closer : Char) (depth : Nat) (gs : List Glyph)
    (h : 0 < depth) : splitGroupOr underflow opener closer depth gs = splitGroup opener closer depth gs := by
  induction gs generalizing depth with
  | nil => rfl
  | cons g gs ih =>
    rw [splitGroupOr, splitGroup]
    split_ifs with hc ho hcl hz hl
    · exact congrArg (Option.map _) (ih depth h)
    · exact congrArg (Option.map _) (ih (depth + 1) (Nat.succ_pos depth))
    · exact absurd hz h.ne'
    · rfl
    · exact congrArg (Option.map _) (ih (depth - 1) (by omega))
    · exact congrArg (Option.map _) (ih depth h)

theorem splitGroupOr_opener (underflow : Option (List Glyph × List Glyph)) (h : g.IsCode opener) :
    splitGroupOr underflow opener closer 0 (g :: gs) = splitGroup opener closer 0 (g :: gs) := by
  rw [splitGroup_opener h, ← splitGroupOr_of_pos underflow _ _ _ _ (Nat.succ_pos 0), splitGroupOr, if_neg (by simp [h.1]), if_pos h.2]

namespace Source

variable {s : Source} {text : List Char}

/-! ### Counting by offsets -/

/-- How often the character stands outside the literals between two offsets. -/
def marksBetween (s : Source) (c : Char) (start stop : Nat) : Nat :=
  (s.glyphsBetween start stop).countP fun g => !s.isCovered g.offset && g.char = c

theorem marksBetween_eq (s : Source) (c : Char) (start stop : Nat) :
    s.marksBetween c start stop = tally c (s.glyphsBetween start stop) := by
  refine countP_congr fun g hg => ?_
  rw [isCovered_offset (mem_filter.1 hg).1, Option.not_isSome]

/-- The places behind the bracket at `start`, outside the literals, up to which as much is closed as
is opened. -/
def balances (s : Source) (opener closer : Char) (start : Nat) : Set Nat :=
  {place | start < place ∧ s.isCovered place = false ∧
    s.marksBetween closer start (place + 1) = s.marksBetween opener start (place + 1)}

theorem glyphsBetween_eq_takeWhile (h : s.glyphs = front ++ gs) (stop : Nat) :
    s.glyphsBetween (byteSize (glyphText front)) stop = gs.takeWhile (·.offset < stop) := by
  have hc : gs.takeWhile (·.offset < stop) ++ gs.dropWhile (·.offset < stop) = gs := takeWhile_append_dropWhile
  refine glyphsBetween_of_stop (by rw [h, hc]) (fun g hg => by simpa using mem_takeWhile_imp hg) fun g hg => ?_
  cases hb : gs.dropWhile (·.offset < stop) with
  | nil =>
    rw [hb] at hg
    cases hg
  | cons first back =>
    have hf : stop ≤ first.offset := by
      have := head?_dropWhile_not (·.offset < stop) gs
      rw [hb] at this
      simpa using this
    rw [← hc, hb, ← append_assoc] at h
    have hle := le_offset_of_append h (hb ▸ hg)
    rw [← offsetOf_of_append h] at hle
    exact hf.trans hle

/-! ### The end of a group -/

theorem mem_balances (hl : s.glyphs = front ++ g :: gs) (hg : g.IsCode opener)
    (hne : opener ≠ closer) : place ∈ s.balances opener closer g.offset ↔ g.offset < place ∧ s.isCovered place = false ∧
        tally closer (gs.takeWhile (·.offset < place + 1)) = tally opener (gs.takeWhile (·.offset < place + 1)) + 1 := by
  have ho : g.offset = byteSize (glyphText front) := offsetOf_of_append hl
  refine and_congr_right fun hlt => and_congr_right fun _ => ?_
  rw [marksBetween_eq, marksBetween_eq, ho, glyphsBetween_eq_takeWhile hl,
    takeWhile_cons_of_pos (by simpa using Nat.lt_succ_of_lt hlt), tally_cons_code hg,
    tally_cons_other fun hg' => hne (hg.2.symm.trans hg'.2)]

theorem isLeast_balances (hgl : s.glyphs = front ++ g :: gs) (hg : g.IsCode opener)
    (hp : closer? opener = some closer) (hs : splitGroup opener closer 1 gs = some (group, rest)) :
    ∃ place, s.offsetOf rest = place + 1 ∧ IsLeast (s.balances opener closer g.offset) place := by
  have hne := ne_of_closer? hp
  obtain ⟨body, last, rfl, rfl, hl, hn⟩ := (splitGroup_eq_some_iff hne).1 hs
  have hc : s.glyphs = (front ++ g :: body) ++ last :: rest := by
    rw [hgl]
    simp
  have hb : s.glyphs = (front ++ g :: (body ++ [last])) ++ rest := by
    rw [hgl]
    simp
  have he : byteSize (glyphText (front ++ g :: (body ++ [last]))) = last.offset + 1 := by
    rw [← offsetOf_of_append hb, offsetOf_tail hc, hl.2, (utf8Size_of_closer? hp).2]
  have ho : g.offset < last.offset := (offset_lt_of_append hc (by simp)).trans_eq (offsetOf_of_append hc).symm
  refine ⟨last.offset, (offsetOf_of_append hb).trans he, (mem_balances hgl hg hne).2 ⟨ho, ?_, ?_⟩, fun place hpl => ?_⟩
  · rw [isCovered_offset (by rw [hc]; simp), hl.1]
    rfl
  · have ha : (body ++ [last] ++ rest).takeWhile (·.offset < last.offset + 1) = body ++ [last] := by
      rw [takeWhile_append_of_pos, takeWhile_eq_nil_iff.2, append_nil]
      · intro hpo
        have := le_offset_of_append hb (getElem_mem hpo)
        rw [he] at this
        simpa using this
      · intro g' hg'
        have := offset_lt_of_append hb (mem_append_right front (mem_cons_of_mem g hg'))
        rw [he] at this
        simpa using this
    rw [ha, tally_append, tally_append, tally_cons_code hl, tally_cons_other fun hg' => hne (hg'.2.symm.trans hl.2)]
    have := tally_of_nesting hne hn
    change _ + (0 + 1) = _ + 0 + 1
    omega
  · by_contra hlt
    obtain ⟨-, -, hco⟩ := (mem_balances hgl hg hne).1 hpl
    have hr : (body ++ [last] ++ rest).takeWhile (·.offset < place + 1) <+: body := by
      rw [append_assoc, takeWhile_append, singleton_append, takeWhile_cons_of_neg (by simp; omega), append_nil]
      split_ifs
      · exact prefix_rfl
      · exact takeWhile_prefix _
    have := tally_of_prefix hne hn hr
    omega

theorem balances_eq_empty (hl : s.glyphs = front ++ g :: gs) (hg : g.IsCode opener)
    (hne : opener ≠ closer) (hs : splitGroup opener closer 1 gs = none) : s.balances opener closer g.offset = ∅ := by
  obtain ⟨depth, hn⟩ := exists_nesting_of_splitGroup hne hs
  refine Set.eq_empty_of_forall_notMem fun place hp => ?_
  obtain ⟨-, -, hc⟩ := (mem_balances hl hg hne).1 hp
  have hpre := takeWhile_prefix (fun g => decide (g.offset < place + 1)) (l := gs)
  have := tally_of_prefix hne hn hpre
  omega

theorem matchBracket_cases (hgl : s.glyphs = front ++ g :: gs) (hg : g.IsCode opener)
    (hf : s.glyphsFrom g.offset = g :: gs) (hp : closer? opener = some closer) :
    (∃ place, s.matchBracket g.offset = .ok (place + 1) ∧ IsLeast (s.balances opener closer g.offset) place) ∨
      s.matchBracket g.offset = .error (s.error g.offset (.unbalanced opener)) ∧ s.balances opener closer g.offset = ∅ := by
  unfold matchBracket
  rw [hf]
  simp only [if_true, hg.2, hp, splitGroup_opener hg]
  cases hs : splitGroup opener closer 1 gs with
  | none => exact .inr ⟨rfl, balances_eq_empty hgl hg (ne_of_closer? hp) hs⟩
  | some cut =>
    obtain ⟨place, hpl, hl⟩ := isLeast_balances hgl hg hp hs
    exact .inl ⟨place, congrArg Except.ok hpl, hl⟩

/-- **Matching brackets.** The match of a bracket outside the literals is the first place behind it,
outside the literals, up to which as many closers as openers of its kind stand outside the literals.
Without such a place the bracket is reported as unbalanced. What would be done about a closer where
no group is open makes no difference. -/
theorem matchBracket_first_balance {front back : List Char} (h : ofText text = .ok s) (ht : text = front ++ opener :: back)
    (hp : closer? opener = some closer) (hc : s.isCovered (byteSize front) = false) :
    (∀ stop, s.matchBracket (byteSize front) = .ok stop ↔
      ∃ place, stop = place + 1 ∧ IsLeast (s.balances opener closer (byteSize front)) place) ∧
    (∀ e, s.matchBracket (byteSize front) = .error e ↔
      s.balances opener closer (byteSize front) = ∅ ∧ e = s.error (byteSize front) (.unbalanced opener)) ∧
    ∀ underflow, splitGroupOr underflow opener closer 0 (s.glyphsFrom (byteSize front)) =
      splitGroup opener closer 0 (s.glyphsFrom (byteSize front)) := by
  obtain ⟨before, after, -, ho⟩ := beginsCode_of_uncovered h ht hc
  obtain ⟨before', hl⟩ := ho.isRest_cons.suffix
  have hg : Glyph.IsCode ⟨opener, byteSize front, none⟩ opener := ⟨rfl, rfl⟩
  have hf := ho.glyphsFrom
  refine ⟨?_, ?_, fun underflow => ?_⟩
  · intro stop
    rcases matchBracket_cases hl.symm hg hf hp with ⟨place, hm, he⟩ | ⟨hm, hy⟩
    · rw [hm]
      constructor
      · rintro ⟨⟩
        exact ⟨place, rfl, he⟩
      · rintro ⟨place', rfl, he'⟩
        rw [he.unique he']
    · rw [hm, hy]
      constructor
      · rintro ⟨⟩
      · rintro ⟨place, -, ha, -⟩
        cases ha
  · intro e
    rcases matchBracket_cases hl.symm hg hf hp with ⟨place, hm, he⟩ | ⟨hm, hy⟩
    · rw [hm]
      constructor
      · rintro ⟨⟩
      · rintro ⟨hy, -⟩
        rw [hy] at he
        cases he.1
    · rw [hm, hy]
      constructor
      · rintro ⟨⟩
        exact ⟨rfl, rfl⟩
      · rintro ⟨-, rfl⟩
        rfl
  · dsimp only at hf
    rw [hf]
    exact splitGroupOr_opener underflow hg

/-- In `{'}'}` the bracket in the string closes nothing. -/
theorem matchBracket_over_quote : ∃ s, ofText ['{', '\'', '}', '\'', '}'] = .ok s ∧ s.isCovered 0 = false ∧
    s.matchBracket 0 = .ok 5 ∧ (∃ place, 5 = place + 1 ∧ IsLeast (s.balances '{' '}' 0) place) ∧
    splitGroupOr (some ([], [])) '{' '}' 0 (s.glyphsFrom 0) = splitGroup '{' '}' 0 (s.glyphsFrom 0) := by
  have hp : Pagewright.pieces ['{', '\'', '}', '\'', '}'] =
      .ok [.code '{', .literal (.quoted '\'') ['\'', '}', '\''], .code '}'] := by decide +kernel
  have hs := ofText_of_pieces hp
  have hc := isCovered_of_code (s := ⟨_, _, pieces_chars hp⟩) (show _ = [] ++ _ from rfl)
  obtain ⟨hm, -, hl⟩ := matchBracket_first_balance hs (show _ = [] ++ _ from rfl) rfl hc
  exact ⟨_, hs, hc, rfl, (hm 5).1 rfl, hl _⟩

end Source

end Pagewright
