import Pagewright.Proofs.Checked
import Pagewright.Proofs.ScopeLevels

/-!
# Scopes of lists of declarations

A list of declarations declares all its names in the scope in which it began, as long as its level
means that scope (`GoesOnAt`, `qualify_list_scopes`). A body is refused exactly if a list goes on
where no scope is open at its level. Two lines without a semicolon are enough for that
(`qualify_scope_lost`): the expression of an arrow function goes on at the next line, and ends at
the first comma of the list that begins there. -/

namespace Pagewright

open Surroundings

variable {params : List String} {ts passed pre rest : List ScriptToken} {amb : Ambient} {w : WalkPoint}

/-! ### Lists of a body -/

/-- In the walk over a body a list of declarations begins at `w` and goes on at the comma `c`, which
comes next at `w'`, behind the tokens passed. -/
structure GoesOnAt (ambient : Ambient) (params : List String) (ts : List ScriptToken) (list : DeclarationList)
    (passed : List ScriptToken) (w w' : WalkPoint) (c : ScriptToken) (rest : List ScriptToken) : Prop where
  reached : ∃ before, Steps ambient false before (.start params ts) w
  goesOn : ListGoesOn ambient list passed w w'
  ahead_eq : w'.ahead = c :: rest
  continued : w'.known.continued? c = some list

theorem scopes_ne_nil_of_start (h : Steps amb false passed (.start params ts) w) : w.known.scopes ≠ [] := by
  have ho : Scope.isOpenAfter passed ⟨true, params, none⟩ := Scope.isOpenAfter_iff.2 fun _ _ => nofun
  have hg := h.growTo
  have hs : (WalkPoint.start params ts).known.scopes.filter (·.isOpenAfter passed) = [⟨true, params, none⟩] :=
    List.filter_eq_self.2 fun sc hc => by rw [List.mem_singleton.1 hc, ho]
  rw [hs] at hg
  intro hn
  rw [hn] at hg
  cases hg

theorem level_lt_of_begun {t : ScriptToken} {list : DeclarationList} (hb : Steps amb false pre (.start params ts) w)
    (he : w.known.begun? t rest = some list) : list.level < w.known.scopes.length := by
  have hp := List.length_pos_of_ne_nil (scopes_ne_nil_of_start hb)
  unfold begun? functionLevel at he
  split_ifs at he
  all_goals
    cases he
    dsimp only
    omega

theorem overrunsTokens_start_iff : overrunsTokens amb (.start params) none ts ↔ ∃ list passed w w' c rest,
      GoesOnAt amb params ts list passed w w' c rest ∧ w'.known.scopes.length ≤ list.level ∧ (bindings rest).any (·.name?.isSome) := by
  refine (overrunsTokens_iff (w := .start params ts)).trans ?_
  constructor
  · rintro ⟨passed, w', c, rest, hs, ha, ho⟩
    obtain ⟨list, hc, hl⟩ := (Option.any_eq_true _ _).1 ho
    rw [Bool.and_eq_true, decide_eq_true_eq] at hl
    have hi : w'.known.declarations? = some list := by
      unfold continued? at hc
      split at hc
      · exact (Option.filter_eq_some_iff.1 hc).1
      · cases hc
    obtain ⟨pre, between, w, -, hb, hg⟩ := exists_begun_of_start hs hi
    exact ⟨list, between, w, w', c, rest, ⟨⟨pre, hb⟩, hg, ha, hc⟩, hl⟩
  · rintro ⟨list, passed, w, w', c, rest, ⟨⟨pre, hb⟩, hg, ha, hc⟩, hl, hn⟩
    refine ⟨pre ++ passed, w', c, rest, hb.trans hg.steps, ha, ?_⟩
    rw [overruns, hc, Option.any_some, Bool.and_eq_true]
    exact ⟨decide_eq_true hl, hn⟩

/-- **Scopes of lists.** Wherever a list of declarations goes on, the scopes that were open where it
began stand first, those left out that have ended since. So its own scope is found at the number of
scopes below it that are left, if it has not ended itself, and that is its level exactly if no scope
up to it has ended. A body is refused exactly if a list goes on with names where no scope is open at
its level, and else it is written. -/
theorem qualify_list_scopes {body : List Char} {s : Source} (hs : Source.ofText body = .ok s)
    (ambient : Ambient) (params : List String) :
    (∀ list passed w w' c rest, GoesOnAt ambient params s.scriptTokens.1 list passed w w' c rest →
      list.level < w.known.scopes.length ∧
      GrowTo (w.known.scopes.filter (·.isOpenAfter passed)) w'.known.scopes ∧
      (∀ level', levelAfter w.known.scopes passed list.level = some level' → ∃ sc sc',
        w.known.scopes[list.level]? = some sc ∧ w'.known.scopes[level']? = some sc' ∧ sc.Grown sc') ∧
      (levelAfter w.known.scopes passed list.level = some list.level ↔
        ∀ sc ∈ w.known.scopes.take (list.level + 1), sc.isOpenAfter passed = true)) ∧
    (ambient.isEmpty = false → (qualify ambient params body = .error .closedScope ↔ ∃ list passed w w' c rest,
      GoesOnAt ambient params s.scriptTokens.1 list passed w w' c rest ∧ w'.known.scopes.length ≤ list.level ∧
        (bindings rest).any (·.name?.isSome) = true)) ∧
    (qualify ambient params body ≠ .error .closedScope → ∃ out, qualify ambient params body = .ok out) := by
  have hrefused (hambient : ambient.isEmpty = false) : qualify ambient params body = .error .closedScope ↔
      overrunsTokens ambient (.start params) none s.scriptTokens.1 = true := by
    rw [qualify_of_source hambient hs]
    split_ifs with hoverruns
    · simp [hoverruns]
    · simp [hoverruns]
  refine ⟨fun list passed w w' c rest h => ?_, fun hambient => ?_, fun hnot => ?_⟩
  · have hgrow := h.goesOn.steps.growTo
    obtain ⟨⟨before, hbefore⟩, ⟨⟨t, us, _, -, -, hbegun, -⟩, -⟩, -, -⟩ := h
    have hlevel := level_lt_of_begun hbefore hbegun
    exact ⟨hlevel, hgrow, fun _ hafter => exists_of_levelAfter hgrow hafter, levelAfter_eq_self_iff hlevel⟩
  · exact (hrefused hambient).trans overrunsTokens_start_iff
  · cases hambient : ambient.isEmpty with
    | true =>
      refine ⟨body, ?_⟩
      rw [qualify, hambient]
      rfl
    | false =>
      rw [Ne, hrefused hambient] at hnot
      exact ⟨_, (qualify_of_source hambient hs).trans (if_neg hnot)⟩

/-- The ambient names of an instance with a public member `c`. -/
def ambientC : Ambient := Ambient.empty.putAll .direct ["c"]

/-- An arrow function and a list of declarations. -/
def arrowThenList : List Char := "const f = x => x; let a = 1, c = 2; c;".toList

/-- The semicolon ends the expression, and the list declares both its names where it began. -/
theorem qualify_list_scopes_arrowThenList :
    ∃ s out, Source.ofText arrowThenList = .ok s ∧ qualify ambientC [] arrowThenList = .ok out ∧ out = arrowThenList ∧
      ∀ list passed w w' c rest, GoesOnAt ambientC [] s.scriptTokens.1 list passed w w' c rest →
        list.level < w.known.scopes.length := by
  obtain ⟨s, hs⟩ : ∃ s, Source.ofText arrowThenList = .ok s := by
    decide +kernel
  have hsame : qualify ambientC [] arrowThenList = .ok arrowThenList := by
    decide +kernel
  obtain ⟨hlists, -⟩ := qualify_list_scopes hs ambientC []
  exact ⟨s, _, hs, hsame, rfl, fun list passed w w' c rest h => (hlists list passed w w' c rest h).1⟩

/-- The same without a semicolon. -/
def arrowThenLine : List Char := "const f = x => x\nlet a = 1, c = 2".toList

/-- A list in the body of a loop that is the expression of an arrow function. -/
def listInArrow : List Char := "a => for(;;) let b, 1 \x7b), c\x7d c;".toList

/-- In the first body the list that begins in the second line goes on when its scope has been
closed, and the body is refused. In the second one it goes on in a block at the level of its scope:
`c` is declared there, and the reference behind the block is written in full although the loop, in
which the list began, has not ended. -/
theorem qualify_scope_lost :
    (∃ s list passed w w' c rest, Source.ofText arrowThenLine = .ok s ∧
      GoesOnAt ambientC [] s.scriptTokens.1 list passed w w' c rest ∧ w'.known.scopes.length ≤ list.level ∧
      qualify ambientC [] arrowThenLine = .error .closedScope) ∧
    ∃ s, Source.ofText listInArrow = .ok s ∧
      qualify ambientC [] listInArrow = .ok "a => for(;;) let b, 1 \x7b), c\x7d __self.c;".toList := by
  have hline : ∃ s, Source.ofText arrowThenLine = .ok s ∧
      overrunsTokens ambientC (.start []) none s.scriptTokens.1 = true := by
    decide +kernel
  obtain ⟨s', hs'⟩ : ∃ s, Source.ofText listInArrow = .ok s := by
    decide +kernel
  have hout : qualify ambientC [] listInArrow = .ok "a => for(;;) let b, 1 \x7b), c\x7d __self.c;".toList := by
    decide +kernel
  obtain ⟨s, hs, hoverruns⟩ := hline
  constructor
  · obtain ⟨list, passed, w, w', c, rest, hgoes, hlevel, -⟩ := overrunsTokens_start_iff.1 hoverruns
    exact ⟨s, list, passed, w, w', c, rest, hs, hgoes, hlevel,
      (qualify_of_source (by decide) hs).trans (if_pos hoverruns)⟩
  · exact ⟨s', hs', hout⟩

end Pagewright
