import Mathlib.Data.List.Forall2
import Pagewright.Proofs.Scopes

/-!
# Levels of scopes

A list of declarations keeps the level of its scope, the number of scopes below it, while scopes are
closed at any level. A step of the walk over a body puts new scopes behind those that are open, adds
names, and closes the scopes that end at its token (`Surroundings.passes_pass`), so that after a run
the scopes of before stand first, those left out that have ended (`Steps.growTo`). The level of a
list means its own scope as long as no scope up to that level has ended (`levelAfter_eq_self_iff`).
The walk comes to an end unless a list goes on where no scope is open (`overrunsTokens_iff`). -/

namespace Pagewright

open List

variable {passed rest : List ScriptToken} {sc sc' sc'' : Scope}

/-! ### Points of a walk -/

/-- A point of the walk over the tokens of a body: what is known there, the token before, and the
tokens ahead. -/
structure WalkPoint where
  known : Surroundings
  previous? : Option ScriptToken
  ahead : List ScriptToken

/-- Whether a list of declarations begins at a token. -/
def beginsList (t : ScriptToken) (rest : List ScriptToken) : Bool :=
  match t.kind with
  | .word name => (name = "let" || name = "const" || name = "var") && beginsPattern rest
  | _ => false

theorem exists_word_of_beginsList {t : ScriptToken} (h : beginsList t rest) : ∃ name, t.kind = .word name := by
  unfold beginsList at h
  split at h
  · next name hn => exact ⟨name, hn⟩
  · cases h

/-- The list of declarations that begins at a token: `var` belongs to the innermost function, `let`
and `const` to the innermost scope. -/
def Surroundings.begun? (s : Surroundings) (t : ScriptToken) (rest : List ScriptToken) : Option DeclarationList :=
  if beginsList t rest then
    some ⟨if t.kind = .word "var" then s.functionLevel else s.scopes.length - 1, s.brackets.length⟩
  else none

namespace WalkPoint

/-- At the beginning of a body. -/
def start (params : List String) (ts : List ScriptToken) : WalkPoint := ⟨.start params, none, ts⟩

/-- Behind the token `t`, `ts` being ahead then. -/
def next (ambient : Ambient) (s : Surroundings) (previous? : Option ScriptToken) (t : ScriptToken)
    (ts : List ScriptToken) : WalkPoint :=
  ⟨(s.pass ambient previous? t ts).1.close t.start, some t, ts⟩

end WalkPoint

/-- The walk leads over some tokens from one point to another. If it is quiet, no list of
declarations begins on the way. -/
inductive Steps (ambient : Ambient) (quiet : Bool) : List ScriptToken → WalkPoint → WalkPoint → Prop where
  | here (w : WalkPoint) : Steps ambient quiet [] w w
  | step {s : Surroundings} {previous? : Option ScriptToken} {t : ScriptToken} {ts passed : List ScriptToken}
      {w : WalkPoint} (hquiet : quiet = true → s.begun? t ts = none)
      (h : Steps ambient quiet passed (.next ambient s previous? t ts) w) :
      Steps ambient quiet (t :: passed) ⟨s, previous?, t :: ts⟩ w

section Runs

variable {ambient : Ambient} {quiet : Bool} {passed passed' : List ScriptToken} {w w' w'' : WalkPoint}

theorem Steps.trans (h : Steps ambient quiet passed w w')
    (h' : Steps ambient quiet passed' w' w'') : Steps ambient quiet (passed ++ passed') w w'' := by
  induction h with
  | here => exact h'
  | step hq _ ih => exact .step hq (ih h')

theorem Steps.loosen (h : Steps ambient true passed w w') : Steps ambient false passed w w' := by
  induction h with
  | here => exact .here _
  | step _ _ ih => exact .step nofun ih

theorem Steps.ahead_eq (h : Steps ambient quiet passed w w') : w.ahead = passed ++ w'.ahead := by
  induction h with
  | here => rfl
  | step _ _ ih => rw [cons_append, ← ih]; rfl

end Runs

/-! ### What a step does -/

/-- The second scope is the first one with more names. -/
structure Scope.Grown (sc sc' : Scope) : Prop where
  isFunction_eq : sc'.isFunction = sc.isFunction
  last_eq : sc'.last? = sc.last?
  names : sc.names <:+ sc'.names

theorem Scope.Grown.refl (sc : Scope) : sc.Grown sc := ⟨rfl, rfl, suffix_rfl⟩

theorem Scope.Grown.trans (h : sc.Grown sc') (h' : sc'.Grown sc'') : sc.Grown sc'' :=
  ⟨h'.isFunction_eq.trans h.isFunction_eq, h'.last_eq.trans h.last_eq, h.names.trans h'.names⟩

/-- The scopes stand first among others, each with more names. -/
inductive GrowTo : List Scope → List Scope → Prop where
  | newer (scopes : List Scope) : GrowTo [] scopes
  | cons {sc sc' : Scope} {scopes scopes' : List Scope} (hsc : sc.Grown sc') (h : GrowTo scopes scopes') :
      GrowTo (sc :: scopes) (sc' :: scopes')

namespace GrowTo

variable {scopes scopes' scopes'' : List Scope}

theorem append : ∀ scopes newer : List Scope, GrowTo scopes (scopes ++ newer)
  | [], scopes => .newer scopes
  | sc :: scopes, others => .cons (.refl sc) (append scopes others)

theorem refl (scopes : List Scope) : GrowTo scopes scopes := by
  have ha := append scopes []
  rwa [append_nil] at ha

theorem trans (h : GrowTo scopes scopes') (h' : GrowTo scopes' scopes'') : GrowTo scopes scopes'' := by
  induction h generalizing scopes'' with
  | newer => exact .newer scopes''
  | cons hs _ ih =>
    cases h' with
    | cons hs' h' => exact .cons (hs.trans hs') (ih h')

theorem modify (scopes : List Scope) (level : Nat) (names : List String) :
    GrowTo scopes (scopes.modify level fun sc => { sc with names := names ++ sc.names }) := by
  induction scopes generalizing level with
  | nil => exact .newer _
  | cons sc scopes ih =>
    cases level with
    | zero => exact .cons ⟨rfl, rfl, suffix_append _ _⟩ (refl scopes)
    | succ level => exact .cons (.refl sc) (ih level)

theorem filter {p : Option Nat → Bool} (h : GrowTo scopes scopes') :
    GrowTo (scopes.filter (p ·.last?)) (scopes'.filter (p ·.last?)) := by
  induction h with
  | newer => exact .newer _
  | cons hs _ ih =>
    rw [filter_cons, filter_cons, hs.last_eq]
    split_ifs
    · exact .cons hs ih
    · exact ih

/-- A scope is found where it was. -/
theorem exists_of_getElem? (h : GrowTo scopes scopes') {k : Nat} (hk : scopes[k]? = some sc) :
    ∃ sc', scopes'[k]? = some sc' ∧ sc.Grown sc' := by
  induction h generalizing k with
  | newer => cases hk
  | cons hs _ ih =>
    cases k with
    | zero =>
      cases hk
      exact ⟨_, rfl, hs⟩
    | succ k => exact ih hk

end GrowTo

namespace Surroundings

variable {s' s'' : Surroundings}

/-- Scopes are opened and names declared; brackets and lists of declarations stay as they are. -/
structure Enters (s s' : Surroundings) : Prop where
  scopes : GrowTo s.scopes s'.scopes
  brackets_eq : s'.brackets = s.brackets
  declarations_eq : s'.declarations? = s.declarations?

theorem Enters.trans {s : Surroundings} (h : s.Enters s') (h' : s'.Enters s'') : s.Enters s'' :=
  ⟨h.scopes.trans h'.scopes, h'.brackets_eq.trans h.brackets_eq, h'.declarations_eq.trans h.declarations_eq⟩

variable (s : Surroundings) (ambient : Ambient) (previous? : Option ScriptToken) (t : ScriptToken)
  (ts : List ScriptToken)

theorem enters_self : s.Enters s := ⟨.refl _, rfl, rfl⟩

theorem enters_declare (level : Nat) (bound : List Binding) :
    s.Enters (s.declare level bound) := ⟨.modify s.scopes level _, rfl, rfl⟩

theorem enters_push (isFunction : Bool) (last : Nat) : s.Enters (s.push isFunction last) := ⟨.append s.scopes _, rfl, rfl⟩

theorem enters_enterFunction (isFunction : Bool) : s.Enters (s.enterFunction isFunction ts) := by
  unfold enterFunction
  split
  · exact s.enters_self
  · split
    · exact s.enters_self
    · exact (s.enters_push _ _).trans (enters_declare _ _ _)

/-- The tokens behind the star of a generator. -/
def skipStar : List ScriptToken → List ScriptToken
  | ⟨.other '*', _, _, _⟩ :: ts => ts
  | ts => ts

/-- Enters the function whose name or parameters come next. -/
def enterNamed (s : Surroundings) (ts : List ScriptToken) : Surroundings :=
  let (s, ts) := match ts with
    | ⟨.word name, start, _, _⟩ :: ts => (s.declare s.functionLevel [⟨start, some name⟩], ts)
    | ts => (s, ts)
  if beginsGroup ts then s.enterFunction true ts.tail else s

theorem enterNamedFunction_eq (ts : List ScriptToken) : s.enterNamedFunction ts = s.enterNamed (skipStar ts) := rfl

theorem enters_enterNamedFunction : s.Enters (s.enterNamedFunction ts) := by
  have hg (s : Surroundings) (ts : List ScriptToken) :
      s.Enters (if beginsGroup ts then s.enterFunction true ts.tail else s) := by
    split_ifs
    · exact s.enters_enterFunction ts.tail true
    · exact s.enters_self
  rw [enterNamedFunction_eq]
  unfold enterNamed
  dsimp only
  split
  · exact (s.enters_declare _ _).trans (hg _ _)
  · exact hg s _

theorem enters_enterLoop : s.Enters (s.enterLoop ts) := by
  unfold enterLoop
  split
  · exact s.enters_self
  · split
    · exact s.enters_self
    · exact s.enters_push _ _

theorem enters_enterArrow (start : Nat) (name : String) : s.Enters (s.enterArrow start name ts) := by
  unfold enterArrow
  split
  · exact s.enters_self
  · split
    · exact s.enters_self
    · exact (s.enters_push _ _).trans (enters_declare _ _ _)

theorem enters_passWord (name : String) (h : ((name = "let" || name = "const" || name = "var") && beginsPattern ts) = false) :
    s.Enters (s.passWord ambient previous? t name ts).1 := by
  unfold passWord
  rw [if_neg (by rw [h]; exact Bool.false_ne_true)]
  split_ifs
  · exact s.enters_enterNamedFunction ts
  · exact s.enters_enterFunction ts.tail false
  · exact s.enters_enterLoop ts.tail
  · exact s.enters_self
  · exact s.enters_enterArrow ts t.start name
  · exact s.enters_enterFunction ts.tail true
  · exact s.enters_self

/-- The open brackets behind a token. Every closer takes one off. -/
def bracketsAfter (opened : List Bracket) : ScriptKind → List Bracket
  | .opener b => b :: opened
  | .closer _ => opened.tail
  | _ => opened

/-- Whether a list of declarations, with `depth` brackets around it, may go on behind a token: a
closer of one around it ends it, and so does a semicolon beside it. -/
def staysBehind (depth : Nat) (opened : List Bracket) : ScriptKind → Bool
  | .closer _ => depth ≤ opened.tail.length
  | .semicolon => depth ≠ opened.length
  | _ => true

theorem filter_of_staysBehind {list? : Option DeclarationList} {opened : List Bracket} {kind : ScriptKind}
    (h : ∀ d, staysBehind d opened kind) : list?.filter (staysBehind ·.depth opened kind) = list? := by
  cases list? with
  | none => rfl
  | some list => rw [Option.filter_some, h, if_pos rfl]

/-- What is known behind a token. -/
structure Passes (s s' : Surroundings) (t : ScriptToken) (ts : List ScriptToken) : Prop where
  scopes : GrowTo s.scopes s'.scopes
  brackets_eq : s'.brackets = bracketsAfter s.brackets t.kind
  declarations_eq :
    s'.declarations? = (s.begun? t ts).or (s.declarations?.filter (staysBehind ·.depth s.brackets t.kind))

theorem passes_passMark (h : ∀ name, t.kind ≠ .word name) : s.Passes (s.passMark t ts) t ts := by
  have hb : s.begun? t ts = none := by
    refine if_neg fun hbe => ?_
    obtain ⟨name, hn⟩ := exists_word_of_beginsList hbe
    exact h name hn
  have he {s' : Surroundings} {b : Bracket} (hk : t.kind = .opener b) (h : s.Enters s') :
      s.Passes { s' with brackets := b :: s'.brackets } t ts := by
    refine ⟨h.scopes, ?_, ?_⟩
    · rw [hk, bracketsAfter, h.brackets_eq]
    · rw [hb, h.declarations_eq, hk, filter_of_staysBehind fun _ => rfl]
      rfl
  unfold passMark
  split
  · next hk =>
    split_ifs
    · exact he hk (s.enters_enterFunction ts true)
    · exact he hk s.enters_self
  · next hk => exact he hk s.enters_self
  · next hk =>
    split
    · exact he hk (s.enters_push _ _)
    · exact he hk s.enters_self
  · next hk => exact ⟨.refl _, by rw [hk]; rfl, by rw [hb, hk]; rfl⟩
  · next hk =>
    split
    · refine ⟨.modify s.scopes _ _, by rw [hk]; rfl, ?_⟩
      rw [hb, hk, filter_of_staysBehind fun _ => rfl]
      rfl
    · refine ⟨.refl _, by rw [hk]; rfl, ?_⟩
      rw [hb, hk, filter_of_staysBehind fun _ => rfl]
      rfl
  · next hk => exact ⟨.refl _, by rw [hk]; rfl, by rw [hb, hk]; rfl⟩
  · next hr hs hc hl ho hse =>
    have ha : bracketsAfter s.brackets t.kind = s.brackets ∧ ∀ d, staysBehind d s.brackets t.kind := by
      cases hk : t.kind with
      | opener b =>
        cases b with
        | round => exact (hr hk).elim
        | square => exact (hs hk).elim
        | curly => exact (hc hk).elim
      | closer b => exact (hl b hk).elim
      | semicolon => exact (hse hk).elim
      | _ => exact ⟨rfl, fun _ => rfl⟩
    exact ⟨.refl _, ha.1.symm, by rw [hb, filter_of_staysBehind ha.2]; rfl⟩

/-- **Steps.** A step leaves the open scopes where they are; brackets and lists of declarations
depend on the token alone. -/
theorem passes_pass : s.Passes (s.pass ambient previous? t ts).1 t ts := by
  unfold pass
  split
  · next name hn =>
    have hw : beginsList t ts = ((name = "let" || name = "const" || name = "var") && beginsPattern ts) := by
      rw [beginsList, hn]
    cases hb : beginsList t ts with
    | false =>
      have he := s.enters_passWord ambient previous? t ts name (hw ▸ hb)
      have hbe : s.begun? t ts = none := if_neg (by simp [hb])
      exact ⟨he.scopes, by rw [he.brackets_eq, hn]; rfl, by rw [he.declarations_eq, hbe, hn, filter_of_staysBehind fun _ => rfl]; rfl⟩
    | true =>
      have hp : s.passWord ambient previous? t name ts = (s.enterDeclaration name ts, t.text) := if_pos (hw ▸ hb)
      rw [hp]
      refine ⟨.modify s.scopes _ _, by rw [hn]; rfl, ?_⟩
      rw [begun?, if_pos hb, hn]
      simp [enterDeclaration, declare]
  · next hn => exact s.passes_passMark t ts hn

end Surroundings

/-! ### Scopes along a run -/

/-- The scope has not ended at one of the tokens. -/
def Scope.isOpenAfter (passed : List ScriptToken) (sc : Scope) : Bool := passed.all fun t => sc.last? ≠ some t.start

theorem Scope.isOpenAfter_iff : sc.isOpenAfter passed ↔ ∀ t ∈ passed, sc.last? ≠ some t.start := by
  simp [isOpenAfter]

/-- After a run the scopes of before stand first, those left out that have ended. -/
theorem Steps.growTo {ambient : Ambient} {quiet : Bool} {w w' : WalkPoint}
    (h : Steps ambient quiet passed w w') : GrowTo (w.known.scopes.filter (·.isOpenAfter passed)) w'.known.scopes := by
  induction h with
  | here w =>
    have ha : w.known.scopes.filter (·.isOpenAfter []) = w.known.scopes := filter_eq_self.2 fun _ _ => rfl
    rw [ha]
    exact .refl _
  | @step s previous? t ts passed w _ _ ih =>
    have hs := (s.passes_pass ambient previous? t ts).scopes.filter (p := fun last? => last? ≠ some t.start)
    have hr := hs.filter (p := fun last? => passed.all fun u => last? ≠ some u.start)
    have hf : (s.scopes.filter fun sc => sc.last? ≠ some t.start).filter
        (fun sc => passed.all fun u => sc.last? ≠ some u.start) = s.scopes.filter (·.isOpenAfter (t :: passed)) := by
      simp [Scope.isOpenAfter, Bool.and_comm]
    rw [hf] at hr
    exact hr.trans ih

/-- Where a scope is found when those that end at some tokens are closed: nowhere if it is one of
them, else at the number of those below it that are left. -/
def levelAfter (scopes : List Scope) (passed : List ScriptToken) (level : Nat) : Option Nat :=
  if scopes[level]?.any (·.isOpenAfter passed) then some ((scopes.take level).countP (·.isOpenAfter passed)) else none

section Levels

variable {scopes scopes' : List Scope} {passed : List ScriptToken} {level k level' : Nat}

theorem getElem?_filter_countP {α : Type} {p : α → Bool} {xs : List α} {x : α}
    (hk : xs[k]? = some x) (hx : p x) : (xs.filter p)[(xs.take k).countP p]? = some x := by
  obtain ⟨hlt, rfl⟩ := List.getElem?_eq_some_iff.1 hk
  have hs : xs = xs.take k ++ xs[k] :: xs.drop (k + 1) := by rw [getElem_cons_drop, take_append_drop]
  rw [countP_eq_length_filter]
  nth_rewrite 1 [hs]
  rw [filter_append, filter_cons_of_pos hx, getElem?_append_right (Nat.le_refl _), Nat.sub_self]
  rfl

theorem exists_of_levelAfter (h : GrowTo (scopes.filter (·.isOpenAfter passed)) scopes')
    (hl : levelAfter scopes passed level = some level') :
    ∃ sc sc', scopes[level]? = some sc ∧ scopes'[level']? = some sc' ∧ sc.Grown sc' := by
  unfold levelAfter at hl
  split_ifs at hl with ho
  cases hl
  cases hs : scopes[level]? with
  | none => simp [hs] at ho
  | some sc =>
    rw [hs] at ho
    obtain ⟨sc', hs', hg⟩ := h.exists_of_getElem? (getElem?_filter_countP hs ho)
    exact ⟨sc, sc', rfl, hs', hg⟩

theorem levelAfter_eq_self_iff (h : level < scopes.length) :
    levelAfter scopes passed level = some level ↔
      ∀ sc ∈ scopes.take (level + 1), sc.isOpenAfter passed := by
  have hc : (scopes.take level).countP (·.isOpenAfter passed) = level ↔ ∀ sc ∈ scopes.take level, sc.isOpenAfter passed := by
    have hl : (scopes.take level).length = level := length_take_of_le (Nat.le_of_lt h)
    rw [← countP_eq_length, hl]
  rw [levelAfter, take_succ_eq_append_getElem h, forall_mem_append, forall_mem_singleton, getElem?_eq_getElem h]
  split_ifs with ho
  · rw [Option.some_inj]
    tauto
  · tauto

end Levels

/-! ### Lists of declarations along a run -/

section Lists

variable {ambient : Ambient} {passed ts : List ScriptToken} {w w' : WalkPoint} {list : DeclarationList}

theorem Steps.declarations_eq (h : Steps ambient true passed w w')
    (hl : w'.known.declarations? = some list) : w.known.declarations? = some list := by
  induction h with
  | here => exact hl
  | @step s previous? t ts passed w hq _ ih =>
    have hs := (s.passes_pass ambient previous? t ts).declarations_eq
    rw [hq rfl] at hs
    exact (Option.filter_eq_some_iff.1 (hs.symm.trans (ih hl))).1

/-- A list of declarations begins at `w` and is still there at `w'`, no other having begun. The
tokens passed are the one at which it begins, and others. -/
structure ListGoesOn (ambient : Ambient) (list : DeclarationList) (passed : List ScriptToken) (w w' : WalkPoint) :
    Prop where
  begins : ∃ t ts passed', w.ahead = t :: ts ∧ passed = t :: passed' ∧ w.known.begun? t ts = some list ∧
    Steps ambient true passed' (.next ambient w.known w.previous? t ts) w'
  remains : w'.known.declarations? = some list

theorem ListGoesOn.steps (h : ListGoesOn ambient list passed w w') : Steps ambient false passed w w' := by
  obtain ⟨s, previous?, ahead⟩ := w
  obtain ⟨t, ts, passed', rfl, rfl, -, hq⟩ := h.begins
  exact .step nofun hq.loosen

theorem Steps.exists_begun (h : Steps ambient false passed w w') (hl : w'.known.declarations? = some list) :
    Steps ambient true passed w w' ∨ ∃ pre between w₀, passed = pre ++ between ∧ Steps ambient false pre w w₀ ∧
      ListGoesOn ambient list between w₀ w' := by
  induction h with
  | here w => exact .inl (.here w)
  | @step s previous? t ts passed w _ h ih =>
    rcases ih hl with hq | ⟨pre, between, w₀, rfl, hb, hg⟩
    · cases he : s.begun? t ts with
      | none => exact .inl (.step (fun _ => he) hq)
      | some list' =>
        have hs := (s.passes_pass ambient previous? t ts).declarations_eq
        rw [he] at hs
        have ha : some list' = some list := hs.symm.trans (hq.declarations_eq hl)
        refine .inr ⟨[], t :: passed, ⟨s, previous?, t :: ts⟩, rfl, .here _, ⟨t, ts, passed, rfl, rfl, ?_, hq⟩, hl⟩
        rw [he, ha]
    · exact .inr ⟨t :: pre, between, w₀, rfl, .step nofun hb, hg⟩

theorem exists_begun_of_start {params : List String}
    (h : Steps ambient false passed (.start params ts) w) (hl : w.known.declarations? = some list) :
    ∃ pre between w₀, passed = pre ++ between ∧ Steps ambient false pre (.start params ts) w₀ ∧ ListGoesOn ambient list between w₀ w := by
  rcases h.exists_begun hl with hq | hb
  · cases hq.declarations_eq hl
  · exact hb

theorem overrunsTokens_iff : overrunsTokens ambient w.known w.previous? w.ahead ↔
    ∃ passed w' t ts, Steps ambient false passed w w' ∧ w'.ahead = t :: ts ∧ w'.known.overruns t ts := by
  obtain ⟨s, previous?, ahead⟩ := w
  induction ahead generalizing s previous? with
  | nil =>
    refine ⟨nofun, ?_⟩
    rintro ⟨passed, w', t, ts, hs, ha, -⟩
    have hn := hs.ahead_eq
    rw [ha] at hn
    simp at hn
  | cons t ts ih =>
    rw [overrunsTokens, Bool.or_eq_true]
    constructor
    · rintro (hh | hl)
      · exact ⟨[], _, t, ts, .here _, rfl, hh⟩
      · obtain ⟨passed, w', u, us, hs, ha, ho⟩ := (ih _ _).1 hl
        exact ⟨t :: passed, w', u, us, .step nofun hs, ha, ho⟩
    · rintro ⟨passed, w', u, us, hs, ha, ho⟩
      cases hs with
      | here =>
        cases ha
        exact .inl ho
      | step _ hs => exact .inr ((ih _ _).2 ⟨_, w', u, us, hs, ha, ho⟩)

end Lists

end Pagewright
