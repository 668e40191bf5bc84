import Pagewright.Proofs.ListScopes
import Pagewright.Proofs.WrittenWords

/-!
# Declarators

A list of declarations goes on at the commas between as many brackets as the list itself (`Beside`).
The walk keeps one list only, so the list is forgotten where another begins inside a value
(`Beside.declarations_cases`). Every declarator up to there declares the names that are read from it
(`qualify_declarators`); those behind it declare nothing, and their names are written in full
(`qualify_declarator_lost`). -/

namespace Pagewright

open List Surroundings

variable {s : Surroundings} {prev? : Option ScriptToken}

/-- The walk leads from one point of a list, with `depth` brackets around it, to another: no token
ends the list, and any other list that begins stands inside further brackets. -/
inductive Beside (ambient : Ambient) (depth : Nat) : List ScriptToken → WalkPoint → WalkPoint → Prop where
  | here (w : WalkPoint) : Beside ambient depth [] w w
  | step {s : Surroundings} {previous? : Option ScriptToken} {t : ScriptToken} {ts passed : List ScriptToken}
      {w : WalkPoint} (hstays : staysBehind depth s.brackets t.kind = true)
      (hinside : beginsList t ts = true → depth < s.brackets.length)
      (h : Beside ambient depth passed (.next ambient s previous? t ts) w) :
      Beside ambient depth (t :: passed) ⟨s, previous?, t :: ts⟩ w

section Lists

variable {ambient : Ambient} {depth : Nat} {passed ts : List ScriptToken} {w w' : WalkPoint} {list : DeclarationList}
  {t : ScriptToken}

theorem Beside.steps (h : Beside ambient depth passed w w') : Steps ambient false passed w w' := by
  induction h with
  | here w => exact .here w
  | step _ _ _ ih => exact .step nofun ih

/-- The list that is kept at a point, if any, stands inside further brackets. -/
def WalkPoint.KeepsInner (depth : Nat) (w : WalkPoint) : Prop :=
  ∀ list, w.known.declarations? = some list → depth < list.depth ∧ list.depth ≤ w.known.brackets.length

theorem keepsInner_next (hi : beginsList t ts → depth < s.brackets.length)
    (h : beginsList t ts ∨ WalkPoint.KeepsInner depth ⟨s, prev?, t :: ts⟩) : WalkPoint.KeepsInner depth (.next ambient s prev? t ts) := by
  have hp := s.passes_pass ambient prev? t ts
  intro list hl
  rw [show (WalkPoint.next ambient s prev? t ts).known.brackets = _ from hp.brackets_eq]
  rw [show (WalkPoint.next ambient s prev? t ts).known.declarations? = _ from hp.declarations_eq] at hl
  cases hb : beginsList t ts with
  | true =>
    obtain ⟨name, hn⟩ := exists_word_of_beginsList hb
    rw [begun?, if_pos hb] at hl
    cases hl
    rw [hn]
    exact ⟨hi hb, Nat.le_refl _⟩
  | false =>
    rw [begun?, if_neg (by simp [hb])] at hl
    obtain ⟨hk, hs⟩ := Option.filter_eq_some_iff.1 hl
    obtain ⟨hlt, hle⟩ := h.resolve_left (by simp [hb]) list hk
    refine ⟨hlt, ?_⟩
    cases hki : t.kind with
    | opener b => exact Nat.le_succ_of_le hle
    | closer b =>
      rw [hki] at hs
      exact of_decide_eq_true hs
    | _ => exact hle

theorem declarations_next_of_begun (h : s.begun? t ts = some list) (ambient : Ambient) (prev? : Option ScriptToken) :
    (WalkPoint.next ambient s prev? t ts).known.declarations? = some list := by
  refine (s.passes_pass ambient prev? t ts).declarations_eq.trans ?_
  rw [h, Option.some_or]

theorem Beside.keepsInner (h : Beside ambient depth passed w w') (hi : w.KeepsInner depth) : w'.KeepsInner depth := by
  induction h with
  | here => exact hi
  | step _ hn _ ih => exact ih (keepsInner_next hn (.inr hi))

/-- **One list at a time.** A list is kept as long as no other one has begun; then only inner ones
are. -/
theorem Beside.declarations_cases (h : Beside ambient depth passed w w') (hl : w.known.declarations? = some list)
    (hd : list.depth = depth) : (Steps ambient true passed w w' ∧ w'.known.declarations? = some list) ∨
      (¬Steps ambient true passed w w' ∧ w'.KeepsInner depth) := by
  induction h with
  | here w => exact .inl ⟨.here w, hl⟩
  | @step s prev? t ts passed w hs hi hr ih =>
    cases hb : beginsList t ts with
    | true =>
      refine .inr ⟨fun hq => ?_, hr.keepsInner (keepsInner_next hi (.inl hb))⟩
      cases hq with
      | step hq _ => simp [begun?, hb] at hq
    | false =>
      have he : s.begun? t ts = none := if_neg (by simp [hb])
      have hn : (WalkPoint.next ambient s prev? t ts).known.declarations? = some list := by
        refine (s.passes_pass ambient prev? t ts).declarations_eq.trans ?_
        rw [he, show s.declarations? = some list from hl, Option.none_or, Option.filter_some, hd, if_pos hs]
      refine (ih hn).imp (fun h => ⟨.step (fun _ => he) h.1, h.2⟩) fun h => ⟨fun hq => ?_, h.2⟩
      cases hq with
      | step _ hq => exact h.1 hq

end Lists

/-! ### Names that a list declares -/

/-- The names that some bindings declare. -/
def boundNames (bound : List Binding) : List String := bound.filterMap Binding.name?

section Scopes

variable {ambient : Ambient} {t : ScriptToken} {ts passed : List ScriptToken} {list : DeclarationList}
  {w w' : WalkPoint} {sc : Scope}

theorem Surroundings.exists_scope_declare {level : Nat} (hs : s.scopes[level]? = some sc) (bound : List Binding) :
    ∃ sc', (s.declare level bound).scopes[level]? = some sc' ∧ sc'.last? = sc.last? ∧ boundNames bound ⊆ sc'.names := by
  refine ⟨{ sc with names := boundNames bound ++ sc.names }, ?_, rfl, subset_append_left _ _⟩
  rw [declare, getElem?_modify_eq, hs]
  rfl

theorem Surroundings.exists_scope_of_continued (hc : s.continued? t = some list)
    (hs : s.scopes[list.level]? = some sc) : (s.pass ambient prev? t ts).2 = t.text ∧
      ∃ sc' ∈ (s.pass ambient prev? t ts).1.scopes, sc'.last? = sc.last? ∧ boundNames (bindings ts) ⊆ sc'.names := by
  unfold continued? at hc
  split at hc
  · next ho =>
    have hp : s.pass ambient prev? t ts = (s.declare list.level (bindings ts), t.text) := by
      simp only [pass, passMark, ho, hc]
    obtain ⟨sc', hs', hl, hn⟩ := exists_scope_declare hs (bindings ts)
    rw [hp]
    exact ⟨rfl, sc', mem_of_getElem? hs', hl, hn⟩
  · cases hc

theorem ListGoesOn.exists_scope (h : ListGoesOn ambient list passed w w') {outer inner : List Scope}
    (hs : w.known.scopes = outer ++ sc :: inner) (ho : ∀ sc' ∈ outer ++ [sc], sc'.isOpenAfter passed) :
    ∃ sc', w'.known.scopes[outer.length]? = some sc' ∧ sc'.last? = sc.last? := by
  have hu : outer.filter (·.isOpenAfter passed) = outer := filter_eq_self.2 fun sc' hc' => ho sc' (mem_append_left _ hc')
  have hg := h.steps.growTo
  rw [hs, filter_append, hu, filter_cons_of_pos (ho sc (by simp))] at hg
  have hc : (outer ++ sc :: inner.filter (·.isOpenAfter passed))[outer.length]? = some sc := by simp
  obtain ⟨sc', hc', hr⟩ := hg.exists_of_getElem? hc
  exact ⟨sc', hc', hr.last_eq⟩

end Scopes

/-! ### Declarators of a body -/

/-- A declarator of the list that begins at `w`: the next token at `w'` is the first word of the
list or one of its commas, and the pattern is at the front of `rest`. -/
inductive DeclaratorAt (ambient : Ambient) (list : DeclarationList) (w : WalkPoint) :
    List ScriptToken → WalkPoint → List ScriptToken → Prop where
  | first {t : ScriptToken} {ts : List ScriptToken} (hahead : w.ahead = t :: ts) : DeclaratorAt ambient list w [] w ts
  | later {t c : ScriptToken} {ts passed rest : List ScriptToken} {w' : WalkPoint} (hahead : w.ahead = t :: ts)
      (hbeside : Beside ambient list.depth passed (.next ambient w.known w.previous? t ts) w')
      (hdepth : w'.known.brackets.length = list.depth) (hahead' : w'.ahead = c :: rest) (hcomma : c.kind = .comma) :
      DeclaratorAt ambient list w (t :: passed) w' rest

section Declarators

variable {ambient : Ambient} {list : DeclarationList} {w w' : WalkPoint} {t c : ScriptToken}
  {ts passed rest : List ScriptToken} {sc : Scope} {inner outer : List Scope}

theorem DeclaratorAt.steps (h : DeclaratorAt ambient list w passed w' rest) : Steps ambient false passed w w' := by
  obtain ⟨s, prev?, ahead⟩ := w
  cases h with
  | first => exact .here _
  | later ha hb =>
    cases ha
    exact .step nofun hb.steps

theorem Surroundings.exists_scope_of_begun (hb : s.begun? t ts = some list) (hs : s.scopes[list.level]? = some sc) :
    (s.pass ambient prev? t ts).2 = t.text ∧ ∃ sc' ∈ (s.pass ambient prev? t ts).1.scopes,
      sc'.last? = sc.last? ∧ boundNames (bindings ts) ⊆ sc'.names := by
  unfold begun? at hb
  split at hb
  · next he =>
    obtain ⟨name, hn⟩ := exists_word_of_beginsList he
    rw [beginsList, hn] at he
    have hp : s.pass ambient prev? t ts = (s.enterDeclaration name ts, t.text) := by
      rw [pass, hn]
      exact if_pos he
    have hl : list.level = if name = "var" then s.functionLevel else s.scopes.length - 1 := by
      cases hb
      simp [hn]
    rw [hl] at hs
    obtain ⟨sc', hs', ha, hna⟩ := exists_scope_declare (s := { s with declarations? := _ }) hs (bindings ts)
    rw [hp]
    exact ⟨rfl, sc', mem_of_getElem? hs', ha, hna⟩
  · cases hb

/-- Whether a list of declarations begins at one of the first `n` tokens. -/
def beginsWithin : Nat → List ScriptToken → Bool
  | n + 1, t :: ts => beginsList t ts || beginsWithin n ts
  | _, _ => false

theorem Steps.quiet_iff (h : Steps ambient false passed w w') :
    Steps ambient true passed w w' ↔ beginsWithin passed.length w.ahead = false := by
  induction h with
  | here w => exact ⟨fun _ => rfl, fun _ => .here w⟩
  | @step s prev? t ts passed w _ _ ih =>
    rw [length_cons, beginsWithin, Bool.or_eq_false_iff, ← show _ ↔ beginsWithin passed.length ts = false from ih]
    constructor
    · rintro (_ | ⟨hq, hr⟩)
      exact ⟨Bool.eq_false_iff.2 fun hb => by simp [begun?, hb] at hq, hr⟩
    · rintro ⟨hb, hr⟩
      exact .step (fun _ => if_neg (by simp [hb])) hr

theorem DeclaratorAt.exists_scope (h : DeclaratorAt ambient list w passed w' rest) (ha : w.ahead = t :: ts)
    (hb : w.known.begun? t ts = some list) (hs : w.known.scopes = outer ++ sc :: inner) (hl : outer.length = list.level)
    (hq : beginsWithin (passed.length - 1) ts = false) (ho : ∀ sc' ∈ outer ++ [sc], sc'.isOpenAfter passed) :
    ∃ c, w'.ahead = c :: rest ∧ (w'.known.pass ambient w'.previous? c rest).2 = c.text ∧
      ∃ sc' ∈ (w'.known.pass ambient w'.previous? c rest).1.scopes, sc'.last? = sc.last? ∧ boundNames (bindings rest) ⊆ sc'.names := by
  obtain ⟨s, prev?, ahead⟩ := w
  cases ha
  cases h with
  | first ha =>
    cases ha
    refine ⟨t, rfl, exists_scope_of_begun hb ?_⟩
    rw [← hl, show s.scopes = _ from hs]
    simp
  | @later _ c _ passed _ _ ha he hd ha' hc =>
    cases ha
    have hi := declarations_next_of_begun hb ambient prev?
    have hst := he.steps.quiet_iff.2 hq
    have hk := ((he.declarations_cases hi rfl).resolve_right fun h => h.1 hst).2
    have hg : ListGoesOn ambient list (t :: passed) ⟨s, prev?, t :: ts⟩ w' := ⟨⟨t, ts, passed, rfl, rfl, hb, hst⟩, hk⟩
    obtain ⟨sc₁, hs₁, hl₁⟩ := hg.exists_scope hs ho
    have hco : w'.known.continued? c = some list := by
      rw [continued?, hc, hk]
      exact Option.filter_eq_some_iff.2 ⟨rfl, decide_eq_true hd.symm⟩
    rw [hl] at hs₁
    obtain ⟨ht, sc₂, hs₂, hl₂, hn⟩ := exists_scope_of_continued hco hs₁
    exact ⟨c, ha', ht, sc₂, hs₂, hl₂.trans hl₁, hn⟩

theorem DeclaratorAt.pass_eq (h : DeclaratorAt ambient list w passed w' rest) (ha : w.ahead = t :: ts)
    (hb : w.known.begun? t ts = some list) (hl : beginsWithin (passed.length - 1) ts)
    (ha' : w'.ahead = c :: rest) : (w'.known.pass ambient w'.previous? c rest).1 = w'.known := by
  obtain ⟨s, prev?, ahead⟩ := w
  cases ha
  cases h with
  | first => simp [beginsWithin] at hl
  | @later _ c' _ passed _ _ ha he hd ha'' hc =>
    cases ha
    cases ha'.symm.trans ha''
    have hli := declarations_next_of_begun hb ambient prev?
    have hi := ((he.declarations_cases hli rfl).resolve_left fun h =>
      Bool.false_ne_true ((he.steps.quiet_iff.1 h.1).symm.trans hl)).2
    have hn : w'.known.declarations?.filter (·.depth = w'.known.brackets.length) = none := by
      refine Option.filter_eq_none_iff.2 fun list' hli' => ?_
      have := hi list' hli'
      omega
    simp only [Surroundings.pass, passMark, hc, hn]

end Declarators

/-- **Declarators.** A list of declarations begins in an open scope, to which it declares. Every
declarator of it before which no other list has begun, in a value, declares there the names that
`bindings` reads from it, if no scope up to that one has ended: none of their occurrences from the
declarator on, itself included, is written in full as long as the scope is open. The other
declarators declare nothing. -/
theorem qualify_declarators {ambient : Ambient} {params : List String} {body out : List Char}
    {s : Source} (h : qualify ambient params body = .ok out) (hs : Source.ofText body = .ok s) :
    ∃ parts tail, IsWrittenAs body out parts tail ∧
      ∀ before w t ts list, Steps ambient false before (.start params s.scriptTokens.1) w → w.ahead = t :: ts →
        w.known.begun? t ts = some list → ∃ outer sc inner, w.known.scopes = outer ++ sc :: inner ∧
          outer.length = list.level ∧ ∀ passed w' rest, DeclaratorAt ambient list w passed w' rest →
            (beginsWithin (passed.length - 1) ts = true → ∀ c, w'.ahead = c :: rest →
              (w'.known.pass ambient w'.previous? c rest).1 = w'.known) ∧
            (beginsWithin (passed.length - 1) ts = false → (∀ sc' ∈ outer ++ [sc], sc'.isOpenAfter passed = true) →
              ∀ x ∈ boundNames (bindings rest), ∀ between w'' u us, Steps ambient false between w' w'' →
                sc.isOpenAfter between = true → w''.ahead = u :: us → u.kind = .word x →
                  parts[(before ++ passed ++ between).length]? = some (u, u.text)) := by
  obtain ⟨parts, tail, hwritten, hwalked⟩ := exists_isWrittenAs h
  refine ⟨parts, tail, hwritten, fun before w t ts list hbefore hahead hbegun => ?_⟩
  have hlevel := level_lt_of_begun hbefore hbegun
  have hscopes : w.known.scopes =
      w.known.scopes.take list.level ++ w.known.scopes[list.level] :: w.known.scopes.drop (list.level + 1) := by
    rw [getElem_cons_drop, take_append_drop]
  have hlength := length_take_of_le (Nat.le_of_lt hlevel)
  refine ⟨_, _, _, hscopes, hlength, fun passed w' rest hdeclarator => ?_⟩
  refine ⟨fun hloud c => hdeclarator.pass_eq hahead hbegun hloud, ?_⟩
  intro hquiet hopen x hx between w'' u us hbetween hstill hahead'' hu
  refine hwalked.kept hwritten hs ((hbefore.trans hdeclarator.steps).trans hbetween) hahead'' ?_
  obtain ⟨c, hahead', htext, sc', hsc', hlast, hnames⟩ :=
    hdeclarator.exists_scope hahead hbegun hscopes hlength hquiet hopen
  cases hbetween with
  | here =>
    cases hahead''.symm.trans hahead'
    exact htext
  | step _ hsteps =>
    cases hahead'
    exact hsteps.written_of_scope hsc' (by rwa [Scope.isOpenAfter, hlast]) (hnames hx) hu

/-- A list with a function before its second declarator. -/
def functionThenName : List Char := "let a = (x) => \x7b x; \x7d, c = 2; c;".toList

theorem qualify_declarators_functionThenName :
    ∃ s, Source.ofText functionThenName = .ok s ∧ qualify ambientC [] functionThenName = .ok functionThenName ∧
      ∃ parts tail, IsWrittenAs functionThenName functionThenName parts tail ∧
        ∀ before w t ts list, Steps ambientC false before (.start [] s.scriptTokens.1) w → w.ahead = t :: ts →
          w.known.begun? t ts = some list →
            ∃ outer sc inner, w.known.scopes = outer ++ sc :: inner ∧ outer.length = list.level := by
  obtain ⟨s, hs⟩ : ∃ s, Source.ofText functionThenName = .ok s := by
    decide +kernel
  have hout : qualify ambientC [] functionThenName = .ok functionThenName := by
    decide +kernel
  obtain ⟨parts, tail, hwritten, hlists⟩ := qualify_declarators hout hs
  refine ⟨s, hs, hout, parts, tail, hwritten, fun before w t ts list hbefore hahead hbegun => ?_⟩
  obtain ⟨outer, sc, inner, hscopes, hlevel, -⟩ := hlists before w t ts list hbefore hahead hbegun
  exact ⟨outer, sc, inner, hscopes, hlevel⟩

/-- A function that declares something takes the rest of the list away: the declarator behind it and
the reference to it are written in full. -/
theorem qualify_declarator_lost :
    qualify ambientC [] "let a = () => \x7b let b = 1; \x7d, c = 2; c;".toList =
      .ok "let a = () => \x7b let b = 1; \x7d, __self.c = 2; __self.c;".toList := by
  decide +kernel

end Pagewright
