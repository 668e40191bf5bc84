import Mathlib.Order.Monotone.Basic
import Pagewright.Proofs.Balance
import Pagewright.Proofs.Scopes

/-!
# Walks over lexemes

The tokens of a program are its lexemes in place, the one with number `n` at the offset `f n`. A
walk over some of them writes a text and leads from surroundings to others, whatever token other
than a dot stands before the first (`Walks`). Walks are put together of steps (`Walks.trans`). What
a construct may rely on is said by `Ready`, and what it leaves as it was by `Keeps`. -/

namespace Pagewright

open List

variable {t : ScriptToken} {ts : List ScriptToken} {k o m mid n' : Nat}

namespace Fragment

variable {prev? : Option ScriptToken} {gap : List Char}

/-! ### What follows -/

/-- What stands behind an expression, in brackets of the kind given: a comma only in round ones. -/
inductive Ends (bracket? : Option Bracket) : List Lexeme → Prop where
  | semicolon (rest : List Lexeme) : Ends bracket? (mark [] ';' :: rest)
  | closer (rest : List Lexeme) : Ends bracket? (mark [] ')' :: rest)
  | comma (rest : List Lexeme) (h : bracket? = some .round) : Ends bracket? (mark [] ',' :: rest)

/-- What stands behind an operand: a member name, arguments, or the end of the expression. -/
inductive Follows (bracket? : Option Bracket) : List Lexeme → Prop where
  | member (rest : List Lexeme) : Follows bracket? (mark [] '.' :: rest)
  | call (args : List Expr) {rest : List Lexeme} (h : Follows bracket? rest) :
      Follows bracket? (mark [] '(' :: (argLexemes args ++ mark [] ')' :: rest))
  | ends {rest : List Lexeme} (h : Ends bracket? rest) : Follows bracket? rest

section Following

variable {f : Nat → Nat} {n : Nat} {bracket? : Option Bracket} {rest : List Lexeme}

/-- No operand is taken for a parameter, for the head of a block or for a label. -/
theorem Follows.begins_eq (h : Follows bracket? rest) : beginsArrow (place f n rest) = false ∧
    beginsBlock (place f n rest) = false ∧ isAmong [.colon] (place f n rest).head? = false := by
  cases h with
  | member | call => exact ⟨rfl, rfl, rfl⟩
  | ends h => cases h <;> exact ⟨rfl, rfl, rfl⟩

theorem Follows.isAmong_comma (h : Follows (some .curly) rest) :
    isAmong [.closer .curly, .comma] (place f n rest).head? = false := by
  cases h with
  | member rest => rfl
  | call args h => rfl
  | ends h =>
    cases h with
    | semicolon rest => rfl
    | closer rest => rfl
    | comma rest h => cases h

theorem Follows.group_eq (h : Follows bracket? rest) :
    (beginsGroup (place f n rest) && (closeGroup [.round] (place f n rest).tail).any
      (beginsBlock ·.after)) = false := by
  cases h with
  | member rest => rfl
  | call args h =>
    rw [place, tail_cons, closeGroup_place (isBalanced_args args) rfl, Option.any_some, h.begins_eq.2.1, Bool.and_false]
  | ends h => cases h <;> rfl

end Following

/-! ### Walks -/

/-- The token before is no dot. -/
def NotDot (previous? : Option ScriptToken) : Prop := isAmong [.dot, .optionalDot] previous? = false

/-- The walk over lexemes that stand from number `n` on, with others behind them: from surroundings
`s` it writes `out` and comes to `s'`, and no list overruns its scope. -/
structure Walks (a : Ambient) (f : Nat → Nat) (n : Nat) (s : Surroundings) (ls rest : List Lexeme)
    (out : List Char) (s' : Surroundings) : Prop where
  qualifyTokens_eq : ∀ previous?, NotDot previous? → ∃ previous'?, NotDot previous'? ∧
    qualifyTokens a s previous? (place f n (ls ++ rest)) =
      out ++ qualifyTokens a s' previous'? (place f (n + ls.length) rest) ∧
    overrunsTokens a s previous? (place f n (ls ++ rest)) =
      overrunsTokens a s' previous'? (place f (n + ls.length) rest)

theorem qualifyTokens_cons (a : Ambient) (s : Surroundings) (prev? : Option ScriptToken)
    (t : ScriptToken) (ts : List ScriptToken) : qualifyTokens a s prev? (t :: ts) = t.gap ++ (s.pass a prev? t ts).2 ++
        qualifyTokens a ((s.pass a prev? t ts).1.close t.start) (some t) ts := rfl

theorem overrunsTokens_cons (a : Ambient) (s : Surroundings) (prev? : Option ScriptToken)
    (t : ScriptToken) (ts : List ScriptToken) : overrunsTokens a s prev? (t :: ts) =
      (s.overruns t ts || overrunsTokens a ((s.pass a prev? t ts).1.close t.start) (some t) ts) := rfl

theorem overruns_of_ne_comma {s : Surroundings} (h : t.kind ≠ .comma) (ts : List ScriptToken) : s.overruns t ts = false := by
  obtain ⟨k, start, gap, text⟩ := t
  cases k with
  | comma => exact absurd rfl h
  | _ => rfl

section Walks

variable {a : Ambient} {f : Nat → Nat} {n n' : Nat} {s s₁ s₂ : Surroundings}
  {l : Lexeme} {ls ls' rest : List Lexeme} {out out' : List Char}

theorem Walks.nil : Walks a f n s [] rest [] s := ⟨fun prev? h => ⟨prev?, h, rfl, rfl⟩⟩

/-- One walk after the other. -/
theorem Walks.trans (h₁ : Walks a f n s ls (ls' ++ rest) out s₁) (hn : n' = n + ls.length)
    (h₂ : Walks a f n' s₁ ls' rest out' s₂) : Walks a f n s (ls ++ ls') rest (out ++ out') s₂ := by
  subst hn
  refine ⟨fun prev? hp => ?_⟩
  obtain ⟨middle?, hm, hf, ho⟩ := h₁.qualifyTokens_eq prev? hp
  obtain ⟨last?, hl, hs, ho'⟩ := h₂.qualifyTokens_eq middle? hm
  refine ⟨last?, hl, ?_, ?_⟩
  · rw [append_assoc, hf, hs, append_assoc, length_append, Nat.add_assoc]
  · rw [append_assoc, ho, ho', length_append, Nat.add_assoc]

theorem Walks.cons (h₁ : Walks a f n s [l] (ls ++ rest) out s₁)
    (h₂ : Walks a f (n + 1) s₁ ls rest out' s₂) : Walks a f n s (l :: ls) rest (out ++ out') s₂ :=
  h₁.trans rfl h₂

/-- A step over one token. -/
theorem walks_of_pass (hd : NotDot (some (l.token (f n)))) (ho : s.overruns (l.token (f n)) (place f (n + 1) rest) = false)
    (hp : ∀ prev?, NotDot prev? → s.pass a prev? (l.token (f n)) (place f (n + 1) rest) = (s₁, out)) :
    Walks a f n s [l] rest (l.gap ++ out) (s₁.close (f n)) := by
  refine ⟨fun prev? hr => ⟨some (l.token (f n)), hd, ?_, ?_⟩⟩
  · rw [singleton_append, place, qualifyTokens_cons, hp prev? hr]
    rfl
  · rw [singleton_append, place, overrunsTokens_cons, hp prev? hr, ho]
    rfl

/-- Whether a token is a mark other than a dot. -/
def isMark : ScriptKind → Bool
  | .word _ | .dot | .optionalDot => false
  | _ => true

theorem pass_of_isMark (h : isMark t.kind) : s.pass a prev? t ts = (s.passMark t ts, t.text) := by
  obtain ⟨k, start, gap, text⟩ := t
  cases k with
  | word name => cases h
  | _ => rfl

theorem notDot_of_isMark (h : isMark t.kind) : NotDot (some t) := by
  obtain ⟨k, start, gap, text⟩ := t
  cases k with
  | dot | optionalDot => cases h
  | _ => rfl

theorem walks_mark (h : isMark l.kind) (ho : s.overruns (l.token (f n)) (place f (n + 1) rest) = false)
    (hp : s.passMark (l.token (f n)) (place f (n + 1) rest) = s₁) : Walks a f n s [l] rest l.chars (s₁.close (f n)) := by
  subst hp
  exact walks_of_pass (notDot_of_isMark h) ho fun _ _ => pass_of_isMark h

end Walks

/-! ### Before and behind a construct -/

/-- No scope ends before number `m`. -/
def OpenUpTo (f : Nat → Nat) (m : Nat) (scopes : List Scope) : Prop :=
  ∀ o, some o ∈ scopes.map Scope.last? → f m ≤ o

/-- What a construct from number `n` on may rely on, `scope` being the names in scope. -/
structure Ready (f : Nat → Nat) (n m : Nat) (scope : List String) (s : Surroundings) : Prop where
  visible_iff : ∀ x, Visible s.scopes x ↔ x ∈ scope
  openUpTo : OpenUpTo f m s.scopes
  taken_lt : ∀ o ∈ s.taken, o < f n
  depth_le : ∀ list, s.declarations? = some list → list.depth ≤ s.brackets.length

/-- Behind a construct that ends before number `n`, the open scopes are those given. The brackets
are as before, and no list of declarations is left open. -/
structure Keeps (f : Nat → Nat) (n : Nat) (scopes : List Scope) (s s' : Surroundings) : Prop where
  scopes_eq : s'.scopes = scopes
  brackets_eq : s'.brackets = s.brackets
  declarations : ∀ list, s'.declarations? = some list → s.declarations? = some list
  taken_lt : ∀ o ∈ s'.taken, o < f n

section Construct

variable {a : Ambient} {f : Nat → Nat} {n n' m m' : Nat} {scope : List String}
  {scopes scopes' : List Scope} {s s₁ s₂ : Surroundings}

theorem Keeps.trans (h₁ : Keeps f n scopes s s₁) (h₂ : Keeps f n' scopes' s₁ s₂) : Keeps f n' scopes' s s₂ :=
  ⟨h₂.scopes_eq, h₂.brackets_eq.trans h₁.brackets_eq, fun list h => h₁.declarations list (h₂.declarations list h), h₂.taken_lt⟩

theorem Keeps.since (h : Keeps f n scopes s₁ s₂) (hb : s₁.brackets = s.brackets)
    (hd : s₁.declarations? = s.declarations?) : Keeps f n scopes s s₂ :=
  ⟨h.scopes_eq, h.brackets_eq.trans hb, fun list hl => hd ▸ h.declarations list hl, h.taken_lt⟩

theorem Ready.keeps_refl (h : Ready f n m scope s) : Keeps f n s.scopes s s := ⟨rfl, rfl, fun _ h => h, h.taken_lt⟩

theorem OpenUpTo.mono (hf : StrictMono f) (h : OpenUpTo f m scopes) (hm : m' ≤ m) :
    OpenUpTo f m' scopes := fun o ho => (hf.monotone hm).trans (h o ho)

theorem OpenUpTo.closed_eq (hf : StrictMono f) (h : OpenUpTo f m scopes) (hk : k < m) : closed (f k) scopes = scopes :=
  closed_eq_self fun o ho => Nat.lt_of_lt_of_le (hf hk) (h o ho)

theorem OpenUpTo.close_eq (hf : StrictMono f) (h : OpenUpTo f m s.scopes) (hk : k < m) : s.close (f k) = s := by
  have hc : s.scopes.filter (·.last? ≠ some (f k)) = s.scopes := h.closed_eq hf hk
  rw [Surroundings.close, hc]

theorem Ready.mono (hf : StrictMono f) (h : Ready f n m scope s) (hn : n ≤ n') (hm : m' ≤ m) : Ready f n' m' scope s where
  visible_iff := h.visible_iff
  openUpTo := h.openUpTo.mono hf hm
  taken_lt o ho := (h.taken_lt o ho).trans_le (hf.monotone hn)
  depth_le := h.depth_le

/-- Ready for the next construct, if the first one has left the scopes as they were. -/
theorem Ready.next (h : Ready f n m scope s) (hk : Keeps f n' s.scopes s s₁) : Ready f n' m scope s₁ where
  visible_iff := by rw [hk.scopes_eq]; exact h.visible_iff
  openUpTo := by rw [hk.scopes_eq]; exact h.openUpTo
  taken_lt := hk.taken_lt
  depth_le list hl := by
    rw [hk.brackets_eq]
    exact h.depth_le list (hk.declarations list hl)

theorem Ready.push (h : Ready f n m scope s) {sc : Scope} (hs : s₁.scopes = s.scopes ++ [sc])
    (hl : ∀ o, sc.last? = some o → f m ≤ o) (ht : ∀ o ∈ s₁.taken, o < f n') (hb : s.brackets.length ≤ s₁.brackets.length)
    (hd : s₁.declarations? = s.declarations?) : Ready f n' m (sc.names ++ scope) s₁ where
  visible_iff x := by
    have hc : Visible [sc] x ↔ x ∈ sc.names := by simp [Visible]
    rw [hs, visible_append, h.visible_iff, hc, mem_append, or_comm]
  openUpTo o ho := by
    rw [hs, map_append, mem_append] at ho
    rcases ho with ho | ho
    · exact h.openUpTo o ho
    · exact hl o (mem_singleton.1 ho).symm
  taken_lt := ht
  depth_le list hi := (h.depth_le list (hd ▸ hi)).trans hb

theorem Ready.grow {st : Stmt} (h : Ready f n m scope s) (hne : s.scopes ≠ [])
    (hs : s₁.scopes = st.grow s.scopes) (ht : ∀ o ∈ s₁.taken, o < f n')
    (hd : ∀ list, s₁.declarations? = some list → list.depth ≤ s₁.brackets.length) : Ready f n' m (st.declared ++ scope) s₁ where
  visible_iff x := by rw [hs, visible_grow hne, h.visible_iff, mem_append]
  openUpTo := by
    rw [OpenUpTo, hs, st.map_last_grow]
    exact h.openUpTo
  taken_lt := ht
  depth_le := hd

theorem Ready.not_taken (h : Ready f n m scope s) : s.taken.contains (f n) = false := by
  rw [← Bool.not_eq_true, contains_iff_mem]
  exact fun hm => Nat.lt_irrefl _ (h.taken_lt _ hm)

theorem Ready.keeps_close (hf : StrictMono f) (h : Ready f n m scope s) (hk : n ≤ k) :
    Keeps f (k + 1) (closed (f k) s.scopes) s (s.close (f k)) :=
  ⟨rfl, rfl, fun _ h => h, fun o ho => (h.taken_lt o ho).trans (hf (Nat.lt_succ_of_le hk))⟩

end Construct

/-! ### Words -/

section Words

variable {a : Ambient} {f : Nat → Nat} {n m : Nat} {scope : List String} {s : Surroundings}
  {gap : List Char} {rest : List Lexeme}

theorem declares_iff_visible {x : String} : s.declares x ↔ Visible s.scopes x := by
  simp [Surroundings.declares, Visible]

/-- A name declares nothing and opens no scope by itself. -/
theorem passWord_identifier (x : Identifier) (prev? : Option ScriptToken) (t : ScriptToken)
    (ts : List ScriptToken) : s.passWord a prev? t x.text ts =
      if s.taken.contains t.start || isAmong [.dot, .optionalDot] prev? then (s, t.text)
      else if beginsArrow ts then (s.enterArrow t.start x.text ts, t.text) else if beginsGroup ts && !headWords.contains x.text &&
          (closeGroup [.round] ts.tail).any (beginsBlock ·.after) then
        (s.enterFunction true ts.tail, t.text) else (s, s.reference a prev? t x.text ts) := by
  have hx : x.text ∉ scopeWords := x.not_scopeWord
  simp only [scopeWords, mem_cons, not_mem_nil, or_false, not_or] at hx
  obtain ⟨hc, ho, hf, hu, hl, hv⟩ := hx
  simp [Surroundings.passWord, hc, ho, hf, hu, hl, hv]

/-- A name that a pattern has taken. -/
theorem walks_taken (hf : StrictMono f) (x : Identifier) (h : f n ∈ s.taken) (ho : OpenUpTo f (n + 1) s.scopes) :
    Walks a f n s [word gap x.text] rest (word gap x.text).chars s := by
  have hp : ∀ prev?, s.pass a prev? ((word gap x.text).token (f n)) (place f (n + 1) rest) = (s, x.text.toList) := by
    intro prev?
    have ht : s.taken.contains ((word gap x.text).token (f n)).start := contains_iff_mem.2 h
    refine (passWord_identifier x prev? _ _).trans ?_
    rw [ht]
    rfl
  have hw := walks_of_pass (l := word gap x.text) rfl rfl fun prev? _ => hp prev?
  rwa [ho.close_eq hf (Nat.lt_succ_self n)] at hw

theorem walks_member (x : Identifier) : Walks a f n s [mark [] '.', word [] x.text] rest
    (textOf [mark [] '.', word [] x.text]) ((s.close (f n)).close (f (n + 1))) := by
  refine ⟨fun prev? _ => ⟨some ((word [] x.text).token (f (n + 1))), rfl, ?_⟩⟩
  have hp : (s.close (f n)).pass a (some ((mark [] '.').token (f n)))
      ((word [] x.text).token (f (n + 1))) (place f (n + 1 + 1) rest) = (s.close (f n), x.text.toList) := by
    refine (passWord_identifier x _ _ _).trans ?_
    rw [show isAmong [.dot, .optionalDot] (some ((mark [] '.').token (f n))) from rfl, Bool.or_true]
    rfl
  have hd : qualifyTokens a s prev? (place f n ([mark [] '.', word [] x.text] ++ rest)) =
      '.' :: qualifyTokens a (s.close (f n)) (some ((mark [] '.').token (f n)))
        (place f (n + 1) (word [] x.text :: rest)) := rfl
  have hd' : overrunsTokens a s prev? (place f n ([mark [] '.', word [] x.text] ++ rest)) =
      overrunsTokens a (s.close (f n)) (some ((mark [] '.').token (f n)))
        (place f (n + 1) (word [] x.text :: rest)) := rfl
  constructor
  · rw [hd, place, qualifyTokens_cons, hp]
    simp [textOf, Lexeme.chars, word, mark, Lexeme.token]
  · rw [hd', place, overrunsTokens_cons, hp]
    rfl

theorem textOf_reached (x : Identifier) (access : Access) :
    textOf ((x.reached access).lexemes gap) = gap ++ (access.qualify x.text).toList := by
  have hs : selfIdentifier.text = selfName := rfl
  have hc : capsuleIdentifier.text = capsuleName := rfl
  cases access with
  | direct => simp [Identifier.reached, Operand.lexemes, textOf, Lexeme.chars, word, mark, Access.qualify, hs]
  | capsule =>
    simp [Identifier.reached, Operand.lexemes, textOf, Lexeme.chars, word, mark, Access.qualify, hs, hc]

/-- A name in the place of an operand, as it is to be written. -/
def Identifier.written (a : Ambient) (scope : List String) (x : Identifier) : List Char :=
  if x.text ∈ scope then x.text.toList
  else match a.get? x.text with
    | none => x.text.toList
    | some access => (access.qualify x.text).toList

theorem textOf_resolved (x : Identifier) : textOf ((x.resolved a scope).lexemes gap) = gap ++ x.written a scope := by
  have hn : textOf ((Operand.name x).lexemes gap) = gap ++ x.text.toList := by
    simp [Operand.lexemes, textOf, Lexeme.chars, word]
  rw [Identifier.resolved, Identifier.written]
  split
  · exact hn
  · cases a.get? x.text with
    | none => exact hn
    | some access => exact textOf_reached x access

theorem reference_eq (x : Identifier) (h : Ready f n m scope s) (hr : Follows s.brackets.head? rest)
    (prev? : Option ScriptToken) (k : Nat) :
    s.reference a prev? ((word gap x.text).token k) x.text (place f (n + 1) rest) = x.written a scope := by
  have hd : s.declares x.text ↔ x.text ∈ scope := declares_iff_visible.trans (h.visible_iff x.text)
  have hs : (decide (s.brackets.head? = some .curly) && isAmong [.opener .curly, .comma] prev? &&
      isAmong [.closer .curly, .comma] (place f (n + 1) rest).head?) = false := by
    by_cases hc : s.brackets.head? = some .curly
    · rw [hc] at hr
      rw [hr.isAmong_comma, Bool.and_false]
    · simp [hc]
  simp only [Surroundings.reference, Identifier.written, hd, hr.begins_eq.2.2, hs, Bool.and_false, Bool.false_eq_true, if_false]
  rfl

/-- **References.** A name in the place of an operand is written as it is resolved. -/
theorem walks_name (x : Identifier) (h : Ready f n m scope s) (hr : Follows s.brackets.head? rest) :
    Walks a f n s [word gap x.text] rest (textOf ((x.resolved a scope).lexemes gap)) (s.close (f n)) := by
  rw [textOf_resolved]
  refine walks_of_pass (l := word gap x.text) rfl rfl fun prev? hp => ?_
  have hg : (beginsGroup (place f (n + 1) rest) && !headWords.contains x.text &&
      (closeGroup [.round] (place f (n + 1) rest).tail).any (beginsBlock ·.after)) = false := by
    rw [Bool.and_right_comm, hr.group_eq, Bool.false_and]
  refine (passWord_identifier x prev? _ _).trans ?_
  rw [show ((word gap x.text).token (f n)).start = f n from rfl, h.not_taken, hp, hg, hr.begins_eq.1, reference_eq x h hr]
  rfl

end Words

/-! ### Marks and groups -/

section Marks

variable {a : Ambient} {f : Nat → Nat} {n m : Nat} {scope : List String} {scopes : List Scope}
  {s s₁ s₀ : Surroundings} {l closer opener : Lexeme} {ls ls' rest : List Lexeme} {b : Bracket}

/-- Whether a token is passed without a change. -/
def isInert : ScriptKind → Bool
  | .dot | .arrow | .other _ | .literal | .number => true
  | _ => false

theorem pass_of_isInert (h : isInert t.kind) : s.pass a prev? t ts = (s, t.text) := by
  obtain ⟨k, start, gap, text⟩ := t
  cases k with
  | dot | arrow | other | literal | number => rfl
  | _ => cases h

theorem qualifyTokens_inert (hf : StrictMono f) (hls : ∀ l ∈ ls, isInert l.kind)
    (hl : isInert l.kind) (rest : List Lexeme) : ∀ {n : Nat},
      OpenUpTo f (n + ls.length) s.scopes → ∀ prev? : Option ScriptToken, qualifyTokens a s prev? (place f n (ls ++ l :: rest)) =
        textOf (ls ++ [l]) ++ qualifyTokens a (s.close (f (n + ls.length)))
          (some (l.token (f (n + ls.length)))) (place f (n + ls.length + 1) rest) ∧
      overrunsTokens a s prev? (place f n (ls ++ l :: rest)) = overrunsTokens a (s.close (f (n + ls.length)))
          (some (l.token (f (n + ls.length)))) (place f (n + ls.length + 1) rest) := by
  have hc {l : Lexeme} (hl : isInert l.kind) (o : Nat) : (l.token o).kind ≠ .comma := by
    intro h
    have hk : l.kind = .comma := h
    rw [hk] at hl
    cases hl
  induction ls with
  | nil =>
    intro n _ prev?
    constructor
    · rw [nil_append, place, qualifyTokens_cons, pass_of_isInert hl]
      simp [textOf, Lexeme.chars, Lexeme.token]
    · rw [nil_append, place, overrunsTokens_cons, pass_of_isInert hl, overruns_of_ne_comma (hc hl _)]
      rfl
  | cons l' ls ih =>
    intro n h prev?
    have hle : n + (l' :: ls).length = n + 1 + ls.length := by
      simp only [length_cons]
      omega
    rw [hle] at h ⊢
    have hcl : s.close (f n) = s := h.close_eq hf (by omega)
    have hs : (l'.token (f n)).start = f n := rfl
    obtain ⟨hl', hls'⟩ := forall_mem_cons.1 hls
    obtain ⟨ht, ho⟩ := ih hls' h (some (l'.token (f n)))
    constructor
    · rw [cons_append, place, qualifyTokens_cons, pass_of_isInert hl', hs, hcl, ht, cons_append, textOf_cons]
      simp [Lexeme.chars, Lexeme.token]
    · rw [cons_append, place, overrunsTokens_cons, pass_of_isInert hl', hs, hcl, ho, overruns_of_ne_comma (hc hl' _), Bool.false_or]

theorem walks_inert (hf : StrictMono f) (hs : ∀ l ∈ ls, isInert l.kind) (hl : isInert l.kind) (hm : isMark l.kind)
    (h : OpenUpTo f (n + ls.length) s.scopes) : Walks a f n s (ls ++ [l]) rest (textOf (ls ++ [l])) (s.close (f (n + ls.length))) := by
  refine ⟨fun prev? _ => ⟨some (l.token (f (n + ls.length))), notDot_of_isMark hm, ?_⟩⟩
  obtain ⟨ht, ho⟩ := qualifyTokens_inert hf hs hl rest h prev?
  rw [append_assoc, singleton_append, ht, ho, length_append]
  exact ⟨rfl, rfl⟩

theorem walks_inertMark (hf : StrictMono f) (hl : isInert l.kind) (hm : isMark l.kind)
    (ho : OpenUpTo f (n + 1) s.scopes) : Walks a f n s [l] rest l.chars s := by
  have hw : Walks a f n s [l] rest (textOf [l]) (s.close (f n)) := walks_inert hf (forall_mem_nil _) hl hm (ho.mono hf (Nat.le_succ n))
  rwa [ho.close_eq hf (Nat.lt_succ_self n), textOf_cons, textOf, flatMap_nil, append_nil] at hw

theorem walks_comma (hf : StrictMono f) (h : ∀ list, s.declarations? = some list → list.depth < s.brackets.length)
    (ho : OpenUpTo f (n + 1) s.scopes) : Walks a f n s [mark [] ','] rest (mark [] ',').chars s := by
  have hi : s.declarations?.filter (·.depth = s.brackets.length) = none := by
    cases hl : s.declarations? with
    | none => rfl
    | some list => simp [Option.filter, Nat.ne_of_lt (h list hl)]
  have hp : s.passMark ((mark [] ',').token (f n)) (place f (n + 1) rest) = s := by
    have hk : ((mark [] ',').token (f n)).kind = .comma := rfl
    simp only [Surroundings.passMark, hk, hi]
  have hv : s.overruns ((mark [] ',').token (f n)) (place f (n + 1) rest) = false := by
    have hc : s.continued? ((mark [] ',').token (f n)) = none := hi
    rw [Surroundings.overruns, hc]
    rfl
  have hw := walks_mark (a := a) (l := mark [] ',') rfl hv hp
  rwa [ho.close_eq hf (Nat.lt_succ_self n)] at hw

/-- Inside of brackets. -/
def within (b : Bracket) (s : Surroundings) : Surroundings := { s with brackets := b :: s.brackets }

theorem Ready.inside (h : Ready f n m scope s) : Ready f n m scope (within b s) where
  visible_iff := h.visible_iff
  openUpTo := h.openUpTo
  taken_lt := h.taken_lt
  depth_le list hl := Nat.le_succ_of_le (h.depth_le list hl)

theorem passMark_round (h : (closeGroup [.round] ts).any (beginsArrow ·.after) = false) :
    s.passMark ((mark gap '(').token o) ts = within .round s := by
  change within .round (if (closeGroup [.round] ts).any (beginsArrow ·.after) then
    s.enterFunction true ts else s) = _
  rw [h]
  rfl

/-- **Groups.** A walk over a group: the opener may change the surroundings, then comes what stands
between the brackets, and the closer may end scopes. -/
theorem walks_group (hf : StrictMono f) (hop : opener.kind = .opener b) (hc : closer.kind = .closer b)
    (he : s.passMark (opener.token (f n)) (place f (n + 1) (ls ++ closer :: rest)) = within b s₀) (hl : OpenUpTo f (n + 1) s₀.scopes)
    (hw : Walks a f (n + 1) (within b s₀) ls (closer :: rest) (textOf ls') s₁) (hk : Keeps f (n + 1 + ls.length) scopes (within b s₀) s₁) :
    ∃ s', Walks a f n s (opener :: ls ++ [closer]) rest (textOf (opener :: ls' ++ [closer])) s' ∧
      Keeps f (n + 1 + ls.length + 1) (closed (f (n + 1 + ls.length)) scopes) s₀ s' := by
  have hi : Walks a f n s [opener] (ls ++ closer :: rest) opener.chars (within b s₀) := by
    have hcl : (within b s₀).close (f n) = within b s₀ := OpenUpTo.close_eq (s := within b s₀) hf hl (Nat.lt_succ_self n)
    have hki : (opener.token (f n)).kind ≠ .comma := fun h => by cases hop.symm.trans h
    have h := walks_mark (a := a) (by rw [hop]; rfl) (overruns_of_ne_comma hki _) he
    rwa [hcl] at h
  have hp : s₁.passMark (closer.token (f (n + 1 + ls.length))) (place f (n + 1 + ls.length + 1) rest) = { s₁ with
          brackets := s₁.brackets.tail
          declarations? := s₁.declarations?.filter (·.depth ≤ s₁.brackets.tail.length) } := by
    rw [Surroundings.passMark, show (closer.token (f (n + 1 + ls.length))).kind = .closer b from hc]
  have hle : n + 1 + ls.length = n + (opener :: ls).length := by
    simp only [length_cons]
    omega
  have ht : textOf (opener :: ls' ++ [closer]) = opener.chars ++ textOf ls' ++ closer.chars := by
    simp [textOf]
  rw [ht]
  have hki : (closer.token (f (n + 1 + ls.length))).kind ≠ .comma := fun h => by cases hc.symm.trans h
  refine ⟨_, (hi.cons hw).trans hle (walks_mark (by rw [hc]; rfl) (overruns_of_ne_comma hki _) hp), ?_⟩
  refine ⟨?_, ?_, ?_, ?_⟩
  · rw [← hk.scopes_eq]
    rfl
  · have hb := hk.brackets_eq
    simp only [Surroundings.close, hb]
    rfl
  · intro list hli
    exact hk.declarations list (Option.filter_eq_some_iff.1 hli).1
  · intro o ho
    exact (hk.taken_lt o ho).trans (hf (Nat.lt_succ_self _))

end Marks

/-! ### Parameters and bodies -/

section Functions

variable {a : Ambient} {f : Nat → Nat} {n last : Nat} {s : Surroundings} {ls rest : List Lexeme} {scope : List String}

/-- What parameters from number `n` on bind. -/
def paramBindings (f : Nat → Nat) (n : Nat) : List Identifier → List Binding
  | [] => []
  | x :: xs => ⟨f n, some x.text⟩ :: paramBindings f (n + 2) xs

theorem splitCommas_place (xs : List Identifier) : ∀ (gap : List Char) (x : Identifier) (n : Nat),
    (splitCommas [] (place f n (word gap x.text :: moreParams xs))).flatMap bindings = paramBindings f n (x :: xs) := by
  have hw : ∀ (gap : List Char) (x : Identifier) (o : Nat), bindings [(word gap x.text).token o] = [⟨o, some x.text⟩] := by
    intro gap x o
    rw [bindings]
    rfl
  induction xs with
  | nil =>
    intro gap x n
    have hs : splitCommas [] (place f n [word gap x.text]) = [[(word gap x.text).token (f n)]] := rfl
    rw [moreParams, hs, flatMap_singleton, hw]
    rfl
  | cons y xs ih =>
    intro gap x n
    have hs : splitCommas [] (place f n (word gap x.text :: moreParams (y :: xs))) = [(word gap x.text).token (f n)] ::
          splitCommas [] (place f (n + 2) (word [' '] y.text :: moreParams xs)) := rfl
    rw [hs, flatMap_cons, hw, ih]
    rfl

theorem parameterBindings_place (params : List Identifier) :
    parameterBindings (place f n (paramLexemes params)) = paramBindings f n params := by
  cases params with
  | nil =>
    have hs : splitCommas [] (place f n (paramLexemes [])) = [[]] := rfl
    rw [parameterBindings, hs, flatMap_singleton, bindings]
    rfl
  | cons x xs => exact splitCommas_place xs [] x n

theorem filterMap_paramBindings (params : List Identifier) :
    (paramBindings f n params).filterMap Binding.name? = paramNames params := by
  induction params generalizing n with
  | nil => rfl
  | cons x xs ih =>
    have hn : Binding.name? ⟨f n, some x.text⟩ = some x.text := rfl
    rw [paramBindings, filterMap_cons_some hn, ih]
    rfl

theorem length_moreParams (xs : List Identifier) : (moreParams xs).length = 2 * xs.length := by
  induction xs with
  | nil => rfl
  | cons x xs ih =>
    simp only [moreParams, length_cons, ih]
    omega

theorem length_paramLexemes (params : List Identifier) : (paramLexemes params).length = 2 * params.length - 1 := by
  cases params with
  | nil => rfl
  | cons x xs =>
    simp only [paramLexemes, length_cons, length_moreParams]
    omega

theorem place_lt_of_mem_paramBindings (hf : StrictMono f) {params : List Identifier} {b : Binding}
    (h : b ∈ paramBindings f n params) : b.place < f (n + (paramLexemes params).length) := by
  rw [length_paramLexemes]
  induction params generalizing n with
  | nil => exact absurd h not_mem_nil
  | cons x xs ih =>
    rcases mem_cons.1 h with rfl | h
    · refine hf ?_
      simp only [length_cons]
      omega
    · have hp : 0 < xs.length := length_pos_iff.2 fun hn => by simp [hn, paramBindings] at h
      refine (ih h).trans_le (hf.monotone ?_)
      simp only [length_cons]
      omega

theorem walks_moreParams (hf : StrictMono f) (hd : ∀ list, s.declarations? = some list → list.depth < s.brackets.length) :
    ∀ (xs : List Identifier) {n : Nat}, (∀ b ∈ paramBindings f (n + 1) xs, b.place ∈ s.taken) →
      OpenUpTo f (n + (moreParams xs).length) s.scopes → Walks a f n s (moreParams xs) rest (textOf (moreParams xs)) s
  | [], _, _, _ => Walks.nil
  | x :: xs, n, ht, ho => by
    have hl : (moreParams (x :: xs)).length = (moreParams xs).length + 2 := rfl
    refine Walks.cons (walks_comma hf hd (ho.mono hf (by omega))) ?_
    refine Walks.cons (walks_taken hf x (ht _ mem_cons_self) (ho.mono hf (by omega))) ?_
    refine walks_moreParams hf hd xs (fun b hb => ?_) (ho.mono hf (by omega))
    exact ht b (mem_cons_of_mem _ hb)

theorem walks_params (hf : StrictMono f) (hd : ∀ list, s.declarations? = some list → list.depth < s.brackets.length)
    (params : List Identifier) (ht : ∀ b ∈ paramBindings f n params, b.place ∈ s.taken)
    (ho : OpenUpTo f (n + (paramLexemes params).length) s.scopes) :
    Walks a f n s (paramLexemes params) rest (textOf (paramLexemes params)) s := by
  cases params with
  | nil => exact Walks.nil
  | cons x xs =>
    have hl : (paramLexemes (x :: xs)).length = (moreParams xs).length + 1 := rfl
    refine Walks.cons (walks_taken hf x (ht _ mem_cons_self) (ho.mono hf (by omega))) ?_
    refine walks_moreParams hf hd xs (fun b hb => ?_) (ho.mono hf (by omega))
    exact ht b (mem_cons_of_mem _ hb)

/-- Inside of a function: its scope ends behind the token at `last`, and the bindings given have
been declared there. -/
def entered (last : Nat) (bound : List Binding) (s : Surroundings) : Surroundings :=
  { s with
    scopes := s.scopes ++ [⟨true, bound.filterMap Binding.name?, some last⟩]
    taken := bound.map Binding.place ++ s.taken }

theorem declare_push (bound : List Binding) : (s.push true last).declare s.scopes.length bound = entered last bound s := by
  simp only [Surroundings.declare, Surroundings.push, modify_append_length, entered, append_nil]

theorem Ready.enter {bound : List Binding} (hf : StrictMono f) (h : Ready f n m scope s) (hn : n ≤ n') (hl : f m ≤ last)
    (hbo : ∀ b ∈ bound, b.place < f n') : Ready f n' m (bound.filterMap Binding.name? ++ scope) (entered last bound s) := by
  have hs : (entered last bound s).scopes = s.scopes ++ [⟨true, bound.filterMap Binding.name?, some last⟩] := rfl
  refine h.push hs ?_ ?_ (Nat.le_refl _) rfl
  · rintro o ⟨⟩
    exact hl
  · intro o ho
    rcases mem_append.1 ho with ho | ho
    · obtain ⟨b, hb, rfl⟩ := mem_map.1 ho
      exact hbo b hb
    · exact (h.taken_lt o ho).trans_le (hf.monotone hn)

theorem Ready.params {params : List Identifier} (hf : StrictMono f) (h : Ready f n m scope s)
    (hm : k + (paramLexemes params).length = mid)
    (hn : n ≤ mid) (hl : f m ≤ last) : Ready f mid m (paramNames params ++ scope) (entered last (paramBindings f k params) s) := by
  have hr := h.enter hf hn hl fun b hb => hm ▸ place_lt_of_mem_paramBindings hf hb
  rwa [filterMap_paramBindings] at hr

theorem bodyEnd_block (gap : List Char) (body : List Stmt) (atComma : Bool) (head : ScriptToken) :
    bodyEnd atComma head (place f n (blockLexemes gap body ++ rest)) = some (f (n + 1 + (stmtLexemes [' '] body).length)) := by
  have hb : blockLexemes gap body ++ rest = mark gap '{' :: (stmtLexemes [' '] body ++ mark [' '] '}' :: rest) := by simp [blockLexemes]
  rw [hb]
  change (closeGroup [.curly] (place f (n + 1) (stmtLexemes [' '] body ++ mark [' '] '}' :: rest))).map
    (·.closer.start) = _
  rw [closeGroup_place (isBalanced_stmts [' '] body) rfl]
  rfl

theorem bodyEnd_expr {bracket? : Option Bracket} (h : Ends bracket? rest) (gap : List Char) (e : Expr)
    (head : ScriptToken) : ∃ k, bodyEnd true head (place f n (e.lexemes gap ++ rest)) = some (f k) ∧
      (k = n + (e.lexemes gap).length - 1 ∨ k = n + (e.lexemes gap).length ∧ ∃ ls, rest = mark [] ';' :: ls) := by
  obtain ⟨l, ls, hl, -, hc⟩ := e.exists_first gap
  have hne : e.lexemes gap ≠ [] := by simp [hl]
  have hb : bodyEnd true head (place f n (e.lexemes gap ++ rest)) =
      some (expressionEnd true false [] head (place f n (e.lexemes gap ++ rest))).start := by
    rw [bodyEnd]
    intro start gap' text ts heq
    rw [hl] at heq
    exact hc (congrArg ScriptToken.kind (cons.inj heq).1)
  rw [hb]
  cases h with
  | semicolon rest =>
    rw [expressionEnd_place (isBalanced_expr gap e) hne rfl]
    exact ⟨_, rfl, .inr ⟨rfl, rest, rfl⟩⟩
  | closer | comma =>
    rw [expressionEnd_place (isBalanced_expr gap e) hne rfl]
    exact ⟨_, rfl, .inl rfl⟩

theorem walks_bareParam (x : Identifier) (h : Ready f n m scope s)
    (he : bodyEnd true (arrowMark.token (f (n + 1))) (place f (n + 2) rest) = some last) :
    Walks a f n s [word gap x.text] (arrowMark :: rest) (word gap x.text).chars ((entered last [⟨f n, some x.text⟩] s).close (f n)) := by
  refine walks_of_pass rfl rfl fun prev? hp => ?_
  have hn : s.enterArrow (f n) x.text (place f (n + 1) (arrowMark :: rest)) = entered last [⟨f n, some x.text⟩] s := by
    rw [place, Surroundings.enterArrow, he]
    exact declare_push _
  refine (passWord_identifier x prev? _ _).trans ?_
  rw [show ((word gap x.text).token (f n)).start = f n from rfl, h.not_taken, hp, hn]
  rfl

theorem enterFunction_place (params : List Identifier) (he : (Group.mk (place f n (paramLexemes params))
      ((mark [] ')').token (f (n + (paramLexemes params).length)))
      (place f (n + (paramLexemes params).length + 1) rest)).functionEnd = some last) :
    s.enterFunction true (place f n (paramLexemes params ++ mark [] ')' :: rest)) = entered last (paramBindings f n params) s := by
  rw [Surroundings.enterFunction, closeGroup_place (isBalanced_params params) rfl]
  simp only [he]
  rw [declare_push, parameterBindings_place]

theorem passMark_params (params : List Identifier) : s.passMark ((mark gap '(').token o)
      (place f n (paramLexemes params ++ mark [] ')' :: arrowMark :: rest)) = within .round
        (s.enterFunction true (place f n (paramLexemes params ++ mark [] ')' :: arrowMark :: rest))) := by
  have ha : (closeGroup [.round] (place f n (paramLexemes params ++ mark [] ')' :: arrowMark :: rest))).any
        (beginsArrow ·.after) := by
    rw [closeGroup_place (isBalanced_params params) rfl]
    rfl
  change within .round (if (closeGroup [.round]
    (place f n (paramLexemes params ++ mark [] ')' :: arrowMark :: rest))).any (beginsArrow ·.after) then _ else s) = _
  rw [ha]
  rfl

/-- Behind the keyword of a declaration, the name after it has been declared. -/
def declaring (list : DeclarationList) (scopes : List Scope) (place : Nat) (s : Surroundings) :
    Surroundings :=
  { s with scopes, declarations? := some list, taken := place :: s.taken }

theorem Ready.declaring (hf : StrictMono f) (h : Ready f n m scope s)
    (hne : s.scopes ≠ []) {list : DeclarationList} (hl : list.depth = s.brackets.length)
    (w : DeclarationWord) (x : Identifier) (v : Expr) : Ready f (n + 2) m (x.text :: scope)
      (declaring list ((Stmt.declare w x v).grow s.scopes) (f (n + 1)) s) := by
  have hr : Ready f (n + 2) m ((Stmt.declare w x v).declared ++ scope)
      (Fragment.declaring list ((Stmt.declare w x v).grow s.scopes) (f (n + 1)) s) := by
    refine h.grow hne rfl (forall_mem_cons.2 ⟨hf (Nat.lt_succ_self _), fun o ho => ?_⟩) ?_
    · exact (h.taken_lt o ho).trans (hf (by omega))
    · rintro _ ⟨⟩
      exact Nat.le_of_eq hl
  cases w <;> exact hr

theorem walks_declarationWord (gap gap' : List Char) (w : DeclarationWord) (x : Identifier)
    (v : Expr) (rest : List Lexeme) : ∃ list : DeclarationList, list.depth = s.brackets.length ∧
      Walks a f n s [word gap w.text] (word gap' x.text :: rest) (word gap w.text).chars
        ((declaring list ((Stmt.declare w x v).grow s.scopes) (f (n + 1)) s).close (f n)) := by
  have hb : bindings (place f (n + 1) (word gap' x.text :: rest)) = [⟨f (n + 1), some x.text⟩] := by
    rw [place, bindings]
    rfl
  have hl : s.scopes.modify (if w.text = "var" then s.functionLevel else s.scopes.length - 1)
      (addNames [x.text]) = (Stmt.declare w x v).grow s.scopes := by
    cases w with
    | varWord =>
      have hn : (Stmt.declare .varWord x v).blockNames = [] := rfl
      exact (Stmt.grow_of_blockNames hn s.scopes).symm
    | _ => rw [Stmt.grow, Stmt.hoisted, modify_addNames_nil]; rfl
  refine ⟨⟨if w.text = "var" then s.functionLevel else s.scopes.length - 1, _⟩, rfl, ?_⟩
  refine walks_of_pass rfl rfl fun prev? _ => ?_
  rw [← hl]
  have hp : s.passWord a prev? ((word gap w.text).token (f n)) w.text (place f (n + 1) (word gap' x.text :: rest)) =
        (s.enterDeclaration w.text (place f (n + 1) (word gap' x.text :: rest)), w.text.toList) := by
    cases w <;> rfl
  refine hp.trans ?_
  rw [Surroundings.enterDeclaration, hb]
  rfl

/-- Behind the keyword of a function, the name after it has been declared. -/
def naming (place : Nat) (name : String) (s : Surroundings) : Surroundings :=
  s.declare (levelOf s.scopes) [⟨place, some name⟩]

theorem scopes_naming (g : Identifier) (params : List Identifier) (body : List Stmt) (o : Nat) :
    (naming o g.text s).scopes = (Stmt.function g params body).grow s.scopes := by
  rw [Stmt.grow_of_blockNames rfl]
  rfl

theorem Ready.naming (hf : StrictMono f) (h : Ready f n m scope s) (hne : s.scopes ≠ [])
    (g : Identifier) : Ready f (n + 2) m (g.text :: scope) (naming (f (n + 1)) g.text s) := by
  refine h.grow hne (scopes_naming g [] [] (f (n + 1))) ?_ h.depth_le
  refine forall_mem_cons.2 ⟨hf (Nat.lt_succ_self _), fun o ho => ?_⟩
  exact (h.taken_lt o ho).trans (hf (by omega))

theorem walks_functionWord (gap gap' : List Char) (g : Identifier) (params : List Identifier)
    (body : List Stmt) (rest : List Lexeme)
    (hl : n + 3 + (paramLexemes params).length + 2 + (stmtLexemes [' '] body).length = k) :
    Walks a f n s [word gap "function"] (word gap' g.text :: (paramGroup [] params ++ blockLexemes [' '] body ++ rest))
      (word gap "function").chars ((entered (f k) (paramBindings f (n + 3) params) (naming (f (n + 1)) g.text s)).close (f n)) := by
  have hg : paramGroup [] params ++ blockLexemes [' '] body ++ rest =
      mark [] '(' :: (paramLexemes params ++ mark [] ')' :: (blockLexemes [' '] body ++ rest)) := by
    simp [paramGroup]
  rw [hg]
  refine walks_of_pass rfl rfl fun prev? _ => Prod.ext (enterFunction_place params ?_) rfl
  rw [← hl]
  exact bodyEnd_block [' '] body false ((mark [] ')').token (f (n + 3 + (paramLexemes params).length)))

end Functions

end Fragment

end Pagewright
