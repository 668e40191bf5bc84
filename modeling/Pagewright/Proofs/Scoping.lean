import Pagewright.Proofs.Lexing
import Pagewright.Proofs.Walk

/-!
# Lexical scoping

The one pass over the tokens of a program knows only which scopes are open, what they declare, and
where the next scope ends. On printed programs this is lexical scoping (`qualify_print`): the free
occurrences of ambient names, as `qualifiedAll` finds them on the tree, are written in full, and
nothing else changes.

For each form of a construct one lemma says what the walk over its lexemes does (`Operand.Walked`,
`Expr.Walked`, `Stmt.Walked`), and all of them follow by induction on the tree (`walked_stmts`). The
scope of an arrow function without brackets ends with its body or, if a semicolon follows, behind
that, so an expression may leave scopes that are waiting for their end (`Pending`). -/

namespace Pagewright

open List

variable {b : Operand} {rest ls : List Lexeme} {scopes pending : List Scope} {e v : Expr} {es args : List Expr}
  {body sts : List Stmt} {last m n : Nat} {s s₀ s₁ : Surroundings} {scope : List String}

namespace Fragment

variable {gap : List Char}

/-! ### What is to be shown of each construct -/

/-- An operand is written with its free ambient names replaced. -/
def Operand.Walked (a : Ambient) (f : Nat → Nat) (b : Operand) : Prop :=
  ∀ (gap : List Char) (n : Nat) (s : Surroundings) (scope : List String) (rest : List Lexeme),
    Ready f n (n + (b.lexemes gap).length - 1) scope s → Follows s.brackets.head? rest →
    ∃ s', Walks a f n s (b.lexemes gap) rest (textOf ((b.qualified a scope).lexemes gap)) s' ∧
      Keeps f (n + (b.lexemes gap).length) (closed (f (n + (b.lexemes gap).length - 1)) s.scopes) s s'

/-- Scopes of arrow functions that end behind the semicolon at number `n`. -/
def Pending (f : Nat → Nat) (n : Nat) (rest : List Lexeme) (scopes : List Scope) : Prop :=
  ∀ sc ∈ scopes, sc.last? = some (f n) ∧ ∃ ls, rest = mark [] ';' :: ls

/-- An expression is written with its free ambient names replaced. -/
def Expr.Walked (a : Ambient) (f : Nat → Nat) (e : Expr) : Prop :=
  ∀ (gap : List Char) (n : Nat) (s : Surroundings) (scope : List String) (rest : List Lexeme),
    Ready f n (n + (e.lexemes gap).length - 1) scope s → Ends s.brackets.head? rest →
    ∃ s' pending, Walks a f n s (e.lexemes gap) rest (textOf ((e.qualified a scope).lexemes gap)) s' ∧
      Keeps f (n + (e.lexemes gap).length)
        (closed (f (n + (e.lexemes gap).length - 1)) s.scopes ++ pending) s s' ∧
      Pending f (n + (e.lexemes gap).length) rest pending

/-- A statement is written with its free ambient names replaced. -/
def Stmt.Walked (a : Ambient) (f : Nat → Nat) (st : Stmt) : Prop :=
  ∀ (gap : List Char) (n : Nat) (s : Surroundings) (scope : List String) (rest : List Lexeme),
    Ready f n (n + (st.lexemes gap).length) scope s → s.scopes ≠ [] →
    ∃ s', Walks a f n s (st.lexemes gap) rest (textOf ((st.qualified a scope).lexemes gap)) s' ∧
      Keeps f (n + (st.lexemes gap).length) (st.grow s.scopes) s s'

/-- Statements are written with their free ambient names replaced. -/
def StmtsWalked (a : Ambient) (f : Nat → Nat) (sts : List Stmt) : Prop :=
  ∀ (gap : List Char) (n : Nat) (s : Surroundings) (scope : List String) (rest : List Lexeme),
    Ready f n (n + (stmtLexemes gap sts).length) scope s → s.scopes ≠ [] →
    ∃ s', Walks a f n s (stmtLexemes gap sts) rest
        (textOf (stmtLexemes gap (qualifiedAll a scope sts))) s' ∧
      Keeps f (n + (stmtLexemes gap sts).length) (growAll sts s.scopes) s s'

/-- The arguments of a call, all of them or those behind the first as `print` says, are written with
their free ambient names replaced. -/
def ArgsWalked (a : Ambient) (f : Nat → Nat) (print : List Expr → List Lexeme) (args : List Expr) :
    Prop :=
  ∀ (n : Nat) (s : Surroundings) (scope : List String) (rest : List Lexeme),
    Ready f n (n + (print args).length) scope s → s.brackets.head? = some .round →
    (∀ list, s.declarations? = some list → list.depth < s.brackets.length) →
    ∃ s', Walks a f n s (print args) (mark [] ')' :: rest)
        (textOf (print (qualifiedArgs a scope args))) s' ∧
      Keeps f (n + (print args).length) s.scopes s s'

/-! ### Operands -/

section Operands

variable {a : Ambient} {f : Nat → Nat} (hf : StrictMono f)
include hf

theorem Operand.walked_name (x : Identifier) : (name x).Walked a f := by
  intro gap n s scope rest hr he
  exact ⟨_, walks_name x hr he, hr.keeps_close hf (Nat.le_refl n)⟩

theorem Operand.walked_member (hb : b.Walked a f) (x : Identifier) : (member b x).Walked a f := by
  intro gap n s scope rest hr he
  have hl : n + ((b.member x).lexemes gap).length = n + (b.lexemes gap).length + 2 := by
    simp only [lexemes, length_append, length_cons, length_nil]
    omega
  rw [hl] at hr ⊢
  rw [qualified, lexemes, lexemes, textOf_append]
  obtain ⟨s₁, hw, hk⟩ := hb gap n s scope ([mark [] '.', word [] x.text] ++ rest)
    (hr.mono hf (Nat.le_refl n) (by omega)) (.member _)
  rw [hr.openUpTo.closed_eq hf (by omega)] at hk
  have hr₁ := hr.next hk
  refine ⟨_, hw.trans rfl (walks_member x), ?_⟩
  have hc := hr₁.keeps_close hf (Nat.le_succ (n + (b.lexemes gap).length))
  rw [hk.scopes_eq] at hc
  rw [hr₁.openUpTo.close_eq hf (by omega)]
  exact hk.trans hc

theorem Operand.walked_call (hb : b.Walked a f) (ha : ArgsWalked a f argLexemes args) : (call b args).Walked a f := by
  intro gap n s scope rest hr he
  have hl : n + ((b.call args).lexemes gap).length = n + (b.lexemes gap).length + 1 + (argLexemes args).length + 1 := by
    simp only [lexemes, length_append, length_cons, length_nil]
    omega
  rw [hl] at hr ⊢
  rw [qualified, lexemes, lexemes, append_assoc, append_assoc, textOf_append]
  have hfo : Follows s.brackets.head? (mark [] '(' :: argLexemes args ++ [mark [] ')'] ++ rest) := by
    simpa using Follows.call args he
  obtain ⟨s₁, hw, hk⟩ := hb gap n s scope _ (hr.mono hf (Nat.le_refl n) (by omega)) hfo
  rw [hr.openUpTo.closed_eq hf (by omega)] at hk
  have hr₁ := hr.next hk
  -- The group is not that of a function, as no arrow follows.
  have ho : s₁.passMark ((mark [] '(').token (f (n + (b.lexemes gap).length)))
      (place f (n + (b.lexemes gap).length + 1) (argLexemes args ++ mark [] ')' :: rest)) = within .round s₁ := by
    refine passMark_round ?_
    rw [closeGroup_place (isBalanced_args args) rfl, Option.any_some, he.begins_eq.1]
  obtain ⟨s₂, hi, hk₂⟩ := ha (n + (b.lexemes gap).length + 1) (within .round s₁) scope rest
    (hr₁.mono hf (Nat.le_succ _) (by omega)).inside rfl
    (fun list hli => Nat.lt_succ_of_le (hr₁.depth_le list hli))
  obtain ⟨s₃, hg, hk₃⟩ := walks_group hf rfl rfl ho (hr₁.openUpTo.mono hf (by omega))
    hi hk₂
  refine ⟨s₃, hw.trans rfl hg, hk.trans ?_⟩
  rwa [show (within .round s₁).scopes = s.scopes from hk.scopes_eq] at hk₃

end Operands

/-! ### Arguments -/

section Arguments

variable {a : Ambient} {f : Nat → Nat}

theorem Pending.eq_nil (h : Pending f n rest scopes) (hr : ∀ ls, rest ≠ mark [] ';' :: ls) : scopes = [] :=
  eq_nil_iff_forall_not_mem.2 fun sc hs =>
    have ⟨ls, hl⟩ := (h sc hs).2
    hr ls hl

theorem argsWalked_nil {print : List Expr → List Lexeme} (hp : print [] = []) : ArgsWalked a f print [] := by
  intro n s scope rest hr _ _
  rw [qualifiedArgs]
  rw [hp] at hr ⊢
  exact ⟨s, Walks.nil, hr.keeps_refl⟩

theorem walks_arg (hf : StrictMono f) (he : e.Walked a f) (hs : ArgsWalked a f moreArgs es)
    (hr : Ready f n (n + (e.lexemes gap).length + (moreArgs es).length) scope s) (ho : s.brackets.head? = some .round)
    (hd : ∀ list, s.declarations? = some list → list.depth < s.brackets.length) (rest : List Lexeme) :
    ∃ s', Walks a f n s (e.lexemes gap ++ moreArgs es) (mark [] ')' :: rest)
        (textOf ((e.qualified a scope).lexemes gap ++ moreArgs (qualifiedArgs a scope es))) s' ∧
      Keeps f (n + (e.lexemes gap).length + (moreArgs es).length) s.scopes s s' := by
  have hn : Ends s.brackets.head? (moreArgs es ++ mark [] ')' :: rest) ∧ ∀ ls, moreArgs es ++ mark [] ')' :: rest ≠ mark [] ';' :: ls := by
    cases es with
    | nil => exact ⟨.closer rest, nofun⟩
    | cons e' es => exact ⟨.comma _ ho, nofun⟩
  obtain ⟨s₁, pending, hw, hk, hp⟩ := he gap n s scope _ (hr.mono hf (Nat.le_refl n) (by omega)) hn.1
  have hpo := e.length_lexemes_pos gap
  rw [hp.eq_nil hn.2, append_nil, hr.openUpTo.closed_eq hf (by omega)] at hk
  have hr₁ := hr.next hk
  obtain ⟨s₂, hm, hk₂⟩ := hs (n + (e.lexemes gap).length) s₁ scope rest hr₁ (hk.brackets_eq ▸ ho)
    (fun list hl => hk.brackets_eq ▸ hd list (hk.declarations list hl))
  rw [hk.scopes_eq] at hk₂
  rw [textOf_append]
  exact ⟨s₂, hw.trans rfl hm, hk.trans hk₂⟩

theorem argsWalked_cons (hf : StrictMono f) (he : e.Walked a f)
    (hs : ArgsWalked a f moreArgs es) : ArgsWalked a f argLexemes (e :: es) := by
  intro n s scope rest hr ho hd
  rw [argLexemes, length_append, ← Nat.add_assoc] at hr ⊢
  exact walks_arg hf he hs hr ho hd rest

theorem moreArgsWalked_cons (hf : StrictMono f) (he : e.Walked a f)
    (hs : ArgsWalked a f moreArgs es) : ArgsWalked a f moreArgs (e :: es) := by
  intro n s scope rest hr ho hd
  have hl : n + (moreArgs (e :: es)).length = n + 1 + (e.lexemes [' ']).length + (moreArgs es).length := by
    simp only [moreArgs, length_append, length_cons]
    omega
  rw [hl] at hr ⊢
  have hr₁ := hr.mono hf (Nat.le_succ n) (Nat.le_refl _)
  obtain ⟨s₁, hw, hk⟩ := walks_arg hf he hs hr₁ ho hd rest
  exact ⟨s₁, Walks.cons (walks_comma hf hd (hr.openUpTo.mono hf (by omega))) hw, hk⟩

end Arguments

/-! ### Blocks and functions -/

section Bodies

variable {a : Ambient} {f : Nat → Nat} {n : Nat} {s : Surroundings} {scope : List String} (hf : StrictMono f)
include hf

/-- **Blocks.** Behind a block the scopes are as before, but for the hoisted names and the scopes
that end with it. -/
theorem walks_block (hb : StmtsWalked a f body)
    (hl : n + 1 + (stmtLexemes [' '] body).length = last) (hr : Ready f n last scope s)
    (hne : s.scopes ≠ []) (gap : List Char) (rest : List Lexeme) :
    ∃ s', Walks a f n s (blockLexemes gap body) rest (textOf (blockLexemes gap (qualifiedAll a scope body))) s' ∧
      Keeps f (last + 1) (closed (f last) (s.scopes.modify (levelOf s.scopes) (addNames (hoistedAll body)))) s s' := by
  have ho : s.passMark ((mark gap '{').token (f n))
      (place f (n + 1) (stmtLexemes [' '] body ++ mark [' '] '}' :: rest)) = within .curly (s.push false (f last)) := by
    have hk : ((mark gap '{').token (f n)).kind = .opener .curly := rfl
    have hc : closeGroup [.curly] (place f (n + 1) (stmtLexemes [' '] body ++ mark [' '] '}' :: rest)) = some _ :=
      closeGroup_place (isBalanced_stmts [' '] body) rfl
    simp only [Surroundings.passMark, hk, hc, hl]
    rfl
  have hp : (within .curly (s.push false (f last))).scopes = s.scopes ++ [⟨false, [], some (f last)⟩] := rfl
  have hr₁ : Ready f (n + 1) last scope (within .curly (s.push false (f last))) := by
    refine hr.push hp ?_ ?_ (Nat.le_succ _) rfl
    · rintro o ⟨⟩
      exact Nat.le_refl _
    · exact (hr.mono hf (Nat.le_succ n) (Nat.le_refl last)).taken_lt
  have hn₁ : (within .curly (s.push false (f last))).scopes ≠ [] := by simp [hp]
  obtain ⟨s₁, hw, he⟩ := hb [' '] (n + 1) _ scope (mark [' '] '}' :: rest) (hl ▸ hr₁) hn₁
  obtain ⟨s₂, hg, he₂⟩ := walks_group hf rfl rfl ho (hr₁.openUpTo.mono hf (by omega)) hw he
  refine ⟨s₂, hg, ?_⟩
  -- The scope of the block ends here, so only what went to the scopes below it is left.
  have hbl : Scope.isFunction ⟨false, [], some (f last)⟩ = false := rfl
  obtain ⟨sc, hs, hgr⟩ := growAll_append body hne hbl
  have hcl : closed (f last) [sc] = [] := closed_eq_nil (by simp [hs])
  rw [hl, hp, hgr, closed_append, hcl, append_nil] at he₂
  exact he₂.since rfl rfl

theorem walks_body (hb : StmtsWalked a f body)
    (hl : n + 1 + (stmtLexemes [' '] body).length = last) (hr : Ready f n last scope s) {sc : Scope} (hs : s.scopes = scopes ++ [sc])
    (hu : sc.isFunction) (he : sc.last? = some (f last)) (gap : List Char) (rest : List Lexeme) :
    ∃ s', Walks a f n s (blockLexemes gap body) rest (textOf (blockLexemes gap (qualifiedAll a scope body))) s' ∧
      Keeps f (last + 1) (closed (f last) scopes) s s' := by
  obtain ⟨s', hw, hk⟩ := walks_block hf hb hl hr (by simp [hs]) gap rest
  refine ⟨s', hw, ?_⟩
  have hc : closed (f last) [addNames (hoistedAll body) sc] = [] := closed_eq_nil (by simp [addNames, he])
  rwa [hs, levelOf_append_function scopes hu, modify_append_length, closed_append, hc, append_nil] at hk

theorem walks_paramGroup {params : List Identifier} (hl : n + 1 + (paramLexemes params).length = last)
    (ho : s.passMark ((mark gap '(').token (f n)) (place f (n + 1) (paramLexemes params ++ mark [] ')' :: rest)) = within .round s₀)
    (ht : ∀ b ∈ paramBindings f (n + 1) params, b.place ∈ s₀.taken) (hr : Ready f last m scope s₀) (hm : last < m) :
    ∃ s', Walks a f n s (paramGroup gap params) rest (textOf (paramGroup gap params)) s' ∧ Keeps f (last + 1) s₀.scopes s₀ s' := by
  have hd : ∀ list, (within .round s₀).declarations? = some list → list.depth < (within .round s₀).brackets.length :=
    fun list hli => Nat.lt_succ_of_le (hr.depth_le list hli)
  have hi : Walks a f (n + 1) (within .round s₀) (paramLexemes params) (mark [] ')' :: rest)
      (textOf (paramLexemes params)) (within .round s₀) :=
    walks_params hf hd params ht (hr.openUpTo.mono hf (by omega))
  have hk : Keeps f (n + 1 + (paramLexemes params).length) s₀.scopes (within .round s₀)
      (within .round s₀) := hl ▸ hr.inside.keeps_refl
  obtain ⟨s', hg, hk'⟩ := walks_group hf rfl rfl ho (hr.openUpTo.mono hf (by omega)) hi hk
  rw [hl, hr.openUpTo.closed_eq hf hm] at hk'
  exact ⟨s', hg, hk'⟩

end Bodies

/-! ### Expressions -/

section Expressions

variable {a : Ambient} {f : Nat → Nat}

theorem Expr.walked_operand (hb : b.Walked a f) : (operand b).Walked a f := by
  intro gap n s scope rest hr he
  obtain ⟨s', hw, hk⟩ := hb gap n s scope rest hr (.ends he)
  exact ⟨s', [], hw, by rwa [append_nil], forall_mem_nil _⟩

theorem walks_nameless (hf : StrictMono f) {l : Lexeme} (hs : ∀ l ∈ ls, isInert l.kind) (hl : isInert l.kind) (hm : isMark l.kind)
    (hr : Ready f n (n + (ls ++ [l]).length - 1) scope s) :
    ∃ s' pending, Walks a f n s (ls ++ [l]) rest (textOf (ls ++ [l])) s' ∧ Keeps f (n + (ls ++ [l]).length)
        (closed (f (n + (ls ++ [l]).length - 1)) s.scopes ++ pending) s s' ∧ Pending f (n + (ls ++ [l]).length) rest pending := by
  have hle : n + (ls ++ [l]).length = n + ls.length + 1 := by simp [Nat.add_assoc]
  rw [hle] at hr ⊢
  refine ⟨_, [], walks_inert hf hs hl hm hr.openUpTo, ?_, forall_mem_nil _⟩
  rw [append_nil]
  exact hr.keeps_close hf (Nat.le_add_right n ls.length)

theorem Numeral.exists_last (gap : List Char) (m : Numeral) : ∃ ls l, m.lexemes gap = ls ++ [l] ∧
    (∀ l ∈ ls, isInert l.kind) ∧ l.kind = .number := by
  have hd : ∀ l ∈ [mark gap '.'], isInert l.kind := forall_mem_singleton.2 rfl
  have hs : ∀ (gap : List Char) (d : Digits) (sign : Sign), ∀ l ∈ [d.lexeme gap, mark [] sign.char], isInert l.kind := by
    intro gap d sign
    refine forall_mem_cons.2 ⟨rfl, forall_mem_singleton.2 ?_⟩
    cases sign <;> rfl
  obtain ⟨pointed, digits, exponent?⟩ := m
  match pointed, exponent? with
  | false, none => exact ⟨[], digits.lexeme gap, rfl, nofun, rfl⟩
  | true, none => exact ⟨[mark gap '.'], digits.lexeme [], rfl, hd, rfl⟩
  | false, some (sign, d) => exact ⟨[digits.lexeme gap, mark [] sign.char], d.lexeme [], rfl, hs _ _ _, rfl⟩
  | true, some (sign, d) =>
    exact ⟨[mark gap '.', digits.lexeme [], mark [] sign.char], d.lexeme [], rfl, forall_mem_cons.2 ⟨rfl, hs _ _ _⟩, rfl⟩

theorem Expr.walked_number (hf : StrictMono f) (m : Numeral) : (number m).Walked a f := by
  intro gap n s scope rest hr _
  obtain ⟨ls, l, hle, hs, hl⟩ := m.exists_last gap
  rw [qualified]
  rw [lexemes, hle] at hr ⊢
  exact walks_nameless hf hs (by rw [hl]; rfl) (by rw [hl]; rfl) hr

theorem Expr.walked_text (hf : StrictMono f) (t : QuotedText) : (text t).Walked a f := by
  intro gap n s scope rest hr _
  exact walks_nameless hf (forall_mem_nil _) rfl rfl hr

theorem Expr.walked_function (hf : StrictMono f) (params : List Identifier)
    (hbo : StmtsWalked a f body) : (function params body).Walked a f := by
  intro gap n s scope rest hr _
  obtain ⟨mid, hm⟩ : ∃ mid, n + 1 + (paramLexemes params).length = mid := ⟨_, rfl⟩
  obtain ⟨last, hl⟩ : ∃ last, mid + 2 + 1 + (stmtLexemes [' '] body).length = last := ⟨_, rfl⟩
  have hg : n + (paramGroup gap params).length = mid + 1 := by
    simp only [paramGroup, length_append, length_cons, length_nil]
    omega
  have hle : n + ((function params body).lexemes gap).length = last + 1 := by
    simp only [lexemes_function, blockLexemes, length_append, length_cons, length_nil]
    omega
  rw [hle] at hr ⊢
  rw [qualified, lexemes_function, lexemes_function, textOf_append, textOf_cons]
  -- The scope of the function is opened by the first bracket.
  have ho : s.passMark ((mark gap '(').token (f n)) (place f (n + 1)
      (paramLexemes params ++ mark [] ')' :: (arrowMark :: blockLexemes [' '] body ++ rest))) =
        within .round (entered (f last) (paramBindings f (n + 1) params) s) := by
    refine (passMark_params params).trans (congrArg (within .round) (enterFunction_place params ?_))
    rw [← hl, ← hm]
    exact bodyEnd_block [' '] body true (arrowMark.token (f (n + 1 + (paramLexemes params).length + 1)))
  have hr₀ : Ready f mid last (paramNames params ++ scope) (entered (f last) (paramBindings f (n + 1) params) s) :=
    hr.params hf hm (by omega) (Nat.le_refl _)
  obtain ⟨s₁, hp, hk⟩ := walks_paramGroup (a := a) hf hm ho
    (fun b hb => mem_append_left _ (mem_map_of_mem hb)) hr₀ (by omega)
  have hr₁ := hr₀.next hk
  have ha : Walks a f (mid + 1) s₁ [arrowMark] (blockLexemes [' '] body ++ rest) arrowMark.chars s₁ :=
    walks_inertMark hf rfl rfl (hr₁.openUpTo.mono hf (by omega))
  obtain ⟨s₂, hbl, hk₂⟩ := walks_body hf hbo hl
    (hr₁.mono hf (Nat.le_succ _) (Nat.le_refl last)) hk.scopes_eq rfl rfl [' '] rest
  refine ⟨s₂, [], hp.trans hg.symm (ha.cons hbl), ?_, forall_mem_nil _⟩
  rw [append_nil]
  exact (hk.trans hk₂).since rfl rfl

theorem Expr.walked_arrow (hf : StrictMono f) (x : Identifier) {body : Expr}
    (hb : body.Walked a f) : (arrow x body).Walked a f := by
  intro gap n s scope rest hr hre
  have hp := body.length_lexemes_pos [' ']
  have hl : n + ((arrow x body).lexemes gap).length = n + 2 + (body.lexemes [' ']).length := by
    simp only [lexemes, length_cons]
    omega
  rw [hl] at hr ⊢
  obtain ⟨k, he, hk⟩ := bodyEnd_expr (f := f) (n := n + 2) hre [' '] body (arrowMark.token (f (n + 1)))
  have hla : n + 2 + (body.lexemes [' ']).length - 1 ≤ k := by omega
  have hr₁ : Ready f (n + 2) (n + 2 + (body.lexemes [' ']).length - 1) (x.text :: scope)
      (entered (f k) [⟨f n, some x.text⟩] s) := by
    have hbo : ∀ b ∈ [(⟨f n, some x.text⟩ : Binding)], b.place < f (n + 2) :=
      forall_mem_singleton.2 (hf (Nat.lt_add_of_pos_right Nat.two_pos))
    exact hr.enter hf (Nat.le_add_right n 2) (hf.monotone hla) hbo
  have hpa : Walks a f n s [word gap x.text] (arrowMark :: (body.lexemes [' '] ++ rest))
      (word gap x.text).chars ((entered (f k) [⟨f n, some x.text⟩] s).close (f n)) :=
    walks_bareParam x hr he
  rw [hr₁.openUpTo.close_eq hf (by omega)] at hpa
  have ha : Walks a f (n + 1) (entered (f k) [⟨f n, some x.text⟩] s) [arrowMark]
      (body.lexemes [' '] ++ rest) arrowMark.chars (entered (f k) [⟨f n, some x.text⟩] s) :=
    walks_inertMark hf rfl rfl (hr₁.openUpTo.mono hf (by omega))
  obtain ⟨s₁, pending, hw, hke, hpe⟩ := hb [' '] (n + 2) _ _ rest hr₁ hre
  have hs : (entered (f k) [⟨f n, some x.text⟩] s).scopes = s.scopes ++ [⟨true, [x.text], some (f k)⟩] := rfl
  rw [hs, closed_append, append_assoc] at hke
  refine ⟨s₁, _, hpa.cons (ha.cons hw), hke.since rfl rfl, fun sc hc => ?_⟩
  rcases mem_append.1 hc with hc | hc
  · -- The scope of the arrow function is over with its body, unless a semicolon follows.
    obtain ⟨hm, ho⟩ := mem_filter.1 hc
    rw [mem_singleton.1 hm] at ho ⊢
    rcases hk with rfl | ⟨rfl, hse⟩
    · simp at ho
    · exact ⟨rfl, hse⟩
  · exact hpe sc hc

end Expressions

/-! ### Statements -/

section Statements

variable {a : Ambient} {f : Nat → Nat}

theorem stmtsWalked_nil : StmtsWalked a f [] := by
  intro gap n s scope rest hr _
  exact ⟨s, Walks.nil, hr.keeps_refl⟩

variable (hf : StrictMono f)
include hf

theorem walks_semicolon (hk : Keeps f n (scopes ++ pending) s s₁)
    (hp : Pending f n (mark [] ';' :: rest) pending) (hop : OpenUpTo f (n + 1) scopes) :
    ∃ s', Walks a f n s₁ [mark [] ';'] rest (textOf [mark [] ';']) s' ∧ Keeps f (n + 1) scopes s s' ∧
      ∀ list, s'.declarations? = some list → list.depth ≠ s.brackets.length := by
  refine ⟨_, walks_mark rfl rfl rfl, ⟨?_, hk.brackets_eq, ?_, ?_⟩, ?_⟩
  · have hc : closed (f n) pending = [] := closed_eq_nil fun sc hs => (hp sc hs).1
    have hsc : closed (f n) s₁.scopes = scopes := by
      rw [hk.scopes_eq, closed_append, hc, append_nil, hop.closed_eq hf (Nat.lt_succ_self n)]
    exact hsc
  · intro list hl
    exact hk.declarations list (Option.filter_eq_some_iff.1 hl).1
  · intro o ho
    exact (hk.taken_lt o ho).trans (hf (Nat.lt_succ_self n))
  · intro list hl
    have hd := (Option.filter_eq_some_iff.1 hl).2
    rw [← hk.brackets_eq]
    exact of_decide_eq_true hd

theorem Stmt.walked_expression (he : e.Walked a f) : (Stmt.expression e).Walked a f := by
  intro gap n s scope rest hr _
  have hl : n + ((expression e).lexemes gap).length = n + (e.lexemes gap).length + 1 := by
    simp only [lexemes, length_append, length_cons, length_nil]
    omega
  rw [hl] at hr ⊢
  rw [qualified, Stmt.lexemes, Stmt.lexemes, textOf_append]
  obtain ⟨s₁, pending, hw, hk, hp⟩ := he gap n s scope ([mark [] ';'] ++ rest)
    (hr.mono hf (Nat.le_refl n) (by omega)) (.semicolon rest)
  rw [hr.openUpTo.closed_eq hf (by omega)] at hk
  obtain ⟨s₂, hs, hk₂, -⟩ := walks_semicolon (a := a) hf hk hp hr.openUpTo
  refine ⟨s₂, hw.trans rfl hs, ?_⟩
  rwa [grow_of_blockNames rfl, hoisted, modify_addNames_nil]

theorem Stmt.walked_block (hb : StmtsWalked a f body) : (block body).Walked a f := by
  intro gap n s scope rest hr hne
  have hl : n + ((Stmt.block body).lexemes gap).length = n + 1 + (stmtLexemes [' '] body).length + 1 := by
    simp only [lexemes, length_append, length_cons, length_nil]
    omega
  rw [hl] at hr ⊢
  obtain ⟨s', hw, hk⟩ := walks_block hf hb rfl (hr.mono hf (Nat.le_refl n) (Nat.le_succ _)) hne gap rest
  have ho : OpenUpTo f (n + 1 + (stmtLexemes [' '] body).length + 1)
      (s.scopes.modify (levelOf s.scopes) (addNames (hoistedAll body))) := by
    rw [OpenUpTo, map_modify_addNames fun _ => rfl]
    exact hr.openUpTo
  rw [ho.closed_eq hf (Nat.lt_succ_self _)] at hk
  rw [grow_of_blockNames rfl]
  exact ⟨s', hw, hk⟩

theorem Stmt.walked_declare (w : DeclarationWord) (x : Identifier)
    (hv : v.Walked a f) : (declare w x v).Walked a f := by
  intro gap n s scope rest hr hne
  have hl : ∀ v : Expr, (declare w x v).lexemes gap = word gap w.text ::
      word [' '] x.text :: mark [' '] '=' :: (v.lexemes [' '] ++ [mark [] ';']) := by
    simp [lexemes]
  have hle : n + ((declare w x v).lexemes gap).length = n + 3 + (v.lexemes [' ']).length + 1 := by
    simp only [hl, length_append, length_cons, length_nil]
    omega
  rw [hle] at hr ⊢
  rw [qualified, hl, hl, textOf_cons, textOf_cons, textOf_cons, textOf_append]
  obtain ⟨list, hi, hw⟩ := walks_declarationWord (a := a) (f := f) (n := n) (s := s) gap [' '] w x
    v (mark [' '] '=' :: (v.lexemes [' '] ++ [mark [] ';']) ++ rest)
  have hr₁ := hr.declaring hf hne hi w x v
  obtain ⟨s₁, hs₁⟩ : ∃ s₁, declaring list ((declare w x v).grow s.scopes) (f (n + 1)) s = s₁ := ⟨_, rfl⟩
  rw [hs₁] at hw hr₁
  rw [hr₁.openUpTo.close_eq hf (by omega)] at hw
  have hn : Walks a f (n + 1) s₁ [word [' '] x.text]
      (mark [' '] '=' :: (v.lexemes [' '] ++ [mark [] ';']) ++ rest) (word [' '] x.text).chars s₁ :=
    walks_taken hf x (by rw [← hs₁]; exact mem_cons_self) (hr₁.openUpTo.mono hf (by omega))
  have he : Walks a f (n + 2) s₁ [mark [' '] '='] (v.lexemes [' '] ++ [mark [] ';'] ++ rest)
      (mark [' '] '=').chars s₁ :=
    walks_inertMark hf rfl rfl (hr₁.openUpTo.mono hf (by omega))
  obtain ⟨s₂, pending, ha, hk, hp⟩ := hv [' '] (n + 3) s₁ (x.text :: scope)
    ([mark [] ';'] ++ rest) (hr₁.mono hf (Nat.le_succ _) (by omega)) (.semicolon rest)
  rw [hr₁.openUpTo.closed_eq hf (by omega)] at hk
  obtain ⟨s₃, hs, hk₃, hd⟩ := walks_semicolon (a := a) hf hk hp hr₁.openUpTo
  refine ⟨s₃, hw.cons (hn.cons (he.cons (ha.trans rfl hs))), ?_⟩
  subst hs₁
  -- The list of declarations has been closed again.
  refine ⟨hk₃.scopes_eq, hk₃.brackets_eq, fun list' hi' => ?_, hk₃.taken_lt⟩
  have heq : list = list' := Option.some.inj (hk₃.declarations list' hi')
  exact absurd (heq ▸ hi) (hd list' hi')

theorem Stmt.walked_function (g : Identifier) (params : List Identifier)
    (hbo : StmtsWalked a f body) : (function g params body).Walked a f := by
  intro gap n s scope rest hr hne
  obtain ⟨mid, hm⟩ : ∃ mid, n + 3 + (paramLexemes params).length = mid := ⟨_, rfl⟩
  obtain ⟨last, hl⟩ : ∃ last, mid + 2 + (stmtLexemes [' '] body).length = last := ⟨_, rfl⟩
  have hg : n + 2 + (paramGroup [] params).length = mid + 1 := by
    simp only [paramGroup, length_append, length_cons, length_nil]
    omega
  have hle : n + ((function g params body).lexemes gap).length = last + 1 := by
    simp only [lexemes_function, blockLexemes, length_append, length_cons, length_nil]
    omega
  rw [hle] at hr ⊢
  rw [qualified, lexemes_function, lexemes_function, textOf_cons, textOf_cons, textOf_append]
  have hr₀ := hr.naming hf hne g
  have hr₁ : Ready f mid last (paramNames params ++ g.text :: scope)
      (entered (f last) (paramBindings f (n + 3) params) (naming (f (n + 1)) g.text s)) :=
    (hr₀.mono hf (Nat.le_refl _) (Nat.le_succ last)).params hf hm (by omega) (Nat.le_refl _)
  obtain ⟨s₁, hs₁⟩ : ∃ s₁, entered (f last) (paramBindings f (n + 3) params)
      (naming (f (n + 1)) g.text s) = s₁ := ⟨_, rfl⟩
  rw [hs₁] at hr₁
  have hw : Walks a f n s [word gap "function"]
      (word [' '] g.text :: (paramGroup [] params ++ blockLexemes [' '] body ++ rest))
      (word gap "function").chars s₁ := by
    have h := walks_functionWord (a := a) (f := f) (n := n) (s := s) (k := last) gap [' '] g params body rest (by omega)
    rwa [hs₁, hr₁.openUpTo.close_eq hf (by omega)] at h
  have hn : Walks a f (n + 1) s₁ [word [' '] g.text]
      (paramGroup [] params ++ blockLexemes [' '] body ++ rest) (word [' '] g.text).chars s₁ := by
    refine walks_taken hf g ?_ (hr₁.openUpTo.mono hf (by omega))
    rw [← hs₁]
    exact mem_append_right _ mem_cons_self
  -- The bracket opens no further scope, as a block follows the parameters and no arrow.
  have ho : s₁.passMark ((mark [] '(').token (f (n + 2))) (place f (n + 2 + 1)
      (paramLexemes params ++ mark [] ')' :: (blockLexemes [' '] body ++ rest))) = within .round s₁ := by
    refine passMark_round ?_
    rw [closeGroup_place (isBalanced_params params) rfl]
    rfl
  have ht : ∀ b ∈ paramBindings f (n + 3) params, b.place ∈ s₁.taken := by
    rw [← hs₁]
    exact fun b hb => mem_append_left _ (mem_map_of_mem hb)
  obtain ⟨s₂, hp, hk⟩ := walks_paramGroup (a := a) hf hm ho ht hr₁ (by omega)
  have hr₂ := hr₁.next hk
  subst hs₁
  obtain ⟨s₃, hbl, hk₂⟩ := walks_body (n := mid + 1) hf hbo (by omega) hr₂
    hk.scopes_eq rfl rfl [' '] rest
  refine ⟨s₃, hw.cons (hn.cons (hp.trans hg.symm hbl)), ?_⟩
  rw [hr₀.openUpTo.closed_eq hf (Nat.lt_succ_self last), scopes_naming g params body] at hk₂
  exact (hk.trans hk₂).since rfl rfl

theorem stmtsWalked_cons {st : Stmt} (hs : st.Walked a f)
    (ht : StmtsWalked a f sts) : StmtsWalked a f (st :: sts) := by
  intro gap n s scope rest hr hne
  have hl : n + (stmtLexemes gap (st :: sts)).length = n + (st.lexemes gap).length + (stmtLexemes [' '] sts).length := by
    rw [stmtLexemes, length_append, Nat.add_assoc]
  rw [hl] at hr ⊢
  rw [qualifiedAll, stmtLexemes, stmtLexemes, textOf_append]
  obtain ⟨s₁, hw, hk⟩ := hs gap n s scope (stmtLexemes [' '] sts ++ rest)
    (hr.mono hf (Nat.le_refl n) (Nat.le_add_right _ _)) hne
  have hr₁ : Ready f (n + (st.lexemes gap).length)
      (n + (st.lexemes gap).length + (stmtLexemes [' '] sts).length) (st.declared ++ scope) s₁ := by
    refine hr.grow hne hk.scopes_eq hk.taken_lt fun list hi => ?_
    rw [hk.brackets_eq]
    exact hr.depth_le list (hk.declarations list hi)
  obtain ⟨s₂, hw₂, hk₂⟩ := ht [' '] _ s₁ _ rest hr₁ (hk.scopes_eq ▸ Stmt.grow_ne_nil hne)
  rw [hk.scopes_eq] at hk₂
  exact ⟨s₂, hw.trans rfl hw₂, hk.trans hk₂⟩

end Statements

/-! ### Programs -/

section Programs

variable {a : Ambient} {f : Nat → Nat}

theorem pass_of_isEmpty (ha : a.isEmpty) (s : Surroundings) (prev? : Option ScriptToken)
    (t : ScriptToken) (ts : List ScriptToken) : (s.pass a prev? t ts).2 = t.text := by
  have hg : ∀ x, a.get? x = none := by
    intro x
    rw [Ambient.get?, isEmpty_iff.1 ha]
    rfl
  have hr : ∀ name, s.reference a prev? t name ts = t.text := by
    intro name
    rw [Surroundings.reference, hg, ite_self]
  rw [Surroundings.pass]
  split
  · rw [Surroundings.passWord, hr]
    split_ifs <;> rfl
  · rfl

theorem qualifyTokens_of_isEmpty (ha : a.isEmpty) (ls : List Lexeme) :
    ∀ (n : Nat) (s : Surroundings) (prev? : Option ScriptToken),
      qualifyTokens a s prev? (place f n ls) = textOf ls := by
  induction ls with
  | nil => exact fun _ _ _ => rfl
  | cons l ls ih =>
    intro n s prev?
    rw [place, qualifyTokens_cons, pass_of_isEmpty ha, ih]
    rfl

theorem ready_start (params : List String) (n m : Nat) : Ready f n m params (.start params) where
  visible_iff x := by simp [Visible, Surroundings.start]
  openUpTo o ho := by simp [Surroundings.start] at ho
  taken_lt o ho := absurd ho not_mem_nil
  depth_le list hl := nomatch hl

variable (hf : StrictMono f)
include hf

mutual
theorem walked_operand : ∀ b : Operand, b.Walked a f
  | .name x => Operand.walked_name hf x
  | .member b x => Operand.walked_member hf (walked_operand b) x
  | .call b args => Operand.walked_call hf (walked_operand b) (walked_args args)
theorem walked_expr : ∀ e : Expr, e.Walked a f
  | .operand b => Expr.walked_operand (walked_operand b)
  | .number m => Expr.walked_number hf m
  | .text t => Expr.walked_text hf t
  | .function params body => Expr.walked_function hf params (walked_stmts body)
  | .arrow x body => Expr.walked_arrow hf x (walked_expr body)
theorem walked_stmt : ∀ st : Stmt, st.Walked a f
  | .declare w x v => Stmt.walked_declare hf w x (walked_expr v)
  | .function g params body => Stmt.walked_function hf g params (walked_stmts body)
  | .block body => Stmt.walked_block hf (walked_stmts body)
  | .expression e => Stmt.walked_expression hf (walked_expr e)
theorem walked_args : ∀ args : List Expr, ArgsWalked a f argLexemes args
  | [] => argsWalked_nil rfl
  | e :: es => argsWalked_cons hf (walked_expr e) (walked_moreArgs es)
theorem walked_moreArgs : ∀ args : List Expr, ArgsWalked a f moreArgs args
  | [] => argsWalked_nil rfl
  | e :: es => moreArgsWalked_cons hf (walked_expr e) (walked_moreArgs es)
theorem walked_stmts : ∀ sts : List Stmt, StmtsWalked a f sts
  | [] => stmtsWalked_nil
  | st :: sts => stmtsWalked_cons hf (walked_stmt st) (walked_stmts sts)
end

theorem qualifyTokens_program (params : List String) (program : List Stmt) :
    qualifyTokens a (.start params) none (place f 0 (stmtLexemes [] program)) = print (qualifiedAll a params program) ∧
    overrunsTokens a (.start params) none (place f 0 (stmtLexemes [] program)) = false := by
  obtain ⟨s', hw, -⟩ := walked_stmts hf program [] 0 (.start params) params []
    (ready_start params _ _) (cons_ne_nil _ _)
  obtain ⟨prev'?, -, hw, ho⟩ := hw.qualifyTokens_eq none rfl
  rw [append_nil] at hw ho
  rw [hw, ho]
  exact ⟨append_nil _, rfl⟩

end Programs

theorem qualify_program (a : Ambient) (params : List String) (program : List Stmt) :
    qualify a params (print program) = .ok (print (qualifiedAll a params program)) := by
  obtain ⟨s, f, hs, hf, ht⟩ := exists_tokens_of_print program
  obtain ⟨hp, ho⟩ := qualifyTokens_program (a := a) hf params program
  by_cases he : a.isEmpty
  · rw [qualifyTokens_of_isEmpty he] at hp
    rw [qualify, if_pos he, ← hp]
    rfl
  · rw [qualify_of_source (Bool.eq_false_iff.2 he) hs, ht, ho, if_neg Bool.false_ne_true, hp, append_nil]

/-- **Scoping.** A printed program is written again with its free ambient names replaced and with
nothing else changed. What a name is replaced by is its full form. -/
theorem qualify_print (ambient : Ambient) (params : List String) (program : List Stmt) :
    qualify ambient params (print program) = .ok (print (qualifiedAll ambient params program)) ∧
      ∀ (gap : List Char) (x : Identifier) (access : Access),
        textOf ((x.reached access).lexemes gap) = gap ++ (access.qualify x.text).toList :=
  ⟨qualify_program ambient params program, fun _ x access => textOf_reached x access⟩

/-- A `let` ends with its block and a `var` does not. Members are left alone. -/
example :
    let a : Identifier := ⟨'a', [], by decide, by decide, by decide⟩
    let b : Identifier := ⟨'b', [], by decide, by decide, by decide⟩
    let ambient : Ambient := ⟨[("a", .direct), ("b", .direct)], by decide⟩
    let program : List Stmt :=
      [.block [.declare .letWord a (.operand (.name b)), .declare .varWord b (.operand (.name a))],
        .expression (.operand (.call (.member (.name b) a) [.operand (.name a)]))]
    String.ofList (print program) = "\x7b let a = b; var b = a; \x7d b.a(a);" ∧
      String.ofList (print (qualifiedAll ambient [] program)) =
        "\x7b let a = __self.b; var b = a; \x7d b.a(__self.a);" := by
  decide

end Fragment

end Pagewright
