import Pagewright.Proofs.Fragment

/-!
# Balanced tokens

The searches for the end of a group and of an expression pass over balanced tokens
(`closeGroup_append_of_balanced`, `expressionEnd_append`). The lexemes of every construct are
balanced, those of an expression with no comma and no semicolon outside of brackets
(`balanced_expr`). -/

namespace Pagewright

open List

variable {k : ScriptKind} {b : Bracket} {l l' : Lexeme}

namespace Fragment

variable {loose : Bool} {ks : List ScriptKind} {rest ts : List ScriptToken}

/-- Whether a token is no bracket and, unless commas and semicolons may stand there, none of
these. -/
def isPlain (loose : Bool) : ScriptKind → Bool
  | .opener _ | .closer _ => false
  | .comma | .semicolon => loose
  | _ => true

/-- All brackets match. Whether commas and semicolons may stand outside of them is said by
`loose`. -/
inductive Balanced : Bool → List ScriptKind → Prop where
  | nil {loose : Bool} : Balanced loose []
  | plain {loose : Bool} {k : ScriptKind} {ks : List ScriptKind} (hk : isPlain loose k = true)
      (h : Balanced loose ks) : Balanced loose (k :: ks)
  | group {loose : Bool} {b : Bracket} {inside ks : List ScriptKind} (hinside : Balanced true inside)
      (h : Balanced loose ks) : Balanced loose (.opener b :: inside ++ .closer b :: ks)

theorem isPlain_true_of_isPlain (h : isPlain loose k) : isPlain true k := by
  cases k with
  | opener | closer => exact h
  | _ => rfl

namespace Balanced

variable {loose : Bool} {ks ks' : List ScriptKind}

theorem append (h : Balanced loose ks) (h' : Balanced loose ks') : Balanced loose (ks ++ ks') := by
  induction h with
  | nil => exact h'
  | plain hk _ ih => exact .plain hk (ih h')
  | @group loose b inside ks hi _ _ ih =>
    have hg := Balanced.group (b := b) hi (ih h')
    rwa [← cons_append, ← append_assoc] at hg

theorem loosen (h : Balanced loose ks) : Balanced true ks := by
  induction h with
  | nil => exact .nil
  | plain hk _ ih => exact .plain (isPlain_true_of_isPlain hk) ih
  | group hi _ _ ih => exact .group hi ih

end Balanced

/-! ### Looking ahead -/

theorem openAfter_of_isPlain (h : isPlain loose k) (opened : List Bracket) : openAfter opened k = opened := by
  cases k with
  | opener | closer => cases h
  | _ => rfl

theorem endsExpression_of_isPlain (h : isPlain false k) (atComma : Bool) : k.endsExpression atComma = false := by
  cases k with
  | closer | comma | semicolon => cases h
  | _ => rfl

theorem closeGroup_append_of_balanced (h : Balanced loose ks) :
    ∀ {ts : List ScriptToken}, ts.map ScriptToken.kind = ks → ∀ {opened : List Bracket},
      opened ≠ [] → ∀ rest : List ScriptToken, closeGroup opened (ts ++ rest) =
          (closeGroup opened rest).map fun g => { g with inside := ts ++ g.inside } := by
  induction h with
  | nil =>
    intro ts hs opened _ rest
    rw [map_eq_nil_iff.1 hs]
    simp
  | @plain _ k ks hk _ ih =>
    intro ts hs opened ho rest
    obtain ⟨t, ts, rfl, rfl, ha⟩ := map_eq_cons_iff.1 hs
    rw [cons_append, closeGroup, openAfter_of_isPlain hk, if_neg (by simpa using ho), ih ha ho, Option.map_map]
    rfl
  | @group _ b inside ks _ _ ihinside ih =>
    intro ts hs opened ho rest
    obtain ⟨t, ts, rfl, ht, hs⟩ := map_eq_cons_iff.1 hs
    obtain ⟨front, back, rfl, hf, hb⟩ := map_eq_append_iff.1 hs
    obtain ⟨u, us, rfl, hu, hus⟩ := map_eq_cons_iff.1 hb
    have hc : openAfter (b :: opened) u.kind = opened := by simp [hu, openAfter]
    rw [cons_append, closeGroup, ht, openAfter, if_neg (by simp), append_assoc,
      ihinside hf (cons_ne_nil b opened), cons_append, closeGroup, hc,
      if_neg (by simpa using ho), ih hus ho, Option.map_map, Option.map_map, Option.map_map]
    congr 1
    funext g
    simp

theorem closeGroup_of_balanced {close : ScriptToken} (h : Balanced loose (ts.map ScriptToken.kind)) (hc : close.kind = .closer b) :
    closeGroup [b] (ts ++ close :: rest) = some ⟨ts, close, rest⟩ := by
  rw [closeGroup_append_of_balanced h rfl (cons_ne_nil b []), closeGroup, hc]
  simp [openAfter]

theorem expressionEnd_append (h : Balanced loose ks) :
    ∀ {ts : List ScriptToken}, ts.map ScriptToken.kind = ks → ∀ {opened : List Bracket},
      (opened = [] → loose = false) → ∀ (atComma begun : Bool) (previous : ScriptToken) (rest : List ScriptToken),
        expressionEnd atComma begun opened previous (ts ++ rest) =
          expressionEnd atComma (begun || !ts.isEmpty) opened (ts.getLastD previous) rest := by
  induction h with
  | nil =>
    intro ts hs opened _ atComma begun previous rest
    rw [map_eq_nil_iff.1 hs]
    simp
  | @plain _ k ks hk _ ih =>
    intro ts hs opened ho atComma begun previous rest
    obtain ⟨t, ts, rfl, rfl, ha⟩ := map_eq_cons_iff.1 hs
    have hg : (opened.isEmpty && t.kind.endsExpression atComma) = false := by
      cases opened with
      | cons b opened => rfl
      | nil =>
        rw [ho rfl] at hk
        exact endsExpression_of_isPlain hk atComma
    rw [cons_append, expressionEnd, if_neg (by simp [hg]), openAfter_of_isPlain hk, ih ha ho]
    simp [getLast?_cons]
  | @group _ b inside ks _ _ ihinside ih =>
    intro ts hs opened ho atComma begun previous rest
    obtain ⟨t, ts, rfl, ht, hs⟩ := map_eq_cons_iff.1 hs
    obtain ⟨front, back, rfl, hf, hb⟩ := map_eq_append_iff.1 hs
    obtain ⟨u, us, rfl, hu, hus⟩ := map_eq_cons_iff.1 hb
    have hc : openAfter (b :: opened) u.kind = opened := by simp [hu, openAfter]
    rw [cons_append, expressionEnd, ht, if_neg (by simp [ScriptKind.endsExpression]), openAfter, append_assoc,
      ihinside hf (fun h => absurd h (cons_ne_nil b opened)), cons_append, expressionEnd,
      hc, ih hus ho]
    simp [getLast?_cons]

/-! ### Programs are balanced -/

section Programs

variable {loose : Bool} {gap gap' : List Char} {inside ls ls' : List Lexeme}

/-- Lexemes whose kinds are balanced. -/
def IsBalanced (loose : Bool) (ls : List Lexeme) : Prop := Balanced loose (ls.map Lexeme.kind)

theorem isBalanced_nil : IsBalanced loose [] := .nil

theorem isBalanced_cons (hl : isPlain loose l.kind) (h : IsBalanced loose ls) : IsBalanced loose (l :: ls) := .plain hl h

theorem IsBalanced.append (h : IsBalanced loose ls) (h' : IsBalanced loose ls') : IsBalanced loose (ls ++ ls') := by
  rw [IsBalanced, map_append]
  exact Balanced.append h h'

theorem isBalanced_group (hl : l.kind = .opener b) (hl' : l'.kind = .closer b)
    (hi : IsBalanced true inside) (h : IsBalanced loose ls) :
    IsBalanced loose (l :: inside ++ l' :: ls) := by
  rw [IsBalanced, map_append, map_cons, map_cons, hl, hl']
  exact .group hi h

theorem isBalanced_numeral (n : Numeral) : IsBalanced loose (n.lexemes gap) := by
  have he : IsBalanced loose (exponentLexemes n.exponent?) := by
    cases n.exponent? with
    | none => exact isBalanced_nil
    | some e =>
      refine isBalanced_cons ?_ (isBalanced_cons rfl isBalanced_nil)
      cases e.1 <;> rfl
  rw [Numeral.lexemes]
  split
  · exact isBalanced_cons rfl (isBalanced_cons rfl he)
  · exact isBalanced_cons rfl he

theorem isBalanced_moreParams (xs : List Identifier) : IsBalanced true (moreParams xs) := by
  induction xs with
  | nil => exact isBalanced_nil
  | cons x xs ih => exact isBalanced_cons rfl (isBalanced_cons rfl ih)

theorem isBalanced_params (xs : List Identifier) : IsBalanced true (paramLexemes xs) := by
  cases xs with
  | nil => exact isBalanced_nil
  | cons x xs => exact isBalanced_cons rfl (isBalanced_moreParams xs)

theorem isBalanced_block (h : IsBalanced true inside) (hl : IsBalanced loose ls) :
    IsBalanced loose (mark gap '{' :: inside ++ mark gap' '}' :: ls) := isBalanced_group rfl rfl h hl

mutual
theorem isBalanced_operand (gap : List Char) : ∀ b : Operand, IsBalanced false (b.lexemes gap)
  | .name x => isBalanced_cons rfl isBalanced_nil
  | .member b x =>
    (isBalanced_operand gap b).append (isBalanced_cons rfl (isBalanced_cons rfl isBalanced_nil))
  | .call b args => by
    rw [Operand.lexemes, append_assoc]
    exact (isBalanced_operand gap b).append (isBalanced_group rfl rfl (isBalanced_args args) isBalanced_nil)
theorem isBalanced_expr (gap : List Char) : ∀ e : Expr, IsBalanced false (e.lexemes gap)
  | .operand b => isBalanced_operand gap b
  | .number n => isBalanced_numeral n
  | .text t => isBalanced_cons rfl isBalanced_nil
  | .function params body => by
    rw [Expr.lexemes, append_assoc]
    exact isBalanced_group rfl rfl (isBalanced_params params)
      (isBalanced_cons rfl (isBalanced_block (isBalanced_stmts [' '] body) isBalanced_nil))
  | .arrow x body => isBalanced_cons rfl (isBalanced_cons rfl (isBalanced_expr [' '] body))
theorem isBalanced_stmt (gap : List Char) : ∀ st : Stmt, IsBalanced true (st.lexemes gap)
  | .declare w x v => by
    have hv : IsBalanced true (v.lexemes [' ']) := (isBalanced_expr [' '] v).loosen
    exact isBalanced_cons rfl (isBalanced_cons rfl (isBalanced_cons rfl (hv.append (isBalanced_cons rfl isBalanced_nil))))
  | .function f params body => by
    rw [Stmt.lexemes, append_assoc]
    exact isBalanced_cons rfl (isBalanced_cons rfl (isBalanced_group rfl rfl (isBalanced_params params)
      (isBalanced_block (isBalanced_stmts [' '] body) isBalanced_nil)))
  | .block body => isBalanced_block (isBalanced_stmts [' '] body) isBalanced_nil
  | .expression e => by
    have he : IsBalanced true (e.lexemes gap) := (isBalanced_expr gap e).loosen
    exact he.append (isBalanced_cons rfl isBalanced_nil)
theorem isBalanced_args : ∀ args : List Expr, IsBalanced true (argLexemes args)
  | [] => isBalanced_nil
  | e :: es => IsBalanced.append (isBalanced_expr [] e).loosen (isBalanced_moreArgs es)
theorem isBalanced_moreArgs : ∀ args : List Expr, IsBalanced true (moreArgs args)
  | [] => isBalanced_nil
  | e :: es =>
    isBalanced_cons rfl (IsBalanced.append (isBalanced_expr [' '] e).loosen (isBalanced_moreArgs es))
theorem isBalanced_stmts (gap : List Char) : ∀ sts : List Stmt, IsBalanced true (stmtLexemes gap sts)
  | [] => isBalanced_nil
  | st :: sts => (isBalanced_stmt gap st).append (isBalanced_stmts [' '] sts)
end

end Programs

/-! ### Looking ahead at lexemes in place -/

section Placed

variable {f : Nat → Nat} {n : Nat} {loose : Bool} {ls rest : List Lexeme}

theorem map_kind_place (f : Nat → Nat) (n : Nat) (ls : List Lexeme) :
    (place f n ls).map ScriptToken.kind = ls.map Lexeme.kind := by
  induction ls generalizing n with
  | nil => rfl
  | cons l ls ih => rw [place, map_cons, ih]; rfl

theorem closeGroup_place (h : IsBalanced loose ls) (hl : l.kind = .closer b) : closeGroup [b] (place f n (ls ++ l :: rest)) =
      some ⟨place f n ls, l.token (f (n + ls.length)), place f (n + ls.length + 1) rest⟩ := by
  rw [IsBalanced, ← map_kind_place f n] at h
  rw [place_append]
  exact closeGroup_of_balanced h hl

theorem getLastD_place (h : ls ≠ []) (previous : ScriptToken) :
    ((place f n ls).getLastD previous).start = f (n + ls.length - 1) := by
  induction ls generalizing n previous with
  | nil => exact absurd rfl h
  | cons l ls ih =>
    cases ls with
    | nil => rfl
    | cons l' ls =>
      rw [place, getLastD_cons, ih (cons_ne_nil l' ls)]
      congr 1
      simp only [length_cons]
      omega

theorem expressionEnd_place (h : IsBalanced false ls) (hne : ls ≠ []) (hl : l.kind.endsExpression true) (previous : ScriptToken) :
    (expressionEnd true false [] previous (place f n (ls ++ l :: rest))).start =
      if l.kind = .semicolon then f (n + ls.length) else f (n + ls.length - 1) := by
  rw [IsBalanced, ← map_kind_place f n] at h
  have hb : (place f n ls).isEmpty = false := by
    cases ls with
    | nil => exact absurd rfl hne
    | cons l ls => rfl
  rw [place_append, expressionEnd_append h rfl fun _ => rfl, place, expressionEnd, hb]
  have hk : (l.token (f (n + ls.length))).kind = l.kind := rfl
  simp only [hk, hl]
  by_cases hs : l.kind = .semicolon
  · simp [hs, Lexeme.token]
  · simp [hs, ← getLastD_place hne previous]

end Placed

end Fragment

end Pagewright
