import Pagewright.Script.Token

/-!
# Groups and bodies of scripts

Brackets are matched by a stack: an opener is put on it, a closer takes the top off if the two
belong together and is passed over otherwise. On that stand the end of a group, the commas that
divide it, and the last token of the expression, statement or block behind a head.
-/

namespace Pagewright

variable {opened : List Bracket} {ts part : List ScriptToken}

/-- The stack of open brackets behind a token. -/
def openAfter (opened : List Bracket) : ScriptKind → List Bracket
  | .opener b => b :: opened
  | .closer b => if opened.head? = some b then opened.tail else opened
  | _ => opened

/-- What stands between two brackets, the second bracket, and the tokens behind it. -/
structure Group where
  inside : List ScriptToken
  closer : ScriptToken
  after : List ScriptToken

/-- The group that ends where the open brackets are all closed. -/
def closeGroup (opened : List Bracket) : List ScriptToken → Option Group
  | [] => none
  | t :: ts =>
    if (openAfter opened t.kind).isEmpty then some ⟨[], t, ts⟩
    else (closeGroup (openAfter opened t.kind) ts).map fun g => { g with inside := t :: g.inside }

theorem closeGroup_append {g : Group} (h : closeGroup opened ts = some g) : ts = g.inside ++ g.closer :: g.after := by
  induction ts generalizing opened g with
  | nil => simp [closeGroup] at h
  | cons t ts ih =>
    rw [closeGroup] at h
    split at h
    · cases h; rfl
    · obtain ⟨g', hg', rfl⟩ := Option.map_eq_some_iff.1 h
      simp [← ih hg']

theorem closeGroup_length {g : Group}
    (h : closeGroup opened ts = some g) : g.inside.length + g.after.length + 1 = ts.length := by
  rw [closeGroup_append h, List.length_append, List.length_cons]
  omega

/-- Divides tokens at the commas outside all brackets. -/
def splitCommas (opened : List Bracket) : List ScriptToken → List (List ScriptToken)
  | [] => [[]]
  | t :: ts =>
    if opened.isEmpty && t.kind = .comma then [] :: splitCommas opened ts
    else match splitCommas (openAfter opened t.kind) ts with
      | [] => [[t]]
      | part :: parts => (t :: part) :: parts

theorem length_le_of_mem_splitCommas
    (h : part ∈ splitCommas opened ts) : part.length ≤ ts.length := by
  induction ts generalizing opened part with
  | nil => simp_all [splitCommas]
  | cons t ts ih =>
    rw [splitCommas] at h
    split at h
    · rcases List.mem_cons.1 h with rfl | h
      · simp
      · exact Nat.le_succ_of_le (ih h)
    · split at h
      · simp_all
      · next first parts hp =>
        rcases List.mem_cons.1 h with rfl | h
        · have := ih (hp ▸ List.mem_cons_self : first ∈ splitCommas (openAfter opened t.kind) ts)
          simp only [List.length_cons]
          omega
        · exact Nat.le_succ_of_le (ih (hp ▸ List.mem_cons_of_mem _ h))

/-- Whether a token ends the expression before it; a comma does so only on demand. -/
def ScriptKind.endsExpression (atComma : Bool) : ScriptKind → Bool
  | .semicolon => true
  | .closer _ => true
  | .comma => atComma
  | _ => false

/-- The last token of an expression or statement. `previous` is the token before those given, and
`begun` says that it belongs to the expression. A semicolon belongs to what it ends; another ending
token only if nothing stands before it. -/
def expressionEnd (atComma begun : Bool) (opened : List Bracket) (previous : ScriptToken) :
    List ScriptToken → ScriptToken
  | [] => previous
  | t :: ts =>
    if opened.isEmpty && t.kind.endsExpression atComma then
      if t.kind = .semicolon || !begun then t else previous
    else expressionEnd atComma true (openAfter opened t.kind) t ts

/-- The offset of the last token of the body behind a head that ends with `head`: a block, or else
an expression or statement. A block that does not end gives none. -/
def bodyEnd (atComma : Bool) (head : ScriptToken) (after : List ScriptToken) : Option Nat :=
  match after with
  | ⟨.opener .curly, _, _, _⟩ :: ts => (closeGroup [.curly] ts).map (·.closer.start)
  | _ => some (expressionEnd atComma false [] head after).start

/-- The offset of the last token of the body behind a list of parameters. -/
def Group.functionEnd (g : Group) : Option Nat :=
  match g.after with
  | ⟨.arrow, start, gap, text⟩ :: ts => bodyEnd true ⟨.arrow, start, gap, text⟩ ts
  | _ => bodyEnd false g.closer g.after

end Pagewright
