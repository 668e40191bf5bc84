import Pagewright.Proofs.Inheritance
import Pagewright.Proofs.ListScopes

/-!
# Hoisted names

What `var` declares, and the name of a function, belong to the function around them. The walk learns
such a name where it reads its declaration, and writes no occurrence of it in full from there to the
end of the function. It does not look ahead, and there are declarations that it does not read. -/

namespace Pagewright

open List Fragment

namespace Fragment

variable {a : Ambient} {x : String}

theorem Identifier.resolved_hide {scope : List String} (hx : x ∈ scope) (y : Identifier) :
    y.resolved (a.hide x) scope = y.resolved a scope := by
  rw [resolved, resolved, Ambient.get?_hide]
  split_ifs with hy hyx
  · rfl
  · exact absurd (hyx ▸ hx) hy
  · rfl

mutual
theorem Operand.qualified_hide : ∀ (b : Operand) {scope : List String}, x ∈ scope →
    b.qualified (a.hide x) scope = b.qualified a scope
  | .name y, _, hx => y.resolved_hide hx
  | .member b y, _, hx => by rw [Operand.qualified, b.qualified_hide hx, Operand.qualified]
  | .call b args, _, hx => by
    rw [Operand.qualified, b.qualified_hide hx, qualifiedArgs_hide args hx, Operand.qualified]
theorem Expr.qualified_hide : ∀ (e : Expr) {scope : List String}, x ∈ scope →
    e.qualified (a.hide x) scope = e.qualified a scope
  | .operand b, _, hx => by rw [Expr.qualified, b.qualified_hide hx, Expr.qualified]
  | .number _, _, _ => rfl
  | .text _, _, _ => rfl
  | .function params body, _, hx => by
    rw [Expr.qualified, qualifiedAll_hide body (mem_append_right _ hx), Expr.qualified]
  | .arrow y body, _, hx => by
    rw [Expr.qualified, body.qualified_hide (mem_cons_of_mem _ hx), Expr.qualified]
theorem Stmt.qualified_hide : ∀ (st : Stmt) {scope : List String}, x ∈ scope →
    st.qualified (a.hide x) scope = st.qualified a scope
  | .declare w y value, _, hx => by
    rw [Stmt.qualified, value.qualified_hide (mem_cons_of_mem _ hx), Stmt.qualified]
  | .function f params body, _, hx => by
    rw [Stmt.qualified, qualifiedAll_hide body (mem_append_right _ (mem_cons_of_mem _ hx)), Stmt.qualified]
  | .block body, _, hx => by rw [Stmt.qualified, qualifiedAll_hide body hx, Stmt.qualified]
  | .expression e, _, hx => by rw [Stmt.qualified, e.qualified_hide hx, Stmt.qualified]
theorem qualifiedArgs_hide : ∀ (es : List Expr) {scope : List String}, x ∈ scope →
    qualifiedArgs (a.hide x) scope es = qualifiedArgs a scope es
  | [], _, _ => rfl
  | e :: es, _, hx => by rw [qualifiedArgs, e.qualified_hide hx, qualifiedArgs_hide es hx, qualifiedArgs]
/-- A name that is in scope may as well be no ambient name. -/
theorem qualifiedAll_hide : ∀ (sts : List Stmt) {scope : List String}, x ∈ scope →
    qualifiedAll (a.hide x) scope sts = qualifiedAll a scope sts
  | [], _, _ => rfl
  | st :: sts, _, hx => by
    rw [qualifiedAll, st.qualified_hide hx, qualifiedAll_hide sts (mem_append_right _ hx), qualifiedAll]
end

/-- The names in scope behind some statements. -/
def scopeBehind (scope : List String) (sts : List Stmt) : List String := sts.foldl (fun scope st => st.declared ++ scope) scope

theorem qualifiedAll_append (scope : List String) (sts behind : List Stmt) : qualifiedAll a scope (sts ++ behind) =
    qualifiedAll a scope sts ++ qualifiedAll a (scopeBehind scope sts) behind := by
  induction sts generalizing scope with
  | nil => rfl
  | cons st sts ih => rw [cons_append, qualifiedAll, ih, qualifiedAll, cons_append, scopeBehind, scopeBehind, foldl_cons]

theorem qualifiedAll_of_mem_hoisted {st : Stmt} (hx : x ∈ st.hoisted) (scope : List String)
    (before behind : List Stmt) : qualifiedAll a scope (before ++ st :: behind) =
      qualifiedAll a scope before ++ st.qualified a (scopeBehind scope before) ::
        qualifiedAll (a.hide x) (scopeBehind scope (before ++ [st])) behind := by
  have hs : scopeBehind scope (before ++ [st]) = st.declared ++ scopeBehind scope before := foldl_concat ..
  have hb : x ∈ st.declared ++ scopeBehind scope before := mem_append_left _ (mem_append_right _ hx)
  rw [qualifiedAll_append, qualifiedAll, hs, qualifiedAll_hide behind hb]

/-- A statement that declares a name for the function around it itself, and not inside a block, is
written as if it was no ambient name. -/
theorem Stmt.qualified_of_mem_hoisted {st : Stmt} (hx : x ∈ st.hoisted) (hb : ∀ body, st ≠ .block body) (scope : List String) :
    st.qualified a scope = st.qualified (a.hide x) scope := by
  cases st with
  | declare w y value =>
    cases w with
    | letWord | constWord => cases hx
    | varWord =>
      cases mem_singleton.1 hx
      rw [Stmt.qualified, Stmt.qualified, value.qualified_hide mem_cons_self]
  | function f params body =>
    cases mem_singleton.1 hx
    rw [Stmt.qualified, Stmt.qualified, qualifiedAll_hide body (mem_append_right _ mem_cons_self)]
  | block body => exact absurd rfl (hb body)
  | expression e => cases hx

end Fragment

/-- **Hoisted names.** A printed program is written by its tree. In every list of statements in it,
of the body or of a function or block, take a statement that declares a name for the function around
it, itself or inside blocks of any depth. What stands before it is written as if the statement did
not follow, and what stands behind it as if the name was no ambient name. So is the statement
itself, unless the declaration is inside a block. -/
theorem qualify_hoisted (ambient : Ambient) (params : List String) (program : List Stmt) :
    qualify ambient params (print program) = .ok (print (qualifiedAll ambient params program)) ∧
      ∀ (st : Stmt), ∀ x ∈ st.hoisted, ∀ scope before behind,
        qualifiedAll ambient scope (before ++ st :: behind) =
          qualifiedAll ambient scope before ++ st.qualified ambient (scopeBehind scope before) ::
            qualifiedAll (ambient.hide x) (scopeBehind scope (before ++ [st])) behind ∧
        ((∀ body, st ≠ .block body) → st.qualified ambient scope = st.qualified (ambient.hide x) scope) := by
  refine ⟨qualify_program ambient params program, fun st x hx scope before behind => ?_⟩
  exact ⟨qualifiedAll_of_mem_hoisted hx scope before behind, fun hb => Stmt.qualified_of_mem_hoisted hx hb scope⟩

/-- The program `x; { var x = x; } x;`, in which a block declares `x` for the whole body. -/
def varInBlock : List Stmt :=
  let read : Expr := .operand (.name readX)
  [.expression read, .block [.declare .varWord readX read], .expression read]

theorem qualify_hoisted_varInBlock :
    print varInBlock = "x; \x7b var x = x; \x7d x;".toList ∧
      qualify (Ambient.empty.put "x" .direct) [] (print varInBlock) = .ok "__self.x; \x7b var x = x; \x7d x;".toList := by
  refine ⟨by decide, (qualify_hoisted _ [] varInBlock).1.trans (congrArg Except.ok ?_)⟩
  decide

/-- An occurrence of a hoisted name is written in full before its declaration, and behind a
declaration that the walk does not read or takes as one inside a function that is over. -/
theorem qualify_not_hoisted :
    qualify ambientC [] "c; var c;".toList = .ok "__self.c; var c;".toList ∧
      qualify ambientC [] "c(); function c() \x7b\x7d".toList = .ok "__self.c(); function c() \x7b\x7d".toList ∧
      qualify ambientC [] "const f = x => x\nvar c = 2; c;".toList = .ok "const f = x => x\nvar c = 2; __self.c;".toList ∧
      qualify ambientC [] "var \x7b 'x': c \x7d = o; c;".toList = .ok "var \x7b 'x': __self.c \x7d = o; __self.c;".toList := by
  decide +kernel

end Pagewright
