import Pagewright.Proofs.Fragment

/-!
# Lists of scopes

Names go to the innermost open scope or to that of the innermost function, and a statement adds the
names that it declares to these two (`Stmt.grow`). Seen from outside of a block, only the hoisted
names of its statements have been added (`growAll_append`), and behind a statement the names in
scope are those it declares and those from before (`visible_grow`). -/

namespace Pagewright

open List

namespace Fragment

variable {x : String}

/-- Declares names in a scope. -/
def addNames (names : List String) (sc : Scope) : Scope :=
  { sc with names := names ++ sc.names }

/-- The level of the innermost function. -/
def levelOf (scopes : List Scope) : Nat :=
  scopes.length - 1 - (scopes.reverse.findIdx? (·.isFunction)).getD (scopes.length - 1)

/-- A name is declared in one of the scopes. -/
def Visible (scopes : List Scope) (x : String) : Prop := ∃ sc ∈ scopes, x ∈ sc.names

/-- The scopes that do not end behind the token at an offset. -/
def closed (offset : Nat) (scopes : List Scope) : List Scope :=
  scopes.filter (·.last? ≠ some offset)

section Lists

variable {scopes scopes' : List Scope} {sc : Scope} {names : List String} {i o off : Nat}

theorem modify_append_of_lt {g : Scope → Scope} (h : i < scopes.length) (scopes' : List Scope) :
    (scopes ++ scopes').modify i g = scopes.modify i g ++ scopes' := by
  induction scopes generalizing i with
  | nil => cases h
  | cons sc scopes ih =>
    cases i with
    | zero => rfl
    | succ i => simp [ih (Nat.lt_of_succ_lt_succ h)]

theorem modify_append_length (scopes : List Scope) (sc : Scope) (g : Scope → Scope) :
    (scopes ++ [sc]).modify scopes.length g = scopes ++ [g sc] := by
  induction scopes with
  | nil => rfl
  | cons sc' scopes ih => simp [ih]

theorem map_modify_addNames {α : Type} {g : Scope → α} (hg : ∀ sc, g (addNames names sc) = g sc) :
    (scopes.modify i (addNames names)).map g = scopes.map g := by
  induction scopes generalizing i with
  | nil => simp
  | cons sc scopes ih =>
    cases i with
    | zero => simp [hg]
    | succ i => simp [ih]

theorem levelOf_lt (h : scopes ≠ []) : levelOf scopes < scopes.length := by
  have := length_pos_iff.2 h
  rw [levelOf]
  omega

theorem levelOf_append_block (scopes : List Scope) (h : sc.isFunction = false) : levelOf (scopes ++ [sc]) = levelOf scopes := by
  rw [levelOf, levelOf, reverse_append, reverse_singleton, singleton_append, findIdx?_cons, h]
  cases scopes.reverse.findIdx? (·.isFunction) <;> simp
  omega

theorem levelOf_append_function (scopes : List Scope) (h : sc.isFunction) : levelOf (scopes ++ [sc]) = scopes.length := by
  rw [levelOf, reverse_append, reverse_singleton, singleton_append, findIdx?_cons, h]
  simp

theorem levelOf_modify : levelOf (scopes.modify i (addNames names)) = levelOf scopes := by
  have hm : (scopes.modify i (addNames names)).map Scope.isFunction = scopes.map Scope.isFunction := map_modify_addNames fun _ => rfl
  have hf : ∀ l : List Scope, l.reverse.findIdx? (·.isFunction) = (l.map Scope.isFunction).reverse.findIdx? id := by
    intro l
    rw [← map_reverse, findIdx?_map]
    rfl
  rw [levelOf, levelOf, hf, hm, ← hf, length_modify]

theorem visible_append : Visible (scopes ++ scopes') x ↔ Visible scopes x ∨ Visible scopes' x := by
  simp [Visible, or_and_right, exists_or]

theorem visible_modify (h : i < scopes.length) : Visible (scopes.modify i (addNames names)) x ↔ x ∈ names ∨ Visible scopes x := by
  induction scopes generalizing i with
  | nil => cases h
  | cons sc scopes ih =>
    cases i with
    | zero => simp [Visible, addNames, or_assoc]
    | succ i =>
      have ih' := ih (Nat.lt_of_succ_lt_succ h)
      simp only [Visible] at ih' ⊢
      simp only [modify_succ_cons, mem_cons, or_and_right, exists_or, exists_eq_left, ih']
      exact or_left_comm

theorem closed_eq_self (h : ∀ o, some o ∈ scopes.map Scope.last? → off < o) : closed off scopes = scopes := by
  refine filter_eq_self.2 fun sc hs => decide_eq_true fun hl => ?_
  exact Nat.lt_irrefl off (h off (hl ▸ mem_map_of_mem hs))

theorem closed_append (o : Nat) (scopes scopes' : List Scope) :
    closed o (scopes ++ scopes') = closed o scopes ++ closed o scopes' :=
  filter_append scopes scopes'

theorem closed_eq_nil (h : ∀ sc ∈ scopes, sc.last? = some o) :
    closed o scopes = [] := filter_eq_nil_iff.2 fun sc hs => by simp [h sc hs]

end Lists

/-! ### What statements add -/

/-- The scopes behind a statement: hoisted names go to the innermost function, the others to the
innermost scope. -/
def Stmt.grow (st : Stmt) (scopes : List Scope) : List Scope :=
  (scopes.modify (levelOf scopes) (addNames st.hoisted)).modify (scopes.length - 1)
    (addNames st.blockNames)

/-- The scopes behind some statements. -/
def growAll : List Stmt → List Scope → List Scope
  | [], scopes => scopes
  | st :: sts, scopes => growAll sts (st.grow scopes)

section Growth

variable {scopes : List Scope} {sc : Scope} {st : Stmt}

theorem modify_addNames_nil (scopes : List Scope) (i : Nat) : scopes.modify i (addNames []) = scopes := modify_id i scopes

theorem Stmt.grow_of_blockNames (h : st.blockNames = []) (scopes : List Scope) :
    st.grow scopes = scopes.modify (levelOf scopes) (addNames st.hoisted) := by
  rw [grow, h, modify_addNames_nil]

theorem addNames_comp (names names' : List String) : addNames names ∘ addNames names' = addNames (names ++ names') := by
  funext sc
  simp [addNames]

theorem Stmt.grow_ne_nil (h : scopes ≠ []) : st.grow scopes ≠ [] := by
  simpa [grow] using h

theorem Stmt.map_last_grow (st : Stmt) (scopes : List Scope) : (st.grow scopes).map Scope.last? = scopes.map Scope.last? := by
  rw [grow, map_modify_addNames fun _ => rfl, map_modify_addNames fun _ => rfl]

theorem visible_grow (h : scopes ≠ []) : Visible (st.grow scopes) x ↔ x ∈ st.declared ∨ Visible scopes x := by
  have hp := length_pos_iff.2 h
  rw [Stmt.grow, visible_modify (by rw [length_modify]; omega), visible_modify (levelOf_lt h), Stmt.declared, mem_append, or_assoc]

theorem Stmt.grow_append (st : Stmt) (h : scopes ≠ []) (hs : sc.isFunction = false) : st.grow (scopes ++ [sc]) =
      scopes.modify (levelOf scopes) (addNames st.hoisted) ++ [addNames st.blockNames sc] := by
  have hl : (scopes ++ [sc]).length - 1 = (scopes.modify (levelOf scopes) (addNames st.hoisted)).length := by simp
  rw [grow, levelOf_append_block scopes hs, modify_append_of_lt (levelOf_lt h), hl, modify_append_length]

/-- **Blocks.** Below a block, its statements add their hoisted names only. -/
theorem growAll_append (sts : List Stmt) : ∀ {scopes : List Scope} {sc : Scope}, scopes ≠ [] →
    sc.isFunction = false → ∃ sc', sc'.last? = sc.last? ∧ growAll sts (scopes ++ [sc]) =
      scopes.modify (levelOf scopes) (addNames (hoistedAll sts)) ++ [sc'] := by
  induction sts with
  | nil =>
    intro scopes sc h hs
    exact ⟨sc, rfl, by rw [growAll, hoistedAll, modify_addNames_nil]⟩
  | cons st sts ih =>
    intro scopes sc h hs
    have hne : scopes.modify (levelOf scopes) (addNames st.hoisted) ≠ [] := by simpa using h
    obtain ⟨sc', hl, hg⟩ := @ih _ (addNames st.blockNames sc) hne hs
    refine ⟨sc', hl, ?_⟩
    rw [growAll, st.grow_append h hs, hg, levelOf_modify, modify_modify_eq, addNames_comp, hoistedAll]

end Growth

end Fragment

end Pagewright
