import Pagewright.Syntax

/-!
# Class tables

The classes of a source in the order of their declaration, no name twice. Searches along the
parents come to an end because each class is entered at most once: `unseen` counts those left, and
`budget` bounds the steps.
-/

namespace Pagewright

variable {t : ClassTable} {name : String} {seen seen' : List String} {n m : Nat}

/-- Classes in the order of their declaration. -/
structure ClassTable where
  classes : List ClassDef
  nodup : (classes.map ClassDef.name).Nodup

namespace ClassTable

variable {c : ClassDef}

/-- The table without classes. -/
def empty : ClassTable := ⟨[], by simp⟩

/-- The names of the classes in order. -/
def names (t : ClassTable) : List String := t.classes.map ClassDef.name

/-- The class of a name. -/
def get? (t : ClassTable) (name : String) : Option ClassDef := t.classes.find? (·.name = name)

/-- Whether there is a class of a name. -/
def contains (t : ClassTable) (name : String) : Bool := t.names.contains name

/-- The number of classes. -/
def size (t : ClassTable) : Nat := t.classes.length

/-- The table with one more class, if its name is new. -/
def insert? (t : ClassTable) (c : ClassDef) : Option ClassTable :=
  if h : c.name ∈ t.names then none
  else some ⟨t.classes ++ [c], by
    rw [List.map_append, List.nodup_append]
    refine ⟨t.nodup, by simp, ?_⟩
    intro a ha b hb hab
    simp only [List.map_cons, List.map_nil, List.mem_singleton] at hb
    exact h (hb ▸ hab ▸ ha)⟩

theorem mem_names_of_get? (h : t.get? name = some c) : name ∈ t.names := by
  have hn := List.find?_some h
  simp only [decide_eq_true_eq] at hn
  exact List.mem_map.2 ⟨c, List.mem_of_find?_eq_some h, hn⟩

/-! ### Classes not yet seen -/

/-- The number of classes whose names are not among those seen. -/
def unseen (t : ClassTable) (seen : List String) : Nat :=
  (t.names.filter fun name => !seen.contains name).length

theorem length_filter_lt {α : Type} {p q : α → Bool} {l : List α} (hqp : ∀ x ∈ l, q x → p x)
    {a : α} (ha : a ∈ l) (hp : p a) (hq : q a = false) :
    (l.filter q).length < (l.filter p).length := by
  have hf : l.filter q = (l.filter p).filter q := by
    rw [List.filter_filter]
    exact List.filter_congr fun x hx => by cases hqx : q x <;> simp [hqp x hx, hqx]
  rw [hf, List.length_filter_lt_length_iff_exists]
  exact ⟨a, List.mem_filter.2 ⟨ha, hp⟩, by simp [hq]⟩

theorem not_contains_of_subset (h : seen ⊆ seen') (hn : !seen'.contains name) : !seen.contains name := by
  simp only [Bool.not_eq_eq_eq_not, Bool.not_true, List.contains_eq_mem, decide_eq_false_iff_not] at hn ⊢
  exact fun hm => hn (h hm)

/-- Seeing more leaves no more unseen. -/
theorem unseen_le_of_subset (t : ClassTable) (h : seen ⊆ seen') : t.unseen seen' ≤ t.unseen seen := by
  unfold unseen
  rw [← List.countP_eq_length_filter, ← List.countP_eq_length_filter]
  exact List.countP_mono_left fun name _ => not_contains_of_subset h

/-- Seeing a new class leaves fewer unseen. -/
theorem unseen_lt (h : seen ⊆ seen') (hn : name ∈ t.names) (hold : name ∉ seen)
    (hne : name ∈ seen') : t.unseen seen' < t.unseen seen :=
  length_filter_lt (fun name _ => not_contains_of_subset h) hn (by simp [hold]) (by simp [hne])

theorem unseen_cons_lt (hn : name ∈ t.names) (hold : name ∉ seen) : t.unseen (name :: seen) < t.unseen seen :=
  unseen_lt (List.subset_cons_self _ _) hn hold (by simp)

/-! ### The length of searches -/

/-- The largest number of parents that a class has. -/
def maxParents (t : ClassTable) : Nat := (t.classes.map (·.parents.length)).foldr max 0

theorem length_parents_le (h : t.get? name = some c) : c.parents.length ≤ t.maxParents := by
  have hc := List.mem_of_find?_eq_some h
  rw [maxParents]
  generalize t.classes = classes at hc
  induction classes with
  | nil => cases hc
  | cons d classes ih =>
    rw [List.map_cons, List.foldr_cons]
    rcases List.mem_cons.1 hc with rfl | hc
    · exact Nat.le_max_left _ _
    · exact Nat.le_trans (ih hc) (Nat.le_max_right _ _)

/-- A bound for a search that has seen some classes and has some names waiting: it enters each class
left once, whose parents wait then. -/
def budget (t : ClassTable) (seen : List String) (waiting : Nat) : Nat :=
  t.unseen seen * (t.maxParents + 2) + waiting

theorem budget_lt_of_subset (h : seen ⊆ seen') (hn : n < m) : t.budget seen' n < t.budget seen m := by
  have hle := Nat.mul_le_mul_right (t.maxParents + 2) (t.unseen_le_of_subset h)
  unfold budget
  omega

theorem budget_lt_of_unseen_lt (h : t.unseen seen' < t.unseen seen)
    (hn : n ≤ t.maxParents + m + 1) : t.budget seen' n < t.budget seen m := by
  have hle := Nat.mul_le_mul_right (t.maxParents + 2) (Nat.succ_le_of_lt h)
  rw [Nat.succ_mul] at hle
  unfold budget
  omega

end ClassTable

end Pagewright
