/-!
# Trees

Trees of labelled nodes with any number of children, and the operations on them that do not depend
on the labels.
-/

namespace Pagewright

/-- A label and the trees below it. -/
inductive Tree (α : Type) where
  | node (label : α) (children : List (Tree α))
deriving Repr

namespace Tree

/-- The label of the topmost node. -/
def label {α : Type} : Tree α → α
  | node label _ => label

@[simp] theorem label_node {α : Type} (own : α) (children : List (Tree α)) : (node own children).label = own := rfl

/-- The trees below the topmost node. -/
def children {α : Type} : Tree α → List (Tree α)
  | node _ children => children

/-- The tree with one more child behind the others. -/
def addChild {α : Type} (t child : Tree α) : Tree α := node t.label (t.children ++ [child])

mutual
/-- The tree with `f` applied to every label. -/
def map {α β : Type} (f : α → β) : Tree α → Tree β
  | node label children => node (f label) (mapAll f children)
/-- The trees with `f` applied to every label. -/
def mapAll {α β : Type} (f : α → β) : List (Tree α) → List (Tree β)
  | [] => []
  | t :: ts => t.map f :: mapAll f ts
end

mutual
/-- The labels, each before those below it. -/
def labels {α : Type} : Tree α → List α
  | node label children => label :: labelsAll children
/-- The labels of some trees in order. -/
def labelsAll {α : Type} : List (Tree α) → List α
  | [] => []
  | t :: ts => t.labels ++ labelsAll ts
end

theorem mem_labelsAll {α : Type} {x : α} {ts : List (Tree α)} : x ∈ labelsAll ts ↔ ∃ t ∈ ts, x ∈ t.labels := by
  induction ts with
  | nil => simp [labelsAll]
  | cons t ts ih => simp [labelsAll, ih]

theorem mem_labels_node {α : Type} {x label : α} {children : List (Tree α)} :
    x ∈ (node label children).labels ↔ x = label ∨ ∃ child ∈ children, x ∈ child.labels := by
  rw [labels, List.mem_cons, mem_labelsAll]

theorem mem_labelsAll_cons {α : Type} {x label : α} {children rest : List (Tree α)} :
    x ∈ labelsAll (node label children :: rest) ↔ x = label ∨ x ∈ labelsAll children ∨ x ∈ labelsAll rest := by
  rw [labelsAll, labels, List.cons_append, List.mem_cons, List.mem_append]

/-- Induction over forests: what holds of the trees below the first node and of those behind it
holds of all. -/
@[elab_as_elim]
theorem forest_induction {α : Type} {motive : List (Tree α) → Prop} (nil : motive [])
    (cons : ∀ label children rest, motive children → motive rest → motive (node label children :: rest)) :
    ∀ ts, motive ts
  | [] => nil
  | node label children :: rest =>
    cons label children rest (forest_induction nil cons children) (forest_induction nil cons rest)

theorem labelsAll_mapAll {α β : Type} (f : α → β) (ts : List (Tree α)) :
    labelsAll (mapAll f ts) = (labelsAll ts).map f := by
  induction ts using forest_induction with
  | nil => rfl
  | cons label children rest ihc ihr => simp [mapAll, map, labelsAll, labels, ihc, ihr]

end Tree

end Pagewright
