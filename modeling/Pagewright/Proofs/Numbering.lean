import Mathlib.Data.List.Nodup
import Mathlib.Data.List.Range
import Pagewright.Behavior.Plan
import Pagewright.Markup.Element
import Pagewright.Proofs.Forest

/-!
# Who has which number

Numbers are given out by the markup, to the instances that have an element, and by the plan of the
script, to those that need a unit and have none yet. `settleNodes` writes the latter into the page,
so that one forest holds both. In it the instances with an element (`shown`: no void element above)
carry consecutive numbers in the order of the source, and so do the others that need a unit, from
where the counter then stands (`settleNodes_numberNodes`). The plan is this forest thinned out
(`planAllPlaced_eq`, `planAllCreated_eq`). -/

namespace Pagewright

open List Address Pagewright.Tree
open Placed (toInstance unplaced)
open ClassTable (element numberNodes)

variable {l₁ l₂ : List (Address × PlacedNode)} {s : Address × PlacedNode} {i j k n : Nat}

/-! ### Instances with an element -/

namespace ClassTable

variable (t : ClassTable)

/-- Whether the element of an instance has no content. -/
def isVoidSite (s : Address × PlacedNode) : Bool := isVoid (t.resolveTag s.2.label.entries)

/-- No element without content stands above. -/
def IsShown (sites : List (Address × PlacedNode)) (s : Address × PlacedNode) : Prop :=
  IsTopmost (sites.filter t.isVoidSite) s

instance (sites : List (Address × PlacedNode)) (s : Address × PlacedNode) :
    Decidable (t.IsShown sites s) := inferInstanceAs (Decidable (IsTopmost _ s))

/-- The instances that have an element. -/
def shown (sites : List (Address × PlacedNode)) : List (Address × PlacedNode) :=
  sites.filter fun s => t.IsShown sites s

/-- The instances that have no element. -/
def hidden (sites : List (Address × PlacedNode)) : List (Address × PlacedNode) :=
  sites.filter fun s => ¬ t.IsShown sites s

theorem isShown_append_left (h : Apart l₁ l₂) (hs : s ∈ l₁) : t.IsShown (l₁ ++ l₂) s ↔ t.IsShown l₁ s := by
  refine isTopmost_congr fun q hq => ?_
  rw [mem_filter, mem_filter, h.mem_left hs q hq]

theorem isShown_append_right (h : Apart l₁ l₂) (hs : s ∈ l₂) : t.IsShown (l₁ ++ l₂) s ↔ t.IsShown l₂ s := by
  refine isTopmost_congr fun q hq => ?_
  rw [mem_filter, mem_filter, h.mem_right hs q hq]

theorem shown_append (h : Apart l₁ l₂) : t.shown (l₁ ++ l₂) = t.shown l₁ ++ t.shown l₂ := by
  simp only [shown, filter_append]
  congr 1
  · exact filter_congr fun s hs => decide_eq_decide.2 (t.isShown_append_left h hs)
  · exact filter_congr fun s hs => decide_eq_decide.2 (t.isShown_append_right h hs)

theorem hidden_append (h : Apart l₁ l₂) : t.hidden (l₁ ++ l₂) = t.hidden l₁ ++ t.hidden l₂ := by
  simp only [hidden, filter_append]
  congr 1
  · exact filter_congr fun s hs => decide_eq_decide.2 (not_congr (t.isShown_append_left h hs))
  · exact filter_congr fun s hs => decide_eq_decide.2 (not_congr (t.isShown_append_right h hs))

variable {t} {top : Address × PlacedNode} {below : List (Address × PlacedNode)}

theorem isShown_cons_of_not_void (hv : t.isVoidSite top = false) (s : Address × PlacedNode) :
    t.IsShown (top :: below) s ↔ t.IsShown below s := by
  refine isTopmost_congr fun q _ => ?_
  rw [filter_cons, hv]
  simp

section

variable (h : ∀ s ∈ below, Above top.1 s.1)
include h

theorem isShown_cons_self : t.IsShown (top :: below) top := by
  intro q hq
  rcases mem_cons.1 (mem_of_mem_filter hq) with rfl | hq
  · exact Above.irrefl _
  · exact (h q hq).asymm

theorem not_isShown_cons_of_void (hv : t.isVoidSite top) (hs : s ∈ below) :
    ¬ t.IsShown (top :: below) s :=
  fun hh => hh top (mem_filter.2 ⟨mem_cons_self, hv⟩) (h s hs)

theorem shown_cons_of_void (hv : t.isVoidSite top) : t.shown (top :: below) = [top] := by
  have hn : below.filter (fun s => decide (t.IsShown (top :: below) s)) = [] := by
    refine filter_eq_nil_iff.2 fun s hs => ?_
    rw [decide_eq_true_eq]
    exact not_isShown_cons_of_void h hv hs
  simp [shown, isShown_cons_self h, hn]

theorem hidden_cons_of_void (hv : t.isVoidSite top) : t.hidden (top :: below) = below := by
  have ha : below.filter (fun s => decide (¬ t.IsShown (top :: below) s)) = below := by
    refine filter_eq_self.2 fun s hs => ?_
    rw [decide_eq_true_eq]
    exact not_isShown_cons_of_void h hv hs
  rw [hidden, filter_cons, ha, if_neg]
  rw [decide_eq_true_eq]
  exact fun hn => hn (isShown_cons_self h)

theorem shown_cons_of_not_void (hv : t.isVoidSite top = false) :
    t.shown (top :: below) = top :: t.shown below := by
  rw [shown, filter_cons, if_pos (decide_eq_true (isShown_cons_self h))]
  congr 1
  exact filter_congr fun s _ => decide_eq_decide.2 (isShown_cons_of_not_void hv s)

theorem hidden_cons_of_not_void (hv : t.isVoidSite top = false) :
    t.hidden (top :: below) = t.hidden below := by
  rw [hidden, filter_cons, if_neg]
  · exact filter_congr fun s _ => decide_eq_decide.2 (not_congr (isShown_cons_of_not_void hv s))
  · rw [decide_eq_true_eq]
    exact fun hn => hn (isShown_cons_self h)

end

theorem labelsAll_elements (a : Address) (k : Nat) (nodes : List PlacedNode) :
    labelsAll (t.elements nodes) = (t.shown (sitesAll a k nodes)).map fun s => t.elementHead s.2.label := by
  induction nodes using forest_induction generalizing a k with
  | nil => rfl
  | cons own children rest ihc ihr =>
    have ha : ∀ s ∈ sitesAll (a ++ [k]) 0 children, Above (a ++ [k], node own children).1 s.1 := fun s hs => above_of_mem_sitesAll hs
    have hi : (t.element (.node own children)).labels = t.elementHead own ::
        labelsAll (if t.isVoidSite (a ++ [k], .node own children) then [] else t.elements children) := rfl
    have hf : (t.element (.node own children)).labels =
        (t.shown ((node own children).sites (a ++ [k]))).map fun s => t.elementHead s.2.label := by
      rw [hi, sites]
      cases hv : t.isVoidSite (a ++ [k], .node own children) with
      | true => rw [shown_cons_of_void ha hv]; rfl
      | false =>
        rw [shown_cons_of_not_void ha hv, if_neg Bool.false_ne_true, ihc (a ++ [k]) 0]
        rfl
    simp only [elements, labelsAll, sitesAll, t.shown_append (apart_sites a k _ rest), map_append, hf, ihr a (k + 1)]

end ClassTable

/-! ### Runs of numbers -/

/-- The numbers given out while the counter goes from `i` to `j`. -/
def given (i j : Nat) : List Nat := List.range' (i + 1) (j - i)

@[simp]
theorem given_self (i : Nat) : given i i = [] := by rw [given, Nat.sub_self]; rfl

theorem given_append (hi : i ≤ j) (hj : j ≤ k) : given i j ++ given j k = given i k := by
  have hs : j + 1 = i + 1 + (j - i) := by omega
  have hl : k - i = (j - i) + (k - j) := by omega
  rw [given, given, given, hs, range'_append_1, ← hl]

theorem cons_given (h : i < k) : (i + 1) :: given (i + 1) k = given i k := by
  have ho : given i (i + 1) = [i + 1] := by simp [given]
  rw [← given_append (Nat.le_succ i) h, ho]
  rfl

theorem mem_given : n ∈ given i j ↔ i < n ∧ n ≤ j := by
  rw [given, mem_range'_1]
  omega

theorem nodup_given (i j : Nat) : (given i j).Nodup := nodup_range'

/-! ### Settling the numbers -/

/-- An instance that needs a number and has none gets the next one. -/
def Placed.settle (needs : Instance → Bool) (issued : Nat) (own : Placed) : Placed × Nat :=
  if own.id?.isNone && needs own.toInstance then ({ own with id? := some (issued + 1) }, issued + 1)
  else (own, issued)

mutual
/-- An instance and those inside it with the missing numbers, and how many are given out then. -/
def settleNode (needs : Instance → Bool) (issued : Nat) : PlacedNode → PlacedNode × Nat
  | .node own children =>
    let first := own.settle needs issued
    let rest := settleNodes needs first.2 children
    (.node first.1 rest.1, rest.2)
/-- Instances with the missing numbers, and how many are given out then. -/
def settleNodes (needs : Instance → Bool) (issued : Nat) : List PlacedNode → List PlacedNode × Nat
  | [] => ([], issued)
  | first :: rest =>
    let settled := settleNode needs issued first
    let others := settleNodes needs settled.2 rest
    (settled.1 :: others.1, others.2)
end

section Settle

variable {needs : Instance → Bool} {issued id : Nat} {own : Placed}

theorem Placed.settle_of_some (h : own.id? = some id) : own.settle needs issued = (own, issued) := by
  rw [settle, h]
  rfl

theorem Placed.settle_of_needs (h : own.id? = none) (hn : needs own.toInstance) :
    own.settle needs issued = ({ own with id? := some (issued + 1) }, issued + 1) := by
  rw [settle, h, hn]
  rfl

theorem Placed.settle_of_not_needs (hn : needs own.toInstance = false) : own.settle needs issued = (own, issued) := by
  rw [settle, hn, Bool.and_false]
  rfl

theorem Placed.toInstance_settle (needs : Instance → Bool) (issued : Nat) (own : Placed) :
    (own.settle needs issued).1.toInstance = own.toInstance := by
  rw [settle]
  split <;> rfl

theorem mapAll_toInstance_settleNodes (needs : Instance → Bool) (issued : Nat) (nodes : List PlacedNode) :
    mapAll toInstance (settleNodes needs issued nodes).1 = mapAll toInstance nodes := by
  induction nodes using forest_induction generalizing issued with
  | nil => rfl
  | cons own children rest ihc ihr =>
    simp only [settleNodes, settleNode, mapAll, Tree.map, Placed.toInstance_settle, ihc, ihr]

theorem settleNodes_unplaced (needs : Instance → Bool) (issued : Nat) (nodes : List Node) :
    issued ≤ (settleNodes needs issued (mapAll unplaced nodes)).2 ∧
      (labelsAll (settleNodes needs issued (mapAll unplaced nodes)).1).filterMap Placed.id? =
        given issued (settleNodes needs issued (mapAll unplaced nodes)).2 ∧
      ∀ own ∈ labelsAll (settleNodes needs issued (mapAll unplaced nodes)).1, own.id?.isSome = needs own.toInstance := by
  induction nodes using forest_induction generalizing issued with
  | nil => simp [mapAll, settleNodes, labelsAll]
  | cons own children rest ihc ihr =>
    obtain ⟨hle, hi, hs⟩ := ihc ((unplaced own).settle needs issued).2
    obtain ⟨hl', hi', hs'⟩ := ihr
      (settleNodes needs ((unplaced own).settle needs issued).2 (mapAll unplaced children)).2
    have ho : issued ≤ ((unplaced own).settle needs issued).2 ∧ ((unplaced own).settle needs issued).1.id?.toList =
          given issued ((unplaced own).settle needs issued).2 ∧
        ((unplaced own).settle needs issued).1.id?.isSome = needs ((unplaced own).settle needs issued).1.toInstance := by
      cases hn : needs own with
      | true =>
        rw [Placed.settle_of_needs rfl hn]
        exact ⟨Nat.le_succ issued, by rw [← cons_given (Nat.lt_succ_self issued), given_self]; rfl, hn.symm⟩
      | false =>
        rw [Placed.settle_of_not_needs hn]
        exact ⟨Nat.le_refl issued, by rw [given_self]; rfl, hn.symm⟩
    simp only [mapAll, Tree.map, settleNodes, settleNode, labelsAll, labels]
    refine ⟨ho.1.trans (hle.trans hl'), ?_, ?_⟩
    · have hc (x : Placed) (xs : List Placed) :
          (x :: xs).filterMap Placed.id? = x.id?.toList ++ xs.filterMap Placed.id? := by
        cases hx : x.id? <;> simp [hx]
      rw [cons_append, hc, ho.2.1, filterMap_append, hi, hi', given_append hle hl', given_append ho.1 (hle.trans hl')]
    · rw [cons_append, forall_mem_cons, forall_mem_append]
      exact ⟨ho.2.2, hs, hs'⟩

end Settle

/-! ### The settled page -/

/-- In a settled page the markup gave out the numbers from `issued` to `issued'`, one to each
instance with an element, and the plan those from `fresh` to `fresh'`, one to each other that needs
one. -/
structure IsSettled (t : ClassTable) (needs : Instance → Bool) (issued issued' fresh fresh' : Nat)
    (sites : List (Address × PlacedNode)) : Prop where
  shown_le : issued ≤ issued'
  hidden_le : fresh ≤ fresh'
  shown_ids : (t.shown sites).map (·.2.label.id?) = (given issued issued').map some
  hidden_ids : (t.hidden sites).filterMap (·.2.label.id?) = given fresh fresh'
  hidden_isSome : ∀ s ∈ t.hidden sites, s.2.label.id?.isSome = needs s.2.label.toInstance

namespace IsSettled

variable {t : ClassTable} {needs : Instance → Bool} {issued issued' issued'' fresh fresh' fresh'' : Nat}

theorem append (ha : Apart l₁ l₂) (h₁ : IsSettled t needs issued issued' fresh fresh' l₁)
    (h₂ : IsSettled t needs issued' issued'' fresh' fresh'' l₂) : IsSettled t needs issued issued'' fresh fresh'' (l₁ ++ l₂) where
  shown_le := h₁.shown_le.trans h₂.shown_le
  hidden_le := h₁.hidden_le.trans h₂.hidden_le
  shown_ids := by
    rw [t.shown_append ha, map_append, h₁.shown_ids, h₂.shown_ids, ← map_append, given_append h₁.shown_le h₂.shown_le]
  hidden_ids := by
    rw [t.hidden_append ha, filterMap_append, h₁.hidden_ids, h₂.hidden_ids, given_append h₁.hidden_le h₂.hidden_le]
  hidden_isSome s hs := by
    rw [t.hidden_append ha] at hs
    rcases mem_append.1 hs with hs | hs
    · exact h₁.hidden_isSome s hs
    · exact h₂.hidden_isSome s hs

variable {top : Address × PlacedNode} {below : List (Address × PlacedNode)}

theorem cons_of_void (ha : ∀ s ∈ below, Above top.1 s.1) (hv : t.isVoidSite top)
    (hid : top.2.label.id? = some (issued + 1)) (hle : fresh ≤ fresh') (hi : below.filterMap (·.2.label.id?) = given fresh fresh')
    (ho : ∀ s ∈ below, s.2.label.id?.isSome = needs s.2.label.toInstance) :
    IsSettled t needs issued (issued + 1) fresh fresh' (top :: below) where
  shown_le := Nat.le_succ issued
  hidden_le := hle
  shown_ids := by
    rw [ClassTable.shown_cons_of_void ha hv, ← cons_given (Nat.lt_succ_self issued), given_self, map_singleton, hid]
    rfl
  hidden_ids := by rw [ClassTable.hidden_cons_of_void ha hv, hi]
  hidden_isSome s hs := by
    rw [ClassTable.hidden_cons_of_void ha hv] at hs
    exact ho s hs

theorem cons_of_not_void (ha : ∀ s ∈ below, Above top.1 s.1) (hv : t.isVoidSite top = false)
    (hid : top.2.label.id? = some (issued + 1))
    (h : IsSettled t needs (issued + 1) issued' fresh fresh' below) : IsSettled t needs issued issued' fresh fresh' (top :: below) where
  shown_le := Nat.le_of_succ_le h.shown_le
  hidden_le := h.hidden_le
  shown_ids := by
    rw [ClassTable.shown_cons_of_not_void ha hv, ← cons_given h.shown_le, map_cons, hid, h.shown_ids, map_cons]
  hidden_ids := by rw [ClassTable.hidden_cons_of_not_void ha hv, h.hidden_ids]
  hidden_isSome s hs := by
    rw [ClassTable.hidden_cons_of_not_void ha hv] at hs
    exact h.hidden_isSome s hs

end IsSettled

theorem mapAll_toInstance_unplaced (nodes : List Node) : mapAll toInstance (mapAll unplaced nodes) = nodes := by
  induction nodes using forest_induction with
  | nil => rfl
  | cons own children rest ihc ihr => rw [mapAll, mapAll, Tree.map, Tree.map, ihc, ihr, unplaced]

section

variable (t : ClassTable) {own : Instance}

theorem ClassTable.numberNode_of_void (hv : isVoid (t.resolveTag own.entries)) (issued : Nat)
    (children : List Node) : t.numberNode issued (.node own children) =
      (.node { own with id? := some (issued + 1) } (mapAll unplaced children), issued + 1) := by
  rw [numberNode, if_pos hv]

/-- A node whose element has content, numbered. -/
theorem ClassTable.numberNode_of_not_void (hv : isVoid (t.resolveTag own.entries) = false) (issued : Nat) (children : List Node) :
    t.numberNode issued (.node own children) = (.node { own with id? := some (issued + 1) } (t.numberNodes (issued + 1) children).1,
        (t.numberNodes (issued + 1) children).2) := by
  rw [numberNode, if_neg (Bool.eq_false_iff.1 hv)]

theorem mapAll_toInstance_numberNodes (issued : Nat) (nodes : List Node) :
    mapAll toInstance (t.numberNodes issued nodes).1 = nodes := by
  induction nodes using forest_induction generalizing issued with
  | nil => rfl
  | cons own children rest ihc ihr =>
    cases hv : isVoid (t.resolveTag own.entries) with
    | true =>
      simp only [numberNodes, t.numberNode_of_void hv, mapAll, Tree.map, mapAll_toInstance_unplaced, ihr]
    | false => simp only [numberNodes, t.numberNode_of_not_void hv, mapAll, Tree.map, ihc, ihr]

/-- **Who has which number.** After numbering and settling, the instances that have an element carry
the numbers of the markup, and those of the others that need one the numbers given out later: an
element without content ends the numbers of the markup, and below it the plan is on its own. -/
theorem isSettled_numberNodes (needs : Instance → Bool) (issued fresh : Nat) (a : Address) (k : Nat) (nodes : List Node) :
    IsSettled t needs issued (t.numberNodes issued nodes).2 fresh (settleNodes needs fresh (t.numberNodes issued nodes).1).2
      (sitesAll a k (settleNodes needs fresh (t.numberNodes issued nodes).1).1) := by
  induction nodes using forest_induction generalizing issued fresh a k with
  | nil =>
    constructor <;>
      simp [numberNodes, settleNodes, sitesAll, ClassTable.shown, ClassTable.hidden]
  | cons own children rest ihc ihr =>
    have ha : ∀ (r : List PlacedNode), ∀ s ∈ sitesAll (a ++ [k]) 0 r, Above (a ++ [k]) s.1 := fun _ _ hs => above_of_mem_sitesAll hs
    simp only [numberNodes, settleNodes, sitesAll]
    refine .append (apart_sites a k _ _) ?_ (ihr _ _ a (k + 1))
    cases hv : isVoid (t.resolveTag own.entries) with
    | true =>
      obtain ⟨hle, hi, ho⟩ := settleNodes_unplaced needs fresh children
      rw [← map_label_sitesAll (a ++ [k]) 0] at hi ho
      rw [filterMap_map] at hi
      simp only [t.numberNode_of_void hv, settleNode, sites]
      exact .cons_of_void (ha _) hv rfl hle hi (forall_mem_map.1 ho)
    | false =>
      simp only [t.numberNode_of_not_void hv, settleNode, sites]
      exact .cons_of_not_void (ha _) hv rfl (ihc (issued + 1) fresh (a ++ [k]) 0)

theorem elements_settleNodes (needs : Instance → Bool) (issued fresh : Nat) (nodes : List Node) :
    t.elements (settleNodes needs fresh (t.numberNodes issued nodes).1).1 = t.elements (t.numberNodes issued nodes).1 := by
  induction nodes using forest_induction generalizing issued fresh with
  | nil => rfl
  | cons own children rest ihc ihr =>
    simp only [numberNodes, settleNodes, ClassTable.elements, ihr]
    cases hv : isVoid (t.resolveTag own.entries) with
    | true =>
      have hn : ∀ (id : Nat) (r : List PlacedNode), t.element (.node { own with id? := some id } r) =
          .node (t.elementHead { own with id? := some id }) [] := by
        intro id r
        have ht : isVoid (t.elementHead { own with id? := some id }).tag := hv
        rw [element, if_pos ht]
      rw [t.numberNode_of_void hv, settleNode, Placed.settle_of_some rfl, hn, hn]
    | false =>
      rw [t.numberNode_of_not_void hv, settleNode, Placed.settle_of_some rfl, element, element, ihc]

end

end Pagewright
