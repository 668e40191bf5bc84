import Mathlib.Data.List.Basic
import Mathlib.Data.List.Perm.Basic
import Pagewright.Tree

/-!
# Places in forests

A node of a forest is known by its address: the number of the tree it stands in, then the number of
the child at each level. `sitesAll` lists the subtrees with their addresses, in the order of the
source. `gatherAll` thins a forest out: a node that is not kept gives way to the nodes below it.
What becomes of the addresses is said by `gatherAll_sites`: each kept node gets as children the kept
nodes whose nearest kept node above it is, and those with none come to the top. -/

namespace Pagewright

open List

/-- Where a node stands in a forest. -/
abbrev Address := List Nat

namespace Address

/-- The node at `a` is above the node at `b`. -/
def Above (a b : Address) : Prop := a <+: b ∧ a ≠ b

instance (a b : Address) : Decidable (Above a b) := inferInstanceAs (Decidable (_ ∧ _))

theorem Above.irrefl (a : Address) : ¬ Above a a := fun h => h.2 rfl

theorem Above.asymm {a b : Address} (h : Above a b) : ¬ Above b a :=
  fun h' => h.2 (h.1.eq_of_length (Nat.le_antisymm h.1.length_le h'.1.length_le))

theorem Above.not_extends {a b : Address} (h : Above a b) : ¬ b <+: a := fun h' => h.asymm ⟨h', fun he => h.2 he.symm⟩

end Address

open Address

/-! ### The nearest node above -/

section Nearest

variable {β : Type}

/-- Among nodes with addresses, `r` is the nearest above `s`. -/
def IsNearest (sites : List (Address × β)) (r s : Address × β) : Prop :=
  Above r.1 s.1 ∧ ∀ q ∈ sites, Above q.1 s.1 → q.1 <+: r.1

/-- Among nodes with addresses, none is above `s`. -/
def IsTopmost (sites : List (Address × β)) (s : Address × β) : Prop := ∀ q ∈ sites, ¬ Above q.1 s.1

instance (sites : List (Address × β)) (r s : Address × β) : Decidable (IsNearest sites r s) :=
  inferInstanceAs (Decidable (_ ∧ _))

instance (sites : List (Address × β)) (s : Address × β) : Decidable (IsTopmost sites s) :=
  inferInstanceAs (Decidable (∀ q ∈ sites, ¬ Above q.1 s.1))

/-- The nodes without a node above. -/
def topmost (sites : List (Address × β)) : List (Address × β) :=
  sites.filter fun s => IsTopmost sites s

/-- The nodes whose nearest node above is `r`. -/
def nearestBelow (sites : List (Address × β)) (r : Address × β) : List (Address × β) :=
  sites.filter fun s => IsNearest sites r s

/-- No node of the one list is above a node of the other. -/
def Apart (l₁ l₂ : List (Address × β)) : Prop :=
  ∀ s ∈ l₁, ∀ r ∈ l₂, ¬ Above s.1 r.1 ∧ ¬ Above r.1 s.1

theorem isNearest_congr {l l' : List (Address × β)} {r s : Address × β}
    (h : ∀ q, Above q.1 s.1 → (q ∈ l ↔ q ∈ l')) : IsNearest l r s ↔ IsNearest l' r s := by
  refine and_congr_right fun _ => forall_congr' fun q => ⟨fun hq hm ha => ?_, fun hq hm ha => ?_⟩
  · exact hq ((h q ha).2 hm) ha
  · exact hq ((h q ha).1 hm) ha

theorem isTopmost_congr {l l' : List (Address × β)} {s : Address × β}
    (h : ∀ q, Above q.1 s.1 → (q ∈ l ↔ q ∈ l')) : IsTopmost l s ↔ IsTopmost l' s := by
  refine forall_congr' fun q => ⟨fun hq hm ha => ?_, fun hq hm ha => ?_⟩
  · exact hq ((h q ha).2 hm) ha
  · exact hq ((h q ha).1 hm) ha

namespace Apart

variable {l₁ l₂ : List (Address × β)}

theorem mem_left (h : Apart l₁ l₂) {s : Address × β} (hs : s ∈ l₁) (q : Address × β)
    (ha : Above q.1 s.1) : q ∈ l₁ ++ l₂ ↔ q ∈ l₁ := by
  refine ⟨fun hq => ?_, mem_append_left _⟩
  rcases mem_append.1 hq with hq | hq
  · exact hq
  · exact absurd ha (h s hs q hq).2

theorem mem_right (h : Apart l₁ l₂) {s : Address × β} (hs : s ∈ l₂) (q : Address × β)
    (ha : Above q.1 s.1) : q ∈ l₁ ++ l₂ ↔ q ∈ l₂ := by
  refine ⟨fun hq => ?_, mem_append_right _⟩
  rcases mem_append.1 hq with hq | hq
  · exact absurd ha (h q hq s hs).1
  · exact hq

theorem topmost_append (h : Apart l₁ l₂) : topmost (l₁ ++ l₂) = topmost l₁ ++ topmost l₂ := by
  simp only [topmost, filter_append]
  congr 1
  · exact filter_congr fun s hs => decide_eq_decide.2 (isTopmost_congr (h.mem_left hs))
  · exact filter_congr fun s hs => decide_eq_decide.2 (isTopmost_congr (h.mem_right hs))

theorem nearestBelow_left (h : Apart l₁ l₂) {r : Address × β} (hr : r ∈ l₁) : nearestBelow (l₁ ++ l₂) r = nearestBelow l₁ r := by
  have ho : l₂.filter (fun s => decide (IsNearest (l₁ ++ l₂) r s)) = [] := by
    refine filter_eq_nil_iff.2 fun s hs => ?_
    rw [decide_eq_true_eq]
    exact fun hn => (h r hr s hs).1 hn.1
  simp only [nearestBelow, filter_append, ho, append_nil]
  exact filter_congr fun s hs => decide_eq_decide.2 (isNearest_congr (h.mem_left hs))

theorem nearestBelow_right (h : Apart l₁ l₂) {r : Address × β} (hr : r ∈ l₂) : nearestBelow (l₁ ++ l₂) r = nearestBelow l₂ r := by
  have ho : l₁.filter (fun s => decide (IsNearest (l₁ ++ l₂) r s)) = [] := by
    refine filter_eq_nil_iff.2 fun s hs => ?_
    rw [decide_eq_true_eq]
    exact fun hn => (h s hs r hr).2 hn.1
  simp only [nearestBelow, filter_append, ho, nil_append]
  exact filter_congr fun s hs => decide_eq_decide.2 (isNearest_congr (h.mem_right hs))

theorem filter (h : Apart l₁ l₂) (p : Address × β → Bool) : Apart (l₁.filter p) (l₂.filter p) :=
  fun s hs r hr => h s (mem_of_mem_filter hs) r (mem_of_mem_filter hr)

end Apart

variable {top : Address × β} {below : List (Address × β)}

theorem topmost_cons (h : ∀ s ∈ below, Above top.1 s.1) : topmost (top :: below) = [top] := by
  have ho : IsTopmost (top :: below) top := by
    intro q hq
    rcases mem_cons.1 hq with rfl | hq
    · exact Above.irrefl _
    · exact (h q hq).asymm
  have hn : below.filter (fun s => decide (IsTopmost (top :: below) s)) = [] := by
    refine filter_eq_nil_iff.2 fun s hs => ?_
    rw [decide_eq_true_eq]
    exact fun ht => ht top mem_cons_self (h s hs)
  simp [topmost, ho, hn]

theorem nearestBelow_cons_self (h : ∀ s ∈ below, Above top.1 s.1) : nearestBelow (top :: below) top = topmost below := by
  have ho : ¬ IsNearest (top :: below) top top := fun hn => Above.irrefl _ hn.1
  simp only [nearestBelow, topmost, filter_cons, ho, decide_false, Bool.false_eq_true, if_false]
  refine filter_congr fun s hs => decide_eq_decide.2 ⟨fun hn q hq ha => ?_, fun ht => ⟨h s hs, fun q hq ha => ?_⟩⟩
  · exact (h q hq).not_extends (hn.2 q (mem_cons_of_mem _ hq) ha)
  · rcases mem_cons.1 hq with rfl | hq
    · exact prefix_rfl
    · exact absurd ha (ht q hq)

theorem nearestBelow_cons_of_mem (h : ∀ s ∈ below, Above top.1 s.1) {r : Address × β}
    (hr : r ∈ below) : nearestBelow (top :: below) r = nearestBelow below r := by
  have ht : ¬ IsNearest (top :: below) r top := fun hn => (h r hr).asymm hn.1
  simp only [nearestBelow, filter_cons, ht, decide_false, Bool.false_eq_true, if_false]
  refine filter_congr fun s _ => decide_eq_decide.2 ⟨fun hn => ⟨hn.1, fun q hq => ?_⟩, fun hn => ⟨hn.1, fun q hq ha => ?_⟩⟩
  · exact hn.2 q (mem_cons_of_mem _ hq)
  · rcases mem_cons.1 hq with rfl | hq
    · exact (h r hr).1
    · exact hn.2 q hq ha

end Nearest

namespace Tree

variable {α β : Type}

/-! ### The sites of a forest -/

mutual
/-- The subtrees of the tree at an address, with their addresses, each before those below it. -/
def sites (a : Address) : Tree α → List (Address × Tree α)
  | node label children => (a, node label children) :: sitesAll a 0 children
/-- The subtrees of trees that stand below an address, the first of them at the number `k`. -/
def sitesAll (a : Address) (k : Nat) : List (Tree α) → List (Address × Tree α)
  | [] => []
  | t :: ts => t.sites (a ++ [k]) ++ sitesAll a (k + 1) ts
end

theorem exists_of_mem_sitesAll (a : Address) (k : Nat) (ts : List (Tree α)) {s : Address × Tree α}
    (h : s ∈ sitesAll a k ts) : ∃ j, k ≤ j ∧ ∃ r, s.1 = a ++ j :: r := by
  induction ts using forest_induction generalizing a k with
  | nil => cases h
  | cons label children rest ihc ihr =>
    rw [sitesAll, sites, cons_append, mem_cons, mem_append] at h
    rcases h with rfl | h | h
    · exact ⟨k, Nat.le_refl k, [], rfl⟩
    · obtain ⟨j, -, r, hs⟩ := ihc _ _ h
      exact ⟨k, Nat.le_refl k, j :: r, by simp [hs]⟩
    · obtain ⟨j, hj, r, hs⟩ := ihr _ _ h
      exact ⟨j, by omega, r, hs⟩

theorem prefix_of_mem_sites (a : Address) (t : Tree α) {s : Address × Tree α} (h : s ∈ t.sites a) : a <+: s.1 := by
  cases t
  rcases mem_cons.1 h with rfl | h
  · exact prefix_rfl
  · obtain ⟨j, -, r, hs⟩ := exists_of_mem_sitesAll a 0 _ h
    exact ⟨j :: r, hs.symm⟩

theorem above_of_mem_sitesAll {a : Address} {k : Nat} {ts : List (Tree α)} {s : Address × Tree α}
    (h : s ∈ sitesAll a k ts) : Above a s.1 := by
  obtain ⟨j, -, r, hs⟩ := exists_of_mem_sitesAll a k ts h
  refine ⟨⟨j :: r, hs.symm⟩, fun he => ?_⟩
  rw [he] at hs
  simpa using congrArg length hs

/-- No node of a tree is above a node of a later one or below it. -/
theorem apart_sites (a : Address) (k : Nat) (t : Tree α) (ts : List (Tree α)) :
    Apart (t.sites (a ++ [k])) (sitesAll a (k + 1) ts) := by
  intro s hs r hr
  obtain ⟨u, hu⟩ := prefix_of_mem_sites _ _ hs
  obtain ⟨j, hj, v, hv⟩ := exists_of_mem_sitesAll _ _ _ hr
  -- The two addresses differ in the number right behind `a`.
  have hs' : s.1 = a ++ k :: u := by rw [← hu, append_assoc]; rfl
  constructor <;> rintro ⟨⟨w, hw⟩, -⟩
  · rw [hs', hv, append_assoc, append_cancel_left_eq] at hw
    have := (cons.inj hw).1
    omega
  · rw [hs', hv, append_assoc, append_cancel_left_eq] at hw
    have := (cons.inj hw).1
    omega

theorem sitesAll_mapAll (f : α → β) (a : Address) (k : Nat) (ts : List (Tree α)) :
    sitesAll a k (mapAll f ts) = (sitesAll a k ts).map fun s => (s.1, s.2.map f) := by
  induction ts using forest_induction generalizing a k with
  | nil => rfl
  | cons label children rest ihc ihr => simp [mapAll, map, sitesAll, sites, ihc, ihr]

/-! ### Thinning out -/

mutual
/-- The labels, each with those of the children, each before those below it. -/
def families : Tree β → List (β × List β)
  | node label children => (label, children.map Tree.label) :: familiesAll children
/-- The labels of trees, each with those of the children. -/
def familiesAll : List (Tree β) → List (β × List β)
  | [] => []
  | t :: ts => t.families ++ familiesAll ts
end

theorem familiesAll_append (ts us : List (Tree β)) : familiesAll (ts ++ us) = familiesAll ts ++ familiesAll us := by
  induction ts with
  | nil => rfl
  | cons t ts ih => simp only [cons_append, familiesAll, ih, append_assoc]

mutual
/-- The trees that are left of a tree if only some nodes are kept, the node of a subtree `t` with
the label `f t`. -/
def gather (keep : Tree α → Bool) (f : Tree α → β) : Tree α → List (Tree β)
  | node label children =>
    if keep (node label children) then
      [node (f (node label children)) (gatherAll keep f children)]
    else gatherAll keep f children
/-- The trees that are left of a forest if only some nodes are kept. -/
def gatherAll (keep : Tree α → Bool) (f : Tree α → β) : List (Tree α) → List (Tree β)
  | [] => []
  | t :: ts => t.gather keep f ++ gatherAll keep f ts
end

/-- The labels of the topmost sites. -/
def topLabels (f : Tree α → β) (kept : List (Address × Tree α)) : List β :=
  (topmost kept).map fun s => f s.2

/-- The label of each site with the labels of the sites that it is the nearest one above of. -/
def nearestFamilies (f : Tree α → β) (kept : List (Address × Tree α)) : List (β × List β) :=
  kept.map fun r => (f r.2, (nearestBelow kept r).map fun s => f s.2)

theorem nearestFamilies_append (f : Tree α → β) {l₁ l₂ : List (Address × Tree α)} (h : Apart l₁ l₂) :
    nearestFamilies f (l₁ ++ l₂) = nearestFamilies f l₁ ++ nearestFamilies f l₂ := by
  simp only [nearestFamilies, map_append]
  congr 1
  · exact map_congr_left fun r hr => by rw [h.nearestBelow_left hr]
  · exact map_congr_left fun r hr => by rw [h.nearestBelow_right hr]

theorem nearestFamilies_cons (f : Tree α → β) {top : Address × Tree α}
    {below : List (Address × Tree α)} (h : ∀ s ∈ below, Above top.1 s.1) :
    nearestFamilies f (top :: below) = (f top.2, topLabels f below) :: nearestFamilies f below := by
  simp only [nearestFamilies, map_cons, nearestBelow_cons_self h, topLabels]
  congr 1
  exact map_congr_left fun r hr => by rw [nearestBelow_cons_of_mem h hr]

/-- **Thinning out.** What is left of a forest, read off the addresses of the nodes kept: at the top
stand those with none above, and below each one those that it is the nearest above of. -/
theorem gatherAll_sites (keep : Tree α → Bool) (f : Tree α → β) (a : Address) (k : Nat) (ts : List (Tree α)) :
    (gatherAll keep f ts).map label = topLabels f ((sitesAll a k ts).filter (keep ·.2)) ∧
      familiesAll (gatherAll keep f ts) = nearestFamilies f ((sitesAll a k ts).filter (keep ·.2)) := by
  induction ts using forest_induction generalizing a k with
  | nil => exact ⟨rfl, rfl⟩
  | cons own children rest ihc ihr =>
    obtain ⟨ht, hf⟩ := ihc (a ++ [k]) 0
    have ha : ∀ s ∈ (sitesAll (a ++ [k]) 0 children).filter (keep ·.2), Above (a ++ [k]) s.1 :=
      fun s hs => above_of_mem_sitesAll (mem_of_mem_filter hs)
    have hi : ((node own children).gather keep f).map label = topLabels f (((node own children).sites (a ++ [k])).filter (keep ·.2)) ∧
        familiesAll ((node own children).gather keep f) =
          nearestFamilies f (((node own children).sites (a ++ [k])).filter (keep ·.2)) := by
      simp only [gather, sites, filter_cons]
      split
      · constructor
        · rw [topLabels, topmost_cons ha]
          rfl
        · rw [nearestFamilies_cons f ha, ← ht, ← hf]
          simp [familiesAll, families]
      · exact ⟨ht, hf⟩
    obtain ⟨ht', hf'⟩ := ihr a (k + 1)
    have hp := (apart_sites a k (node own children) rest).filter (keep ·.2)
    simp only [gatherAll, sitesAll, filter_append]
    constructor
    · rw [map_append, hi.1, ht', topLabels, topLabels, topLabels, hp.topmost_append, map_append]
    · rw [familiesAll_append, hi.2, hf', nearestFamilies_append f hp]

/-! ### Labels -/

theorem map_label_sitesAll (a : Address) (k : Nat) (ts : List (Tree α)) :
    (sitesAll a k ts).map (fun s => s.2.label) = labelsAll ts := by
  induction ts using forest_induction generalizing a k with
  | nil => rfl
  | cons own children rest ihc ihr => simp [sitesAll, sites, labelsAll, labels, ihc, ihr]

theorem map_fst_familiesAll (ts : List (Tree β)) : (familiesAll ts).map Prod.fst = labelsAll ts := by
  induction ts using forest_induction with
  | nil => rfl
  | cons own children rest ihc ihr => simp [familiesAll, families, labelsAll, labels, ihc, ihr]

theorem labelsAll_gatherAll (keep : Tree α → Bool) (f : Tree α → β) (a : Address) (k : Nat) (ts : List (Tree α)) :
    labelsAll (gatherAll keep f ts) = ((sitesAll a k ts).filter (keep ·.2)).map fun s => f s.2 := by
  rw [← map_fst_familiesAll, (gatherAll_sites keep f a k ts).2, nearestFamilies, map_map]
  rfl

theorem children_perm_labelsAll (ts : List (Tree β)) :
    (ts.map label ++ (familiesAll ts).flatMap Prod.snd).Perm (labelsAll ts) := by
  induction ts using forest_induction with
  | nil => exact List.Perm.refl _
  | cons own children rest ihc ihr =>
    simp only [familiesAll, families, flatMap_append, flatMap_cons, labelsAll, labels, map_cons, cons_append, label_node]
    refine List.Perm.cons _ (List.Perm.trans ?_ (ihc.append ihr))
    rw [← append_assoc (children.map label)]
    exact perm_append_comm_assoc _ _ _

theorem topLabels_append_perm (keep : Tree α → Bool) (f : Tree α → β) (a : Address) (k : Nat) (ts : List (Tree α)) :
    (topLabels f ((sitesAll a k ts).filter (keep ·.2)) ++ (nearestFamilies f ((sitesAll a k ts).filter (keep ·.2))).flatMap Prod.snd).Perm
      (((sitesAll a k ts).filter (keep ·.2)).map fun s => f s.2) := by
  obtain ⟨ht, hf⟩ := gatherAll_sites keep f a k ts
  rw [← ht, ← hf, ← labelsAll_gatherAll]
  exact children_perm_labelsAll _

end Tree

end Pagewright
