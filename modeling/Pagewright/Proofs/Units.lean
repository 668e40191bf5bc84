import Mathlib.Data.List.Forall2
import Pagewright.Compile
import Pagewright.Proofs.Numbering

/-!
# Units and the instances they belong to

The plan of a script is the settled page and the settled bodies of the classes, thinned out to the
instances that have a unit (`planAllPlaced_eq`, `planClasses_eq`). Each unit is built from its own
plan and the plans of the units that it makes (`UnitContext.forall₂_units`). -/

namespace Pagewright

open List Address Pagewright.Tree

/-! ### The plan read off the numbers -/

/-- Whether an instance of the page has a unit. -/
def bearsUnit (node : PlacedNode) : Bool := node.label.needsUnit

/-- The plan of the unit of an instance that has its number. -/
def planOf (anchor : Nat → Anchor) (node : PlacedNode) : UnitPlan :=
  .ofInstance node.label.toInstance (node.children.filterMap (·.label.name?))
    (anchor (node.label.id?.getD 0))

theorem planOf_node (anchor : Nat → Anchor) (own : Placed) (children : List PlacedNode) : planOf anchor (.node own children) =
      .ofInstance own.toInstance (children.filterMap (·.label.name?)) (anchor (own.id?.getD 0)) := rfl

theorem instanceNames_mapAll (nodes : List PlacedNode) :
    instanceNames (mapAll Placed.toInstance nodes) = nodes.filterMap (·.label.name?) := by
  induction nodes with
  | nil => rfl
  | cons first rest ih =>
    have hl : (first.map Placed.toInstance).label = first.label.toInstance := by cases first; rfl
    rw [instanceNames] at ih
    rw [mapAll, instanceNames, filterMap_cons, hl, ih, filterMap_cons]

theorem names_settleNodes (needs : Instance → Bool) (issued : Nat) (nodes : List PlacedNode) :
    (settleNodes needs issued nodes).1.filterMap (·.label.name?) = nodes.filterMap (·.label.name?) := by
  rw [← instanceNames_mapAll, mapAll_toInstance_settleNodes, instanceNames_mapAll]

theorem planAllPlaced_eq (issued : Nat) (nodes : List PlacedNode) : planAllPlaced issued nodes =
      (gatherAll bearsUnit (planOf .byMarkup) (settleNodes Instance.needsUnit issued nodes).1,
        (settleNodes Instance.needsUnit issued nodes).2) := by
  induction nodes using forest_induction generalizing issued with
  | nil => rfl
  | cons own children rest ihc ihr =>
    have hf : planPlaced issued (.node own children) =
        ((settleNode Instance.needsUnit issued (.node own children)).1.gather bearsUnit (planOf .byMarkup),
          (settleNode Instance.needsUnit issued (.node own children)).2) := by
      cases hn : own.needsUnit with
      | false =>
        have hb : ∀ r, bearsUnit (.node own r) = false := fun _ => hn
        rw [planPlaced, hn, settleNode, Placed.settle_of_not_needs hn, gather, hb]
        exact ihc issued
      | true =>
        have ha := fun i => names_settleNodes Instance.needsUnit i children
        rw [planPlaced, hn, settleNode]
        cases hid : own.id? with
        | some id =>
          have hb : ∀ r, bearsUnit (.node own r) := fun _ => hn
          rw [Placed.settle_of_some hid, gather, hb]
          simp only [ihc, planOf_node, hid, ha, Option.getD_some, if_true]
        | none =>
          have hb : ∀ r, bearsUnit (.node { own with id? := some (issued + 1) } r) := fun _ => hn
          rw [Placed.settle_of_needs hid hn, gather, hb]
          simp only [ihc, planOf_node, ha, Option.getD_some, if_true]
    simp only [planAllPlaced, settleNodes, gatherAll, hf, ihr]

/-- Every instance. -/
def always (_ : Instance) : Bool := true

theorem planAllCreated_eq (issued : Nat) (nodes : List Node) : planAllCreated issued nodes =
      (gatherAll (fun _ => true) (planOf .byCreation) (settleNodes always issued (mapAll Placed.unplaced nodes)).1,
        (settleNodes always issued (mapAll Placed.unplaced nodes)).2) := by
  induction nodes using forest_induction generalizing issued with
  | nil => rfl
  | cons own children rest ihc ihr =>
    have hs : (Placed.unplaced own).settle always issued =
        ({ own with id? := some (issued + 1) }, issued + 1) := Placed.settle_of_needs rfl rfl
    have hn : (settleNodes always (issued + 1) (mapAll Placed.unplaced children)).1.filterMap
        (·.label.name?) = instanceNames children := by
      rw [names_settleNodes, ← instanceNames_mapAll, mapAll_toInstance_unplaced]
    simp only [planAllCreated, planCreated, mapAll, Tree.map, settleNodes, settleNode, hs, gatherAll, gather,
      planOf_node, hn, ihc, ihr, Option.getD_some, if_true, singleton_append]

/-- The bodies of classes with all numbers, and how many are given out then. -/
def settleClasses (issued : Nat) : List ClassDef → List (List PlacedNode) × Nat
  | [] => ([], issued)
  | c :: cs =>
    let first := settleNodes always issued (mapAll Placed.unplaced c.children)
    let rest := settleClasses first.2 cs
    (first.1 :: rest.1, rest.2)

/-- The plan of a class with its body settled. -/
def classPlan (c : ClassDef) (nodes : List PlacedNode) : Tree UnitPlan :=
  .node (.ofClass c) (gatherAll (fun _ => true) (planOf .byCreation) nodes)

theorem planClasses_eq (issued : Nat) (cs : List ClassDef) : planClasses issued cs =
      (zipWith classPlan cs (settleClasses issued cs).1, (settleClasses issued cs).2) := by
  induction cs generalizing issued with
  | nil => rfl
  | cons c cs ih =>
    simp only [planClasses, planClass, planAllCreated_eq, settleClasses, ih, zipWith_cons_cons, classPlan]

/-! ### Units -/

theorem exists_of_mem_left {α β : Type} {R : α → β → Prop} {xs : List α} {ys : List β}
    (h : Forall₂ R xs ys) {x : α} (hx : x ∈ xs) : ∃ y ∈ ys, R x y := by
  induction h with
  | nil => cases hx
  | cons hxy _ ih =>
    rcases mem_cons.1 hx with rfl | hx
    · exact ⟨_, mem_cons_self, hxy⟩
    · obtain ⟨y, hy, hxy⟩ := ih hx
      exact ⟨y, mem_cons_of_mem _ hy, hxy⟩

theorem map_eq_of_forall₂ {α β γ : Type} {R : α → β → Prop} {f : α → γ} {g : β → γ} {xs : List α}
    {ys : List β} (hR : ∀ x y, R x y → g y = f x) (h : Forall₂ R xs ys) : ys.map g = xs.map f := by
  induction h with
  | nil => rfl
  | cons hxy _ ih => rw [map_cons, map_cons, hR _ _ hxy, ih]

/-- How the unit that makes an instance refers to it. -/
def UnitPlan.handle (plan : UnitPlan) : ChildHandle := ⟨plan.anchor, plan.name?⟩

namespace UnitContext

variable {ctx : UnitContext} {u : ScriptUnit} {family : UnitPlan × List UnitPlan}

/-- A unit is built from its own plan and makes the units of the other plans, in order. -/
def IsUnit (ctx : UnitContext) (family : UnitPlan × List UnitPlan) (u : ScriptUnit) : Prop :=
  ∃ front defaults assignments, ctx.front family.1 = .ok front ∧ ctx.defaults family.1 = .ok defaults ∧
    ctx.assigned family.1 = .ok assignments ∧
    u = { front with children := family.2.map UnitPlan.handle, defaults, assignments }

theorem anchor_of_front {plan : UnitPlan} (h : ctx.front plan = .ok u) : u.anchor = plan.anchor := by
  unfold front at h
  simp only [bind_eq_ok] at h
  obtain ⟨_, -, _, -, _, -, _, -, h⟩ := h
  cases h
  rfl

theorem IsUnit.anchor_eq (h : ctx.IsUnit family u) : u.anchor = family.1.anchor := by
  obtain ⟨front, _, _, hf, -, -, rfl⟩ := h
  have ha := anchor_of_front hf
  exact ha

theorem IsUnit.children_eq (h : ctx.IsUnit family u) : u.children = family.2.map UnitPlan.handle := by
  obtain ⟨_, _, _, -, -, -, rfl⟩ := h
  rfl

theorem forall₂_units (plans : List (Tree UnitPlan)) {us : List ScriptUnit}
    (h : ctx.units plans = .ok us) : Forall₂ ctx.IsUnit (familiesAll plans) us := by
  induction plans using forest_induction generalizing us with
  | nil =>
    cases h
    exact .nil
  | cons plan children rest ihc ihr =>
    rw [units, unit] at h
    simp only [bind_eq_ok] at h
    obtain ⟨first, ⟨front, hf, inner, hi, defaults, hd, assignments, ha, hfi⟩, us', hr, h⟩ := h
    cases hfi
    cases h
    refine .cons ⟨front, defaults, assignments, hf, hd, ha, ?_⟩ (rel_append (ihc hi) (ihr hr))
    rw [map_map]
    rfl

variable {fs : List (UnitPlan × List UnitPlan)} {us : List ScriptUnit}

theorem map_anchor (h : Forall₂ ctx.IsUnit fs us) : us.map ScriptUnit.anchor = (fs.map Prod.fst).map UnitPlan.anchor := by
  rw [map_map]
  exact map_eq_of_forall₂ (fun _ _ => IsUnit.anchor_eq) h

theorem flatMap_children (h : Forall₂ ctx.IsUnit fs us) :
    us.flatMap ScriptUnit.children = (fs.flatMap Prod.snd).map UnitPlan.handle := by
  rw [map_flatMap, flatMap_def, flatMap_def]
  exact congrArg flatten (map_eq_of_forall₂ (fun _ _ => IsUnit.children_eq) h)

end UnitContext

end Pagewright
