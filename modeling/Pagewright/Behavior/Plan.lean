import Pagewright.Markup.Numbering
import Pagewright.Quoted
import Pagewright.Script.Ambient

/-!
# Unit plans

A script has one unit for each class, for each instance inside a class, and for each instance of the
page body that needs one. A plan says which unit makes which: in a class those of all instances
directly inside; on the page those of the nearest instances inside that need one. Numbers that are
not given yet are given here, each unit before those it makes. -/

namespace Pagewright

/-- What the instances of a unit are bound to. -/
inductive Anchor where
  /-- Whatever the unit that applies the class is bound to. -/
  | byClass (name : String)
  /-- The element of the markup with a number. -/
  | byMarkup (id : Nat)
  /-- An element that is created when the unit runs; the number only names the unit. -/
  | byCreation (id : Nat)
deriving DecidableEq, Repr

namespace Anchor

/-- The function of a unit. -/
def function : Anchor → String
  | byClass name => name
  | byMarkup id | byCreation id => "__unit_" ++ idText id

/-- The class whose unit it is. -/
def className? : Anchor → Option String
  | byClass name => some name
  | byMarkup _ | byCreation _ => none

/-- The number of the element in the markup. -/
def markupId? : Anchor → Option Nat
  | byMarkup id => some id
  | byClass _ | byCreation _ => none

/-- Whether the element is created by the unit itself. -/
def isCreation : Anchor → Bool
  | byCreation _ => true
  | byClass _ | byMarkup _ => false

end Anchor

/-- A unit that is to be written. -/
structure UnitPlan where
  anchor : Anchor
  /-- The name of the instance. -/
  name? : Option String
  /-- The parents of a class, or the entries of an instance. -/
  entries : List String
  style : PropertyMap
  attributes : PropertyMap
  members : Members
  /-- The assignments of an instance. -/
  assignments : PropertyMap
  /-- The names of the instances directly inside. -/
  childNames : List String

/-- The names of some instances. -/
def instanceNames (nodes : List Node) : List String := nodes.filterMap (·.label.name?)

namespace UnitPlan

/-- The unit of a class. -/
def ofClass (c : ClassDef) : UnitPlan where
  anchor := .byClass c.name
  name? := none
  entries := c.parents
  style := c.style
  attributes := c.attributes
  members := c.members
  assignments := .empty
  childNames := instanceNames c.children

/-- The unit of an instance. -/
def ofInstance (own : Instance) (childNames : List String) (anchor : Anchor) : UnitPlan where
  anchor
  name? := own.name?
  entries := own.entries
  style := own.style
  attributes := own.attributes
  members := own.members
  assignments := own.assignments
  childNames

end UnitPlan

/-- A text that the markup shows already. -/
def isStaticText (entry : String × String) : Bool :=
  entry.1 = "text" && (stringLiteral? entry.2).isSome

/-- Whether an instance of the page needs a unit: it applies a class, has a name or members, or is
assigned more than a static text. -/
def Instance.needsUnit (own : Instance) : Bool :=
  own.entries.any (!isTag ·) || own.name?.isSome || !own.members.isEmpty ||
    own.assignments.entries.any (!isStaticText ·)

mutual
/-- The plan of an instance declared inside a class, `issued` numbers being given out. -/
def planCreated (issued : Nat) : Node → Tree UnitPlan × Nat
  | .node own children =>
    let (plans, issued') := planAllCreated (issued + 1) children
    (.node (.ofInstance own (instanceNames children) (.byCreation (issued + 1))) plans, issued')
/-- The plans of instances declared inside a class. -/
def planAllCreated (issued : Nat) : List Node → List (Tree UnitPlan) × Nat
  | [] => ([], issued)
  | node :: nodes =>
    let (plan, issued') := planCreated issued node
    let (plans, issued'') := planAllCreated issued' nodes
    (plan :: plans, issued'')
end

/-- The plan of a class. -/
def planClass (issued : Nat) (c : ClassDef) : Tree UnitPlan × Nat :=
  let (plans, issued') := planAllCreated issued c.children
  (.node (.ofClass c) plans, issued')

/-- The plans of classes. -/
def planClasses (issued : Nat) : List ClassDef → List (Tree UnitPlan) × Nat
  | [] => ([], issued)
  | c :: cs =>
    let (plan, issued') := planClass issued c
    let (plans, issued'') := planClasses issued' cs
    (plan :: plans, issued'')

mutual
/-- The plan of an instance of the page body, or the plans of the nearest inside that need a
unit. -/
def planPlaced (issued : Nat) : PlacedNode → List (Tree UnitPlan) × Nat
  | .node own children =>
    if own.needsUnit then
      let (id, issued) := match own.id? with
        | some id => (id, issued)
        | none => (issued + 1, issued + 1)
      let (plans, issued') := planAllPlaced issued children
      let childNames := children.filterMap (·.label.name?)
      ([.node (.ofInstance own.toInstance childNames (.byMarkup id)) plans], issued')
    else planAllPlaced issued children
/-- The plans of instances of the page body. -/
def planAllPlaced (issued : Nat) : List PlacedNode → List (Tree UnitPlan) × Nat
  | [] => ([], issued)
  | node :: nodes =>
    let (plans, issued') := planPlaced issued node
    let (plans', issued'') := planAllPlaced issued' nodes
    (plans ++ plans', issued'')
end

/-- The units of a script: those of the classes and those that the page begins with. -/
structure ScriptPlan where
  classes : List (Tree UnitPlan)
  roots : List (Tree UnitPlan)
  /-- How many numbers are given out in the end. -/
  issued : Nat

/-- The plan of a script for classes and a page body, `issued` numbers being given out. -/
def ScriptPlan.make (issued : Nat) (classes : List ClassDef) (nodes : List PlacedNode) : ScriptPlan :=
  let (classPlans, issued') := planClasses issued classes
  let (roots, issued'') := planAllPlaced issued' nodes
  ⟨classPlans, roots, issued''⟩

/-! ### Ambient names -/

/-- The members that every instance has. -/
def fixedNames : List String := ["text", "value", childrenName]

/-- Adds the names that a class or instance contributes. -/
def Ambient.expose (a : Ambient) (members : Members) (style attributes : PropertyMap)
    (childNames : List String) : Ambient :=
  ((((a.putAll .direct members.publicTier.names).putAll .capsule members.protectedTier.names).putAll
    .direct ((members.getters ++ members.setters).map Method.name)).putAll
    .direct ((style.keys ++ attributes.keys).map accessorName)).putAll .capsule childNames

/-- The names that bare words in a unit can mean: those of all classes applied, then its own;
private members hide them. -/
def ClassTable.ambient (t : ClassTable) (plan : UnitPlan) : Ambient :=
  let inherited := (t.lineage plan.entries).foldl
    (fun a c => a.expose c.members c.style c.attributes (instanceNames c.children))
    (Ambient.empty.putAll .direct fixedNames)
  let own := inherited.expose plan.members plan.style plan.attributes plan.childNames
  (own.putAll .direct plan.assignments.keys).hideAll plan.members.privateTier.names

end Pagewright
