import Pagewright.Behavior.ParentCall
import Pagewright.Behavior.Plan

/-!
# Units

A unit is the constructor function of a class or instance. `ScriptUnit` holds what it does, in the
order in which it does it, with all bodies and expressions ready; how it is written is another
matter.
-/

namespace Pagewright

/-- A function of a script. -/
structure ScriptFunction where
  name : String
  params : List String
  body : String
deriving DecidableEq, Repr

/-- A property with a getter, a setter or both. -/
structure Accessor where
  name : String
  /-- The body of the getter. -/
  getter? : Option String
  setter? : Option ScriptFunction
deriving DecidableEq, Repr

/-- A child instance that a unit makes: the number of its unit and the name it is kept under. -/
structure ChildHandle where
  anchor : Anchor
  name? : Option String
deriving DecidableEq, Repr

/-- A unit. -/
structure ScriptUnit where
  anchor : Anchor
  params : List String
  /-- The classes whose units run first, with the arguments they get. -/
  chain : List (String × String)
  /-- The tags of which an element is created if there is none yet. -/
  created : List String
  /-- The methods of ancestors it calls, as owner and name. -/
  aliases : List (String × String)
  privateVariables : List (String × Option String)
  privateMethods : List ScriptFunction
  protectedVariables : List (String × String)
  protectedMethods : List ScriptFunction
  publicVariables : List (String × String)
  publicMethods : List ScriptFunction
  /-- Its own methods that descendants call, and whether they are public. -/
  published : List (String × Bool)
  attributes : PropertyMap
  /-- The names of the properties for its style. -/
  styleNames : List String
  /-- Whether its element has a value. -/
  hasValue : Bool
  accessors : List Accessor
  handlers : List ScriptFunction
  /-- The text and value it begins with. -/
  defaults : List (String × String) := []
  /-- The style it gives the element that it creates. -/
  ownStyle : List (String × String)
  children : List ChildHandle := []
  assignments : List (String × String) := []
  /-- The body of the constructor. -/
  constructor? : Option String

/-- The bodies of a class or instance. -/
structure PreparedMembers where
  constructor? : Option String
  chainArgs : List (String × List Char)
  privateMethods : List ScriptFunction
  protectedMethods : List ScriptFunction
  publicMethods : List ScriptFunction
  getters : List ScriptFunction
  setters : List ScriptFunction
  handlers : List ScriptFunction
  /-- The methods of ancestors that the bodies call, each once. -/
  inherited : List (String × String)

namespace BodyContext

/-- The bodies of some methods, and the methods of ancestors that they call. -/
def prepareMethods (ctx : BodyContext) :
    List Method → Except CompileError (List ScriptFunction × List (String × String))
  | [] => .ok ([], [])
  | m :: ms => do
    let body ← ctx.prepare false m
    let (functions, inherited) ← ctx.prepareMethods ms
    return (⟨m.name, m.params, String.ofList body.text⟩ :: functions, body.inherited ++ inherited)

/-- All bodies of a class or instance. -/
def prepareMembers (ctx : BodyContext) (members : Members) :
    Except CompileError PreparedMembers := do
  let own ← match members.constructor? with
    | some m => (ctx.prepare true m).map some
    | none => .ok none
  let (privateMethods, calls₁) ← ctx.prepareMethods members.privateTier.methods
  let (protectedMethods, calls₂) ← ctx.prepareMethods members.protectedTier.methods
  let (publicMethods, calls₃) ← ctx.prepareMethods members.publicTier.methods
  let (getters, calls₄) ← ctx.prepareMethods members.getters
  let (setters, calls₅) ← ctx.prepareMethods members.setters
  let (handlers, calls₆) ← ctx.prepareMethods members.handlers
  return {
    constructor? := own.map (String.ofList ·.text)
    chainArgs := (own.map ResolvedBody.chainArgs).getD []
    privateMethods, protectedMethods, publicMethods, getters, setters, handlers
    inherited := ((own.map ResolvedBody.inherited).getD [] ++
      calls₁ ++ calls₂ ++ calls₃ ++ calls₄ ++ calls₅ ++ calls₆).eraseDups }

/-- An expression that stands alone, its references written in full. -/
def expression (ctx : BodyContext) (raw : String) : Except CompileError String :=
  (qualify ctx.ambient [] raw.toList).map String.ofList

/-- The expressions of some variables; one without an expression begins undefined. -/
def values (ctx : BodyContext) : List Variable → Except CompileError (List (String × String))
  | [] => .ok []
  | v :: vs => do
    let value ← match v.initializer with
      | some raw => ctx.expression raw
      | none => .ok "undefined"
    return (v.name, value) :: (← ctx.values vs)

/-- The expressions of private variables; one may do without. -/
def privateVariables (ctx : BodyContext) :
    List Variable → Except CompileError (List (String × Option String))
  | [] => .ok []
  | v :: vs => do
    let value? ← match v.initializer with
      | some raw => (ctx.expression raw).map some
      | none => .ok none
    return (v.name, value?) :: (← ctx.privateVariables vs)

/-- The expressions of those among some entries that are assigned. -/
def assignments (ctx : BodyContext) :
    List (String × String) → Except CompileError (List (String × String))
  | [] => .ok []
  | (key, raw) :: entries => do
    let value ← ctx.expression raw
    return (key, value) :: (← ctx.assignments entries)

end BodyContext

/-! ### Building units -/

/-- What units are built from: the classes, the whole text, and the methods that parent calls mean,
as owner and name. -/
structure UnitContext where
  table : ClassTable
  text : List Char
  called : List (String × String)

/-- The accessors, one for each name. -/
def accessorsOf (getters setters : List ScriptFunction) : List Accessor :=
  ((getters ++ setters).map ScriptFunction.name).eraseDups.map fun name =>
    { name
      getter? := (getters.find? (·.name = name)).map ScriptFunction.body
      setter? := setters.find? (·.name = name) }

namespace UnitContext

/-- Where the bodies of a unit stand. -/
def bodies (ctx : UnitContext) (plan : UnitPlan) : BodyContext :=
  ⟨ctx.table, ctx.text, plan.entries, ctx.table.ambient plan⟩

/-- The tag of the elements of a unit. -/
def tag (ctx : UnitContext) (plan : UnitPlan) : String :=
  match plan.anchor.className? with
  | some name => (ctx.table.tag? name).getD defaultTag
  | none => ctx.table.resolveTag plan.entries

/-- The tags of which a unit creates an element if there is none yet. -/
def createdTags (ctx : UnitContext) (plan : UnitPlan) : List String :=
  match plan.anchor with
  | .byClass _ => plan.entries.filter isTag
  | .byCreation _ => [ctx.tag plan]
  | .byMarkup _ => []

/-- The methods of a unit that descendants call: protected ones, then public ones. -/
def published (ctx : UnitContext) (plan : UnitPlan) : List (String × Bool) :=
  match plan.anchor.className? with
  | none => []
  | some owner =>
    let methods := plan.members.protectedTier.methods ++ plan.members.publicTier.methods
    ((methods.map Method.name).filter fun name => ctx.called.contains (owner, name)).map fun name =>
      (name, plan.members.publicTier.hasMethod name)

/-- A unit up to where it makes its children. -/
def front (ctx : UnitContext) (plan : UnitPlan) : Except CompileError ScriptUnit := do
  let bodies := ctx.bodies plan
  let members := plan.members
  let prepared ← bodies.prepareMembers members
  let privateVariables ← bodies.privateVariables members.privateTier.vars
  let protectedVariables ← bodies.values members.protectedTier.vars
  let publicVariables ← bodies.values
    (members.publicTier.vars.filter fun v => !fixedNames.contains v.name)
  return {
    anchor := plan.anchor
    params := (members.constructor?.map Method.params).getD []
    chain := (plan.entries.filter (!isTag ·)).map fun parent =>
      (parent, String.ofList ((prepared.chainArgs.lookup parent).getD []))
    created := ctx.createdTags plan
    aliases := prepared.inherited
    privateVariables
    privateMethods := prepared.privateMethods
    protectedVariables
    protectedMethods := prepared.protectedMethods
    publicVariables
    publicMethods := prepared.publicMethods
    published := ctx.published plan
    attributes := plan.attributes
    styleNames := plan.style.keys.map accessorName
    hasValue := Pagewright.hasValue (ctx.tag plan)
    accessors := accessorsOf prepared.getters prepared.setters
    handlers := prepared.handlers
    ownStyle := if plan.anchor.isCreation then plan.style.entries else []
    constructor? := prepared.constructor? }

/-- The text and value that a unit begins with. -/
def defaults (ctx : UnitContext) (plan : UnitPlan) : Except CompileError (List (String × String)) :=
  (ctx.bodies plan).values (plan.members.publicTier.vars.filter fun v =>
    fixedNames.contains v.name && v.initializer.isSome)

/-- The assignments of a unit; a text that the markup shows is left out. -/
def assigned (ctx : UnitContext) (plan : UnitPlan) : Except CompileError (List (String × String)) :=
  (ctx.bodies plan).assignments (plan.assignments.entries.filter fun entry =>
    plan.anchor.isCreation || !isStaticText entry)

mutual
/-- A unit and behind it all units that it makes. -/
def unit (ctx : UnitContext) : Tree UnitPlan → Except CompileError (List ScriptUnit)
  | .node plan children => do
    let front ← ctx.front plan
    let inner ← ctx.units children
    let defaults ← ctx.defaults plan
    let assignments ← ctx.assigned plan
    let handles := children.map fun child => ⟨child.label.anchor, child.label.name?⟩
    return { front with children := handles, defaults, assignments } :: inner
/-- Units one after the other, each with those it makes. -/
def units (ctx : UnitContext) : List (Tree UnitPlan) → Except CompileError (List ScriptUnit)
  | [] => .ok []
  | plan :: plans => do
    let first ← ctx.unit plan
    let rest ← ctx.units plans
    return first ++ rest
end

end UnitContext

/-! ### The methods called -/

/-- The methods of ancestors that the bodies of a class or instance call. -/
def ClassTable.callsOf (t : ClassTable) (text : List Char) (entries : List String)
    (members : Members) : Except CompileError (List (String × String)) :=
  (BodyContext.prepareMembers ⟨t, text, entries, .empty⟩ members).map PreparedMembers.inherited

/-- The methods of ancestors that some instances call. -/
def ClassTable.callsOfInstances (t : ClassTable) (text : List Char) :
    List Instance → Except CompileError (List (String × String))
  | [] => .ok []
  | own :: rest => do
    let calls ← t.callsOf text own.entries own.members
    return calls ++ (← t.callsOfInstances text rest)

/-- The methods of ancestors that some classes and the instances inside them call. -/
def ClassTable.callsOfClasses (t : ClassTable) (text : List Char) :
    List ClassDef → Except CompileError (List (String × String))
  | [] => .ok []
  | c :: cs => do
    let calls ← t.callsOf text c.parents c.members
    let inner ← t.callsOfInstances text (Tree.labelsAll c.children)
    return calls ++ inner ++ (← t.callsOfClasses text cs)

/-- The methods that some parent call means, as owner and name. -/
def ClassTable.calledMethods (t : ClassTable) (text : List Char) (nodes : List PlacedNode) :
    Except CompileError (List (String × String)) := do
  let calls ← t.callsOfClasses text t.classes
  let inner ← t.callsOfInstances text ((Tree.labelsAll nodes).map Placed.toInstance)
  return calls ++ inner

end Pagewright
