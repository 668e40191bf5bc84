import Pagewright.Name
import Pagewright.PropertyMap
import Pagewright.Tree

/-!
# Classes, instances and pages

What is read from a source. Bodies, initializers and values are kept as they were written; an
instance with the instances inside it is a tree.
-/

namespace Pagewright

/-- How far a member can be seen. -/
inductive Visibility where
  | priv
  | prot
  | pub
deriving DecidableEq, Repr

/-- The word that opens a section of members. -/
def Visibility.keyword : Visibility → String
  | .priv => "private"
  | .prot => "protected"
  | .pub => "public"

/-- A variable and the expression it begins with, if any. -/
structure Variable where
  name : String
  initializer : Option String
deriving DecidableEq, Repr

/-- A method, constructor, accessor or event handler. -/
structure Method where
  name : String
  /-- The parameters as they were written. -/
  params : List String
  /-- What stands between the braces. -/
  body : String
  /-- The offset of the body. -/
  offset : Nat
deriving DecidableEq, Repr

/-- The names that the parameters declare, patterns left out. -/
def Method.paramNames (m : Method) : List String := m.params.filterMap parameterName?

/-- The variables and methods of one visibility. -/
structure Tier where
  vars : List Variable := []
  methods : List Method := []
deriving DecidableEq, Repr

namespace Tier

/-- Whether there is nothing in the tier. -/
def isEmpty (t : Tier) : Bool := t.vars.isEmpty && t.methods.isEmpty

/-- The names of the variables, then of the methods. -/
def names (t : Tier) : List String := t.vars.map Variable.name ++ t.methods.map Method.name

/-- Whether a method of that name is declared. -/
def hasMethod (t : Tier) (name : String) : Bool := t.methods.any (·.name = name)

end Tier

/-- The members of a class or instance. -/
structure Members where
  privateTier : Tier := {}
  protectedTier : Tier := {}
  publicTier : Tier := {}
  constructor? : Option Method := none
  getters : List Method := []
  setters : List Method := []
  handlers : List Method := []
deriving DecidableEq, Repr

namespace Members

/-- The tier of a visibility. -/
def tier (m : Members) : Visibility → Tier
  | .priv => m.privateTier
  | .prot => m.protectedTier
  | .pub => m.publicTier

/-- The members with the tier of a visibility changed. -/
def modifyTier (m : Members) (f : Tier → Tier) : Visibility → Members
  | .priv => { m with privateTier := f m.privateTier }
  | .prot => { m with protectedTier := f m.protectedTier }
  | .pub => { m with publicTier := f m.publicTier }

/-- The members with one more variable. -/
def addVariable (m : Members) (v : Visibility) (x : Variable) : Members :=
  m.modifyTier (fun t => { t with vars := t.vars ++ [x] }) v

/-- The members with one more method. -/
def addMethod (m : Members) (v : Visibility) (x : Method) : Members :=
  m.modifyTier (fun t => { t with methods := t.methods ++ [x] }) v

/-- Whether there are no members. -/
def isEmpty (m : Members) : Bool :=
  m.privateTier.isEmpty && m.protectedTier.isEmpty && m.publicTier.isEmpty &&
    m.constructor?.isNone && m.getters.isEmpty && m.setters.isEmpty && m.handlers.isEmpty

/-- The names of getters and setters, each once, in order of appearance. -/
def accessorNames (m : Members) : List String :=
  ((m.getters ++ m.setters).map Method.name).foldl
    (fun names name => if names.contains name then names else names ++ [name]) []

/-- The expression of the first public variable `text`. -/
def defaultText? (m : Members) : Option String :=
  match m.publicTier.vars.find? (·.name = "text") with
  | some v => v.initializer
  | none => none

/-- Whether a method that descendants can call is declared. -/
def hasInheritable (m : Members) (name : String) : Bool :=
  m.publicTier.hasMethod name || m.protectedTier.hasMethod name

end Members

/-- One instance, without the instances inside it. -/
structure Instance where
  /-- The classes and tags applied, as written. -/
  entries : List String
  /-- The name behind `as`. -/
  name? : Option String := none
  attributes : PropertyMap := .empty
  style : PropertyMap := .empty
  /-- The assignments, values as written. -/
  assignments : PropertyMap := .empty
  members : Members := {}
  /-- The offset of its first entry. -/
  offset : Nat

/-- An instance and the instances inside it. -/
abbrev Node := Tree Instance

/-- A class. -/
structure ClassDef where
  name : String
  /-- Class names and tags, as written. -/
  parents : List String := []
  style : PropertyMap := .empty
  /-- The states with their rule bodies. -/
  states : List (String × String) := []
  attributes : PropertyMap := .empty
  members : Members := {}
  /-- The instances that every instance of the class has inside. -/
  children : List Node := []
  /-- The offset of the word `class`. -/
  offset : Nat := 0

/-- A data file that a page links to. -/
structure DataFile where
  label : String
  path : String
deriving DecidableEq, Repr

/-- The body of a page. -/
structure Page where
  nodes : List Node := []
  dataFiles : List DataFile := []

end Pagewright
