import Pagewright.ClassTable.Lineage
import Pagewright.Error

/-!
# Checks before any output

A class must not be named like a tag or a reserved name, its parents and the entries of every
instance must exist, no class may inherit from itself, and the names inside a class or instance must
differ. The first fault is reported: all about a class before the next class, circles of parents
after all classes, the page body last. -/

namespace Pagewright

/-! ### Names inside a class or instance -/

/-- The names that a class or instance claims, each with whether it may be reserved: members,
accessors, style accessors, named children. Style accessors may, because they are never used
bare. -/
def claimedNames (members : Members) (style : PropertyMap) (children : List Node) :
    List (String × Bool) :=
  (members.privateTier.names ++ members.protectedTier.names ++ members.publicTier.names ++
      members.accessorNames).map (·, false) ++
    style.keys.map (accessorName ·, true) ++
    (children.filterMap (·.label.name?)).map (·, false)

/-- Claims the names one after the other, those in `taken` being claimed already. -/
def claimNames (scope : String) (taken : List String) :
    List (String × Bool) → Except CompileError Unit
  | [] => .ok ()
  | (name, mayBeReserved) :: rest =>
    if !mayBeReserved && isReserved name then .error (.collision .reserved name scope)
    else if taken.contains name then .error (.collision .duplicate name scope)
    else claimNames scope (name :: taken) rest

/-- Checks the names inside a class or instance. Handlers only must not be reserved. -/
def checkNames (scope : String) (members : Members) (style : PropertyMap) (children : List Node) :
    Except CompileError Unit := do
  claimNames scope [] (claimedNames members style children)
  match (members.handlers.map Method.name).find? isReserved with
  | some name => throw (.collision .reserved name scope)
  | none => return ()

/-! ### Instances -/

/-- How messages name an instance. -/
def Instance.scope (own : Instance) : String := own.name?.getD (joinNames ", " own.entries)

namespace ClassTable

/-- Checks what an instance says of itself. -/
def checkInstance (t : ClassTable) (text : List Char) (own : Instance) (children : List Node) :
    Except CompileError Unit := do
  match own.entries.find? fun entry => !isTag entry && !t.contains entry with
  | some entry => throw (.atOffset text own.offset (.unknownEntry entry))
  | none =>
    match own.name?.filter isReserved with
    | some name => throw (.collision .reserved name own.scope)
    | none => checkNames own.scope own.members own.style children

mutual
/-- Checks an instance and those inside it. -/
def checkNode (t : ClassTable) (text : List Char) : Node → Except CompileError Unit
  | .node own children => do
    t.checkInstance text own children
    t.checkNodes text children
/-- Checks instances one after the other. -/
def checkNodes (t : ClassTable) (text : List Char) : List Node → Except CompileError Unit
  | [] => .ok ()
  | node :: nodes => do
    t.checkNode text node
    t.checkNodes text nodes
end

/-! ### Classes -/

/-- Checks a class. -/
def checkClass (t : ClassTable) (text : List Char) (c : ClassDef) : Except CompileError Unit := do
  if isTag c.name then throw (.collision .shadowsTag c.name "class table")
  if isReserved c.name then throw (.collision .reserved c.name "class table")
  match c.parents.find? fun parent => !isTag parent && !t.contains parent with
  | some parent => throw (.atOffset text c.offset (.unknownParent parent c.name))
  | none =>
    checkNames c.name c.members c.style c.children
    t.checkNodes text c.children

/-! ### Circles of parents -/

/-- A circle of parents as an error at the class that closes it. -/
def cycleError (t : ClassTable) (text : List Char) (path : List String) (name : String) :
    CompileError :=
  let offset := ((t.get? name).map ClassDef.offset).getD 0
  .atOffset text offset (.inheritanceCycle (path.dropWhile (· != name) ++ [name]))

mutual
/-- Follows the parents of a class that was reached along `path`; `done` are the classes that lead
into no circle. -/
def visit (t : ClassTable) (text : List Char) (path done : List String) (name : String) :
    Except CompileError (List String) :=
  if done.contains name then .ok done
  else if _hnew : name ∈ path then .error (t.cycleError text path name)
  else match _hget : t.get? name with
    | none => .ok done
    | some c => (t.visitAll text (path ++ [name]) done c.parents).map (name :: ·)
termination_by t.budget path 0
decreasing_by
  refine budget_lt_of_unseen_lt
    (unseen_lt (List.subset_append_left _ _) (mem_names_of_get? _hget) _hnew (by simp)) ?_
  exact Nat.succ_le_succ (length_parents_le _hget)

/-- Follows each of the parents. -/
def visitAll (t : ClassTable) (text : List Char) (path done : List String) (parents : List String) :
    Except CompileError (List String) :=
  match parents with
  | [] => .ok done
  | p :: ps =>
    if t.contains p then do
      let done ← t.visit text path done p
      t.visitAll text path done ps
    else t.visitAll text path done ps
termination_by t.budget path (parents.length + 1)
decreasing_by all_goals exact budget_lt_of_subset (List.Subset.refl path) (by simp)
end

/-- Checks that no class inherits from itself. -/
def checkCycles (t : ClassTable) (text : List Char) : Except CompileError Unit := do
  let _ ← t.visitAll text [] [] t.names
  return ()

/-! ### The page -/

/-- Checks the instances of the page body; `handles` are the names taken. -/
def checkRoots (t : ClassTable) (text : List Char) (handles : List String) :
    List Node → Except CompileError Unit
  | [] => .ok ()
  | node :: nodes => do
    match node.label.name? with
    | some name =>
      if handles.contains name then throw (.collision .duplicate name "page")
      t.checkNode text node
      t.checkRoots text (name :: handles) nodes
    | none =>
      t.checkNode text node
      t.checkRoots text handles nodes

/-- Checks classes and page body; `text` is what their offsets refer to. -/
def check (t : ClassTable) (text : List Char) (page : Page) : Except CompileError Unit := do
  t.classes.forM (t.checkClass text)
  t.checkCycles text
  t.checkRoots text [] page.nodes

end ClassTable

end Pagewright
