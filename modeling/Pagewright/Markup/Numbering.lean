import Pagewright.ClassTable.Lineage

/-!
# Numbering

Every instance that appears in the markup gets a number, counted from one in the order of the
source, each instance before those inside it. What stands inside a void element does not appear and
gets none. The id of an element is made of its number.
-/

namespace Pagewright

/-- An instance with the number of its element, if it has one. -/
structure Placed extends Instance where
  id? : Option Nat := none

/-- The id that a number makes. -/
def idText (id : Nat) : String := s!"t{id}"

/-- A page body with the instances numbered. -/
abbrev PlacedNode := Tree Placed

/-- An instance that has no element in the markup. -/
def Placed.unplaced (own : Instance) : Placed := { own with }

namespace ClassTable

mutual
/-- Numbers an instance and those inside it, `issued` being given out; says how many are given out
then. -/
def numberNode (t : ClassTable) (issued : Nat) : Node → PlacedNode × Nat
  | .node own children =>
    if isVoid (t.resolveTag own.entries) then
      (.node { own with id? := some (issued + 1) } (Tree.mapAll Placed.unplaced children), issued + 1)
    else
      let (placed, issued') := t.numberNodes (issued + 1) children
      (.node { own with id? := some (issued + 1) } placed, issued')
/-- Numbers instances one after the other. -/
def numberNodes (t : ClassTable) (issued : Nat) : List Node → List PlacedNode × Nat
  | [] => ([], issued)
  | node :: nodes =>
    let (placed, issued') := t.numberNode issued node
    let (rest, issued'') := t.numberNodes issued' nodes
    (placed :: rest, issued'')
end

end ClassTable

end Pagewright
