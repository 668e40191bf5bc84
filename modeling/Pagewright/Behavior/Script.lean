import Pagewright.Behavior.Render

/-!
# Scripts

A script is what all units share, the units, and what runs when the document has loaded: the
instances that the page begins with are made, then each does the work it has left.
-/

namespace Pagewright

/-- The first lines of every script: the list of instances that may have left work, and the
operations on children. -/
def preludeLines : List String := [
  s!"const {pendingName} = [];",
  "",
  s!"function {childApiName}({selfName}) \x7b",
  "    function check(op, child) \x7b",
  s!"        if (!{elementText} || !child || !child.{elementName}) \x7b",
  "            console.warn(\"children.\" + op + \": both instances need a bound element\");",
  "            return false;",
  "        \x7d",
  "        return true;",
  "    \x7d",
  "    return \x7b",
  "        add: function (child) \x7b",
  "            if (!check(\"add\", child)) \x7b",
  "                return;",
  "            \x7d",
  s!"            {childListText}.push(child);",
  s!"            {elementText}.appendChild(child.{elementName});",
  "        \x7d,",
  "        remove: function (child) \x7b",
  "            if (!check(\"remove\", child)) \x7b",
  "                return;",
  "            \x7d",
  s!"            const index = {childListText}.indexOf(child);",
  "            if (index >= 0) \x7b",
  s!"                {childListText}.splice(index, 1);",
  "            \x7d",
  s!"            if (child.{elementName}.parentNode === {elementText}) \x7b",
  s!"                {elementText}.removeChild(child.{elementName});",
  "            \x7d",
  "        \x7d,",
  "        get list() \x7b",
  s!"            return {childListText}.slice();",
  "        \x7d,",
  "    \x7d;",
  "\x7d"]

/-- What every script begins with. -/
def prelude : String := String.join (preludeLines.map (line 0))

/-- A script: its units and the instances that the page begins with. -/
structure Script where
  units : List ScriptUnit
  roots : List ChildHandle
  /-- How many numbers are given out in the end. -/
  issued : Nat

namespace Script

/-- What runs when the document has loaded. -/
def bootstrap (s : Script) : String :=
  line 0 "document.addEventListener(\"DOMContentLoaded\", function () \x7b" ++
    String.join (s.roots.map fun root =>
      let place := match root.name? with
        | some name => "window." ++ name
        | none => "const " ++ root.localName
      line 1 (place ++ " = new " ++ root.anchor.function ++ "();")) ++
    line 1 (pendingName ++ ".forEach(function (instance) \x7b") ++
    block 2 ("if (instance." ++ postBindName ++ ")") (line 3 ("instance." ++ postBindName ++ "();")) ++
    line 1 "\x7d);" ++
    line 0 "\x7d);"

/-- A script as it is written. -/
def render (s : Script) : String :=
  prelude ++ String.join (s.units.map fun u => "\n" ++ u.render) ++ "\n" ++ s.bootstrap

/-- The script for classes and a page body, `issued` numbers being given out. -/
def make (t : ClassTable) (text : List Char) (issued : Nat) (nodes : List PlacedNode) :
    Except CompileError Script := do
  let called ← t.calledMethods text nodes
  let plan := ScriptPlan.make issued t.classes nodes
  let ctx : UnitContext := ⟨t, text, called⟩
  let classUnits ← ctx.units plan.classes
  let pageUnits ← ctx.units plan.roots
  return {
    units := classUnits ++ pageUnits
    roots := plan.roots.map fun root => ⟨root.label.anchor, root.label.name?⟩
    issued := plan.issued }

end Script

end Pagewright
