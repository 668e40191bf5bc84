import Pagewright.ClassTable.Cascade
import Pagewright.Markup.Element

/-!
# Stylesheets

A rule for each class that has a style, with all that the class inherits, and behind these the
rules for the states of each class, which are not inherited.
-/

namespace Pagewright

/-- A rule of a stylesheet. -/
inductive Rule where
  /-- The style of the elements of a class. -/
  | classRule (name : String) (declarations : List (String × String))
  /-- The style of the elements of a class in some state, as written. -/
  | stateRule (name state body : String)
deriving DecidableEq, Repr

/-- A rule as it is written. -/
def Rule.render : Rule → String
  | classRule name declarations =>
    "." ++ name ++ " \x7b\n" ++
      String.join (declarations.map fun (key, value) => indent 1 ++ key ++ ": " ++ value ++ ";\n") ++
      "\x7d\n\n"
  | stateRule name state body => "." ++ name ++ ":" ++ state ++ " \x7b " ++ body ++ " \x7d\n"

namespace ClassTable

/-- The rules of the classes under the styles resolved for them. -/
def rules (t : ClassTable) (styles : ResolvedStyles) : List Rule :=
  (t.classes.filterMap fun c =>
    match (styles.lookup c.name).filter (!·.isEmpty) with
    | some style => some (.classRule c.name style.entries)
    | none => none) ++
  t.classes.flatMap fun c => c.states.map fun (state, body) => .stateRule c.name state body

/-- The stylesheet of the classes. -/
def stylesheet (t : ClassTable) : String :=
  String.join ((t.rules t.resolveStyles).map Rule.render)

end ClassTable

end Pagewright
