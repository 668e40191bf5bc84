import Pagewright.ClassTable.Basic

/-!
# The style cascade

A class has the styles of its parents, merged from left to right, with its own merged last. Each
class is resolved once and its result kept. In a circle of parents, a class that is still being
resolved counts as having no style.
-/

namespace Pagewright

/-- The styles resolved so far, by class. -/
abbrev ResolvedStyles := List (String × PropertyMap)

namespace ClassTable

mutual
/-- The style of a class, while the classes `active` are being resolved, and the styles resolved
by then. -/
def resolveStyle (t : ClassTable) (active : List String) (done : ResolvedStyles) (name : String) :
    PropertyMap × ResolvedStyles :=
  match done.lookup name with
  | some style => (style, done)
  | none =>
    match _hget : t.get? name with
    | none => (.empty, done)
    | some c =>
      if _hnew : name ∈ active then (.empty, done)
      else
        let (inherited, done) := t.mergeParents (name :: active) done .empty c.parents
        let style := inherited.merge c.style
        (style, (name, style) :: done)
termination_by t.budget active 0
decreasing_by
  refine budget_lt_of_unseen_lt (unseen_cons_lt (mem_names_of_get? _hget) _hnew) ?_
  exact Nat.succ_le_succ (length_parents_le _hget)

/-- The styles of some parents merged into `style`. -/
def mergeParents (t : ClassTable) (active : List String) (done : ResolvedStyles) (style : PropertyMap)
    (parents : List String) : PropertyMap × ResolvedStyles :=
  match parents with
  | [] => (style, done)
  | p :: ps =>
    let (own, done) := t.resolveStyle active done p
    t.mergeParents active done (style.merge own) ps
termination_by t.budget active (parents.length + 1)
decreasing_by all_goals exact budget_lt_of_subset (List.Subset.refl active) (by simp)
end

/-- The styles of all classes. -/
def resolveStyles (t : ClassTable) : ResolvedStyles :=
  t.names.foldl (fun done name => (t.resolveStyle [] done name).2) []

end ClassTable

end Pagewright
