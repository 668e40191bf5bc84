import Pagewright.ClassTable.Basic
import Pagewright.Tag

/-!
# Lineage

What classes inherit from: their ancestors, nearest first, and what is looked up along them. Tags
among the parents end a line.
-/

namespace Pagewright

namespace ClassTable

/-- The classes among `parents` that are neither `self` nor seen, each once. -/
def freshParents (t : ClassTable) (self : String) (seen : List String) : List String → List String
  | [] => []
  | p :: ps =>
    if t.contains p && p != self && !seen.contains p then p :: t.freshParents self (p :: seen) ps
    else t.freshParents self seen ps

/-- Each fresh parent was unseen. -/
theorem unseen_freshParents (t : ClassTable) (self : String) (seen parents : List String) :
    t.unseen (seen ++ t.freshParents self seen parents) + (t.freshParents self seen parents).length ≤
      t.unseen seen := by
  induction parents generalizing seen with
  | nil => simp [freshParents]
  | cons p ps ih =>
    unfold freshParents
    split
    · next hp =>
      simp only [contains, List.contains_eq_mem, Bool.and_eq_true, decide_eq_true_eq,
        Bool.not_eq_eq_eq_not, Bool.not_true, decide_eq_false_iff_not] at hp
      have hlt := unseen_cons_lt hp.1.1 hp.2
      have hr := ih (p :: seen)
      have hle : t.unseen (seen ++ p :: t.freshParents self (p :: seen) ps) ≤
          t.unseen (p :: seen ++ t.freshParents self (p :: seen) ps) :=
        t.unseen_le_of_subset fun x hx => by simpa [or_left_comm] using hx
      rw [List.length_cons]
      omega
    · exact ih seen

/-- The ancestors of `self`: those in `found` and those reached from `queue`, where the parents of
the first go behind the others. -/
def ancestorsFrom (t : ClassTable) (self : String) (found queue : List String) : List String :=
  match queue with
  | [] => found
  | current :: rest =>
    match t.get? current with
    | none => t.ancestorsFrom self found rest
    | some c =>
      t.ancestorsFrom self (found ++ t.freshParents self found c.parents)
        (rest ++ t.freshParents self found c.parents)
termination_by t.unseen found + queue.length
decreasing_by
  · simp
  · have hle := t.unseen_freshParents self found c.parents
    rw [List.length_append, List.length_cons]
    omega

/-- The ancestors of a class, nearest first; parents of the same distance in the order they are
declared. -/
def ancestorNames (t : ClassTable) (name : String) : List String := t.ancestorsFrom name [] [name]

/-- The ancestors of a class, nearest first. -/
def ancestors (t : ClassTable) (name : String) : List ClassDef :=
  (t.ancestorNames name).filterMap t.get?

/-- A class and its ancestors, nearest first; nothing for a name that is no class. -/
def withAncestors (t : ClassTable) (name : String) : List ClassDef :=
  match t.get? name with
  | some c => c :: t.ancestors name
  | none => []

/-- The tag that a class gives its elements: the first one among the parents of its line. -/
def tag? (t : ClassTable) (name : String) : Option String :=
  ((t.withAncestors name).flatMap ClassDef.parents).find? isTag

/-- The tag of an element with the entries: a tag among them, else that of the first class that has
one, else the default. -/
def resolveTag (t : ClassTable) (entries : List String) : String :=
  match entries.find? isTag with
  | some tag => tag
  | none => (entries.findSome? t.tag?).getD defaultTag

/-- The expression for the text that the classes among the entries give, nearest first. -/
def inheritedText? (t : ClassTable) (entries : List String) : Option String :=
  (entries.filter (!isTag ·)).findSome? fun entry =>
    (t.withAncestors entry).findSome? (·.members.defaultText?)

/-- The classes among the entries with all their ancestors, each once. -/
def lineage (t : ClassTable) (entries : List String) : List ClassDef :=
  ((entries.filter (!isTag ·)).flatMap t.withAncestors).foldl
    (fun found c => if found.any (·.name = c.name) then found else found ++ [c]) []

/-- The first class that declares `method` for its descendants among those to be tried; one that
does not gives way to its parents. -/
def findMethodFrom (t : ClassTable) (method : String) (seen work : List String) : Option ClassDef :=
  match work with
  | [] => none
  | name :: rest =>
    if _hold : isTag name || seen.contains name then t.findMethodFrom method seen rest
    else match _hget : t.get? name with
      | none => t.findMethodFrom method (name :: seen) rest
      | some c =>
        if c.members.hasInheritable method then some c
        else t.findMethodFrom method (name :: seen) (c.parents ++ rest)
termination_by t.budget seen work.length
decreasing_by
  · exact budget_lt_of_subset (List.Subset.refl seen) (by simp)
  · exact budget_lt_of_subset (List.subset_cons_self name seen) (by simp)
  · simp only [Bool.or_eq_true, List.contains_eq_mem, decide_eq_true_eq, not_or] at _hold
    refine budget_lt_of_unseen_lt (unseen_cons_lt (mem_names_of_get? _hget) _hold.2) ?_
    have hmax := length_parents_le _hget
    rw [List.length_append, List.length_cons]
    omega

/-- The nearest class that declares `method` for its descendants: parents in order, each before its
own parents. -/
def findMethod? (t : ClassTable) (parents : List String) (method : String) : Option ClassDef :=
  t.findMethodFrom method [] parents

end ClassTable

end Pagewright
