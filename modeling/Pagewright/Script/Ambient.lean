import Pagewright.Name

/-!
# Ambient names

The names that a bare word in a member body can mean without being declared there: the members of
the instance, each with the way it is reached.
-/

namespace Pagewright

/-- How a member is reached from the instance. -/
inductive Access where
  /-- As a property of the instance. -/
  | direct
  /-- As a property of its protected capsule. -/
  | capsule
deriving DecidableEq, Repr

/-- The full form of a name. -/
def Access.qualify (name : String) : Access → String
  | direct => selfName ++ "." ++ name
  | capsule => selfName ++ "." ++ capsuleName ++ "." ++ name

/-- Names with their access, each at most once. -/
structure Ambient where
  entries : List (String × Access)
  nodup : (entries.map Prod.fst).Nodup

namespace Ambient

/-- No names. -/
def empty : Ambient := ⟨[], by simp⟩

/-- Whether there are no names. -/
def isEmpty (a : Ambient) : Bool := a.entries.isEmpty

/-- The access of a name. -/
def get? (a : Ambient) (name : String) : Option Access := a.entries.lookup name

/-- Takes a name away. -/
def hide (a : Ambient) (name : String) : Ambient where
  entries := a.entries.filter (·.1 ≠ name)
  nodup := a.nodup.sublist ((List.filter_sublist (l := a.entries)).map Prod.fst)

/-- Gives a name an access, instead of the one it had. -/
def put (a : Ambient) (name : String) (access : Access) : Ambient where
  entries := (name, access) :: (a.hide name).entries
  nodup := by
    refine List.nodup_cons.2 ⟨?_, (a.hide name).nodup⟩
    simp [hide]

/-- Gives several names one access. -/
def putAll (a : Ambient) (access : Access) (names : List String) : Ambient :=
  names.foldl (·.put · access) a

/-- Takes several names away. -/
def hideAll (a : Ambient) (names : List String) : Ambient := names.foldl hide a

end Ambient

end Pagewright
