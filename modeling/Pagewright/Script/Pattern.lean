import Pagewright.Script.Group

/-!
# Patterns

A pattern declares names: a name does so itself, an object or array pattern through the patterns
inside it. Default values are passed over. The words that stand in a pattern as names or as keys
are no references, so their places are kept too.
-/

namespace Pagewright

/-- A word that a pattern takes: its offset, and the name it declares unless it is a key. -/
structure Binding where
  place : Nat
  name? : Option String
deriving DecidableEq, Repr

/-- The key of a property inside an object pattern. -/
def propertyKey : List ScriptToken → List Binding
  | ⟨.word _, start, _, _⟩ :: ⟨.colon, _, _, _⟩ :: _ => [⟨start, none⟩]
  | _ => []

/-- The pattern that a property inside an object pattern leads to. -/
def propertyPattern : List ScriptToken → List ScriptToken
  | ⟨.word _, _, _, _⟩ :: ⟨.colon, _, _, _⟩ :: ts => ts
  | ⟨.opener .square, _, _, _⟩ :: ts =>
    match closeGroup [.square] ts with
    | some ⟨_, _, ⟨.colon, _, _, _⟩ :: pattern⟩ => pattern
    | _ => []
  | ts => ts

theorem propertyPattern_length_le (ts : List ScriptToken) : (propertyPattern ts).length ≤ ts.length := by
  unfold propertyPattern
  split
  · simp only [List.length_cons]; omega
  · next ts' =>
    split
    · next heq =>
      have := closeGroup_length heq
      simp only [List.length_cons] at this ⊢
      omega
    · simp
  · exact Nat.le_refl _

/-- The words that the pattern at the front of the tokens takes. -/
def bindings (ts : List ScriptToken) : List Binding :=
  match ts with
  | [] => []
  | t :: rest =>
    match t.kind with
    | .word name => [⟨t.start, some name⟩]
    | .spread => bindings rest
    | .opener .curly =>
      match _hg : closeGroup [.curly] rest with
      | none => []
      | some g => (splitCommas [] g.inside).attach.flatMap fun ⟨part, _hp⟩ =>
          propertyKey part ++ bindings (propertyPattern part)
    | .opener .square =>
      match _hg : closeGroup [.square] rest with
      | none => []
      | some g => (splitCommas [] g.inside).attach.flatMap fun ⟨part, _hp⟩ => bindings part
    | _ => []
termination_by ts.length
decreasing_by
  · simp
  · have h₁ := closeGroup_length _hg
    have h₂ := length_le_of_mem_splitCommas _hp
    have h₃ := propertyPattern_length_le part
    simp only [List.length_cons]
    omega
  · have h₁ := closeGroup_length _hg
    have h₂ := length_le_of_mem_splitCommas _hp
    simp only [List.length_cons]
    omega

/-- The words that a list of parameters takes. -/
def parameterBindings (inside : List ScriptToken) : List Binding :=
  (splitCommas [] inside).flatMap bindings

end Pagewright
