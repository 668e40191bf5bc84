/-!
# Splitting and joining texts

A text is cut at every occurrence of a character; joining the parts with that character gives the
text back (`joinWith_splitAll`).
-/

namespace Pagewright

/-- The parts of a text between the occurrences of `sep`; there is always at least one. -/
def splitAll (sep : Char) : List Char → List (List Char)
  | [] => [[]]
  | c :: cs =>
    if c = sep then [] :: splitAll sep cs
    else match splitAll sep cs with
      | [] => [[c]]
      | part :: parts => (c :: part) :: parts

/-- The parts in order with `sep` between them. -/
def joinWith (sep : List Char) : List (List Char) → List Char
  | [] => []
  | [part] => part
  | part :: parts => part ++ sep ++ joinWith sep parts

theorem splitAll_eq_splitOn (sep : Char) (cs : List Char) : splitAll sep cs = cs.splitOn sep := by
  induction cs with
  | nil => rfl
  | cons c cs ih =>
    rw [splitAll, ih, List.splitOn_cons_eq_if_modifyHead]
    cases hs : cs.splitOn sep with
    | nil => exact absurd hs (List.splitOn_ne_nil sep cs)
    | cons part parts => simp

theorem joinWith_eq_intercalate (sep : List Char) (parts : List (List Char)) : joinWith sep parts = sep.intercalate parts := by
  fun_induction joinWith sep parts with
  | case1 | case2 => simp
  | case3 part parts hne ih =>
    obtain ⟨next, rest, rfl⟩ := List.exists_cons_of_ne_nil hne
    simp [ih]

theorem splitAll_ne_nil (sep : Char) (cs : List Char) : splitAll sep cs ≠ [] := by
  rw [splitAll_eq_splitOn]
  exact List.splitOn_ne_nil sep cs

theorem joinWith_splitAll (sep : Char) (cs : List Char) : joinWith [sep] (splitAll sep cs) = cs := by
  rw [joinWith_eq_intercalate, splitAll_eq_splitOn, List.intercalate_splitOn]

/-- The text before the first `sep` and the text after it. -/
def cutAt (sep : Char) : List Char → Option (List Char × List Char)
  | [] => none
  | c :: cs =>
    if c = sep then some ([], cs)
    else (cutAt sep cs).map fun (before, after) => (c :: before, after)

/-- The names of a list with `sep` between them. -/
def joinNames (sep : String) (names : List String) : String := sep.intercalate names

/-- The lines of a text: each line feed ends one, a carriage return before it belongs to the line
break, and a last line without one is taken as it is. -/
def breakLines (cs : List Char) : List (List Char) :=
  let parts := splitAll '\n' cs
  let ended := parts.dropLast.map fun line =>
    if line.getLast? = some '\r' then line.dropLast else line
  match parts.getLast? with
  | some [] | none => ended
  | some rest => ended ++ [rest]

end Pagewright
