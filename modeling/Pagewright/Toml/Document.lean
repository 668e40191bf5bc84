import Pagewright.Toml.Text

/-!
# TOML documents

A document is read line by line into one table. Arrays and tables in braces may go over several
lines, with comments, and may end with a comma. Neither brackets nor the keys of one path may go
deeper than `depthLimit`.
-/

namespace Pagewright.Toml

variable {cs rest : List Char}

/-! ### What may stand between values -/

/-- The text behind a comment at the front, up to the end of its line; none if the comment holds a
character that it may not. -/
def afterComment? (cs : List Char) : Option (List Char) :=
  if (cs.dropWhile isPlain).isEmpty || (afterBreak? (cs.dropWhile isPlain)).isSome then
    some (cs.dropWhile isPlain)
  else none

theorem afterComment?_length_le (h : afterComment? cs = some rest) : rest.length ≤ cs.length := by
  unfold afterComment? at h
  split at h
  · cases h; exact (List.dropWhile_sublist _).length_le
  · cases h

/-- Passes over blanks, line breaks and comments. -/
def skipLines (cs : List Char) : Option (List Char) :=
  match _hs : skipBreaks cs with
  | '#' :: rest =>
    match _hc : afterComment? rest with
    | some rest' => skipLines rest'
    | none => none
  | rest => some rest
termination_by cs.length
decreasing_by
  have h₁ := skipBreaks_length_le cs
  have h₂ := afterComment?_length_le _hc
  rw [_hs, List.length_cons] at h₁
  omega

theorem skipLines_length_le (h : skipLines cs = some rest) : rest.length ≤ cs.length := by
  fun_induction skipLines cs with
  | case1 cs rest' hs rest'' hc ih =>
    have h₁ := skipBreaks_length_le cs
    have h₂ := afterComment?_length_le hc
    have h₃ := ih h
    rw [hs, List.length_cons] at h₁
    omega
  | case2 => cases h
  | case3 cs =>
    cases h
    exact skipBreaks_length_le cs

/-- The text behind blanks and a comment. -/
def afterSpace? (cs : List Char) : Option (List Char) :=
  match cs.dropWhile isSpace with
  | '#' :: rest => afterComment? rest
  | rest => some rest

theorem dropWhile_length_le (p : Char → Bool) (cs : List Char) : (cs.dropWhile p).length ≤ cs.length :=
  (List.dropWhile_sublist p).length_le

theorem afterSpace?_length_le (h : afterSpace? cs = some rest) : rest.length ≤ cs.length := by
  have hd := dropWhile_length_le isSpace cs
  unfold afterSpace? at h
  split at h
  · next heq =>
    have := afterComment?_length_le h
    rw [heq, List.length_cons] at hd
    omega
  · cases h; exact hd

/-- Passes over the rest of a line: blanks, a comment, and the line break unless the text ends. -/
def endLine (cs : List Char) : Option (List Char) :=
  match afterSpace? cs with
  | none => none
  | some [] => some []
  | some rest => afterBreak? rest

theorem endLine_length_le (h : endLine cs = some rest) : rest.length ≤ cs.length := by
  unfold endLine at h
  split at h
  · cases h
  · cases h; simp
  · next hs => exact Nat.le_trans (Nat.le_of_lt (afterBreak?_length h)) (afterSpace?_length_le hs)

/-- What stands behind a value inside brackets: a comma, or the bracket that ends them. Says whether
it was a comma. -/
def readSeparator (closer : Char) (cs : List Char) : Option (Taken Bool cs.length) :=
  match h : skipLines cs with
  | some (c :: rest) =>
    if c = ',' then some ⟨true, rest, skipLines_length_le h⟩
    else if c = closer then some ⟨false, rest, skipLines_length_le h⟩
    else none
  | _ => none

/-- Passes over what may stand around an equals sign: blanks, and inside braces line breaks and
comments too. -/
def skipAround (inBraces : Bool) (cs : List Char) : Option (List Char) :=
  if inBraces then skipLines cs else some (cs.dropWhile isSpace)

theorem skipAround_length_le {inBraces : Bool} (h : skipAround inBraces cs = some rest) : rest.length ≤ cs.length := by
  unfold skipAround at h
  split at h
  · exact skipLines_length_le h
  · cases h; exact dropWhile_length_le isSpace cs

/-- A key with points and the equals sign behind it. -/
def readLeft (inBraces : Bool) (cs : List Char) : Option (Taken (List String × String) cs.length) :=
  match readDottedKey cs with
  | none => none
  | some path =>
    match hs : skipAround inBraces path.rest with
    | some ('=' :: more) =>
      match hm : skipAround inBraces more with
      | some rest => some ⟨path.value, rest, by
          have h₁ := skipAround_length_le hs
          have h₂ := skipAround_length_le hm
          have h₃ := path.rest_lt
          rw [List.length_cons] at h₁
          omega⟩
      | none => none
    | _ => none

/-! ### Values -/

/-- An unquoted value. -/
def readScalar (cs : List Char) : Option (Taken Toml cs.length) :=
  if h : 0 < (scalarRun cs).length ∧ (scalarRun cs).length ≤ cs.length then
    (scalar? (scalarRun cs)).map fun value =>
      ⟨value, cs.drop (scalarRun cs).length, by rw [List.length_drop]; omega⟩
  else none

mutual
/-- A value in which at most `depth` brackets are open at once. -/
def readValue (depth : Nat) (cs : List Char) : Option (Taken Toml cs.length) :=
  match depth, cs with
  | 0, '[' :: _ | 0, '{' :: _ => none
  | inner + 1, '[' :: rest => (readItems inner [] rest).map fun t => t.weaken (by simp)
  | inner + 1, '{' :: rest => (readPairs inner [] rest).map fun t => t.weaken (by simp)
  | _, cs =>
    match readText cs with
    | some t => some (t.map .text)
    | none => readScalar cs
termination_by 2 * cs.length
decreasing_by all_goals simp only [List.length_cons]; omega

/-- The rest of an array behind its bracket or a comma, `items` being read. -/
def readItems (depth : Nat) (items : List Toml) (cs : List Char) : Option (Taken Toml cs.length) :=
  match _hs : skipLines cs with
  | none => none
  | some (']' :: rest) => some ⟨.array items, rest, skipLines_length_le _hs⟩
  | some start =>
    match readValue depth start with
    | none => none
    | some item =>
      match readSeparator ']' item.rest with
      | none => none
      | some after =>
        have hlt : after.rest.length < cs.length :=
          Nat.lt_trans after.rest_lt (Nat.lt_of_lt_of_le item.rest_lt (skipLines_length_le _hs))
        if after.value then
          (readItems depth (items ++ [item.value]) after.rest).map fun t => t.weaken (Nat.le_of_lt hlt)
        else some ⟨.array (items ++ [item.value]), after.rest, hlt⟩
termination_by 2 * cs.length + 1
decreasing_by
  · have h := skipLines_length_le _hs
    omega
  · omega

/-- The rest of a table behind its brace or a comma, `entries` being read. -/
def readPairs (depth : Nat) (entries : Entries) (cs : List Char) : Option (Taken Toml cs.length) :=
  match _hs : skipLines cs with
  | none => none
  | some ('}' :: rest) => some ⟨.table .inline entries, rest, skipLines_length_le _hs⟩
  | some start =>
    match readLeft true start with
    | none => none
    | some left =>
      have hleft : left.rest.length < cs.length :=
        Nat.lt_of_lt_of_le left.rest_lt (skipLines_length_le _hs)
      match readValue depth left.rest with
      | none => none
      | some item =>
        match addKey left.value.1 left.value.2 item.value .inline entries,
            readSeparator '}' item.rest with
        | some (_, entries'), some after =>
          have hlt : after.rest.length < cs.length :=
            Nat.lt_trans after.rest_lt (Nat.lt_trans item.rest_lt hleft)
          if after.value then
            (readPairs depth entries' after.rest).map fun t => t.weaken (Nat.le_of_lt hlt)
          else some ⟨.table .inline entries', after.rest, hlt⟩
        | _, _ => none
termination_by 2 * cs.length + 1
decreasing_by all_goals omega
end

/-! ### Lines -/

/-- What a line says. -/
inductive Line where
  | pair (path : List String) (key : String) (value : Toml)
  | table (path : List String) (key : String)
  | arrayTable (path : List String) (key : String)

/-- The key with points between the brackets of a header, `closer` being all of the brackets that
end it. -/
def readHeader (closer : List Char) (cs : List Char) :
    Option (Taken (List String × String) cs.length) :=
  match readDottedKey (cs.dropWhile isSpace) with
  | none => none
  | some path =>
    if closer.isPrefixOf (path.rest.dropWhile isSpace) then
      some ⟨path.value, (path.rest.dropWhile isSpace).drop closer.length, by
        have h₁ := dropWhile_length_le isSpace path.rest
        have h₂ := dropWhile_length_le isSpace cs
        have h₃ := path.rest_lt
        rw [List.length_drop]
        omega⟩
    else none

/-- A line that is neither blank nor only a comment, without its end. -/
def readLine (cs : List Char) : Option (Taken Line cs.length) :=
  match cs with
  | '[' :: '[' :: rest => (readHeader [']', ']'] rest).map fun t =>
      (t.map fun (path, key) => .arrayTable path key).weaken (by simp only [List.length_cons]; omega)
  | '[' :: rest => (readHeader [']'] rest).map fun t =>
      (t.map fun (path, key) => .table path key).weaken (by simp)
  | cs =>
    match readLeft false cs with
    | none => none
    | some left =>
      (readValue depthLimit left.rest).map fun item =>
        (item.map (.pair left.value.1 left.value.2)).weaken (Nat.le_of_lt left.rest_lt)

/-- All lines of a text, in reverse behind those read already. -/
def readLinesFrom (lines : List Line) (cs : List Char) : Option (List Line) :=
  match _hs : skipLines cs with
  | none => none
  | some [] => some lines.reverse
  | some (c :: start) =>
    match readLine (c :: start) with
    | none => none
    | some line =>
      match _he : endLine line.rest with
      | none => none
      | some rest => readLinesFrom (line.value :: lines) rest
termination_by cs.length
decreasing_by
  have h₁ := skipLines_length_le _hs
  have h₂ := endLine_length_le _he
  have h₃ := line.rest_lt
  omega

/-! ### Documents -/

/-- The entries of a document after the lines given; the first of `header` are the keys of the
header above them. -/
def build (header : List String) (entries : Entries) : List Line → Option Entries
  | [] => some entries
  | .pair path key value :: lines => do
    let (_, entries') ← change false (addKey path key value) header .header entries
    build header entries' lines
  | .table path key :: lines => do
    let (_, entries') ← addTable path key .header entries
    build (path ++ [key]) entries' lines
  | .arrayTable path key :: lines => do
    let (_, entries') ← addArrayTable path key .header entries
    build (path ++ [key]) entries' lines

/-- The entries of a document. A byte order mark before it is passed over. -/
def parse? (text : String) : Option Entries :=
  let cs := match text.toList with
    | '\ufeff' :: cs => cs
    | cs => cs
  (readLinesFrom [] cs).bind (build [] [])

end Pagewright.Toml
