import Pagewright.Toml.Scalar

/-!
# TOML texts and keys

The four forms of quoted text, and keys. Every reader takes what it reads off the front and says
that less is left.
-/

namespace Pagewright.Toml

variable {cs rest : List Char}

/-- A value read off the front of a text of length `n`, and the shorter rest. -/
structure Taken (α : Type) (n : Nat) where
  value : α
  rest : List Char
  rest_lt : rest.length < n

namespace Taken

/-- What was read changed by `f`. -/
def map {α β : Type} {n : Nat} (f : α → β) (t : Taken α n) : Taken β n := ⟨f t.value, t.rest, t.rest_lt⟩

/-- The same, taken off a longer text. -/
def weaken {α : Type} {m n : Nat} (t : Taken α m) (h : m ≤ n) : Taken α n :=
  ⟨t.value, t.rest, Nat.lt_of_lt_of_le t.rest_lt h⟩

/-- One more character in front of a text that was read. -/
def cons {n : Nat} (c : Char) (t : Taken (List Char) n) : Taken (List Char) (n + 1) :=
  ⟨c :: t.value, t.rest, Nat.lt_succ_of_lt t.rest_lt⟩

end Taken

/-! ### Characters -/

/-- A blank inside a line. -/
def isSpace (c : Char) : Bool := c = ' ' || c = '\t'

/-- A character that texts and comments may hold as it is. -/
def isPlain (c : Char) : Bool := c = '\t' || (' ' ≤ c && c ≠ '\x7f')

/-- The text behind a line break at the front. -/
def afterBreak? : List Char → Option (List Char)
  | '\n' :: cs => some cs
  | '\r' :: '\n' :: cs => some cs
  | _ => none

theorem afterBreak?_length (h : afterBreak? cs = some rest) : rest.length < cs.length := by
  unfold afterBreak? at h
  split at h
  · cases h; simp
  · cases h; simp only [List.length_cons]; omega
  · cases h

/-- The text without the blanks and line breaks it begins with. -/
def skipBreaks : List Char → List Char
  | [] => []
  | '\r' :: '\n' :: cs => skipBreaks cs
  | c :: cs => if c = '\n' || isSpace c then skipBreaks cs else c :: cs

theorem skipBreaks_length_le (cs : List Char) : (skipBreaks cs).length ≤ cs.length := by
  fun_induction skipBreaks cs with
  | case1 => exact Nat.le_refl _
  | case2 cs ih => simp only [List.length_cons]; omega
  | case3 c cs _ _ ih => simp only [List.length_cons]; omega
  | case4 => exact Nat.le_refl _

/-! ### Escapes -/

/-- The character with a number given in hexadecimal digits. -/
def codePoint? (digits : List Char) : Option Char :=
  if digits.all isHexDigit then
    let n := number 16 digits
    if h : n.isValidChar then some (Char.ofNatAux n h) else none
  else none

/-- The character that an escape stands for; the backslash is taken off already. -/
def escape? (cs : List Char) : Option (Taken Char cs.length) :=
  match cs with
  | 'b' :: rest => some ⟨'\x08', rest, by simp⟩
  | 't' :: rest => some ⟨'\t', rest, by simp⟩
  | 'n' :: rest => some ⟨'\n', rest, by simp⟩
  | 'f' :: rest => some ⟨'\x0c', rest, by simp⟩
  | 'r' :: rest => some ⟨'\r', rest, by simp⟩
  | 'e' :: rest => some ⟨'\x1b', rest, by simp⟩
  | '"' :: rest => some ⟨'"', rest, by simp⟩
  | '\\' :: rest => some ⟨'\\', rest, by simp⟩
  | 'x' :: a :: b :: rest =>
    (codePoint? [a, b]).map fun c => ⟨c, rest, by simp only [List.length_cons]; omega⟩
  | 'u' :: a :: b :: c :: d :: rest =>
    (codePoint? [a, b, c, d]).map fun c => ⟨c, rest, by simp only [List.length_cons]; omega⟩
  | 'U' :: a :: b :: c :: d :: e :: f :: g :: h :: rest =>
    (codePoint? [a, b, c, d, e, f, g, h]).map fun c =>
      ⟨c, rest, by simp only [List.length_cons]; omega⟩
  | _ => none

/-! ### Quoted texts -/

/-- The text up to a double quote on the same line. -/
def basicText (cs : List Char) : Option (Taken (List Char) cs.length) :=
  match cs with
  | [] => none
  | '"' :: rest => some ⟨[], rest, by simp⟩
  | '\\' :: rest => do
    let c ← escape? rest
    let more ← basicText c.rest
    return (more.cons c.value).weaken (Nat.le_of_lt (Nat.succ_lt_succ c.rest_lt))
  | c :: rest => if isPlain c then (basicText rest).map (Taken.cons c) else none
termination_by cs.length
decreasing_by
  · exact Nat.lt_succ_of_lt c.rest_lt
  · simp

/-- The text up to a single quote on the same line. -/
def literalText (cs : List Char) : Option (Taken (List Char) cs.length) :=
  match cs with
  | [] => none
  | '\'' :: rest => some ⟨[], rest, by simp⟩
  | c :: rest => if isPlain c then (literalText rest).map (Taken.cons c) else none

/-- The end of a text over several lines, at a quote. Up to two quotes before the three that end it
belong to the text. -/
def quotesAtEnd (quote : Char) (cs : List Char) : Option (Taken (List Char) cs.length) :=
  let run := (cs.takeWhile (· = quote)).length
  if h : 3 ≤ run then
    let taken := min run 5
    some ⟨List.replicate (taken - 3) quote, cs.drop taken, by
      have : run ≤ cs.length := (List.takeWhile_sublist _).length_le
      rw [List.length_drop]
      omega⟩
  else none

/-- The text behind a backslash at the end of a line: the blanks and line breaks there are left
out. -/
def afterFold? (cs : List Char) : Option (List Char) :=
  if (afterBreak? (cs.dropWhile isSpace)).isSome then some (skipBreaks cs) else none

theorem afterFold?_length_le (h : afterFold? cs = some rest) : rest.length ≤ cs.length := by
  unfold afterFold? at h
  split at h
  · cases h; exact skipBreaks_length_le cs
  · cases h

/-- The text up to three double quotes. Line breaks stay as they are written. -/
def basicLines (cs : List Char) : Option (Taken (List Char) cs.length) :=
  match quotesAtEnd '"' cs with
  | some ended => some ended
  | none =>
    match cs with
    | [] => none
    | '\r' :: '\n' :: rest =>
      (basicLines rest).map fun more => (more.cons '\n').cons '\r'
    | '\\' :: rest =>
      match _hf : afterFold? rest with
      | some rest' => (basicLines rest').map fun more =>
          more.weaken (Nat.le_succ_of_le (afterFold?_length_le _hf))
      | none =>
        match escape? rest with
        | none => none
        | some c => (basicLines c.rest).map fun more =>
            (more.cons c.value).weaken (Nat.le_of_lt (Nat.succ_lt_succ c.rest_lt))
    | c :: rest =>
      if c = '\n' || isPlain c then (basicLines rest).map (Taken.cons c) else none
termination_by cs.length
decreasing_by
  · simp only [List.length_cons]; omega
  · exact Nat.lt_succ_of_le (afterFold?_length_le _hf)
  · exact Nat.lt_succ_of_lt c.rest_lt
  · simp

/-- The text up to three single quotes. Line breaks stay as they are written. -/
def literalLines (cs : List Char) : Option (Taken (List Char) cs.length) :=
  match quotesAtEnd '\'' cs with
  | some ended => some ended
  | none =>
    match cs with
    | [] => none
    | '\r' :: '\n' :: rest =>
      (literalLines rest).map fun more => (more.cons '\n').cons '\r'
    | c :: rest =>
      if c = '\n' || isPlain c then (literalLines rest).map (Taken.cons c) else none
termination_by cs.length
decreasing_by
  · simp only [List.length_cons]; omega
  · simp

/-- The text of several lines behind its three quotes; a line break right there is left out. -/
def readLines (read : (cs : List Char) → Option (Taken (List Char) cs.length)) (cs : List Char) :
    Option (Taken (List Char) cs.length) :=
  match h : afterBreak? cs with
  | some rest => (read rest).map fun t => t.weaken (Nat.le_of_lt (afterBreak?_length h))
  | none => read cs

/-- A quoted text on one line. -/
def readQuoted (cs : List Char) : Option (Taken String cs.length) :=
  match cs with
  | '"' :: rest => (basicText rest).map fun t => (t.map String.ofList).weaken (by simp)
  | '\'' :: rest => (literalText rest).map fun t => (t.map String.ofList).weaken (by simp)
  | _ => none

/-- A quoted text of any form. -/
def readText (cs : List Char) : Option (Taken String cs.length) :=
  match cs with
  | '"' :: '"' :: '"' :: rest => (readLines basicLines rest).map fun t =>
      (t.map String.ofList).weaken (by simp only [List.length_cons]; omega)
  | '\'' :: '\'' :: '\'' :: rest => (readLines literalLines rest).map fun t =>
      (t.map String.ofList).weaken (by simp only [List.length_cons]; omega)
  | cs => readQuoted cs

/-! ### Keys -/

/-- A character of a bare key. -/
def isBareKeyPart (c : Char) : Bool := c.isAlphanum || c = '_' || c = '-'

/-- One key. -/
def readKey (cs : List Char) : Option (Taken String cs.length) :=
  match readQuoted cs with
  | some t => some t
  | none =>
    let run := cs.takeWhile isBareKeyPart
    if h : 0 < run.length then
      some ⟨String.ofList run, cs.drop run.length, by
        have : run.length ≤ cs.length := (List.takeWhile_sublist _).length_le
        rw [List.length_drop]
        omega⟩
    else none

/-- A key with points, as the keys before the last one and the last one. -/
def readPath (cs : List Char) : Option (Taken (List String × String) cs.length) := do
  let key ← readKey cs
  match h : key.rest.dropWhile isSpace with
  | '.' :: more =>
    have hle : (more.dropWhile isSpace).length < cs.length := by
      have h₁ : (key.rest.dropWhile isSpace).length ≤ key.rest.length :=
        (List.dropWhile_sublist _).length_le
      have h₂ : (more.dropWhile isSpace).length ≤ more.length := (List.dropWhile_sublist _).length_le
      have h₃ := key.rest_lt
      rw [h, List.length_cons] at h₁
      omega
    let path ← readPath (more.dropWhile isSpace)
    return (path.map fun (keys, last) => (key.value :: keys, last)).weaken (Nat.le_of_lt hle)
  | _ => return key.map fun name => ([], name)
termination_by cs.length

/-- How deep a document may go: keys in one key with points, and brackets open at once. -/
def depthLimit : Nat := 80

/-- A key with points that does not go too deep. -/
def readDottedKey (cs : List Char) : Option (Taken (List String × String) cs.length) :=
  (readPath cs).filter fun path => path.value.1.length < depthLimit

end Pagewright.Toml
