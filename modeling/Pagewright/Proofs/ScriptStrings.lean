import Pagewright.Proofs.Crossings
import Pagewright.Toml.Scalar

/-!
# Strings as a script reads them

A script reads a quoted string with more escapes than `scriptString` writes (`scriptEscape?`):
control characters, numbers in octal and hexadecimal digits, code points, and line breaks that are
left out. Its strings are made of 16-bit units (`utf16`). Each character that `scriptEscape` writes
is read back as its own units and the scan passes it whole, so both meet the closing quote at the
end of the string (`scriptValue?_scriptString`). A string of a source is read as a script reads it
if its escapes are plain, and not otherwise (`stringLiteral?_of_scriptValue?`,
`stringLiteral?_hexadecimal`). -/

namespace Pagewright

open List

variable {quote c d : Char} {cs : List Char} {units : List Nat} {count : Nat} {raw : String}

/-! ### Strings of a script -/

/-- The 16-bit units of a code point. -/
def codePointUnits (n : Nat) : List Nat :=
  if n < 0x10000 then [n] else [0xd800 + (n - 0x10000) / 0x400, 0xdc00 + (n - 0x10000) % 0x400]

/-- The 16-bit units of a text. -/
def utf16 (cs : List Char) : List Nat := cs.flatMap fun c => codePointUnits c.toNat

/-- The characters that end a line of a script. -/
def isLineEnd (c : Char) : Bool := c = '\n' || c = '\r' || c = '\u2028' || c = '\u2029'

/-- How many characters behind the first belong to the end of a line: the line feed behind a
carriage return. -/
def lineEndTail (c : Char) (cs : List Char) : Nat := if c = '\r' && cs.head? = some '\n' then 1 else 0

/-- A digit of octal numbers. -/
def isOctalDigit (c : Char) : Bool := '0' ≤ c && c ≤ '7'

/-- The number in the next `count` characters. -/
def fixedHex? (count : Nat) (cs : List Char) : Option (List Nat × Nat) :=
  let digits := cs.take count
  if digits.length = count && digits.all Toml.isHexDigit then some ([Toml.number 16 digits], count) else none

/-- The code point up to a closing brace. -/
def bracedHex? (cs : List Char) : Option (List Nat × Nat) := do
  let (digits, _) ← cutAt '}' cs
  let n := Toml.number 16 digits
  if digits.isEmpty || !digits.all Toml.isHexDigit || 0x10ffff < n then none else some (codePointUnits n, digits.length + 2)

/-- The further digits of an octal number, which is below 256: two behind a first digit up to 3,
else one. -/
def octalDigits (c : Char) (cs : List Char) : List Char :=
  (cs.take (if c ≤ '3' then 2 else 1)).takeWhile isOctalDigit

/-- The character that stands for a control character, or else for itself. -/
def namedCharacter (c : Char) : Char :=
  if c = 'b' then '\x08'
  else if c = 't' then '\t'
  else if c = 'n' then '\n'
  else if c = 'v' then '\x0b'
  else if c = 'f' then '\x0c'
  else if c = 'r' then '\r'
  else c

/-- What a script reads for a backslash with `c` behind it: the units, and how many of the
characters behind `c` belong to them. -/
def scriptEscape? (c : Char) (cs : List Char) : Option (List Nat × Nat) :=
  if c = 'x' then fixedHex? 2 cs
  else if c = 'u' then if cs.head? = some '{' then bracedHex? cs.tail else fixedHex? 4 cs
  else if isOctalDigit c then some ([Toml.number 8 (c :: octalDigits c cs)], (octalDigits c cs).length)
  else if isLineEnd c then some ([], lineEndTail c cs)
  else some (utf16 [namedCharacter c], 0)

/-- The units that a script reads for the inside of a string. A line cannot end there without a
backslash, except at the two characters that only separate lines. -/
def scriptUnits? (quote : Char) : List Char → Option (List Nat)
  | [] => some []
  | '\\' :: c :: cs =>
    match scriptEscape? c cs with
    | some (units, count) => (scriptUnits? quote (cs.drop count)).map (units ++ ·)
    | none => none
  | c :: cs =>
    if c = '\\' || c = quote || c = '\n' || c = '\r' then none
    else (scriptUnits? quote cs).map (utf16 [c] ++ ·)
termination_by cs => cs.length
decreasing_by
  all_goals
    simp only [length_drop, length_cons]
    omega

/-- The units of the string that an expression is in a script, if it is a quoted string. -/
def scriptValue? (raw : String) : Option (List Nat) :=
  match raw.toList with
  | quote :: rest =>
    if (quote = '\'' || quote = '"') && rest.getLast? = some quote then scriptUnits? quote rest.dropLast else none
  | [] => none

/-! ### Reading what was written -/

theorem scriptUnits?_escape (h : scriptEscape? c cs = some (units, count)) :
    scriptUnits? quote ('\\' :: c :: cs) = (scriptUnits? quote (cs.drop count)).map (units ++ ·) := by
  rw [scriptUnits?, h]

theorem scriptUnits?_named (h : scriptEscape? c cs = some (utf16 [d], 0)) :
    scriptUnits? quote (['\\', c] ++ cs) = (scriptUnits? quote cs).map (utf16 [d] ++ ·) :=
  scriptUnits?_escape h

theorem scriptUnits?_cons (hb : c ≠ '\\') (hq : c ≠ quote) (hn : c ≠ '\n') (hr : c ≠ '\r') :
    scriptUnits? quote (c :: cs) = (scriptUnits? quote cs).map (utf16 [c] ++ ·) := by
  rw [scriptUnits?.eq_3 quote c cs fun d ds h _ => hb h]
  simp [hb, hq, hn, hr]

theorem scriptUnits?_scriptEscape (c : Char) (cs : List Char) :
    scriptUnits? '"' (scriptEscape c ++ cs) = (scriptUnits? '"' cs).map (utf16 [c] ++ ·) := by
  have hx : scriptEscape? 'u' ('0' :: '0' :: '3' :: 'c' :: cs) = some (utf16 ['<'], 4) := by
    simp [scriptEscape?, fixedHex?]
    decide
  unfold scriptEscape
  split_ifs with hq hb hn hr ht hl
  case neg => exact scriptUnits?_cons hb hq hn hr
  all_goals subst c
  · exact scriptUnits?_named (by rfl)
  · exact scriptUnits?_named (by rfl)
  · exact scriptUnits?_named (by rfl)
  · exact scriptUnits?_named (by rfl)
  · exact scriptUnits?_named (by rfl)
  · exact scriptUnits?_escape hx

theorem scriptUnits?_flatMap (cs : List Char) : scriptUnits? '"' (cs.flatMap scriptEscape) = some (utf16 cs) := by
  induction cs with
  | nil => rw [flatMap_nil, scriptUnits?]; rfl
  | cons c cs ih =>
    rw [flatMap_cons, scriptUnits?_scriptEscape, ih]
    simp [utf16]

theorem raw_scriptEscape (hd : d ∈ scriptEscape c) : d ≠ '\n' ∧ d ≠ '\r' ∧ d ≠ '<' := by
  unfold scriptEscape at hd
  split_ifs at hd with hq hb hn hr ht hl
  case neg =>
    cases mem_singleton.1 hd
    exact ⟨hn, hr, hl⟩
  all_goals
    simp only [mem_cons, not_mem_nil, or_false] at hd
    rcases hd with rfl | rfl | rfl | rfl | rfl | rfl <;> decide

/-- A script reads a written string as the text, no line can end in it and no element can begin in
it, and the scan takes it as one literal from the first character to the last. -/
theorem scriptValue?_scriptString (text : String) :
    (scriptString text).toList.head? = some '"' ∧ scriptValue? (scriptString text) = some (utf16 text.toList) ∧
      (∀ c ∈ (scriptString text).toList, c ≠ '\n' ∧ c ≠ '\r' ∧ c ≠ '<') ∧
      ∃ s, Source.ofText (scriptString text).toList = .ok s ∧ s.spans = [⟨0, byteSize (scriptString text).toList⟩] := by
  have hl : (scriptString text).toList = '"' :: (text.toList.flatMap scriptEscape ++ ['"']) := by simp [scriptString]
  refine ⟨by rw [hl]; rfl, ?_, fun c hc => ?_, ?_⟩
  · simp [scriptValue?, hl, scriptUnits?_flatMap]
  · rw [hl, mem_cons, mem_append, mem_singleton, mem_flatMap] at hc
    obtain rfl | ⟨d, -, hd⟩ | rfl := hc
    · decide
    · exact raw_scriptEscape hd
    · decide
  · have hp := (@passes_scriptString [] text {}).piecesFrom_eq 0
    rw [flatMap_singleton, Piece.chars] at hp
    refine ⟨_, Source.ofText_of_pieces hp, ?_⟩
    simp [Source.spans, spansOf]

/-! ### Strings of a source -/

/-- The escapes that are read in the same way in a source: line feed, tab, and characters that stand
for themselves. -/
def isPlainEscape (c : Char) : Bool :=
  !(c = 'b' || c = 'v' || c = 'f' || c = 'r' || c = 'x' || c = 'u' || isOctalDigit c || isLineEnd c)

/-- Each backslash begins a plain escape. -/
def plainEscapes : List Char → Bool
  | '\\' :: c :: cs => isPlainEscape c && plainEscapes cs
  | _ :: cs => plainEscapes cs
  | [] => true

theorem scriptEscape?_of_isPlainEscape (h : isPlainEscape c) (cs : List Char) :
    scriptEscape? c cs = some (utf16 [if c = 'n' then '\n' else if c = 't' then '\t' else c], 0) := by
  simp only [isPlainEscape, Bool.not_eq_true', Bool.or_eq_false_iff, decide_eq_false_iff_not] at h
  obtain ⟨⟨⟨⟨⟨⟨⟨hb, hv⟩, hf⟩, hr⟩, hx⟩, hu⟩, ho⟩, hl⟩ := h
  have hn : namedCharacter c = if c = 'n' then '\n' else if c = 't' then '\t' else c := by
    unfold namedCharacter
    split_ifs <;> simp_all
  simp [scriptEscape?, hx, hu, ho, hl, hn]

theorem unescape_of_scriptUnits? (h : scriptUnits? quote cs = some units) (hp : plainEscapes cs) :
    ∃ text, unescape quote cs = some text ∧ utf16 text = units := by
  fun_induction scriptUnits? quote cs generalizing units with
  | case1 =>
    cases h
    exact ⟨[], rfl, rfl⟩
  | case2 c cs escaped count he ih =>
    rw [plainEscapes, Bool.and_eq_true] at hp
    rw [scriptEscape?_of_isPlainEscape hp.1] at he
    cases he
    obtain ⟨behind, hb, rfl⟩ := Option.map_eq_some_iff.1 h
    obtain ⟨text, ht, rfl⟩ := ih hb hp.2
    rw [drop_zero] at ht
    exact ⟨_ :: text, by rw [unescape, ht]; rfl, by simp [utf16]⟩
  | case3 | case4 => cases h
  | case5 c cs hne hc ih =>
    simp only [Bool.or_eq_true, decide_eq_true_eq, not_or] at hc
    rw [plainEscapes.eq_2 _ _ hne] at hp
    obtain ⟨behind, hb, rfl⟩ := Option.map_eq_some_iff.1 h
    obtain ⟨text, ht, rfl⟩ := ih hb hp
    refine ⟨c :: text, ?_, by simp [utf16]⟩
    rw [unescape.eq_3 _ _ _ hne, if_neg (by simp [hc]), ht]
    rfl

/-- **Strings of a source.** A quoted string of a script in which all escapes are plain is read as
the text it is in the script. -/
theorem stringLiteral?_of_scriptValue? (h : scriptValue? raw = some units) (hp : plainEscapes raw.toList.tail.dropLast = true) :
    ∃ text, stringLiteral? raw = some text ∧ utf16 text.toList = units := by
  unfold scriptValue? at h
  split at h
  · next quote rest hraw =>
    split at h
    · next he =>
      obtain ⟨hq, hlast⟩ := Bool.and_eq_true_iff.1 he
      rw [hraw] at hp
      obtain ⟨text, ht, rfl⟩ := unescape_of_scriptUnits? h hp
      have hb : ∀ c, some quote = some c → isBlank c = false := by
        rintro c ⟨⟩
        have hq : quote = '\'' ∨ quote = '"' := by simpa using hq
        rcases hq with rfl | rfl <;> decide
      have hend : (quote :: rest).getLast? = some quote := by
        rw [getLast?_cons, of_decide_eq_true hlast]
        rfl
      have htrim : trim ([] ++ (quote :: rest ++ [])) = quote :: rest := trim_append (by simp) (by simp) hb (hend ▸ hb)
      rw [nil_append, append_nil] at htrim
      refine ⟨String.ofList text, ?_, by rw [String.toList_ofList]⟩
      rw [stringLiteral?, hraw, htrim]
      simp only [he, if_true, ht, Option.map_some]
    · cases h
  · cases h

/-- A line feed, a quote and a letter that stands for itself are what they are in a script. -/
theorem stringLiteral?_of_scriptValue?_plain :
    ∃ text, scriptValue? "'a\\n\\'\\q'" = some [97, 10, 39, 113] ∧ stringLiteral? "'a\\n\\'\\q'" = some text ∧
      utf16 text.toList = [97, 10, 39, 113] := by
  have hv : scriptValue? "'a\\n\\'\\q'" = some [97, 10, 39, 113] := by decide +kernel
  obtain ⟨text, ht, hu⟩ := stringLiteral?_of_scriptValue? hv (by decide +kernel)
  exact ⟨text, hv, ht, hu⟩

/-- A number in hexadecimal digits is read as its digits. -/
theorem stringLiteral?_hexadecimal :
    scriptValue? "'\\x41'" = some (utf16 "A".toList) ∧ stringLiteral? "'\\x41'" = some "x41" := by
  decide +kernel

end Pagewright
