import Pagewright.Text.Split
import Pagewright.Toml.Value

/-!
# TOML numbers, dates and words

The values that are written without quotes or brackets, each recognised as a whole.
-/

namespace Pagewright.Toml

/-! ### Digits -/

/-- The digits of a run in which underscores may stand between digits. -/
def digits? (isDigit : Char → Bool) (cs : List Char) : Option (List Char) :=
  let groups := splitAll '_' cs
  if groups.all fun group => !group.isEmpty && group.all isDigit then some groups.flatten else none

/-- A decimal, octal, binary or hexadecimal digit. -/
def isHexDigit (c : Char) : Bool := c.isDigit || ('a' ≤ c && c ≤ 'f') || ('A' ≤ c && c ≤ 'F')

/-- The value of a digit. -/
def digitValue (c : Char) : Nat :=
  if c.isDigit then c.toNat - '0'.toNat
  else if 'a' ≤ c && c ≤ 'f' then c.toNat - 'a'.toNat + 10
  else c.toNat - 'A'.toNat + 10

/-- The number that digits make. -/
def number (base : Nat) (digits : List Char) : Nat :=
  digits.foldl (fun n c => base * n + digitValue c) 0

/-- A sign and what stands behind it. -/
def splitSign : List Char → Option Char × List Char
  | '+' :: cs => (some '+', cs)
  | '-' :: cs => (some '-', cs)
  | cs => (none, cs)

/-! ### Integers -/

/-- The digits of a decimal integer, which has no idle zeros in front. -/
def plainDigits? (cs : List Char) : Option (List Char) := do
  let digits ← digits? Char.isDigit cs
  if digits.head? = some '0' && 1 < digits.length then none else some digits

/-- An integer. At most 128 bits are admitted. -/
def integer? (cs : List Char) : Option Int := do
  let n : Int ← match cs with
    | '0' :: 'x' :: digits => (digits? isHexDigit digits).map fun ds => (number 16 ds : Int)
    | '0' :: 'o' :: digits => (digits? (fun c => '0' ≤ c && c ≤ '7') digits).map fun ds => (number 8 ds : Int)
    | '0' :: 'b' :: digits => (digits? (fun c => c = '0' || c = '1') digits).map fun ds => (number 2 ds : Int)
    | _ => (plainDigits? (splitSign cs).2).map fun ds =>
      if (splitSign cs).1 = some '-' then -(number 10 ds : Int) else (number 10 ds : Int)
  if -(Nat.pow 2 127 : Int) ≤ n && n < (Nat.pow 2 128 : Int) then some n else none

/-! ### Numbers with a fraction or exponent -/

/-- Whether digits with the decimal point `scale` places from their end make a number that is too
large to be kept. -/
def isTooLarge (digits : List Char) (scale : Int) : Bool :=
  let significant := digits.dropWhile (· = '0')
  let magnitude : Int := significant.length + scale
  if significant.isEmpty || magnitude < 309 then false
  else if 309 < magnitude then true
  else
    let n := number 10 significant
    let limit := Nat.pow 2 1024 - Nat.pow 2 970
    if 0 ≤ scale then limit ≤ n * Nat.pow 10 scale.toNat else limit * Nat.pow 10 (-scale).toNat ≤ n

/-- Whether a text is a number with a fraction, an exponent or both. -/
def isFloat (cs : List Char) : Bool :=
  let body := (splitSign cs).2
  if body = "inf".toList || body = "nan".toList then true
  else
    let (mantissa, exponent?) := match cutAt 'e' (body.map fun c => if c = 'E' then 'e' else c) with
      | some (mantissa, exponent) => (mantissa, some exponent)
      | none => (body, none)
    let (whole, fraction?) := match cutAt '.' mantissa with
      | some (whole, fraction) => (whole, some fraction)
      | none => (mantissa, none)
    if exponent?.isNone && fraction?.isNone then false
    else
      match plainDigits? whole, digits? Char.isDigit (fraction?.getD ['0']),
          digits? Char.isDigit (splitSign (exponent?.getD ['0'])).2 with
      | some whole, some fraction, some power =>
        let sign : Int := if (splitSign (exponent?.getD [])).1 = some '-' then -1 else 1
        !isTooLarge (whole ++ fraction) (sign * number 10 power - fraction.length)
      | _, _, _ => false

/-! ### Dates and times -/

/-- The number that two digits make. -/
def twoDigits? : List Char → Option Nat
  | [a, b] => if a.isDigit && b.isDigit then some (number 10 [a, b]) else none
  | _ => none

/-- The number of days of a month. -/
def daysOf (year month : Nat) : Nat :=
  if month = 2 then
    if year % 4 = 0 && (year % 100 ≠ 0 || year % 400 = 0) then 29 else 28
  else if [4, 6, 9, 11].contains month then 30
  else 31

/-- Whether a text is a date. -/
def isDate (cs : List Char) : Bool :=
  match splitAll '-' cs with
  | [year, month, day] =>
    match twoDigits? month, twoDigits? day with
    | some m, some d =>
      year.length = 4 && year.all Char.isDigit && 1 ≤ m && m ≤ 12 && 1 ≤ d &&
        d ≤ daysOf (number 10 year) m
    | _, _ => false
  | _ => false

/-- Whether a text is a number of seconds below a minute, or a leap second, with an optional
fraction. -/
def isSeconds (cs : List Char) : Bool :=
  match cutAt '.' cs with
  | some (seconds, fraction) =>
    (twoDigits? seconds).any (· ≤ 60) && !fraction.isEmpty && fraction.all Char.isDigit
  | none => (twoDigits? cs).any (· ≤ 60)

/-- Whether a text is a time of day; its seconds may be left out. -/
def isTime (cs : List Char) : Bool :=
  match splitAll ':' cs with
  | [hour, minute] => (twoDigits? hour).any (· ≤ 23) && (twoDigits? minute).any (· ≤ 59)
  | [hour, minute, seconds] =>
    (twoDigits? hour).any (· ≤ 23) && (twoDigits? minute).any (· ≤ 59) && isSeconds seconds
  | _ => false

/-- Whether a text is a time of day with an optional distance from universal time. -/
def isOffsetTime (cs : List Char) : Bool :=
  let zone := cs.drop (cs.length - 6)
  let isZone := match zone with
    | sign :: hour₁ :: hour₂ :: ':' :: minute =>
      (sign = '+' || sign = '-') && (twoDigits? [hour₁, hour₂]).any (· ≤ 23) &&
        (twoDigits? minute).any (· ≤ 59)
    | _ => false
  if isZone then isTime (cs.take (cs.length - 6))
  else match cs.getLast? with
    | some 'Z' | some 'z' => isTime cs.dropLast
    | _ => isTime cs

/-- Whether a text is a date, a time or both. -/
def isDatetime (cs : List Char) : Bool :=
  if cs.length ≤ 10 then isDate cs || isTime cs
  else match cs.drop 10 with
    | mark :: time =>
      (isDate (cs.take 10) && (mark = 'T' || mark = 't' || mark = ' ') && isOffsetTime time) || isTime cs
    | [] => false

/-! ### All of them -/

/-- A character of an unquoted value. -/
def isScalarPart (c : Char) : Bool :=
  c.isAlphanum || c = '_' || c = '+' || c = '-' || c = '.' || c = ':'

/-- The characters of the unquoted value at the front. A date may be followed by a blank and a
time. -/
def scalarRun (cs : List Char) : List Char :=
  let run := cs.takeWhile isScalarPart
  match cs.drop run.length with
  | ' ' :: c :: rest =>
    if isDate run && c.isDigit then run ++ ' ' :: (c :: rest).takeWhile isScalarPart else run
  | _ => run

/-- The value that an unquoted text stands for. -/
def scalar? (cs : List Char) : Option Toml :=
  if cs = "true".toList then some (.boolean true)
  else if cs = "false".toList then some (.boolean false)
  else match integer? cs with
    | some n => some (.integer n)
    | none =>
      if isFloat cs then some (.float (String.ofList cs))
      else if isDatetime cs then some (.datetime (String.ofList cs))
      else none

end Pagewright.Toml
