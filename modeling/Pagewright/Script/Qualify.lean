import Pagewright.Script.Ambient
import Pagewright.Script.Pattern

/-!
# Qualifying names

A bare word in a member body that means a member of the instance is written out in full. One pass
over the tokens keeps the open scopes and the names declared in each so far, and a word is qualified
if no open scope declares it. Names behind a dot, keys of objects and labels are left alone; the
short form `{ name }` of a property becomes `{ name: full }`. Every other character of the body
stays as it is.

A list of declarations remembers its scope by the number of scopes below it. Where it goes on behind
a comma and so many scopes are no longer open, nothing can be made of the body. -/

namespace Pagewright

variable {ambient : Ambient} {params : List String} {body out : List Char}

/-- A scope: the names declared in it and the offset of the token behind which it ends. The scope
of the whole body has no such token. -/
structure Scope where
  isFunction : Bool
  names : List String
  last? : Option Nat

/-- A list of declarations that may go on behind a comma: the number of scopes below the one it
declares into, and of brackets open around it. -/
structure DeclarationList where
  level : Nat
  depth : Nat

/-- What is known at a token from those before it. -/
structure Surroundings where
  /-- The open scopes, the outermost first. -/
  scopes : List Scope
  /-- The open brackets, the innermost first. Every closer takes one off. -/
  brackets : List Bracket
  declarations? : Option DeclarationList
  /-- The offsets of words that patterns have taken. -/
  taken : List Nat

/-- Words that stand before a group and a block without being a method. -/
def headWords : List String := ["catch", "for", "function", "if", "switch", "while", "with"]

/-- Whether the tokens begin with a group. -/
def beginsGroup : List ScriptToken → Bool
  | ⟨.opener .round, _, _, _⟩ :: _ => true
  | _ => false

/-- Whether the tokens begin with a block. -/
def beginsBlock : List ScriptToken → Bool
  | ⟨.opener .curly, _, _, _⟩ :: _ => true
  | _ => false

/-- Whether the tokens begin with an arrow. -/
def beginsArrow : List ScriptToken → Bool
  | ⟨.arrow, _, _, _⟩ :: _ => true
  | _ => false

/-- Whether the tokens begin with a pattern that a declaration can have. -/
def beginsPattern : List ScriptToken → Bool
  | ⟨.word _, _, _, _⟩ :: _ => true
  | ⟨.opener .curly, _, _, _⟩ :: _ => true
  | ⟨.opener .square, _, _, _⟩ :: _ => true
  | _ => false

/-- Whether the token before is of one of the kinds. -/
def isAmong (kinds : List ScriptKind) (token? : Option ScriptToken) : Bool :=
  token?.any fun t => kinds.contains t.kind

namespace Surroundings

/-- At the beginning of a body with the parameters given. -/
def start (params : List String) : Surroundings := ⟨[⟨true, params, none⟩], [], none, []⟩

/-- Opens a scope that ends behind the token at `last`. -/
def push (s : Surroundings) (isFunction : Bool) (last : Nat) : Surroundings :=
  { s with scopes := s.scopes ++ [⟨isFunction, [], some last⟩] }

/-- Closes the scopes that end behind the token at an offset. -/
def close (s : Surroundings) (offset : Nat) : Surroundings :=
  { s with scopes := s.scopes.filter (·.last? ≠ some offset) }

/-- Declares the names of a pattern in the scope at a level. -/
def declare (s : Surroundings) (level : Nat) (bound : List Binding) : Surroundings :=
  { s with
    scopes := s.scopes.modify level fun scope =>
      { scope with names := bound.filterMap Binding.name? ++ scope.names }
    taken := bound.map Binding.place ++ s.taken }

/-- Whether an open scope declares a name. -/
def declares (s : Surroundings) (name : String) : Bool := s.scopes.any (·.names.contains name)

/-- The level of the innermost function. -/
def functionLevel (s : Surroundings) : Nat :=
  s.scopes.length - 1 - (s.scopes.reverse.findIdx? (·.isFunction)).getD (s.scopes.length - 1)

/-- Opens the scope of a list of parameters and the body behind it; `ts` begin inside the list. -/
def enterFunction (s : Surroundings) (isFunction : Bool) (ts : List ScriptToken) : Surroundings :=
  match closeGroup [.round] ts with
  | none => s
  | some g =>
    match g.functionEnd with
    | none => s
    | some last => (s.push isFunction last).declare s.scopes.length (parameterBindings g.inside)

/-- Begins a list of declarations with the pattern at the front of `ts`. -/
def enterDeclaration (s : Surroundings) (keyword : String) (ts : List ScriptToken) : Surroundings :=
  let level := if keyword = "var" then s.functionLevel else s.scopes.length - 1
  { s with declarations? := some ⟨level, s.brackets.length⟩ }.declare level (bindings ts)

/-- Enters the function whose keyword stands before `ts`. -/
def enterNamedFunction (s : Surroundings) (ts : List ScriptToken) : Surroundings :=
  let ts := match ts with
    | ⟨.other '*', _, _, _⟩ :: ts => ts
    | ts => ts
  let (s, ts) := match ts with
    | ⟨.word name, start, _, _⟩ :: ts => (s.declare s.functionLevel [⟨start, some name⟩], ts)
    | ts => (s, ts)
  if beginsGroup ts then s.enterFunction true ts.tail else s

/-- Opens the scope of the head of a loop and the body behind it; `ts` begin inside the head. -/
def enterLoop (s : Surroundings) (ts : List ScriptToken) : Surroundings :=
  match closeGroup [.round] ts with
  | none => s
  | some g =>
    match bodyEnd false g.closer g.after with
    | none => s
    | some last => s.push false last

/-- Opens the scope of an arrow function with one bare parameter; `ts` begin with the arrow. -/
def enterArrow (s : Surroundings) (start : Nat) (name : String) (ts : List ScriptToken) :
    Surroundings :=
  match ts with
  | [] => s
  | arrow :: ts =>
    match bodyEnd true arrow ts with
    | none => s
    | some last => (s.push true last).declare s.scopes.length [⟨start, some name⟩]

/-- A reference as it is to be written: in full, if it means an ambient name. -/
def reference (s : Surroundings) (ambient : Ambient) (previous? : Option ScriptToken)
    (t : ScriptToken) (name : String) (rest : List ScriptToken) : List Char :=
  if s.declares name then t.text
  else match ambient.get? name with
    | none => t.text
    | some access =>
      if (previous?.isNone ||
            isAmong [.opener .curly, .comma, .semicolon, .closer .curly] previous?) &&
          isAmong [.colon] rest.head? then t.text
      else if s.brackets.head? = some .curly && isAmong [.opener .curly, .comma] previous? &&
          isAmong [.closer .curly, .comma] rest.head? then
        (name ++ ": " ++ access.qualify name).toList
      else (access.qualify name).toList

/-- Passes a word: what is known then, and the word as it is to be written. -/
def passWord (s : Surroundings) (ambient : Ambient) (previous? : Option ScriptToken)
    (t : ScriptToken) (name : String) (rest : List ScriptToken) : Surroundings × List Char :=
  if (name = "let" || name = "const" || name = "var") && beginsPattern rest then
    (s.enterDeclaration name rest, t.text)
  else if name = "function" then (s.enterNamedFunction rest, t.text)
  else if name = "catch" && beginsGroup rest then (s.enterFunction false rest.tail, t.text)
  else if name = "for" && beginsGroup rest then (s.enterLoop rest.tail, t.text)
  else if s.taken.contains t.start || isAmong [.dot, .optionalDot] previous? then (s, t.text)
  else if beginsArrow rest then (s.enterArrow t.start name rest, t.text)
  else if beginsGroup rest && !headWords.contains name &&
      (closeGroup [.round] rest.tail).any (beginsBlock ·.after) then
    (s.enterFunction true rest.tail, t.text)
  else (s, s.reference ambient previous? t name rest)

/-- Passes a mark. -/
def passMark (s : Surroundings) (t : ScriptToken) (rest : List ScriptToken) : Surroundings :=
  match t.kind with
  | .opener .round =>
    let s' := if (closeGroup [.round] rest).any (beginsArrow ·.after) then s.enterFunction true rest
      else s
    { s' with brackets := .round :: s'.brackets }
  | .opener .square => { s with brackets := .square :: s.brackets }
  | .opener .curly =>
    let s' := match closeGroup [.curly] rest with
      | some g => s.push false g.closer.start
      | none => s
    { s' with brackets := .curly :: s'.brackets }
  | .closer _ =>
    let brackets := s.brackets.tail
    { s with brackets, declarations? := s.declarations?.filter (·.depth ≤ brackets.length) }
  | .comma =>
    match s.declarations?.filter (·.depth = s.brackets.length) with
    | some list => s.declare list.level (bindings rest)
    | none => s
  | .semicolon =>
    { s with declarations? := s.declarations?.filter (·.depth ≠ s.brackets.length) }
  | _ => s

/-- The list of declarations that goes on at a token: a comma between as many brackets as the list
has around it. -/
def continued? (s : Surroundings) (t : ScriptToken) : Option DeclarationList :=
  match t.kind with
  | .comma => s.declarations?.filter (·.depth = s.brackets.length)
  | _ => none

/-- Whether a list of declarations goes on with names although no scope is open at its level. -/
def overruns (s : Surroundings) (t : ScriptToken) (rest : List ScriptToken) : Bool :=
  (s.continued? t).any fun list =>
    s.scopes.length ≤ list.level && (bindings rest).any (·.name?.isSome)

/-- Passes a token: what is known behind it, and the token as it is to be written. -/
def pass (s : Surroundings) (ambient : Ambient) (previous? : Option ScriptToken) (t : ScriptToken)
    (rest : List ScriptToken) : Surroundings × List Char :=
  match t.kind with
  | .word name => s.passWord ambient previous? t name rest
  | _ => (s.passMark t rest, t.text)

end Surroundings

/-- The tokens with the references to ambient names written in full. -/
def qualifyTokens (ambient : Ambient) (s : Surroundings) (previous? : Option ScriptToken) :
    List ScriptToken → List Char
  | [] => []
  | t :: rest =>
    let (s', text) := s.pass ambient previous? t rest
    t.gap ++ text ++ qualifyTokens ambient (s'.close t.start) (some t) rest

/-- Whether at some token a list of declarations goes on although no scope is open at its level. -/
def overrunsTokens (ambient : Ambient) (s : Surroundings) (previous? : Option ScriptToken) :
    List ScriptToken → Bool
  | [] => false
  | t :: rest =>
    s.overruns t rest ||
      overrunsTokens ambient ((s.pass ambient previous? t rest).1.close t.start) (some t) rest

/-- A member body with the references to ambient names in full; `params` are the names that its
parameters declare. -/
def qualify (ambient : Ambient) (params : List String) (body : List Char) :
    Except CompileError (List Char) := do
  if ambient.isEmpty then return body
  let (tokens, gap) := (← Source.ofText body).scriptTokens
  if overrunsTokens ambient (.start params) none tokens then throw .closedScope
  return qualifyTokens ambient (.start params) none tokens ++ gap

/-- The body of a source, the ambient names not being none. -/
theorem qualify_of_source {s : Source}
    (ha : ambient.isEmpty = false) (hs : Source.ofText body = .ok s) :
    qualify ambient params body =
      if overrunsTokens ambient (.start params) none s.scriptTokens.1 then .error .closedScope
      else .ok (qualifyTokens ambient (.start params) none s.scriptTokens.1 ++ s.scriptTokens.2) := by
  rw [qualify, ha, hs]
  rfl

/-- A body is written out if there are no ambient names, or if its literals end and no list of
declarations overruns its scope. -/
theorem qualify_eq_ok
    (h : qualify ambient params body = .ok out) :
    (ambient.isEmpty = true ∧ out = body) ∨ ∃ s, Source.ofText body = .ok s ∧
      overrunsTokens ambient (.start params) none s.scriptTokens.1 = false ∧
      out = qualifyTokens ambient (.start params) none s.scriptTokens.1 ++ s.scriptTokens.2 := by
  cases ha : ambient.isEmpty with
  | true =>
    rw [qualify, ha] at h
    cases h
    exact .inl ⟨rfl, rfl⟩
  | false =>
    cases hs : Source.ofText body with
    | error e =>
      rw [qualify, ha, hs] at h
      cases h
    | ok s =>
      rw [qualify_of_source ha hs] at h
      split at h
      · cases h
      · next ho =>
        cases h
        exact .inr ⟨s, rfl, Bool.eq_false_iff.2 ho, rfl⟩

end Pagewright
