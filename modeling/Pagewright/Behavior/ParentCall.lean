import Pagewright.ClassTable.Lineage
import Pagewright.Reader.Basic
import Pagewright.Script.Qualify

/-!
# Parent calls

Inside a body, `^Parent(args)` in a constructor hands arguments to the constructor of a parent, and
`^Parent.method(args)` or `^method(args)` calls what an ancestor declares. A body is divided at its
parent calls; each is then left out or written as a call of an alias, the last one first.
-/

namespace Pagewright

/-- A parent call inside a body. -/
structure ParentCall where
  /-- The offset of its `^` in the body. -/
  start : Nat
  target : String
  method? : Option String
  /-- What stands between the parentheses, without blanks around it. -/
  args : List Char
deriving DecidableEq, Repr

/-- A parent call as faults name it. -/
def ParentCall.display (call : ParentCall) : String :=
  match call.method? with
  | some method => "^" ++ call.target ++ "." ++ method
  | none => "^" ++ call.target

/-- A body divided at its parent calls: each with the text before it, and the text behind the
last. -/
structure DividedBody where
  calls : List (List Char × ParentCall)
  tail : List Char
deriving DecidableEq, Repr

/-- The divided body with one more character in front. -/
def DividedBody.cons (c : Char) : DividedBody → DividedBody
  | ⟨[], tail⟩ => ⟨[], c :: tail⟩
  | ⟨(before, call) :: calls, tail⟩ => ⟨(c :: before, call) :: calls, tail⟩

/-! ### Finding the calls -/

/-- The words behind which `^` begins a parent call; behind any other it is an operator. -/
def callWords : List String :=
  ["await", "case", "do", "else", "in", "of", "return", "typeof", "void", "yield"]

/-- Whether `^` begins a parent call behind a text, which is given backwards. -/
def allowsCall (before : List Char) : Bool :=
  match before.dropWhile isBlank with
  | [] => true
  | c :: cs =>
    if c = ')' || c = ']' then false
    else if isNameChar c then
      callWords.contains (String.ofList ((c :: cs).takeWhile isNameChar).reverse)
    else true

/-- The name at the front of the glyphs; empty if there is none. -/
def nameText (gs : List Glyph) : List Char :=
  if gs.head?.any (isNameStart ·.char) then glyphText (gs.takeWhile (isNameChar ·.char)) else []

/-- The glyphs behind the name at the front. -/
def afterName (gs : List Glyph) : List Glyph := gs.drop (nameText gs).length

/-- The name behind a point at the front of the glyphs; empty if there is none. -/
def pointedName : List Glyph → List Char
  | ⟨'.', _, _⟩ :: gs => nameText gs
  | _ => []

/-- The glyphs behind a point and a name at the front. -/
def afterPointedName (gs : List Glyph) : List Glyph :=
  if (pointedName gs).isEmpty then gs else gs.drop ((pointedName gs).length + 1)

/-- The glyphs from the argument list of a parent call on; they begin behind its `^`. -/
def callArguments (gs : List Glyph) : List Glyph :=
  (afterPointedName (afterName gs)).dropWhile (isBlank ·.char)

theorem callArguments_length_le (gs : List Glyph) : (callArguments gs).length ≤ gs.length := by
  refine Nat.le_trans (List.dropWhile_sublist _).length_le ?_
  unfold afterPointedName afterName
  split <;> simp only [List.length_drop] <;> omega

theorem rest_lt_of_splitGroup {opener closer : Char} {depth : Nat} {gs inside rest : List Glyph}
    (h : splitGroup opener closer depth (callArguments gs) = some (inside, rest)) :
    rest.length < gs.length :=
  Nat.lt_of_lt_of_le (splitGroup_length h) (callArguments_length_le gs)

namespace Source

/-- Reads the rest of a parent call behind its `^`, which stands at `start`. -/
def readCall (s : Source) (start : Nat) (gs : List Glyph) :
    Except CompileError (Read ParentCall gs.length) :=
  let target := String.ofList (nameText gs)
  let method := pointedName (afterName gs)
  if !(callArguments gs).head?.any (·.char = '(') then
    .error (s.error start (.callWithoutArguments target))
  else match h : splitGroup '(' ')' 0 (callArguments gs) with
    | some (inside, rest) =>
      .ok ⟨⟨start, target, if method.isEmpty then none else some (String.ofList method),
        trim (glyphText ((inside.drop 1).dropLast))⟩, rest, rest_lt_of_splitGroup h⟩
    | none => .error (s.error (s.offsetOf (callArguments gs)) (.unbalanced '('))

/-- Divides a body at its parent calls; `before` is the text before the glyphs, backwards. -/
def divideFrom (s : Source) (before : List Char) (gs : List Glyph) :
    Except CompileError DividedBody :=
  match gs with
  | [] => .ok ⟨[], []⟩
  | g :: rest =>
    if g.char = '^' && g.cover.isNone && allowsCall before && !(nameText rest).isEmpty then
      match s.readCall g.offset rest with
      | .error e => .error e
      | .ok r =>
        (s.divideFrom ((glyphText (rest.take (rest.length - r.rest.length))).reverse ++ g.char :: before)
          r.rest).map fun d => ⟨([], r.value) :: d.calls, d.tail⟩
    else (s.divideFrom (g.char :: before) rest).map (·.cons g.char)
termination_by gs.length
decreasing_by
  · have := r.rest_lt
    simp only [List.length_cons]; omega
  · simp

/-- Divides a body at its parent calls. -/
def divide (s : Source) : Except CompileError DividedBody := s.divideFrom [] s.glyphs

end Source

/-! ### What the calls mean -/

/-- What a parent call stands for. -/
inductive CallMeaning where
  /-- Arguments for the constructor of a parent. -/
  | chain
  /-- What a class declares as a method. -/
  | inherited (owner method : String)
deriving DecidableEq, Repr

/-- The name under which a unit keeps a method of a class. -/
def aliasName (owner method : String) : String := "__" ++ owner ++ "_" ++ method

/-- The meaning of a parent call in a body of a class or instance with the entries given. -/
def ClassTable.meaning? (t : ClassTable) (entries : List String) (inConstructor : Bool)
    (call : ParentCall) : Option CallMeaning :=
  match call.method? with
  | none =>
    if inConstructor && entries.contains call.target && !isTag call.target then some .chain
    else (t.findMethod? entries call.target).map fun owner => .inherited owner.name call.target
  | some method =>
    match (t.lineage entries).find? (·.name = call.target) with
    | some owner =>
      if owner.members.hasInheritable method then some (.inherited owner.name method) else none
    | none => none

/-- Where bodies stand: the classes, the whole text, the entries of the class or instance, and the
names that bare words can mean. -/
structure BodyContext where
  table : ClassTable
  text : List Char
  entries : List String
  ambient : Ambient

/-- A body without parent calls. -/
structure ResolvedBody where
  text : List Char
  /-- The methods called, as owner and name. -/
  inherited : List (String × String) := []
  /-- The arguments for the constructors of parents; of two for one parent the first counts. -/
  chainArgs : List (String × List Char) := []

/-- A text without the blanks it begins with and one semicolon behind them. -/
def dropStatementEnd (cs : List Char) : List Char :=
  match trimStart cs with
  | ';' :: rest => rest
  | rest => rest

namespace BodyContext

/-- Replaces the parent calls of a divided body, the last one first. -/
def resolve (ctx : BodyContext) (inConstructor : Bool) (m : Method) (tail : List Char) :
    List (List Char × ParentCall) → Except CompileError ResolvedBody
  | [] => .ok { text := tail }
  | (before, call) :: calls => do
    let done ← ctx.resolve inConstructor m tail calls
    match ctx.table.meaning? ctx.entries inConstructor call with
    | none => throw (.atOffset ctx.text (m.offset + call.start) (.unresolvedCall call.display))
    | some .chain =>
      let args ← qualify ctx.ambient m.paramNames call.args
      return { done with
        text := before ++ dropStatementEnd done.text
        chainArgs := (call.target, args) :: done.chainArgs }
    | some (.inherited owner method) =>
      return { done with
        text := before ++ (aliasName owner method).toList ++ '(' :: call.args ++ ')' :: done.text
        inherited := done.inherited ++ [(owner, method)] }

/-- A body with its parent calls replaced and its references in full. Faults inside get their
position in the whole text. -/
def prepare (ctx : BodyContext) (inConstructor : Bool) (m : Method) :
    Except CompileError ResolvedBody := do
  let relocated {α : Type} (result : Except CompileError α) : Except CompileError α :=
    result.mapError (·.relocate (Position.ofOffset ctx.text m.offset))
  let divided ← relocated ((Source.ofText m.body.toList).bind Source.divide)
  let body ← ctx.resolve inConstructor m divided.tail divided.calls
  let text ← relocated (qualify ctx.ambient m.paramNames body.text)
  return { body with text }

end BodyContext

end Pagewright
