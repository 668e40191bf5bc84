import Pagewright.Source

/-!
# Include directives

`*include label: 'path';` stands for the text of another file, whose own directives are expanded
first. Paths are taken from the folder of the file they stand in. A file that is being expanded
already cannot be included again.
-/

namespace Pagewright

/-! ### Reading directives -/

/-- A text divided at its include directives: each path with the text before it, and the text behind
the last. -/
structure DividedText where
  includes : List (List Char × Path)
  tail : List Char

/-- Whether a text can label a directive. -/
def isLabel : List Char → Bool
  | [] => false
  | c :: cs =>
    (c.isAlpha || c = '_' || c = '$') && cs.all fun c => isWordChar c || c = '$' || c = '-'

/-- What stands between two equal quotes, if it is not empty and holds none. -/
def quotedPath? : List Char → Option Path
  | [] => none
  | quote :: cs =>
    if (quote = '\'' || quote = '"') && cs.getLast? = some quote && !cs.dropLast.isEmpty &&
        !cs.dropLast.contains quote then
      some ⟨String.ofList cs.dropLast⟩
    else none

/-- The path in a directive, of which the word `*include` and the semicolon are left out. -/
def directivePath? (body : List Char) : Option Path :=
  match cutAt ':' body with
  | some (label, target) => if isLabel (trim label) then quotedPath? (trim target) else none
  | none => none

/-- The word a directive begins with. -/
def includeWord : List Char := "*include".toList

namespace Source

/-- Divides glyphs at their include directives. -/
def divideIncludesFrom (s : Source) (gs : List Glyph) : Except CompileError DividedText :=
  match _hf : findGlyphs includeWord gs with
  | none => .ok ⟨[], glyphText gs⟩
  | some found =>
    match _hs : findGlyphs [';'] found with
    | none | some [] => .error (s.error (s.offsetOf found) .invalidInclude)
    | some (semicolon :: rest) =>
      match directivePath? (glyphText
          ((found.take (found.length - (semicolon :: rest).length)).drop includeWord.length)) with
      | none => .error (s.error (s.offsetOf found) .invalidInclude)
      | some path => (s.divideIncludesFrom rest).map fun d =>
          ⟨(glyphText (gs.take (gs.length - found.length)), path) :: d.includes, d.tail⟩
termination_by gs.length
decreasing_by
  have h₁ := findGlyphs_length_le _hf
  have h₂ := findGlyphs_length_le _hs
  simp only [List.length_cons] at h₂
  omega

/-- Divides a text at its include directives. -/
def divideIncludes (s : Source) : Except CompileError DividedText := s.divideIncludesFrom s.glyphs

end Source

/-! ### Expanding -/

section Expanding

variable {m : Type → Type} [Monad m]

/-- The texts of the included files in their places. -/
def spliceIncludes (resolve : Path → ExceptT CompileError m (List Char)) (base : Path)
    (tail : List Char) : List (List Char × Path) → ExceptT CompileError m (List Char)
  | [] => pure tail
  | (before, path) :: includes => do
    let included ← resolve (base.join path)
    let rest ← spliceIncludes resolve base tail includes
    return before ++ included ++ rest

/-- Expands the directives of a text from a folder. -/
def expandWith (resolve : Path → ExceptT CompileError m (List Char)) (base : Path)
    (content : List Char) : ExceptT CompileError m (List Char) := do
  let divided ← ExceptT.mk (pure ((Source.ofText content).bind Source.divideIncludes))
  spliceIncludes resolve base divided.tail divided.includes

/-- The text of a file with all directives expanded. `chain` are the normal paths being expanded,
and at most `depth` files are nested. -/
def resolveFile (load : Path → m (Except FileFault String)) :
    (depth : Nat) → (chain : List Path) → Path → ExceptT CompileError m (List Char)
  | 0, _, _ => throw (.parse .includeDepth none)
  | depth + 1, chain, path => do
    let key := path.normalize
    if chain.any (·.same key) then
      throw (.parse (.includeCycle (chain.dropWhile (fun p => !p.same key) ++ [key])) none)
    match ← ExceptT.lift (load path) with
    | .error fault => throw (.access path fault)
    | .ok content =>
      expandWith (resolveFile load depth (chain ++ [key])) (path.parent?.getD ⟨""⟩) content.toList

end Expanding

/-! ### Files in memory -/

/-- Files in memory, the later of two with the same normal form counting. -/
structure FileSet where
  files : List (Path × String)

namespace FileSet

/-- The content of a file. -/
def load (fs : FileSet) (path : Path) : Except FileFault String :=
  match fs.files.reverse.find? fun file => file.1.normalize.same path.normalize with
  | some (_, content) => .ok content
  | none => .error .absent

/-- How deep the files can be nested: no file is expanded inside itself. -/
def depth (fs : FileSet) : Nat := fs.files.length + 1

/-- The text of a file with all directives expanded. -/
def resolve (fs : FileSet) (path : Path) : Except CompileError (List Char) :=
  (resolveFile (m := Id) fs.load fs.depth [] path).run

/-- A text with all directives expanded from a folder, the files of `chain` being expanded. -/
def expand (fs : FileSet) (base : Path) (chain : List Path) (content : String) :
    Except CompileError (List Char) :=
  (expandWith (m := Id) (resolveFile fs.load fs.depth chain) base content.toList).run

end FileSet

end Pagewright
