import Pagewright.Command

/-!
# The command line

Reads a command and its arguments, runs it on the files of the machine, and prints its outcome.
-/

namespace Pagewright

/-- Why an operation on the files of the machine failed. -/
def FileFault.ofError : IO.Error → FileFault
  | .noFileOrDirectory .. => .notFound
  | .inappropriateType _ 20 _ => .notDirectory
  | .inappropriateType _ 21 _ => .isDirectory
  | .invalidArgument _ 36 _ => .nameTooLong
  | e => .stated (toString e)

/-- Runs an operation on the files of the machine. -/
def attempt {α : Type} (action : IO α) : IO (Except FileFault α) := do
  match ← action.toBaseIO with
  | .ok value => return .ok value
  | .error e => return .error (.ofError e)

instance : FileStore IO where
  read path := attempt (IO.FS.readFile path.text)
  write path content := attempt (IO.FS.writeFile path.text content)
  isThere path := return (← attempt (IO.FS.Handle.mk path.text .read)).isOk
  isFolder path := do
    match ← attempt (IO.FS.Handle.mk path.text .read) with
    | .error _ => return false
    | .ok handle => return !(← attempt (handle.read 1)).isOk
  makeFolders path := attempt (IO.FS.createDirAll path.text)
  removeFolder path := attempt (IO.FS.removeDirAll path.text)
  depth := return 100000

/-- A command with its arguments. -/
inductive Invocation where
  | init (name : String)
  | build (target : String) (fresh : Bool)
  | clean (target : String)
  | compile (file : String) (selection : Selection)

/-- The files that an argument of `compile` selects. -/
def Selection.ofName? : String → Option Selection
  | "all" => some .all
  | "markup" => some (.only .markup)
  | "stylesheet" => some (.only .stylesheet)
  | "behavior" => some (.only .behavior)
  | _ => none

/-- The command that some arguments mean. -/
def Invocation.ofArgs? : List String → Option Invocation
  | ["init", name] => some (.init name)
  | ["build"] => some (.build "." false)
  | ["build", "--clean"] => some (.build "." true)
  | ["build", target] => some (.build target false)
  | ["build", target, "--clean"] | ["build", "--clean", target] => some (.build target true)
  | ["clean"] => some (.clean ".")
  | ["clean", target] => some (.clean target)
  | ["compile", file] => some (.compile file .all)
  | ["compile", file, "--emit", name] | ["compile", "--emit", name, file] =>
    (Selection.ofName? name).map (.compile file)
  | _ => none

/-- Runs a command. -/
def Invocation.run {m : Type → Type} [Monad m] [FileStore m] : Invocation → m Outcome
  | .init name => initProject name
  | .build target fresh => buildProject target fresh
  | .clean target => cleanProject target
  | .compile file selection => compileFile file selection

/-- How the command line is used. -/
def usage : String :=
  "Usage: tessera init <NAME>\n" ++
    "       tessera compile <FILE> [--emit all|markup|stylesheet|behavior]\n" ++
    "       tessera build [TARGET] [--clean]\n" ++
    "       tessera clean [TARGET]\n"

/-- Prints an outcome; gives the exit code. -/
def Outcome.report (outcome : Outcome) : IO UInt32 := do
  IO.print outcome.stdout
  IO.eprint outcome.stderr
  match outcome.failure? with
  | none => return 0
  | some reason =>
    IO.eprintln ("error: " ++ reason)
    return 1

end Pagewright

open Pagewright in
/-- The program. -/
def main (args : List String) : IO UInt32 := do
  match Invocation.ofArgs? args with
  | some invocation => (← (invocation.run : IO Outcome)).report
  | none =>
    IO.eprint usage
    return 2
