import PagedTable.CommandLine
import PagedTable.Session

/-!
# The program

Holds a session on a file of the file system, with lines from standard input. The file is read as
a whole when the session begins, and written as a whole when it ends.
-/

namespace PagedTable.Program

/-- The refusal behind an error of the file system, told by its kind and number. -/
def refusal (e : IO.Error) : DbError :=
  .io <| match e with
    | .noFileOrDirectory .. => .notFound
    | .inappropriateType _ 20 _ => .notDirectory
    | .inappropriateType _ 21 _ => .isDirectory
    | .invalidArgument _ 22 _ => .nulInPath
    | .invalidArgument _ 36 _ => .nameTooLong
    | e => .other (toString e)

/-- An operation of the file system, with its error as a fault. -/
def attempt {α : Type} (x : IO α) : IO (Except Fault α) := do
  match ← x.toBaseIO with
  | .ok a => return .ok a
  | .error e => return .error (.refused (refusal e))

/-- The content of the file at `path`, which is made if it is missing. -/
def readFile (path : String) : IO (Array UInt8) := do
  let _ ← IO.FS.Handle.mk path .append
  return (← IO.FS.readBinFile path).data

/-- The bytes of a line up to its newline, or none at the end of the input. -/
partial def readLine (stdin : IO.FS.Stream) (begun : List UInt8) : IO (Option (List UInt8)) := do
  match (← stdin.read 1).data.toList with
  | [] => return if begun.isEmpty then none else some begun.reverse
  | b :: _ => if b = 0x0A then return some (b :: begun).reverse else readLine stdin (b :: begun)

/-- Prompts for lines and answers them until one ends the session. -/
partial def converse (stdin stdout : IO.FS.Stream) (table : Table) :
    IO (Except Fault Outlook × Table) := do
  stdout.putStr Console.prompt
  stdout.flush
  let (outlook, console) := Console.turn (← readLine stdin []) { table }
  stdout.putStr console.output
  match outlook with
  | .ok .proceed => converse stdin stdout console.table
  | outlook => return (outlook, console.table)

/-- Holds a session on the file at `path`. -/
def session (path : String) : IO (Except Fault Unit) := do
  match ← attempt (readFile path) with
  | .error e => return .error e
  | .ok bytes =>
    match Table.ofFile path bytes .full with
    | .error e => return .error e
    | .ok table =>
      match ← converse (← IO.getStdin) (← IO.getStdout) table with
      | (.error e, _) => return .error e
      | (.ok .erase, _) => attempt (IO.FS.removeFile path)
      | (.ok _, table) =>
        match Table.flush table with
        | (.error e, _) => return .error e
        | (.ok (), table) => attempt (IO.FS.writeBinFile path ⟨table.file⟩)

/-- The text about the program. -/
def usage : String := "Usage: [-v|--verbose] [PATH]"

end PagedTable.Program

open PagedTable in
/-- Runs the program and answers its exit code. -/
def main (args : List String) : IO UInt32 := do
  match Invocation.ofArguments args with
  | .misuse =>
    IO.eprintln Program.usage
    return 2
  | .help | .version =>
    IO.println Program.usage
    return 0
  | .session path =>
    match ← Program.session path with
    | .ok () => return 0
    | .error (.refused e) =>
      IO.eprintln ("Error: " ++ e.message)
      return 1
    | .error _ => return 101
