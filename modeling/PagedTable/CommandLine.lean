import PagedTable.Limits

/-!
# The command line

The program takes a path, which has a default, and the flag `-v` or `--verbose`, which may be given
once. After a lone `--` every argument is a path, also one that begins with a dash.
-/

namespace PagedTable

/-- What the command line asks for. -/
inductive Invocation where
  /-- Hold a session on a file. -/
  | session (path : String)
  /-- Print a text about the program. -/
  | help
  | version
  /-- The arguments are wrong. -/
  | misuse
deriving DecidableEq, Repr

namespace Invocation

/-- The arguments read so far. -/
structure Seen where
  path : Option String := none
  verbose : Bool := false

/-- A flag has been met: `-v` and `--verbose` are one. -/
inductive Flag where
  | verbose
  | help
  | version
  | unknown

/-- The flag of one letter. -/
def Flag.ofLetter : Char → Flag
  | 'v' => .verbose
  | 'h' => .help
  | 'V' => .version
  | _ => .unknown

/-- The flag of one word. -/
def Flag.ofWord (word : String) : Flag :=
  if word = "verbose" then .verbose
  else if word = "help" then .help
  else if word = "version" then .version
  else .unknown

/-- The arguments read so far and one more flag, unless the flag decides. -/
def Seen.flag (seen : Seen) : Flag → Except Invocation Seen
  | .verbose => if seen.verbose then .error .misuse else .ok { seen with verbose := true }
  | .help => .error .help
  | .version => .error .version
  | .unknown => .error .misuse

/-- The arguments read so far and one more path. -/
def Seen.value (seen : Seen) (path : String) : Except Invocation Seen :=
  if seen.path.isSome ∨ path = "" then .error .misuse else .ok { seen with path := some path }

/-- One more argument, before a lone `--`. -/
def Seen.argument (seen : Seen) (arg : String) : Except Invocation Seen :=
  match arg.toList with
  | '-' :: '-' :: word => seen.flag (Flag.ofWord (String.ofList word))
  | '-' :: letter :: letters =>
    (letter :: letters).foldlM (fun seen c => seen.flag (Flag.ofLetter c)) seen
  | _ => seen.value arg

/-- All arguments. -/
def Seen.arguments (seen : Seen) : List String → Except Invocation Seen
  | [] => .ok seen
  | "--" :: rest => rest.foldlM Seen.value seen
  | arg :: rest => do (← seen.argument arg).arguments rest

/-- What the arguments ask for. -/
def ofArguments (args : List String) : Invocation :=
  match Seen.arguments {} args with
  | .error decided => decided
  | .ok seen => .session (seen.path.getD defaultPath)

end Invocation

end PagedTable
