import Routine.Text.Quoted

/-! # What the command line asks for

Arguments are taken in order. A word that asks for help is remembered, an argument that begins with
a dash is a switch, and any other is the name of the source file. Behind two dashes every argument
is a name. Switches may be repeated. -/

namespace Routine.Cli

/-- How the checker is to be run. -/
structure Options where
  /-- The file to read; the standard input if there is none. -/
  sourceFile : Option String := none
  /-- Print the tree of the program. -/
  tree : Bool := false
  /-- Print the tokens and do not parse. -/
  tokens : Bool := false
  /-- Print what happens. -/
  verbose : Bool := false
deriving DecidableEq, Repr, Inhabited

/-- What is to be done. -/
inductive Request where
  | help
  | run (options : Options)
deriving DecidableEq, Repr, Inhabited

/-- Why arguments are refused. -/
inductive Refusal where
  /-- There is no such switch, or no place for one more name. -/
  | unrecognized (arg : String)
  /-- A switch comes behind a word that asks for help. -/
  | trailing
deriving DecidableEq, Repr, Inhabited

namespace Refusal

/-- The name under which the program is called. -/
def programName : String := "syntactic"

/-- What the user is told. -/
def message (r : Refusal) : String :=
  let reason :=
    match r with
    | unrecognized arg => "Unrecognized argument: " ++ arg ++ "\n"
    | trailing => "Trailing arguments are not allowed after `help`."
  reason ++ "\nRun " ++ programName ++ " --help for more information.\n"

end Refusal

namespace Options

/-- The options with a switch turned on, if there is such a switch. -/
def switch? (o : Options) (arg : String) : Option Options :=
  if arg = "-t" ∨ arg = "--tree" then some { o with tree := true }
  else if arg = "--tokens" then some { o with tokens := true }
  else if arg = "-v" ∨ arg = "--verbose" then some { o with verbose := true }
  else none

/-- The options with a source file, if there is none yet. -/
def file? (o : Options) (arg : String) : Option Options :=
  match o.sourceFile with
  | none => some { o with sourceFile := some arg }
  | some _ => none

/-- The options in full, as they are noted when a run begins. -/
def text (o : Options) : String :=
  let file :=
    match o.sourceFile with
    | some f => "Some(" ++ Text.quoted f ++ ")"
    | none => "None"
  "Args \x7b source_file: " ++ file ++ ", tree: " ++ toString o.tree ++ ", tokens: " ++
    toString o.tokens ++ ", verbose: " ++ toString o.verbose ++ " \x7d"

end Options

namespace Request

/-- The words that ask for help. -/
def isHelp (arg : String) : Bool := arg = "--help" || arg = "help"

/-- Takes the arguments in order. `help` tells whether help has been asked for, and `onlyNames`
whether two dashes have been met. -/
def take (help onlyNames : Bool) (o : Options) : List String → Except Refusal Request
  | [] => .ok (if help then .help else .run o)
  | arg :: rest =>
    if isHelp arg && !onlyNames then take true onlyNames o rest
    else if arg.toList.head? = some '-' && !onlyNames then
      if arg = "--" then take help true o rest
      else if help then .error .trailing
      else
        match o.switch? arg with
        | some o => take help onlyNames o rest
        | none => .error (.unrecognized arg)
    else
      match o.file? arg with
      | some o => take help onlyNames o rest
      | none => .error (.unrecognized arg)

/-- What the arguments ask for. -/
def ofArgs (args : List String) : Except Refusal Request := take false false {} args

end Request

/-- What is printed for a user who asks for help. -/
def usage : String :=
  "Usage: syntactic [-t] [--tokens] [-v] [--] [<source_file>]\n\n" ++
  "Syntax checker for routine programs.\n\n" ++
  "Positional Arguments:\n" ++
  "  source_file       source file, read from stdin when omitted\n\n" ++
  "Options:\n" ++
  "  -t, --tree        print the parse tree\n" ++
  "  --tokens          print the token stream instead of parsing\n" ++
  "  -v, --verbose     enable debug logging\n" ++
  "  --help, help      display usage information\n\n"

end Routine.Cli
